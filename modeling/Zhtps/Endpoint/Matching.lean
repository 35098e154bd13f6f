import Zhtps.Endpoint.Routing

/-!
`matchPath` of `src/endpoint.zig`, with the array it writes to, against `matches` of
`src/endpoint/routing.zig`.  The two walk over a path and a pattern with loops of their own.
-/

namespace Zhtps

namespace Endpoint

variable {Middleware : Type}

/-- `exchange.parameters` and `exchange.parameter_count`. -/
structure Bindings where
  parameters : Vector Parameter 8
  count : Fin 9

namespace Bindings

/-- The parameters that are bound. -/
def bound (bindings : Bindings) : List Parameter :=
  bindings.parameters.toList.take bindings.count

def push (bindings : Bindings) (parameter : Parameter) (h : bindings.count.val < 8) : Bindings :=
  ⟨bindings.parameters.set bindings.count parameter h, ⟨bindings.count + 1, by omega⟩⟩

theorem room {bindings : Bindings} {actual : Bytes}
    (h : ¬(actual.isEmpty ∨ bindings.count.val = 8)) : bindings.count.val < 8 := by
  omega

/-- The loop of `matchPath` over the segments of a path and of a pattern. -/
def matchSegments (oldCount : Fin 9) :
    Bindings → List Bytes → List Bytes → Bool × Bindings
  | bindings, [], [] => (true, bindings)
  | bindings, actual :: path, expected :: pattern =>
      if Routing.parameter expected then
        if h : actual.isEmpty ∨ bindings.count.val = 8 then
          (false, { bindings with count := oldCount })
        else
          matchSegments oldCount (bindings.push ⟨expected.drop 1, actual⟩ (room h)) path pattern
      else if actual == expected then matchSegments oldCount bindings path pattern
      else (false, { bindings with count := oldCount })
  | bindings, _, _ => (false, { bindings with count := oldCount })

def matchPath (bindings : Bindings) (path pattern : Bytes) : Bool × Bindings :=
  matchSegments bindings.count bindings (Routing.split path) (Routing.split pattern)

@[simp] theorem bound_length (bindings : Bindings) : bindings.bound.length = bindings.count := by
  rw [bound, List.length_take, Vector.length_toList]
  omega

@[simp] theorem bound_push (bindings : Bindings) (parameter : Parameter)
    (h : bindings.count.val < 8) :
    (bindings.push parameter h).bound = bindings.bound ++ [parameter] := by
  have hlength : bindings.count.val < bindings.parameters.toList.length := by
    rwa [Vector.length_toList]
  show (bindings.parameters.set _ parameter h).toList.take (bindings.count + 1) = _
  rw [Vector.toList_set, List.take_add_one, List.take_set_of_le (le_refl _),
    List.getElem?_set_self hlength]
  rfl

/-- The loop answers as the one without an array does, and puts the count back when it fails. -/
theorem matchSegments_eq (oldCount : Fin 9) (bindings : Bindings) (path pattern : List Bytes) :
    (Exchange.bindSegments bindings.bound path pattern =
        if (matchSegments oldCount bindings path pattern).1 then
          some (matchSegments oldCount bindings path pattern).2.bound
        else none) ∧
      ((matchSegments oldCount bindings path pattern).1 = false →
        (matchSegments oldCount bindings path pattern).2.count = oldCount) := by
  fun_induction matchSegments oldCount bindings path pattern with
  | case1 bindings => exact ⟨rfl, nofun⟩
  | case2 bindings actual path expected pattern hparameter hstop =>
      refine ⟨?_, fun _ => rfl⟩
      rw [Exchange.bindSegments, if_pos hparameter, bound_length, if_pos hstop]
      rfl
  | case3 bindings actual path expected pattern hparameter hstop ih =>
      rw [Exchange.bindSegments, if_pos hparameter, bound_length, if_neg hstop]
      rw [bound_push] at ih
      exact ih
  | case4 bindings actual path expected pattern hliteral hsame ih =>
      rw [Exchange.bindSegments, if_neg hliteral, if_pos hsame]
      exact ih
  | case5 bindings actual path expected pattern hliteral hother =>
      refine ⟨?_, fun _ => rfl⟩
      rw [Exchange.bindSegments, if_neg hliteral, if_neg hother]
      rfl
  | case6 bindings path pattern hnil hcons =>
      refine ⟨?_, fun _ => rfl⟩
      rw [Exchange.bindSegments]
      · rfl
      · exact hnil
      · exact hcons

/-- What routing takes `matchPath` to do. -/
theorem matchPath_exchange (bindings : Bindings) (exchange : Exchange Middleware)
    (h : exchange.parameters = bindings.bound) (path pattern : Bytes) :
    exchange.matchPath path pattern =
      if (bindings.matchPath path pattern).1 then
        some { exchange with parameters := (bindings.matchPath path pattern).2.bound }
      else none := by
  rw [Exchange.matchPath, h, (matchSegments_eq bindings.count bindings _ _).1, matchPath]
  split <;> rfl

end Bindings

/-- The parameters of a pattern in order, each with the segment in its place. -/
def assignments (path pattern : Bytes) : List Parameter :=
  ((Routing.split path).zip (Routing.split pattern)).filterMap fun (actual, expected) =>
    if Routing.parameter expected then some ⟨expected.drop 1, actual⟩ else none

/-- Binding succeeds on nothing but a match, and then binds what stands in the places of the
parameters, none of it empty. -/
theorem bindSegments_spec {parameters bound : List Parameter} {actual pattern : List Bytes}
    (h : Exchange.bindSegments parameters actual pattern = some bound) :
    Routing.matchesSegments actual pattern = true ∧
      ∃ added, bound = parameters ++ added ∧
        added = (actual.zip pattern).filterMap (fun (actual, expected) =>
          if Routing.parameter expected then some ⟨expected.drop 1, actual⟩ else none) ∧
        ∀ parameter ∈ added, parameter.value ≠ [] := by
  fun_induction Exchange.bindSegments parameters actual pattern with
  | case1 parameters =>
      rw [Option.some.injEq] at h
      exact ⟨rfl, [], by rw [h, List.append_nil], rfl, nofun⟩
  | case2 parameters part actual segment pattern hparameter hstop => exact absurd h nofun
  | case3 parameters part actual segment pattern hparameter hstop ih =>
      obtain ⟨hmatch, added, hbound, hadded, hvalues⟩ := ih h
      rw [not_or] at hstop
      refine ⟨?_, ⟨segment.drop 1, part⟩ :: added, ?_, ?_, ?_⟩
      · rw [Routing.matchesSegments, if_pos hparameter, if_neg hstop.1]
        exact hmatch
      · rw [hbound, List.append_assoc]
        rfl
      · rw [List.zip_cons_cons, List.filterMap_cons, hadded]
        simp only [hparameter, if_true]
      · intro parameter hmem
        rcases List.mem_cons.mp hmem with rfl | hmem
        · exact fun hempty => hstop.1 (List.isEmpty_iff.mpr hempty)
        · exact hvalues parameter hmem
  | case4 parameters part actual segment pattern hliteral hsame ih =>
      obtain ⟨hmatch, added, hbound, hadded, hvalues⟩ := ih h
      refine ⟨?_, added, hbound, ?_, hvalues⟩
      · rw [Routing.matchesSegments, if_neg hliteral, if_pos hsame]
        exact hmatch
      · rw [List.zip_cons_cons, List.filterMap_cons, hadded]
        simp only [hliteral, if_false, Bool.false_eq_true]
  | case5 parameters part actual segment pattern hliteral hother => exact absurd h nofun
  | case6 => exact absurd h nofun

theorem validatePath_parameters {pattern : Bytes} (h : Routing.validatePath pattern = true) :
    ((Routing.split pattern).filter Routing.parameter).length ≤ 8 := by
  rw [Routing.validatePath, Bool.and_eq_true] at h
  have hlength := checkNames_length h.2 (Nat.zero_le 8)
  rwa [List.length_nil, Nat.zero_add] at hlength

/-- The unwrap of the second iterator: two patterns of one path have as many segments. -/
theorem moreSpecific_isSome {path left right : Bytes} (hleft : Routing.isMatch path left = true)
    (hright : Routing.isMatch path right = true) :
    (Routing.moreSpecific left right).isSome = true := by
  have hlength : (Routing.split left).length = (Routing.split right).length :=
    (Routing.matchesSegments_length hleft).symm.trans (Routing.matchesSegments_length hright)
  rw [Routing.moreSpecific, Routing.moreSpecificSegments_eq hlength]
  rfl

/-- Routing never comes to an assertion that fails nor unwraps in vain: where a route with a
pattern is selected, `matchPath` succeeds and binds the parameters of the exchange. -/
theorem find_matched {routes : List (Route Middleware)}
    (hvalid : ∀ route ∈ routes, route.validate = true) (method path : Bytes)
    {bindings : Bindings} (hempty : bindings.bound = []) :
    ∃ exchange, find routes {} method path = some exchange ∧
      ∀ selected, exchange.selected = some selected → selected.subtree = false →
        (bindings.matchPath path selected.path).1 = true ∧
          (bindings.matchPath path selected.path).2.bound = exchange.parameters := by
  cases hreach : (routes.filter (·.isMatch path)).argmax Route.rank with
  | none =>
      have hnone : reach path routes none = some none := by rw [reach_eq, hreach]
      exact ⟨{}, by rw [find, hnone]; rfl, by rintro _ ⟨⟩⟩
  | some resource =>
      have hresource : reach path routes none = some (some resource) := by rw [reach_eq, hreach]
      obtain ⟨exchange, hfind, hselected, -, hbinds, -⟩ := find_routed hvalid hresource method
      refine ⟨exchange, hfind, fun selected hsome hsubtree => ?_⟩
      rw [hselected, Option.some.injEq] at hsome
      rw [hsome, Binds, hsubtree, if_neg Bool.false_ne_true, ← hempty,
        (Bindings.matchSegments_eq bindings.count bindings _ _).1] at hbinds
      change _ = if (bindings.matchPath path selected.path).1 then
        some (bindings.matchPath path selected.path).2.bound else none at hbinds
      split at hbinds
      next hmatched => exact ⟨hmatched, (Option.some.inj hbinds).symm⟩
      next => exact absurd hbinds (by rintro ⟨⟩)

/-- The two matchers agree: with no parameter bound, `matchPath` succeeds on a valid pattern just
when `matches` does; it then binds the parameters of the pattern to the segments in their places,
and else leaves the count as it was. -/
theorem matchPath_agrees (path pattern : Bytes) (hvalid : Routing.validatePath pattern = true)
    (bindings : Bindings) (hempty : bindings.count = 0) :
    (bindings.matchPath path pattern).1 = Routing.isMatch path pattern ∧
      (Routing.isMatch path pattern = true →
        (bindings.matchPath path pattern).2.bound = assignments path pattern ∧
          ∀ parameter ∈ assignments path pattern, parameter.value ≠ []) ∧
      (Routing.isMatch path pattern = false →
        (bindings.matchPath path pattern).2.count = bindings.count) ∧
      (∀ (routes : List (Route Middleware)) (method path : Bytes),
        (∀ route ∈ routes, route.validate = true) →
          ∃ exchange, find routes {} method path = some exchange ∧
            ∀ selected, exchange.selected = some selected → selected.subtree = false →
              (bindings.matchPath path selected.path).1 = true ∧
                (bindings.matchPath path selected.path).2.bound = exchange.parameters) ∧
      ∀ other : Bytes, Routing.isMatch path pattern = true → Routing.isMatch path other = true →
        (Routing.moreSpecific pattern other).isSome = true ∧
          (Routing.moreSpecific other pattern).isSome = true := by
  have hbound : bindings.bound = [] := by
    rw [← List.length_eq_zero_iff, Bindings.bound_length, hempty]
    rfl
  obtain ⟨heq, hcount⟩ := Bindings.matchSegments_eq bindings.count bindings
    (Routing.split path) (Routing.split pattern)
  change _ = if (bindings.matchPath path pattern).1 then
    some (bindings.matchPath path pattern).2.bound else none at heq
  change (bindings.matchPath path pattern).1 = false →
    (bindings.matchPath path pattern).2.count = bindings.count at hcount
  rw [hbound] at heq
  have hagree : (bindings.matchPath path pattern).1 = Routing.isMatch path pattern := by
    rw [Bool.eq_iff_iff]
    constructor
    · intro hmatched
      rw [if_pos hmatched] at heq
      exact (bindSegments_spec heq).1
    · intro hmatch
      -- There is room for the parameters of a valid pattern, so nothing else can stop the loop.
      have hsome := @bindSegments_isSome [] _ _ hmatch
        (by rw [List.length_nil, Nat.zero_add]; exact validatePath_parameters hvalid)
      by_contra hfailed
      rw [heq, if_neg hfailed] at hsome
      exact absurd hsome nofun
  refine ⟨hagree, ?_, ?_,
    fun routes method path hroutes => find_matched hroutes method path hbound, ?_⟩
  · intro hmatch
    rw [if_pos (hagree.trans hmatch)] at heq
    obtain ⟨-, added, hadded, hassigned, hvalues⟩ := bindSegments_spec heq
    rw [List.nil_append] at hadded
    have hassignments : added = assignments path pattern := hassigned
    rw [← hassignments]
    exact ⟨hadded, hvalues⟩
  · exact fun hmatch => hcount (hagree.trans hmatch)
  · exact fun other hmatch hother =>
      ⟨moreSpecific_isSome hmatch hother, moreSpecific_isSome hother hmatch⟩

/-- Slots that hold nothing yet. -/
def unbound : Bindings := ⟨Vector.replicate 8 ⟨[], []⟩, 0⟩

theorem matchPath_agrees_item :
    (unbound.matchPath (ascii "/items/7") (ascii "/items/:id")).1 =
      Routing.isMatch (ascii "/items/7") (ascii "/items/:id") :=
  (@matchPath_agrees Unit (ascii "/items/7") (ascii "/items/:id")
    (by decide +kernel) unbound rfl).1

example :
    ((unbound.matchPath (ascii "/items/7") (ascii "/items/:id")).2.bound =
        [⟨ascii "id", ascii "7"⟩]) ∧
      (unbound.matchPath (ascii "/items/") (ascii "/items/:id")).1 = false := by decide +kernel

end Endpoint

end Zhtps
