import Mathlib.Algebra.Order.BigOperators.Group.List
import Mathlib.Algebra.Order.Group.Nat
import Mathlib.Data.List.MinMax
import Mathlib.Data.List.Nodup
import Mathlib.Data.List.Pairwise
import Mathlib.Data.List.Perm.Subperm
import Mathlib.Data.List.Lex
import Mathlib.Data.Prod.Lex
import Zhtps.Http.Path

/-!
Routing, after `src/endpoint/routing.zig` and the parts of `src/endpoint.zig` that choose a route
for a request.  Routes are tried in the order in which they were declared, and the best match so
far is kept; what is chosen does not depend on that order.
-/

namespace Zhtps

namespace Routing

def colon : UInt8 := 58

def parameter (segment : Bytes) : Bool := segment.head? == some colon

/-- `std.mem.splitScalar` at slashes. -/
def split (path : Bytes) : List Bytes := Mem.splitScalar Path.slash path

/-- The loop over a path and a pattern side by side. -/
def matchesSegments : List Bytes → List Bytes → Bool
  | actual, [] => actual.isEmpty
  | [], _ :: _ => false
  | part :: actual, segment :: expected =>
      if parameter segment then
        if part.isEmpty then false else matchesSegments actual expected
      else if part == segment then matchesSegments actual expected
      else false

/-- Parameters consume exactly one nonempty segment. -/
def isMatch (path pattern : Bytes) : Bool := matchesSegments (split path) (split pattern)

def sameSegments : List Bytes → List Bytes → Bool
  | [], b => b.isEmpty
  | _ :: _, [] => false
  | part :: a, other :: b =>
      if parameter part && parameter other then sameSegments a b
      else if part == other then sameSegments a b
      else false

/-- Ignores parameter names. -/
def samePattern (left right : Bytes) : Bool := sameSegments (split left) (split right)

/-- Asks for a segment of the right pattern for each one of the left, `none` if it has none. -/
def moreSpecificSegments : List Bytes → List Bytes → Option Bool
  | [], _ => some false
  | _ :: _, [] => none
  | part :: a, other :: b =>
      if parameter part ≠ parameter other then some !(parameter part)
      else moreSpecificSegments a b

/-- The first segments that differ decide: a literal is more specific than a parameter. -/
def moreSpecific (left right : Bytes) : Option Bool :=
  moreSpecificSegments (split left) (split right)

/-- The names of the parameters: not empty, of letters, digits and underscores, at most eight and
none of them twice. -/
def checkNames : List Bytes → List Bytes → Bool
  | [], _ => true
  | segment :: segments, names =>
      if !parameter segment then checkNames segments names
      else if segment.length == 1 then false
      else if !(segment.drop 1).all fun byte => Ascii.isAlphanumeric byte || byte == 95 then false
      else if names.length == 8 then false
      else if names.contains (segment.drop 1) then false
      else checkNames segments (names ++ [segment.drop 1])

/-- Requires a normalized absolute path. -/
def validatePath (path : Bytes) : Bool :=
  path.head? == some Path.slash && Syntax.isUriComponent true path &&
    (Mem.indexOfScalar path 63).isNone &&
    (match Path.normalize (List.replicate path.length 0) path with
      | .ok canonical => canonical == path
      | .error _ => false) &&
    checkNames (split path) []

end Routing

namespace Endpoint

inductive Method
  | delete
  | get
  | head
  | options
  | patch
  | post
  | put
  deriving DecidableEq, Repr

/-- The uppercase wire spelling. -/
def Method.text : Method → Bytes
  | .delete => ascii "DELETE"
  | .get => ascii "GET"
  | .head => ascii "HEAD"
  | .options => ascii "OPTIONS"
  | .patch => ascii "PATCH"
  | .post => ascii "POST"
  | .put => ascii "PUT"

/-- What routing reads of a declared route. -/
structure Route (Middleware : Type) where
  name : Bytes
  method : Method
  path : Bytes
  before : List Middleware := []
  subtree : Bool := false
  deriving DecidableEq, Repr

variable {Middleware : Type}

namespace Route

/-- Directory mounts match their prefix and every path below it. -/
def isMatch (route : Route Middleware) (path : Bytes) : Bool :=
  if !route.subtree then Routing.isMatch path route.path
  else if !route.path.isPrefixOf path then false
  else
    route.path.length == 1 || path.length == route.path.length ||
      path[route.path.length]? == some Path.slash

def sameResource (route other : Route Middleware) : Bool :=
  route.subtree == other.subtree && Routing.samePattern route.path other.path

def moreSpecific (route other : Route Middleware) : Option Bool :=
  if route.subtree ≠ other.subtree then some !route.subtree
  else if route.subtree then some (decide (other.path.length < route.path.length))
  else Routing.moreSpecific route.path other.path

/-- What the compilation of the routes checks of each. -/
def validate (route : Route Middleware) : Bool :=
  Routing.validatePath route.path && route.before.length ≤ 16

/-- Two declarations of one method and path pattern. -/
def duplicates (left right : Route Middleware) : Bool :=
  left.method == right.method && left.subtree == right.subtree &&
    Routing.samePattern left.path right.path

end Route

/-- No route is a duplicate of one declared before it. -/
def distinct : List (Route Middleware) → Bool
  | [] => true
  | left :: routes => routes.all (fun right => !left.duplicates right) && distinct routes

/-- The checks of `compileRoutes`. -/
def compiles (routes : List (Route Middleware)) : Bool :=
  routes.all Route.validate && distinct routes

structure Parameter where
  name : Bytes
  value : Bytes
  deriving DecidableEq, Repr

/-- What routing writes of an exchange; `allow` holds the items of the `Allow` value. -/
structure Exchange (Middleware : Type) where
  selected : Option (Route Middleware) := none
  parameters : List Parameter := []
  middleware : List Middleware := []
  allow : List Bytes := []
  automaticStatus : Option Nat := none
  deriving DecidableEq, Repr

namespace Exchange

/-- `exchange.allow_len`, the items with a comma and a blank between them. -/
def allowLen (exchange : Exchange Middleware) : Nat :=
  (exchange.allow.map List.length).sum + 2 * (exchange.allow.length - 1)

/-- Fails where the source asserts that the value fits. -/
def addAllowedText (exchange : Exchange Middleware) (text : Bytes) :
    Option (Exchange Middleware) :=
  if exchange.allow.contains text then some exchange
  else
    let separator := if exchange.allow.isEmpty then 0 else 2
    if separator + text.length ≤ 64 - exchange.allowLen then
      some { exchange with allow := exchange.allow ++ [text] }
    else none

def addAllowed (exchange : Exchange Middleware) (method : Method) :
    Option (Exchange Middleware) := do
  let exchange ← exchange.addAllowedText method.text
  let exchange ← if method = .get then exchange.addAllowedText (ascii "HEAD") else some exchange
  exchange.addAllowedText (ascii "OPTIONS")

/-- The loop of `matchPath`, `none` when the path does not match. -/
def bindSegments : List Parameter → List Bytes → List Bytes → Option (List Parameter)
  | parameters, [], [] => some parameters
  | parameters, actual :: path, expected :: pattern =>
      if Routing.parameter expected then
        if actual.isEmpty ∨ parameters.length = 8 then none
        else bindSegments (parameters ++ [⟨expected.drop 1, actual⟩]) path pattern
      else if actual == expected then bindSegments parameters path pattern
      else none
  | _, _, _ => none

def matchPath (exchange : Exchange Middleware) (path pattern : Bytes) :
    Option (Exchange Middleware) :=
  (bindSegments exchange.parameters (Routing.split path) (Routing.split pattern)).map
    fun parameters => { exchange with parameters }

/-- Fails where the source asserts that the middleware fits. -/
def appendMiddleware (exchange : Exchange Middleware) (middleware : Middleware) :
    Option (Exchange Middleware) :=
  if exchange.middleware.length < 16 then
    some { exchange with middleware := exchange.middleware ++ [middleware] }
  else none

end Exchange

/-- The first loop of `find`: the best match so far. -/
def reach (path : Bytes) :
    List (Route Middleware) → Option (Route Middleware) → Option (Option (Route Middleware))
  | [], resource => some resource
  | route :: routes, resource =>
      if !route.isMatch path then reach path routes resource
      else
        match resource with
        | none => reach path routes (some route)
        | some best => do
            if ← route.moreSpecific best then reach path routes (some route)
            else reach path routes (some best)

/-- The second loop of `find`: the methods of the resource, the route that has the method of the
request and the one that stands in for it. -/
def gather (method : Bytes) (resource : Route Middleware) :
    List (Route Middleware) → Exchange Middleware → Option (Route Middleware) →
      Option (Exchange Middleware × Option (Route Middleware))
  | [], exchange, fallback => some (exchange, fallback)
  | route :: routes, exchange, fallback =>
      if !route.sameResource resource then gather method resource routes exchange fallback
      else do
        let exchange ← exchange.addAllowed route.method
        gather method resource routes
          (if method = route.method.text then { exchange with selected := some route }
            else exchange)
          (if route.method = .get ∧ method = ascii "HEAD" then some route else fallback)

/-- Without a route that answers, the resource is selected with a generated status. -/
def settle (method : Bytes) (resource : Route Middleware) (exchange : Exchange Middleware) :
    Option (Route Middleware) → Exchange Middleware × Route Middleware
  | some route => ({ exchange with selected := some route }, route)
  | none =>
      ({ exchange with
          selected := some resource
          automaticStatus := some (if method = ascii "OPTIONS" then 204 else 405) },
        resource)

/-- Binds the parameters of the selected route and takes its middleware. -/
def enter (path : Bytes) (exchange : Exchange Middleware) (selected : Route Middleware) :
    Option (Exchange Middleware) := do
  let exchange ←
    if selected.subtree then some exchange else exchange.matchPath path selected.path
  selected.before.foldlM (fun exchange middleware => exchange.appendMiddleware middleware) exchange

/-- Routes a request; fails where the source asserts or unwraps in vain. -/
def find (routes : List (Route Middleware)) (exchange : Exchange Middleware)
    (method path : Bytes) : Option (Exchange Middleware) := do
  match ← reach path routes none with
  | none => some exchange
  | some resource =>
      let (exchange, fallback) ← gather method resource routes exchange none
      let (exchange, selected) := settle method resource exchange (exchange.selected.or fallback)
      enter path exchange selected

/-- The static name of the selected route. -/
def Exchange.routeName (exchange : Exchange Middleware) : Option Bytes :=
  exchange.selected.map Route.name

end Endpoint

/-! ### Patterns -/

namespace Routing

/-- A segment without the name of its parameter. -/
def shape (segment : Bytes) : Option Bytes := if parameter segment then none else some segment

/-- Which segments are literals. -/
def kinds (segments : List Bytes) : List Bool := segments.map fun segment => !parameter segment

theorem shape_inj {a b : Bytes} (ha : parameter a = false) : shape a = shape b ↔ a = b := by
  constructor
  · intro h
    rw [shape, shape, ha, if_neg Bool.false_ne_true] at h
    split at h
    · exact absurd h nofun
    · exact Option.some.inj h
  · rintro rfl
    rfl

/-- Two patterns are the same when their shapes are. -/
theorem sameSegments_iff (a b : List Bytes) :
    sameSegments a b = true ↔ a.map shape = b.map shape := by
  induction a generalizing b with
  | nil =>
      rw [sameSegments, List.isEmpty_iff, List.map_nil, eq_comm (b := b.map shape),
        List.map_eq_nil_iff]
  | cons part a ih =>
      cases b with
      | nil => simp [sameSegments]
      | cons other b =>
          rw [sameSegments, List.map_cons, List.map_cons, List.cons.injEq, ← ih]
          cases hpart : parameter part with
          | true =>
              cases hother : parameter other with
              | true => simp [shape, hpart, hother]
              | false =>
                  have hne : part ≠ other := by
                    rintro rfl
                    rw [hpart] at hother
                    exact absurd hother nofun
                  simp [shape, hpart, hother, hne]
          | false =>
              rw [shape_inj hpart]
              simp

theorem samePattern_iff (left right : Bytes) :
    samePattern left right = true ↔ (split left).map shape = (split right).map shape :=
  sameSegments_iff _ _

/-- What a pattern matches depends on its shape only. -/
theorem matchesSegments_shape {actual a b : List Bytes} (h : a.map shape = b.map shape) :
    matchesSegments actual a = matchesSegments actual b := by
  induction actual generalizing a b with
  | nil =>
      cases a with
      | nil => rw [List.map_eq_nil_iff.mp h.symm]
      | cons segment a =>
          cases b with
          | nil => exact absurd h nofun
          | cons other b => rfl
  | cons part actual ih =>
      cases a with
      | nil => rw [List.map_eq_nil_iff.mp h.symm]
      | cons segment a =>
          cases b with
          | nil => exact absurd h nofun
          | cons other b =>
              rw [List.map_cons, List.map_cons, List.cons.injEq] at h
              rw [matchesSegments, matchesSegments, ih h.2]
              cases hsegment : parameter segment with
              | true =>
                  have hother : parameter other = true := by
                    have hshape := h.1
                    rw [shape, shape, hsegment, if_pos rfl] at hshape
                    by_contra hother
                    rw [if_neg hother] at hshape
                    exact absurd hshape nofun
                  rw [hother, if_pos rfl, if_pos rfl]
              | false =>
                  have hsame := (shape_inj hsegment).mp h.1
                  rw [← hsame, hsegment]

theorem matchesSegments_length {actual pattern : List Bytes}
    (h : matchesSegments actual pattern = true) : actual.length = pattern.length := by
  fun_induction matchesSegments actual pattern with
  | case1 actual => simpa using h
  | case2 => exact absurd h nofun
  | case3 part actual segment expected hparameter hempty => exact absurd h nofun
  | case4 part actual segment expected hparameter hempty ih =>
      rw [List.length_cons, List.length_cons, ih h]
  | case5 part actual segment expected hparameter hsame ih =>
      rw [List.length_cons, List.length_cons, ih h]
  | case6 => exact absurd h nofun

/-- On patterns that match the same path the comparison always has an answer: it looks for the
first place where only one of them has a literal. -/
theorem moreSpecificSegments_eq {a b : List Bytes} (h : a.length = b.length) :
    moreSpecificSegments a b = some (decide (kinds b < kinds a)) := by
  induction a generalizing b with
  | nil =>
      rw [List.length_nil, eq_comm, List.length_eq_zero_iff] at h
      rw [h]
      rfl
  | cons part a ih =>
      cases b with
      | nil => exact absurd h nofun
      | cons other b =>
          rw [List.length_cons, List.length_cons, Nat.succ.injEq] at h
          have hlt : kinds (other :: b) < kinds (part :: a) ↔
              (!parameter other) < (!parameter part) ∨
                (!parameter other) = (!parameter part) ∧ kinds b < kinds a :=
            List.cons_lt_cons_iff
          rw [moreSpecificSegments, ih h]
          simp only [hlt]
          cases parameter part <;> cases parameter other <;> simp

/-- Patterns that match the same path, with their literals in the same places, are the same. -/
theorem shape_of_kinds {actual a b : List Bytes} (ha : matchesSegments actual a = true)
    (hb : matchesSegments actual b = true) (h : kinds a = kinds b) :
    a.map shape = b.map shape := by
  induction actual generalizing a b with
  | nil =>
      rw [List.length_eq_zero_iff.mp (matchesSegments_length ha).symm,
        List.length_eq_zero_iff.mp (matchesSegments_length hb).symm]
  | cons part actual ih =>
      cases a with
      | nil => exact absurd ha nofun
      | cons segment a =>
          cases b with
          | nil => exact absurd hb nofun
          | cons other b =>
              rw [kinds, kinds, List.map_cons, List.map_cons, List.cons.injEq] at h
              have hkind : parameter other = parameter segment := by simpa using h.1.symm
              rw [matchesSegments] at ha hb
              rw [List.map_cons, List.map_cons, List.cons.injEq]
              cases hsegment : parameter segment with
              | true =>
                  rw [hkind, hsegment] at hb
                  rw [hsegment] at ha
                  simp only [if_true, Bool.if_false_left, Bool.and_eq_true] at ha hb
                  refine ⟨?_, ih ha.2 hb.2 h.2⟩
                  rw [shape, shape, hkind, hsegment]
                  rfl
              | false =>
                  rw [hkind, hsegment] at hb
                  rw [hsegment] at ha
                  simp only [Bool.false_eq_true, if_false, Bool.if_false_right, Bool.and_eq_true,
                    decide_eq_true_eq, beq_iff_eq] at ha hb
                  refine ⟨?_, ih ha.2 hb.2 h.2⟩
                  rw [← ha.1, ← hb.1]

end Routing

/-! ### The order of the routes that match a path -/

namespace Endpoint

namespace Route

/-- Exact patterns come before subtrees, a longer subtree before a shorter one, and of two exact
patterns the one with a literal in the first place where only one of them has a literal. -/
def rank (route : Route Middleware) : Bool ×ₗ ℕ ×ₗ List Bool :=
  toLex (!route.subtree,
    toLex (if route.subtree then (route.path.length, [])
      else (0, Routing.kinds (Routing.split route.path))))

theorem sameResource_iff (route other : Route Middleware) :
    route.sameResource other = true ↔
      route.subtree = other.subtree ∧
        (Routing.split route.path).map Routing.shape =
          (Routing.split other.path).map Routing.shape := by
  rw [sameResource, Bool.and_eq_true, beq_iff_eq, Routing.samePattern_iff]

theorem sameResource_refl (route : Route Middleware) : route.sameResource route = true :=
  (sameResource_iff route route).mpr ⟨rfl, rfl⟩

theorem sameResource_symm {route other : Route Middleware} (h : route.sameResource other = true) :
    other.sameResource route = true := by
  rw [sameResource_iff] at h ⊢
  exact ⟨h.1.symm, h.2.symm⟩

theorem sameResource_trans {a b c : Route Middleware} (hab : a.sameResource b = true)
    (hbc : b.sameResource c = true) : a.sameResource c = true := by
  rw [sameResource_iff] at hab hbc ⊢
  exact ⟨hab.1.trans hbc.1, hab.2.trans hbc.2⟩

theorem isMatch_exact {route : Route Middleware} {path : Bytes} (h : route.isMatch path = true)
    (hexact : route.subtree = false) :
    Routing.matchesSegments (Routing.split path) (Routing.split route.path) = true := by
  rwa [isMatch, hexact, Bool.not_false, if_pos rfl] at h

theorem isMatch_starts {route : Route Middleware} {path : Bytes} (h : route.isMatch path = true)
    (hsubtree : route.subtree = true) : route.path <+: path := by
  rw [isMatch, hsubtree, Bool.not_true, if_neg Bool.false_ne_true] at h
  by_contra hstart
  rw [← List.isPrefixOf_iff_prefix, Bool.not_eq_true] at hstart
  rw [hstart, Bool.not_false, if_pos rfl] at h
  exact absurd h nofun

/-- On the routes that match one path the source's comparison is a linear order of ranks. -/
theorem moreSpecific_eq {route other : Route Middleware} {path : Bytes}
    (hroute : route.isMatch path = true) (hother : other.isMatch path = true) :
    route.moreSpecific other = some (decide (other.rank < route.rank)) := by
  rw [moreSpecific]
  cases hsubtree : route.subtree with
  | true =>
      cases hsubtree' : other.subtree with
      | true => simp [rank, hsubtree, hsubtree', Prod.Lex.toLex_lt_toLex]
      | false => simp [rank, hsubtree, hsubtree', Prod.Lex.toLex_lt_toLex]
  | false =>
      cases hsubtree' : other.subtree with
      | true => simp [rank, hsubtree, hsubtree', Prod.Lex.toLex_lt_toLex]
      | false =>
          have hlength :=
            (Routing.matchesSegments_length (isMatch_exact hroute hsubtree)).symm.trans
              (Routing.matchesSegments_length (isMatch_exact hother hsubtree'))
          simp [rank, hsubtree, hsubtree', Prod.Lex.toLex_lt_toLex, Routing.moreSpecific,
            Routing.moreSpecificSegments_eq hlength]

/-- The ties are the routes of one resource. -/
theorem sameResource_of_rank {route other : Route Middleware} {path : Bytes}
    (hroute : route.isMatch path = true) (hother : other.isMatch path = true)
    (h : route.rank = other.rank) : route.sameResource other = true := by
  rw [sameResource_iff]
  have hboth := Prod.mk.inj (toLex.injective h)
  have hsubtree : route.subtree = other.subtree := by simpa using hboth.1
  have hrest := toLex.injective hboth.2
  refine ⟨hsubtree, ?_⟩
  cases hkind : other.subtree with
  | true =>
      rw [hsubtree, hkind, if_pos rfl, if_pos rfl] at hrest
      have hlength := (Prod.mk.inj hrest).1
      have hstart := List.prefix_of_prefix_length_le
        (isMatch_starts hroute (hsubtree.trans hkind)) (isMatch_starts hother hkind)
        (Nat.le_of_eq hlength)
      rw [hstart.eq_of_length hlength]
  | false =>
      rw [hsubtree, hkind, if_neg Bool.false_ne_true, if_neg Bool.false_ne_true] at hrest
      exact Routing.shape_of_kinds (isMatch_exact hroute (hsubtree.trans hkind))
        (isMatch_exact hother hkind) (Prod.mk.inj hrest).2

end Route

/-- The running best is a match of greatest rank, the first of these. -/
theorem reach_eq_foldl {path : Bytes} {routes : List (Route Middleware)}
    {resource : Option (Route Middleware)}
    (hresource : ∀ best ∈ resource, best.isMatch path = true) :
    reach path routes resource =
      some ((routes.filter (·.isMatch path)).foldl
        (List.argAux fun b c => c.rank < b.rank) resource) := by
  induction routes generalizing resource with
  | nil => rfl
  | cons route routes ih =>
      cases hmatch : route.isMatch path with
      | false =>
          rw [List.filter_cons_of_neg (by simp [hmatch]), ← ih hresource]
          conv_lhs => rw [reach.eq_def]
          simp only [hmatch, Bool.not_false, if_true]
      | true =>
          have hroute : ∀ best ∈ some route, best.isMatch path = true := by
            intro best hbest
            rwa [← Option.some.inj hbest]
          rw [List.filter_cons, if_pos hmatch, List.foldl_cons]
          conv_lhs => rw [reach.eq_def]
          simp only [hmatch, Bool.not_true, Bool.false_eq_true, if_false]
          cases resource with
          | none => exact ih hroute
          | some best =>
              simp only [Route.moreSpecific_eq hmatch (hresource best rfl), Option.bind_eq_bind,
                Option.bind_some, List.argAux, decide_eq_true_eq]
              split
              · exact ih hroute
              · exact ih hresource

theorem reach_eq (path : Bytes) (routes : List (Route Middleware)) :
    reach path routes none = some ((routes.filter (·.isMatch path)).argmax Route.rank) :=
  reach_eq_foldl nofun

/-! ### The methods of a resource -/

/-- The wire spellings. -/
def methodTexts : List Bytes :=
  [.delete, .get, .head, .options, .patch, .post, .put].map Method.text

/-- What a route of this method adds to the `Allow` value. -/
def permits (method : Method) : List Bytes :=
  method.text :: (if method = .get then [ascii "HEAD"] else []) ++ [ascii "OPTIONS"]

theorem Method.text_inj {a b : Method} (h : a.text = b.text) : a = b := by
  have hall : ∀ a b : Method, a.text = b.text → a = b := by
    intro a b
    cases a <;> cases b <;> decide
  exact hall a b h

theorem permits_texts (method : Method) : ∀ t ∈ permits method, t ∈ methodTexts := by
  cases method <;> decide

/-- The items of an `Allow` value, each spelling at most once. -/
def Allows (allow : List Bytes) : Prop := allow.Nodup ∧ ∀ t ∈ allow, t ∈ methodTexts

theorem Allows.fits {allow : List Bytes} (h : Allows allow) :
    allow.length ≤ 7 ∧ (allow.map List.length).sum ≤ 32 := by
  obtain ⟨items, hperm, hsublist⟩ := List.subperm_of_subset h.1 h.2
  have hlength := hsublist.length_le
  have hsum := (hsublist.map List.length).sum_le_sum fun _ _ => Nat.zero_le _
  rw [hperm.length_eq] at hlength
  rw [(hperm.map List.length).sum_eq] at hsum
  exact ⟨hlength, hsum⟩

/-- An exchange whose `Allow` value took some more items. -/
def Extends (items : List Bytes) (exchange exchange' : Exchange Middleware) : Prop :=
  Allows exchange'.allow ∧ (∀ t, t ∈ exchange'.allow ↔ t ∈ exchange.allow ∨ t ∈ items) ∧
    exchange' = { exchange with allow := exchange'.allow }

theorem Extends.trans {items items' : List Bytes} {a b c : Exchange Middleware}
    (hab : Extends items a b) (hbc : Extends items' b c) : Extends (items ++ items') a c := by
  obtain ⟨-, hmem, heq⟩ := hab
  obtain ⟨hallows, hmem', heq'⟩ := hbc
  refine ⟨hallows, ?_, ?_⟩
  · intro t
    rw [hmem', hmem, List.mem_append, or_assoc]
  · rw [heq', heq]

theorem addAllowedText_extends {exchange : Exchange Middleware} {text : Bytes}
    (hallows : Allows exchange.allow) (htext : text ∈ methodTexts) :
    ∃ exchange', exchange.addAllowedText text = some exchange' ∧
      Extends [text] exchange exchange' := by
  rw [Exchange.addAllowedText]
  cases hcontains : exchange.allow.contains text with
  | true =>
      rw [List.contains_iff_mem] at hcontains
      refine ⟨exchange, if_pos rfl, hallows, ?_, rfl⟩
      intro t
      rw [List.mem_singleton]
      constructor
      · exact Or.inl
      · rintro (ht | rfl)
        · exact ht
        · exact hcontains
  | false =>
      have hnot : text ∉ exchange.allow := by
        rw [← List.contains_iff_mem, hcontains]
        exact Bool.false_ne_true
      have hmore : Allows (exchange.allow ++ [text]) := by
        refine ⟨List.nodup_append.mpr ⟨hallows.1, List.nodup_singleton text, ?_⟩, ?_⟩
        · rintro t ht _ hmem rfl
          rw [List.mem_singleton] at hmem
          exact hnot (hmem ▸ ht)
        · intro t ht
          rcases List.mem_append.mp ht with ht | ht
          · exact hallows.2 t ht
          · rw [List.mem_singleton] at ht
            rwa [ht]
      -- all spellings together take 44 bytes of the 64
      have hfits := hmore.fits
      rw [List.length_append, List.map_append, List.sum_append] at hfits
      simp only [List.length_singleton, List.map_cons, List.map_nil, List.sum_cons,
        List.sum_nil] at hfits
      refine ⟨{ exchange with allow := exchange.allow ++ [text] }, ?_, hmore, ?_, rfl⟩
      · have hroom : (if exchange.allow.isEmpty then 0 else 2) + text.length ≤
            64 - exchange.allowLen := by
          rw [Exchange.allowLen]
          split <;> omega
        simp only [Bool.false_eq_true, if_false, if_pos hroom]
      · intro t
        rw [List.mem_append]

theorem addAllowed_extends {exchange : Exchange Middleware} (method : Method)
    (hallows : Allows exchange.allow) :
    ∃ exchange', exchange.addAllowed method = some exchange' ∧
      Extends (permits method) exchange exchange' := by
  obtain ⟨first, hfirst, hone⟩ := addAllowedText_extends hallows
    (permits_texts method _ List.mem_cons_self)
  rw [Exchange.addAllowed, hfirst]
  by_cases hget : method = .get
  · obtain ⟨second, hsecond, htwo⟩ := addAllowedText_extends hone.1
      (by decide : ascii "HEAD" ∈ methodTexts)
    obtain ⟨third, hthird, hthree⟩ := addAllowedText_extends htwo.1
      (by decide : ascii "OPTIONS" ∈ methodTexts)
    refine ⟨third, ?_, ?_⟩
    · simp [hget, hsecond, hthird]
    · rw [permits, if_pos hget]
      exact (hone.trans htwo).trans hthree
  · obtain ⟨second, hsecond, htwo⟩ := addAllowedText_extends hone.1
      (by decide : ascii "OPTIONS" ∈ methodTexts)
    refine ⟨second, ?_, ?_⟩
    · simp [hget, hsecond]
    · rw [permits, if_neg hget]
      exact hone.trans htwo

/-- The routes of a resource that have the method of the request. -/
def serving (method : Bytes) (resource : Route Middleware) (routes : List (Route Middleware)) :
    List (Route Middleware) :=
  routes.filter fun route => route.sameResource resource && method == route.method.text

/-- The routes of a resource that answer a `HEAD` request in its place. -/
def standingIn (method : Bytes) (resource : Route Middleware) (routes : List (Route Middleware)) :
    List (Route Middleware) :=
  routes.filter fun route =>
    route.sameResource resource && (route.method == .get && method == ascii "HEAD")

/-- What the second loop leaves. -/
def Gathers (method : Bytes) (resource : Route Middleware) (routes : List (Route Middleware))
    (before after : Exchange Middleware × Option (Route Middleware)) : Prop :=
  Allows after.1.allow ∧
    (∀ t, t ∈ after.1.allow ↔ t ∈ before.1.allow ∨
      ∃ route ∈ routes, route.sameResource resource = true ∧ t ∈ permits route.method) ∧
    after.1 = { before.1 with
      allow := after.1.allow
      selected := (serving method resource routes).getLast?.or before.1.selected } ∧
    after.2 = (standingIn method resource routes).getLast?.or before.2

theorem getLast?_cons_or {α : Type*} (a : α) (l : List α) (o : Option α) :
    (a :: l).getLast?.or o = l.getLast?.or (some a) := by
  cases l with
  | nil => rfl
  | cons b l =>
      rw [List.getLast?_cons_cons]
      cases hlast : (b :: l).getLast? with
      | none => exact absurd (List.getLast?_eq_none_iff.mp hlast) nofun
      | some c => rfl

theorem serving_last {method : Bytes} {resource route : Route Middleware}
    (hsame : route.sameResource resource = true) (routes : List (Route Middleware))
    (o : Option (Route Middleware)) :
    (serving method resource (route :: routes)).getLast?.or o =
      (serving method resource routes).getLast?.or
        (if method = route.method.text then some route else o) := by
  rw [serving, serving, List.filter_cons]
  split
  · rename_i h
    rw [hsame, Bool.true_and, beq_iff_eq] at h
    rw [getLast?_cons_or, if_pos h]
  · rename_i h
    rw [hsame, Bool.true_and, beq_iff_eq] at h
    rw [if_neg h]

theorem standingIn_last {method : Bytes} {resource route : Route Middleware}
    (hsame : route.sameResource resource = true) (routes : List (Route Middleware))
    (o : Option (Route Middleware)) :
    (standingIn method resource (route :: routes)).getLast?.or o =
      (standingIn method resource routes).getLast?.or
        (if route.method = .get ∧ method = ascii "HEAD" then some route else o) := by
  rw [standingIn, standingIn, List.filter_cons]
  split
  · rename_i h
    rw [hsame, Bool.true_and, Bool.and_eq_true, beq_iff_eq, beq_iff_eq] at h
    rw [getLast?_cons_or, if_pos h]
  · rename_i h
    rw [hsame, Bool.true_and, Bool.and_eq_true, beq_iff_eq, beq_iff_eq] at h
    rw [if_neg h]

theorem gather_spec (method : Bytes) (resource : Route Middleware)
    (routes : List (Route Middleware)) {exchange : Exchange Middleware}
    (fallback : Option (Route Middleware)) (hallows : Allows exchange.allow) :
    ∃ after, gather method resource routes exchange fallback = some after ∧
      Gathers method resource routes (exchange, fallback) after := by
  induction routes generalizing exchange fallback with
  | nil =>
      refine ⟨(exchange, fallback), rfl, hallows, ?_, rfl, rfl⟩
      intro t
      simp
  | cons route routes ih =>
      rw [gather]
      cases hsame : route.sameResource resource with
      | false =>
          obtain ⟨after, hafter, hspec⟩ := ih fallback hallows
          refine ⟨after, hafter, ?_⟩
          have hserving : serving method resource (route :: routes) =
              serving method resource routes := by
            rw [serving, List.filter_cons_of_neg (by simp [hsame])]
            rfl
          have hstanding : standingIn method resource (route :: routes) =
              standingIn method resource routes := by
            rw [standingIn, List.filter_cons_of_neg (by simp [hsame])]
            rfl
          unfold Gathers
          rw [hserving, hstanding]
          refine ⟨hspec.1, ?_, hspec.2.2⟩
          intro t
          rw [hspec.2.1]
          simp [hsame]
      | true =>
          obtain ⟨added, hadded, hextends⟩ := addAllowed_extends route.method hallows
          obtain ⟨hmore, hmem, hadd⟩ := hextends
          obtain ⟨next, hnext⟩ : ∃ next, next = if method = route.method.text then
            { added with selected := some route } else added := ⟨_, rfl⟩
          have hwritten : next = { exchange with
              allow := added.allow
              selected := if method = route.method.text then some route
                else exchange.selected } := by
            rw [hnext, hadd]
            split <;> rfl
          have hnextAllow : next.allow = added.allow := by rw [hwritten]
          obtain ⟨after, hafter, hallows', hmem', hexchange, hfallback⟩ :=
            ih (if route.method = .get ∧ method = ascii "HEAD" then some route else fallback)
              (hnextAllow ▸ hmore)
          refine ⟨after, ?_, hallows', ?_, ?_, ?_⟩
          · simp only [Bool.not_true, Bool.false_eq_true, if_false, hadded, Option.bind_eq_bind,
              Option.bind_some, ← hnext]
            exact hafter
          · intro t
            rw [hmem', hnextAllow, hmem]
            constructor
            · rintro ((ht | ht) | ⟨other, hother, hsame', ht⟩)
              · exact Or.inl ht
              · exact Or.inr ⟨route, List.mem_cons_self, hsame, ht⟩
              · exact Or.inr ⟨other, List.mem_cons_of_mem _ hother, hsame', ht⟩
            · rintro (ht | ⟨other, hother, hsame', ht⟩)
              · exact Or.inl (Or.inl ht)
              · rcases List.mem_cons.mp hother with rfl | hother
                · exact Or.inl (Or.inr ht)
                · exact Or.inr ⟨other, hother, hsame', ht⟩
          · rw [serving_last hsame]
            rw [hwritten] at hexchange
            exact hexchange
          · rw [standingIn_last hsame]
            exact hfallback

/-! ### Parameters -/

/-- A pattern that matches binds its parameters, if there is room for them. -/
theorem bindSegments_isSome {parameters : List Parameter} {actual pattern : List Bytes}
    (hmatch : Routing.matchesSegments actual pattern = true)
    (hroom : parameters.length + (pattern.filter Routing.parameter).length ≤ 8) :
    (Exchange.bindSegments parameters actual pattern).isSome = true := by
  induction actual generalizing parameters pattern with
  | nil =>
      rw [List.length_eq_zero_iff.mp (Routing.matchesSegments_length hmatch).symm]
      rfl
  | cons part actual ih =>
      cases pattern with
      | nil => exact absurd hmatch nofun
      | cons segment pattern =>
          rw [Routing.matchesSegments] at hmatch
          rw [Exchange.bindSegments]
          cases hsegment : Routing.parameter segment with
          | true =>
              rw [List.filter_cons_of_pos hsegment, List.length_cons] at hroom
              rw [hsegment] at hmatch
              simp only [if_true, Bool.if_false_left, Bool.and_eq_true] at hmatch
              have hempty : ¬(part.isEmpty = true ∨ parameters.length = 8) := by
                rintro (h | h)
                · rw [h] at hmatch
                  exact absurd hmatch.1 nofun
                · omega
              rw [if_pos rfl, if_neg hempty]
              refine ih hmatch.2 ?_
              rw [List.length_append, List.length_singleton]
              omega
          | false =>
              rw [List.filter_cons_of_neg (by simp [hsegment])] at hroom
              rw [hsegment] at hmatch
              simp only [Bool.false_eq_true, if_false, Bool.if_false_right, Bool.and_eq_true,
                decide_eq_true_eq] at hmatch
              rw [if_neg Bool.false_ne_true, if_pos hmatch.1]
              exact ih hmatch.2 hroom

theorem checkNames_length {segments names : List Bytes}
    (h : Routing.checkNames segments names = true) (hnames : names.length ≤ 8) :
    names.length + (segments.filter Routing.parameter).length ≤ 8 := by
  fun_induction Routing.checkNames segments names with
  | case1 names => simpa using hnames
  | case2 segment segments names hliteral ih =>
      rw [List.filter_cons_of_neg (by simpa using hliteral)]
      exact ih h hnames
  | case3 | case4 | case5 | case6 => exact absurd h nofun
  | case7 segment segments names hparameter _ _ hfull _ ih =>
      rw [List.filter_cons_of_pos (by simpa using hparameter), List.length_cons]
      have hlength : (names ++ [segment.drop 1]).length = names.length + 1 := by
        rw [List.length_append, List.length_singleton]
      have := ih h (by rw [hlength]; simp at hfull; omega)
      omega

theorem validate_parameters {route : Route Middleware} (h : route.validate = true) :
    ((Routing.split route.path).filter Routing.parameter).length ≤ 8 ∧
      route.before.length ≤ 16 := by
  rw [Route.validate, Bool.and_eq_true, decide_eq_true_eq, Routing.validatePath,
    Bool.and_eq_true] at h
  have hlength := checkNames_length h.1.2 (Nat.zero_le 8)
  rw [List.length_nil, Nat.zero_add] at hlength
  exact ⟨hlength, h.2⟩

theorem appendMiddleware_eq (before : List Middleware) {exchange : Exchange Middleware}
    (hroom : exchange.middleware.length + before.length ≤ 16) :
    before.foldlM (fun exchange middleware => exchange.appendMiddleware middleware) exchange =
      some { exchange with middleware := exchange.middleware ++ before } := by
  induction before generalizing exchange with
  | nil =>
      rw [List.append_nil]
      rfl
  | cons middleware before ih =>
      rw [List.length_cons] at hroom
      rw [List.foldlM_cons, Exchange.appendMiddleware, if_pos (by omega), Option.bind_eq_bind,
        Option.bind_some, ih (by rw [List.length_append, List.length_singleton]; omega)]
      simp

/-! ### Routing -/

/-- The route that answers: the one that has the method, or the one that stands in for it. -/
def answering (method : Bytes) (resource : Route Middleware) (routes : List (Route Middleware)) :
    Option (Route Middleware) :=
  (serving method resource routes).getLast?.or (standingIn method resource routes).getLast?

/-- The status without a route that answers. -/
def automatic (method : Bytes) : Nat := if method = ascii "OPTIONS" then 204 else 405

/-- The parameters a route binds. -/
def Binds (path : Bytes) (route : Route Middleware) (parameters : List Parameter) : Prop :=
  some parameters =
    if route.subtree then some []
    else Exchange.bindSegments [] (Routing.split path) (Routing.split route.path)

/-- What an exchange holds after routing to a resource. -/
def Routed (routes : List (Route Middleware)) (method path : Bytes) (resource : Route Middleware)
    (exchange : Exchange Middleware) : Prop :=
  exchange.selected = some ((answering method resource routes).getD resource) ∧
    exchange.automaticStatus =
      (if (answering method resource routes).isSome then none else some (automatic method)) ∧
    Binds path ((answering method resource routes).getD resource) exchange.parameters ∧
    ∀ t, t ∈ exchange.allow ↔
      ∃ route ∈ routes, route.sameResource resource = true ∧ t ∈ permits route.method

theorem answering_mem {method : Bytes} {resource route : Route Middleware}
    {routes : List (Route Middleware)} (h : answering method resource routes = some route) :
    route ∈ routes ∧ route.sameResource resource = true := by
  rcases Option.or_eq_some_iff.mp h with hlast | ⟨-, hlast⟩
  · have hmem := List.mem_filter.mp (List.mem_of_getLast? hlast)
    rw [Bool.and_eq_true] at hmem
    exact ⟨hmem.1, hmem.2.1⟩
  · have hmem := List.mem_filter.mp (List.mem_of_getLast? hlast)
    rw [Bool.and_eq_true] at hmem
    exact ⟨hmem.1, hmem.2.1⟩

theorem isMatch_sameResource {route other : Route Middleware} {path : Bytes}
    (hsame : route.sameResource other = true) (hother : other.isMatch path = true)
    (hexact : route.subtree = false) :
    Routing.matchesSegments (Routing.split path) (Routing.split route.path) = true := by
  rw [Route.sameResource_iff] at hsame
  rw [Routing.matchesSegments_shape hsame.2]
  exact Route.isMatch_exact hother (hsame.1.symm.trans hexact)

theorem reach_mem {path : Bytes} {routes : List (Route Middleware)} {resource : Route Middleware}
    (h : reach path routes none = some (some resource)) :
    resource ∈ routes ∧ resource.isMatch path = true := by
  rw [reach_eq, Option.some.injEq] at h
  exact List.mem_filter.mp (List.argmax_mem h)

theorem enter_eq (path : Bytes) (exchange : Exchange Middleware) {route : Route Middleware}
    (hvalid : route.validate = true)
    (hmatch : route.subtree = false →
      Routing.matchesSegments (Routing.split path) (Routing.split route.path) = true)
    (hparameters : exchange.parameters = []) (hmiddleware : exchange.middleware = []) :
    ∃ parameters, Binds path route parameters ∧
      enter path exchange route =
        some { exchange with parameters, middleware := route.before } := by
  obtain ⟨hroom, hbefore⟩ := validate_parameters hvalid
  have happend : ∀ parameters, route.before.foldlM
      (fun exchange middleware => exchange.appendMiddleware middleware)
        { exchange with parameters } =
          some { exchange with parameters, middleware := route.before } := by
    intro parameters
    rw [appendMiddleware_eq route.before (by
      show exchange.middleware.length + _ ≤ 16
      rw [hmiddleware]
      simpa using hbefore)]
    show some { exchange with parameters, middleware := exchange.middleware ++ _ } = _
    rw [hmiddleware, List.nil_append]
  unfold Binds enter
  cases hsubtree : route.subtree with
  | true =>
      refine ⟨[], (if_pos rfl).symm, ?_⟩
      have hsame : exchange = { exchange with parameters := [] } := by rw [← hparameters]
      rw [if_pos rfl, hsame]
      exact happend []
  | false =>
      obtain ⟨parameters, hbind⟩ := Option.isSome_iff_exists.mp
        (bindSegments_isSome (hmatch hsubtree) (by rwa [List.length_nil, Nat.zero_add]))
      refine ⟨parameters, ?_, ?_⟩
      · rw [if_neg Bool.false_ne_true, hbind]
      · rw [if_neg Bool.false_ne_true, Exchange.matchPath, hparameters, hbind, Option.map_some]
        exact happend parameters

theorem settle_eq (method : Bytes) (resource : Route Middleware) (exchange : Exchange Middleware)
    (o : Option (Route Middleware)) :
    settle method resource exchange o =
      ({ exchange with
          selected := some (o.getD resource)
          automaticStatus := if o.isSome then exchange.automaticStatus
            else some (automatic method) },
        o.getD resource) := by
  cases o <;> rfl

theorem find_routed {routes : List (Route Middleware)} {path : Bytes} {resource : Route Middleware}
    (hvalid : ∀ route ∈ routes, route.validate = true)
    (hresource : reach path routes none = some (some resource)) (method : Bytes) :
    ∃ exchange, find routes {} method path = some exchange ∧
      Routed routes method path resource exchange := by
  obtain ⟨hmem, hmatch⟩ := reach_mem hresource
  have hempty : Allows ({} : Exchange Middleware).allow := ⟨List.nodup_nil, nofun⟩
  obtain ⟨⟨gathered, fallback⟩, hgather, -, hallow, hgathered, hfallback⟩ :=
    gather_spec method resource routes none hempty
  simp only [Option.or_none] at hgathered hfallback
  have hanswering : gathered.selected.or fallback = answering method resource routes := by
    rw [hgathered, hfallback, answering]
  have hroute : (answering method resource routes).getD resource ∈ routes ∧
      ((answering method resource routes).getD resource).sameResource resource = true := by
    cases hanswer : answering method resource routes with
    | none => exact ⟨hmem, resource.sameResource_refl⟩
    | some route => exact answering_mem hanswer
  have hfind : find routes {} method path =
      enter path (settle method resource gathered (answering method resource routes)).1
        ((answering method resource routes).getD resource) := by
    rw [find, hresource]
    simp only [Option.bind_eq_bind, Option.bind_some, hgather, hanswering, settle_eq]
  obtain ⟨parameters, hbinds, henter⟩ := enter_eq path
    (settle method resource gathered (answering method resource routes)).1
    (hvalid _ hroute.1) (isMatch_sameResource hroute.2 hmatch)
    (by rw [settle_eq, hgathered]) (by rw [settle_eq, hgathered])
  refine ⟨_, hfind.trans henter, ?_, ?_, hbinds, ?_⟩
  · rw [settle_eq]
  · rw [settle_eq, hgathered]
  · intro t
    rw [settle_eq]
    simpa using hallow t

/-! ### Declaration order -/

theorem duplicates_symm {left right : Route Middleware} (h : left.duplicates right = true) :
    right.duplicates left = true := by
  rw [Route.duplicates, Bool.and_eq_true, Bool.and_eq_true, beq_iff_eq, beq_iff_eq,
    Routing.samePattern_iff] at h ⊢
  exact ⟨⟨h.1.1.symm, h.1.2.symm⟩, h.2.symm⟩

theorem distinct_pairwise {routes : List (Route Middleware)} (h : distinct routes = true) :
    routes.Pairwise fun left right => left.duplicates right = false := by
  induction routes with
  | nil => exact .nil
  | cons left routes ih =>
      rw [distinct, Bool.and_eq_true, List.all_eq_true] at h
      refine List.pairwise_cons.mpr ⟨?_, ih h.2⟩
      intro right hright
      simpa using h.1 right hright

/-- A resource has at most one route of a method. -/
theorem unique_of_distinct {routes : List (Route Middleware)} (h : distinct routes = true)
    {resource a b : Route Middleware} (ha : a ∈ routes) (hb : b ∈ routes)
    (hsameA : a.sameResource resource = true) (hsameB : b.sameResource resource = true)
    (hmethod : a.method = b.method) : a = b := by
  by_contra hne
  have hsymm : Std.Symm fun left right : Route Middleware => left.duplicates right = false := by
    refine ⟨fun left right hfalse => ?_⟩
    rw [← Bool.not_eq_true] at hfalse ⊢
    exact fun htrue => hfalse (duplicates_symm htrue)
  have hfalse := (distinct_pairwise h).forall ha hb hne
  have hsame := Route.sameResource_trans hsameA (Route.sameResource_symm hsameB)
  rw [Route.sameResource, Bool.and_eq_true] at hsame
  rw [Route.duplicates, hsame.1, hsame.2, hmethod, beq_self_eq_true] at hfalse
  exact absurd hfalse nofun

/-- Where all members are equal, the last one is that of any permutation. -/
theorem getLast?_perm {α : Type*} {l l' : List α} (hperm : l.Perm l')
    (hall : ∀ a ∈ l, ∀ b ∈ l, a = b) : l.getLast? = l'.getLast? := by
  cases hlast : l.getLast? with
  | none =>
      rw [List.getLast?_eq_none_iff] at hlast
      rw [hlast, List.nil_perm] at hperm
      rw [hperm]
      rfl
  | some a =>
      cases hlast' : l'.getLast? with
      | none =>
          rw [List.getLast?_eq_none_iff] at hlast'
          rw [hlast', List.perm_nil] at hperm
          rw [hperm] at hlast
          exact absurd hlast nofun
      | some b =>
          rw [hall a (List.mem_of_getLast? hlast) b
            (hperm.mem_iff.mpr (List.mem_of_getLast? hlast'))]

theorem answering_perm {routes routes' : List (Route Middleware)}
    (hdistinct : distinct routes = true) (hperm : routes.Perm routes') {resource resource' : Route Middleware}
    (hsame : resource.sameResource resource' = true) (method : Bytes) :
    answering method resource routes = answering method resource' routes' := by
  have hiff : ∀ route : Route Middleware,
      route.sameResource resource = route.sameResource resource' := by
    intro route
    rw [Bool.eq_iff_iff]
    constructor
    · exact fun h => Route.sameResource_trans h hsame
    · exact fun h => Route.sameResource_trans h (Route.sameResource_symm hsame)
  have hserving : (serving method resource routes).getLast? =
      (serving method resource' routes').getLast? := by
    refine (getLast?_perm (hperm.filter _) ?_).trans ?_
    · intro a ha b hb
      rw [List.mem_filter, Bool.and_eq_true, beq_iff_eq] at ha hb
      exact unique_of_distinct hdistinct ha.1 hb.1 ha.2.1 hb.2.1
        (Method.text_inj (ha.2.2.symm.trans hb.2.2))
    · simp only [serving, hiff]
  have hstanding : (standingIn method resource routes).getLast? =
      (standingIn method resource' routes').getLast? := by
    refine (getLast?_perm (hperm.filter _) ?_).trans ?_
    · intro a ha b hb
      rw [List.mem_filter, Bool.and_eq_true, Bool.and_eq_true, beq_iff_eq, beq_iff_eq] at ha hb
      exact unique_of_distinct hdistinct ha.1 hb.1 ha.2.1 hb.2.1 (ha.2.2.1.trans hb.2.2.1.symm)
    · simp only [standingIn, hiff]
  rw [answering, answering, hserving, hstanding]

/-- Routes that match the path stand below the resource, or are of it. -/
def Highest (routes : List (Route Middleware)) (path : Bytes) (resource : Route Middleware) :
    Prop :=
  resource ∈ routes ∧ resource.isMatch path = true ∧
    ∀ route ∈ routes, route.isMatch path = true →
      route.rank < resource.rank ∨ route.sameResource resource = true

theorem reach_highest {path : Bytes} {routes : List (Route Middleware)}
    {resource : Route Middleware} (h : reach path routes none = some (some resource)) :
    Highest routes path resource := by
  obtain ⟨hmem, hmatch⟩ := reach_mem h
  refine ⟨hmem, hmatch, ?_⟩
  intro route hroute hroutes
  rw [reach_eq, Option.some.injEq] at h
  rcases lt_or_eq_of_le (List.le_of_mem_argmax (List.mem_filter.mpr ⟨hroute, hroutes⟩) h) with
    hlt | heq
  · exact Or.inl hlt
  · exact Or.inr (Route.sameResource_of_rank hroutes hmatch heq)

theorem reach_none {path : Bytes} {routes : List (Route Middleware)} :
    reach path routes none = some none ↔ ∀ route ∈ routes, route.isMatch path = false := by
  rw [reach_eq, Option.some.injEq, List.argmax_eq_none, List.filter_eq_nil_iff]
  simp

/-- The route answers requests of the method for the resource. -/
def Answers (method : Bytes) (resource route : Route Middleware) : Prop :=
  route.sameResource resource = true ∧
    (method = route.method.text ∨ route.method = .get ∧ method = ascii "HEAD")

/-- What the exchanges of two declaration orders have in common. -/
def Agrees (routes : List (Route Middleware)) (method : Bytes) (resource : Route Middleware)
    (exchange exchange' : Exchange Middleware) : Prop :=
  (∀ t, t ∈ exchange.allow ↔ t ∈ exchange'.allow) ∧
    ((∃ route ∈ routes, Answers method resource route) →
      exchange.selected = exchange'.selected ∧ exchange.parameters = exchange'.parameters ∧
        exchange.automaticStatus = none ∧ exchange'.automaticStatus = none) ∧
    ((¬∃ route ∈ routes, Answers method resource route) →
      exchange.automaticStatus = some (automatic method) ∧
        exchange'.automaticStatus = some (automatic method))

theorem answering_isSome (method : Bytes) (resource : Route Middleware)
    (routes : List (Route Middleware)) :
    (answering method resource routes).isSome = true ↔
      ∃ route ∈ routes, Answers method resource route := by
  rw [answering, Option.isSome_or, Bool.or_eq_true, List.getLast?_isSome, List.getLast?_isSome]
  constructor
  · rintro (hserving | hstanding)
    · obtain ⟨route, hroute⟩ := List.exists_mem_of_ne_nil _ hserving
      rw [serving, List.mem_filter, Bool.and_eq_true, beq_iff_eq] at hroute
      exact ⟨route, hroute.1, hroute.2.1, Or.inl hroute.2.2⟩
    · obtain ⟨route, hroute⟩ := List.exists_mem_of_ne_nil _ hstanding
      rw [standingIn, List.mem_filter, Bool.and_eq_true, Bool.and_eq_true, beq_iff_eq,
        beq_iff_eq] at hroute
      exact ⟨route, hroute.1, hroute.2.1, Or.inr hroute.2.2⟩
  · rintro ⟨route, hmem, hsame, hmethod | hget⟩
    · refine Or.inl (List.ne_nil_of_mem (a := route) ?_)
      rw [serving, List.mem_filter, Bool.and_eq_true, beq_iff_eq]
      exact ⟨hmem, hsame, hmethod⟩
    · refine Or.inr (List.ne_nil_of_mem (a := route) ?_)
      rw [standingIn, List.mem_filter, Bool.and_eq_true, Bool.and_eq_true, beq_iff_eq,
        beq_iff_eq]
      exact ⟨hmem, hsame, hget⟩

theorem agrees_of_routed {routes routes' : List (Route Middleware)} {method path : Bytes}
    (hdistinct : distinct routes = true) (hperm : routes.Perm routes')
    {resource resource' : Route Middleware} (hsame : resource.sameResource resource' = true)
    {exchange exchange' : Exchange Middleware}
    (hrouted : Routed routes method path resource exchange)
    (hrouted' : Routed routes' method path resource' exchange') :
    Agrees routes method resource exchange exchange' := by
  obtain ⟨hselected, hstatus, hbinds, hallow⟩ := hrouted
  obtain ⟨hselected', hstatus', hbinds', hallow'⟩ := hrouted'
  have hanswer := answering_perm hdistinct hperm hsame method
  rw [← hanswer] at hselected' hstatus' hbinds'
  refine ⟨?_, ?_, ?_⟩
  · intro t
    rw [hallow, hallow']
    constructor
    · rintro ⟨route, hroute, hresource, ht⟩
      exact ⟨route, hperm.mem_iff.mp hroute, Route.sameResource_trans hresource hsame, ht⟩
    · rintro ⟨route, hroute, hresource, ht⟩
      exact ⟨route, hperm.mem_iff.mpr hroute,
        Route.sameResource_trans hresource (Route.sameResource_symm hsame), ht⟩
  · rw [← answering_isSome, Option.isSome_iff_exists]
    rintro ⟨route, hroute⟩
    rw [hroute, Option.getD_some] at hselected hbinds hselected' hbinds'
    rw [hroute] at hstatus hstatus'
    exact ⟨hselected.trans hselected'.symm, Option.some.inj (Eq.trans hbinds hbinds'.symm),
      hstatus, hstatus'⟩
  · rw [← answering_isSome]
    intro hnone
    rw [if_neg hnone] at hstatus hstatus'
    exact ⟨hstatus, hstatus'⟩

theorem sameResource_of_highest {routes : List (Route Middleware)} {path : Bytes}
    {resource resource' : Route Middleware} (h : Highest routes path resource)
    (h' : Highest routes path resource') : resource.sameResource resource' = true := by
  rcases h.2.2 resource' h'.1 h'.2.1 with hlt | hsame
  · rcases h'.2.2 resource h.1 h.2.1 with hlt' | hsame
    · exact absurd hlt' hlt.asymm
    · exact hsame
  · exact Route.sameResource_symm hsame

theorem Highest.perm {routes routes' : List (Route Middleware)} (hperm : routes.Perm routes')
    {path : Bytes} {resource : Route Middleware} (h : Highest routes' path resource) :
    Highest routes path resource :=
  ⟨hperm.mem_iff.mpr h.1, h.2.1, fun route hroute => h.2.2 route (hperm.mem_iff.mp hroute)⟩

/-- A parameter and a literal in one place. -/
def declarations : List (Route Unit) :=
  [{ name := ascii "item", method := .get, path := ascii "/items/:id" },
    { name := ascii "new", method := .get, path := ascii "/items/new" }]

example :
    (find declarations {} (ascii "HEAD") (ascii "/items/new")).bind Exchange.routeName =
      some (ascii "new") := by decide +kernel

end Endpoint

end Zhtps
