import Mathlib

/-!
Removal of dot segments from a path, as RFC 3986 defines it in section 5.2.4: an input buffer is
consumed from the front, and segments move to an output buffer.  A path that begins with a slash is
a list of segments, and on these the removal is a stack.
-/

namespace Lib

variable {α : Type*} [DecidableEq α] (slash dot : α)

/-- The initial slash, if any, and what follows up to the next one. -/
def firstSegment (input : List α) : List α :=
  input.take 1 ++ (input.drop 1).takeWhile fun c => c ≠ slash

/-- The output without its last segment and the slash before it. -/
def removeLast (output : List α) : List α :=
  ((output.reverse.dropWhile fun c => c ≠ slash).drop 1).reverse

theorem drop_shorter {p input : List α} (h : p.isPrefixOf input = true) {k : Nat} (hk : 0 < k)
    (hle : k ≤ p.length) : (input.drop k).length < input.length := by
  have hlength := (List.isPrefixOf_iff_prefix.mp h).length_le
  rw [List.length_drop]
  omega

theorem firstSegment_length (c : α) (rest : List α) :
    0 < (firstSegment slash (c :: rest)).length := by
  simp [firstSegment]

/-- The rules A to E, tried in this order. -/
def removeDotSegments (input output : List α) : List α :=
  if [dot, dot, slash].isPrefixOf input then removeDotSegments (input.drop 3) output
  else if [dot, slash].isPrefixOf input then removeDotSegments (input.drop 2) output
  else if [slash, dot, slash].isPrefixOf input then removeDotSegments (input.drop 2) output
  else if input = [slash, dot] then removeDotSegments [slash] output
  else if [slash, dot, dot, slash].isPrefixOf input then
    removeDotSegments (input.drop 3) (removeLast slash output)
  else if input = [slash, dot, dot] then removeDotSegments [slash] (removeLast slash output)
  else if input = [dot] ∨ input = [dot, dot] then output
  else
    match input with
    | [] => output
    | c :: rest =>
        removeDotSegments ((c :: rest).drop (firstSegment slash (c :: rest)).length)
          (output ++ firstSegment slash (c :: rest))
termination_by input.length
decreasing_by
  · exact drop_shorter ‹_› (by decide) (by simp)
  · exact drop_shorter ‹_› (by decide) (by simp)
  · exact drop_shorter ‹_› (by decide) (by simp)
  · rename_i h
    simp [h]
  · exact drop_shorter ‹_› (by decide) (by simp)
  · rename_i h
    simp [h]
  · have hpositive := firstSegment_length slash c rest
    rw [List.length_drop, List.length_cons]
    omega

/-! ### Segments -/

/-- The path of a list of segments. -/
def render (segments : List (List α)) : List α := segments.flatMap fun s => slash :: s

/-- Removal on segments, with those already kept on a stack.  A path that ends in a dot segment
names a directory, and keeps its last slash. -/
def resolve (stack : List (List α)) : List (List α) → List (List α)
  | [] => stack
  | s :: rest =>
      if s = [dot] then resolve (if rest = [] then [] :: stack else stack) rest
      else if s = [dot, dot] then
        resolve (if rest = [] then [] :: stack.tail else stack.tail) rest
      else resolve (s :: stack) rest

variable {slash dot}

omit [DecidableEq α] in
@[simp] theorem render_nil : render slash ([] : List (List α)) = [] := rfl

omit [DecidableEq α] in
@[simp]
theorem render_cons (s : List α) (rest : List (List α)) :
    render slash (s :: rest) = slash :: s ++ render slash rest := rfl

theorem resolve_cons (stack : List (List α)) (s : List α) (rest : List (List α)) :
    resolve dot stack (s :: rest) =
      if s = [dot] then resolve dot (if rest = [] then [] :: stack else stack) rest
      else if s = [dot, dot] then
        resolve dot (if rest = [] then [] :: stack.tail else stack.tail) rest
      else resolve dot (s :: stack) rest := rfl

omit [DecidableEq α] in
theorem render_append (a b : List (List α)) :
    render slash (a ++ b) = render slash a ++ render slash b := List.flatMap_append

theorem splitOn_cons_self (rest : List α) :
    (slash :: rest).splitOn slash = [] :: rest.splitOn slash := by
  rw [List.splitOn_cons_eq_if_modifyHead, if_pos (beq_self_eq_true slash)]

theorem splitOn_cons_ne {c : α} (hc : c ≠ slash) (rest : List α) :
    (c :: rest).splitOn slash = (rest.splitOn slash).modifyHead (c :: ·) := by
  rw [List.splitOn_cons_eq_if_modifyHead, if_neg (by simpa using hc)]

theorem splitOn_append (a b : List α) :
    (a ++ slash :: b).splitOn slash = a.splitOn slash ++ b.splitOn slash := by
  induction a with
  | nil => exact splitOn_cons_self b
  | cons c a ih =>
      rw [List.cons_append]
      by_cases hc : c = slash
      · rw [hc, splitOn_cons_self, splitOn_cons_self, ih, List.cons_append]
      · rw [splitOn_cons_ne hc, splitOn_cons_ne hc, ih]
        cases hsplit : a.splitOn slash with
        | nil => exact absurd hsplit (List.splitOn_ne_nil slash a)
        | cons s rest => rfl

omit [DecidableEq α] in
theorem map_modifyHead {β : Type*} {f : α → α} {g : β → β} {h : α → β}
    (hfg : ∀ x, h (f x) = g (h x)) (l : List α) :
    (l.modifyHead f).map h = (l.map h).modifyHead g := by
  cases l with
  | nil => rfl
  | cons x l => rw [List.modifyHead_cons, List.map_cons, List.map_cons, List.modifyHead_cons, hfg]

/-- A path that begins with a slash has segments. -/
theorem render_splitOn (path : List α) : render slash (path.splitOn slash) = slash :: path := by
  induction path with
  | nil => rfl
  | cons c path ih =>
      by_cases hc : c = slash
      · rw [hc, splitOn_cons_self, render_cons, ih]
        rfl
      · rw [splitOn_cons_ne hc]
        cases hsplit : path.splitOn slash with
        | nil => exact absurd hsplit (List.splitOn_ne_nil slash path)
        | cons s rest =>
            rw [hsplit, render_cons] at ih
            rw [List.modifyHead_cons, render_cons]
            simpa using ih

theorem not_mem_splitOn (path : List α) : ∀ s ∈ path.splitOn slash, slash ∉ s := by
  induction path with
  | nil =>
      intro s hs
      rw [List.splitOn_nil, List.mem_singleton] at hs
      rw [hs]
      exact List.not_mem_nil
  | cons c path ih =>
      intro s hs
      by_cases hc : c = slash
      · rw [hc, splitOn_cons_self] at hs
        rcases List.mem_cons.mp hs with rfl | hs
        · exact List.not_mem_nil
        · exact ih s hs
      · rw [splitOn_cons_ne hc] at hs
        cases hsplit : path.splitOn slash with
        | nil => exact absurd hsplit (List.splitOn_ne_nil slash path)
        | cons first rest =>
            rw [hsplit] at ih hs
            rw [List.modifyHead_cons] at hs
            rcases List.mem_cons.mp hs with rfl | hs
            · intro hmem
              rcases List.mem_cons.mp hmem with heq | hmem
              · exact hc heq.symm
              · exact ih first List.mem_cons_self hmem
            · exact ih s (List.mem_cons_of_mem _ hs)

/-- The segments of a path are those it was made of. -/
theorem splitOn_render (s : List α) (rest : List (List α)) (hs : slash ∉ s)
    (hrest : ∀ t ∈ rest, slash ∉ t) :
    (s ++ render slash rest).splitOn slash = s :: rest := by
  induction rest generalizing s with
  | nil => rw [render_nil, List.append_nil, List.splitOn_eq_singleton hs]
  | cons t rest ih =>
      rw [render_cons, List.cons_append, List.splitOn_append_cons_self_of_not_mem hs,
        ih t (hrest t List.mem_cons_self) fun u hu => hrest u (List.mem_cons_of_mem _ hu)]

omit [DecidableEq α] in
/-- What follows a slash-free beginning up to the first slash is determined. -/
theorem append_slash_inj {p s x y : List α} (hp : slash ∉ p) (hs : slash ∉ s)
    (h : p ++ slash :: x = s ++ slash :: y) : p = s := by
  induction p generalizing s with
  | nil =>
      cases s with
      | nil => rfl
      | cons c s =>
          rw [List.nil_append, List.cons_append, List.cons.injEq] at h
          exact absurd (h.1 ▸ List.mem_cons_self) hs
  | cons c p ih =>
      cases s with
      | nil =>
          rw [List.nil_append, List.cons_append, List.cons.injEq] at h
          exact absurd (h.1 ▸ List.mem_cons_self) hp
      | cons d s =>
          rw [List.cons_append, List.cons_append, List.cons.injEq] at h
          rw [h.1, ih (fun hm => hp (List.mem_cons_of_mem _ hm))
            (fun hm => hs (List.mem_cons_of_mem _ hm)) h.2]

theorem removeLast_append {output s : List α} (hs : slash ∉ s) :
    removeLast slash (output ++ slash :: s) = output := by
  have hfree : ∀ c ∈ s.reverse, (decide (c ≠ slash)) = true := by
    intro c hc
    rw [List.mem_reverse] at hc
    simpa using fun heq : c = slash => hs (heq ▸ hc)
  unfold removeLast
  rw [List.reverse_append, List.reverse_cons, List.append_assoc,
    List.dropWhile_append_of_pos hfree, List.singleton_append,
    List.dropWhile_cons_of_neg (by simp), List.drop_one, List.tail_cons, List.reverse_reverse]

theorem removeLast_render {stack : List (List α)} (hstack : ∀ s ∈ stack, slash ∉ s) :
    removeLast slash (render slash stack.reverse) = render slash stack.tail.reverse := by
  cases stack with
  | nil => rfl
  | cons s stack =>
      rw [List.reverse_cons, render_append, render_cons, render_nil, List.append_nil,
        removeLast_append (hstack s List.mem_cons_self), List.tail_cons]

theorem firstSegment_render {s : List α} (hs : slash ∉ s) (rest : List (List α)) :
    firstSegment slash (slash :: s ++ render slash rest) = slash :: s := by
  have hfree : ∀ c ∈ s, (decide (c ≠ slash)) = true := by
    intro c hc
    simpa using fun heq : c = slash => hs (heq ▸ hc)
  unfold firstSegment
  rw [List.cons_append, List.take_succ_cons, List.take_zero, List.drop_succ_cons, List.drop_zero,
    List.takeWhile_append_of_pos hfree]
  cases rest with
  | nil => simp
  | cons t rest => simp

theorem removeDotSegments_nil (output : List α) :
    removeDotSegments slash dot [] output = output := by
  rw [removeDotSegments]
  simp

theorem removeDotSegments_slash (hne : slash ≠ dot) (output : List α) :
    removeDotSegments slash dot [slash] output = output ++ [slash] := by
  rw [removeDotSegments]
  simp [hne, firstSegment, removeDotSegments_nil]

/-- A path that begins with a slash meets the rules B, C and E only. -/
theorem removeDotSegments_cons (hne : slash ≠ dot) (rest output : List α) :
    removeDotSegments slash dot (slash :: rest) output =
      if [slash, dot, slash].isPrefixOf (slash :: rest) then
        removeDotSegments slash dot ((slash :: rest).drop 2) output
      else if slash :: rest = [slash, dot] then output ++ [slash]
      else if [slash, dot, dot, slash].isPrefixOf (slash :: rest) then
        removeDotSegments slash dot ((slash :: rest).drop 3) (removeLast slash output)
      else if slash :: rest = [slash, dot, dot] then removeLast slash output ++ [slash]
      else
        removeDotSegments slash dot
          ((slash :: rest).drop (firstSegment slash (slash :: rest)).length)
          (output ++ firstSegment slash (slash :: rest)) := by
  have hdots : [dot, dot, slash].isPrefixOf (slash :: rest) = false := by
    simp [List.isPrefixOf, hne.symm]
  have hdot : [dot, slash].isPrefixOf (slash :: rest) = false := by
    simp [List.isPrefixOf, hne.symm]
  have hbare : ¬(slash :: rest = [dot] ∨ slash :: rest = [dot, dot]) := by
    simp [hne]
  conv_lhs => rw [removeDotSegments.eq_def]
  rw [hdots, hdot, if_neg Bool.false_ne_true, if_neg Bool.false_ne_true, if_neg hbare,
    removeDotSegments_slash hne, removeDotSegments_slash hne]

/-- The rules B and C on a path that ends with one segment. -/
theorem removeDotSegments_last (hne : slash ≠ dot) {s : List α} (hs : slash ∉ s)
    (output : List α) :
    removeDotSegments slash dot (slash :: s) output =
      if s = [dot] then output ++ [slash]
      else if s = [dot, dot] then removeLast slash output ++ [slash]
      else output ++ slash :: s := by
  have hdrop : firstSegment slash (slash :: s) = slash :: s := by
    have := firstSegment_render hs []
    rwa [render_nil, List.append_nil] at this
  -- a prefix that ends with a slash would put that slash into the segment
  have hnot : ∀ p : List α, (slash :: p ++ [slash]).isPrefixOf (slash :: s) = false := by
    intro p
    rw [← Bool.not_eq_true, List.isPrefixOf_iff_prefix]
    intro hstart
    have hmem : slash ∈ s := by
      obtain ⟨tail, htail⟩ := hstart
      rw [List.cons_append, List.cons_append, List.cons.injEq] at htail
      rw [← htail.2]
      simp
    exact hs hmem
  rw [removeDotSegments_cons hne, show [slash, dot, slash] = slash :: [dot] ++ [slash] from rfl,
    show [slash, dot, dot, slash] = slash :: [dot, dot] ++ [slash] from rfl, hnot [dot],
    hnot [dot, dot], hdrop, List.drop_length, removeDotSegments_nil, if_neg Bool.false_ne_true,
    if_neg Bool.false_ne_true]
  simp only [List.cons.injEq, true_and]

/-- The rules B, C and E on a path that goes on behind its first segment. -/
theorem removeDotSegments_middle (hne : slash ≠ dot) {s : List α} (hs : slash ∉ s)
    (rest output : List α) :
    removeDotSegments slash dot (slash :: s ++ slash :: rest) output =
      if s = [dot] then removeDotSegments slash dot (slash :: rest) output
      else if s = [dot, dot] then
        removeDotSegments slash dot (slash :: rest) (removeLast slash output)
      else removeDotSegments slash dot (slash :: rest) (output ++ slash :: s) := by
  have hfirst : firstSegment slash (slash :: s ++ slash :: rest) = slash :: s := by
    have := firstSegment_render hs (rest.splitOn slash)
    rwa [render_splitOn] at this
  have hstart : ∀ p : List α, slash ∉ p →
      ((slash :: p ++ [slash]).isPrefixOf (slash :: s ++ slash :: rest) = true ↔ s = p) := by
    intro p hp
    rw [List.isPrefixOf_iff_prefix]
    constructor
    · rintro ⟨tail, htail⟩
      simp only [List.append_assoc, List.cons_append, List.nil_append, List.cons.injEq,
        true_and] at htail
      exact (append_slash_inj hp hs htail).symm
    · rintro rfl
      exact ⟨rest, by simp⟩
  have hdot : slash ∉ [dot] := by simpa using hne
  have hdots : slash ∉ [dot, dot] := by simpa using hne
  have hnotLast : ∀ p : List α, slash ∉ p → slash :: s ++ slash :: rest ≠ slash :: p := by
    intro p hp heq
    rw [List.cons_append, List.cons.injEq] at heq
    exact hp (heq.2 ▸ List.mem_append_right _ List.mem_cons_self)
  have hdrop : (slash :: s ++ slash :: rest).drop (slash :: s).length = slash :: rest :=
    List.drop_left
  show removeDotSegments slash dot (slash :: (s ++ slash :: rest)) output = _
  rw [removeDotSegments_cons hne]
  rw [show slash :: (s ++ slash :: rest) = slash :: s ++ slash :: rest from rfl,
    if_neg (hnotLast [dot] hdot), if_neg (hnotLast [dot, dot] hdots), hfirst, hdrop]
  simp only [show [slash, dot, slash] = slash :: [dot] ++ [slash] from rfl,
    show [slash, dot, dot, slash] = slash :: [dot, dot] ++ [slash] from rfl, hstart [dot] hdot,
    hstart [dot, dot] hdots]
  split
  · rename_i hs
    rw [hs]
    rfl
  · split
    · rename_i hs
      rw [hs]
      rfl
    · rfl

/-- The input buffer of the RFC is the list of segments that are left, its output buffer the stack
of those that were kept. -/
theorem removeDotSegments_render (hne : slash ≠ dot) (segments : List (List α)) :
    ∀ (stack : List (List α)), (∀ s ∈ segments, slash ∉ s) → (∀ s ∈ stack, slash ∉ s) →
      removeDotSegments slash dot (render slash segments) (render slash stack.reverse) =
        render slash (resolve dot stack segments).reverse := by
  induction segments with
  | nil =>
      intro stack _ _
      rw [render_nil, removeDotSegments]
      simp [resolve]
  | cons s rest ih =>
      intro stack hsegments hstack
      have hs := hsegments s List.mem_cons_self
      have hrest : ∀ t ∈ rest, slash ∉ t := fun t ht => hsegments t (List.mem_cons_of_mem _ ht)
      have htail : ∀ t ∈ stack.tail, slash ∉ t := fun t ht => hstack t (List.mem_of_mem_tail ht)
      have hpush : ∀ t ∈ s :: stack, slash ∉ t := by
        intro t ht
        rcases List.mem_cons.mp ht with rfl | ht
        · exact hs
        · exact hstack t ht
      have hkept : render slash stack.reverse ++ slash :: s = render slash (s :: stack).reverse := by
        rw [List.reverse_cons, render_append, render_cons, render_nil, List.append_nil]
      have hslash : ∀ below : List (List α),
          render slash below.reverse ++ [slash] = render slash ([] :: below).reverse := by
        intro below
        rw [List.reverse_cons, render_append, render_cons, render_nil, List.append_nil]
      cases rest with
      | nil =>
          rw [render_cons, render_nil, List.append_nil, removeDotSegments_last hne hs,
            removeLast_render hstack, hkept, hslash, hslash]
          simp only [resolve, if_true]
          split
          · rfl
          · split <;> rfl
      | cons t rest =>
          have hne' : t :: rest ≠ [] := nofun
          have hnext : slash :: (t ++ render slash rest) = render slash (t :: rest) := rfl
          show removeDotSegments slash dot (slash :: s ++ slash :: (t ++ render slash rest)) _ = _
          rw [removeDotSegments_middle hne hs (t ++ render slash rest), hkept,
            removeLast_render hstack, hnext, ih stack hrest hstack, ih stack.tail hrest htail,
            ih (s :: stack) hrest hpush]
          rw [resolve_cons stack s (t :: rest), if_neg hne', if_neg hne']
          split
          · rfl
          · split <;> rfl

/-! ### What is left -/

/-- Segments that stay are among the given ones, or empty; none is a dot segment. -/
theorem mem_resolve {p : List α → Prop} (hempty : p []) {stack segments : List (List α)}
    (hstack : ∀ s ∈ stack, p s)
    (hsegments : ∀ s ∈ segments, s ≠ [dot] → s ≠ [dot, dot] → p s) :
    ∀ s ∈ resolve dot stack segments, p s := by
  induction segments generalizing stack with
  | nil => exact hstack
  | cons s rest ih =>
      have hrest : ∀ t ∈ rest, t ≠ [dot] → t ≠ [dot, dot] → p t :=
        fun t ht => hsegments t (List.mem_cons_of_mem _ ht)
      have hpush : ∀ (t : List α) (below : List (List α)), p t → (∀ u ∈ below, p u) →
          ∀ u ∈ t :: below, p u := by
        intro t below ht hbelow u hu
        rcases List.mem_cons.mp hu with rfl | hu
        · exact ht
        · exact hbelow u hu
      have htail : ∀ t ∈ stack.tail, p t := fun t ht => hstack t (List.mem_of_mem_tail ht)
      rw [resolve]
      split
      · refine ih ?_ hrest
        split
        · exact hpush [] stack hempty hstack
        · exact hstack
      · rename_i hdot
        split
        · refine ih ?_ hrest
          split
          · exact hpush [] stack.tail hempty htail
          · exact htail
        · rename_i hdots
          exact ih (hpush s stack (hsegments s List.mem_cons_self hdot hdots) hstack) hrest

/-- Without dot segments nothing is removed. -/
theorem resolve_of_no_dots {stack segments : List (List α)}
    (h : ∀ s ∈ segments, s ≠ [dot] ∧ s ≠ [dot, dot]) :
    resolve dot stack segments = segments.reverse ++ stack := by
  induction segments generalizing stack with
  | nil => rfl
  | cons s rest ih =>
      obtain ⟨hdot, hdots⟩ := h s List.mem_cons_self
      rw [resolve, if_neg hdot, if_neg hdots, ih fun t ht => h t (List.mem_cons_of_mem _ ht),
        List.reverse_cons, List.append_assoc, List.singleton_append]

/-- A path does not become longer. -/
theorem length_resolve (stack segments : List (List α)) :
    (render slash (resolve dot stack segments)).length ≤
      (render slash stack).length + (render slash segments).length := by
  have htail : ∀ stack : List (List α),
      (render slash stack.tail).length ≤ (render slash stack).length := by
    intro stack
    cases stack with
    | nil => exact Nat.le_refl _
    | cons s stack => simp [render_cons]; omega
  induction segments generalizing stack with
  | nil => simp [resolve]
  | cons s rest ih =>
      have htail := htail stack
      rw [resolve, render_cons, List.length_append, List.length_cons]
      split
      · rename_i hdot
        refine Nat.le_trans (ih _) ?_
        rw [hdot]
        split
        · simp [render_cons]
          omega
        · simp
      · split
        · rename_i hdots
          refine Nat.le_trans (ih _) ?_
          rw [hdots]
          split <;> simp [render_cons] <;> omega
        · refine Nat.le_trans (ih _) ?_
          simp [render_cons]
          omega

/-- Some segment stays, if there was one. -/
theorem resolve_ne_nil {stack segments : List (List α)} (h : stack ≠ [] ∨ segments ≠ [])
    (hlast : segments = [] → stack ≠ []) : resolve dot stack segments ≠ [] := by
  induction segments generalizing stack with
  | nil => exact hlast rfl
  | cons s rest ih =>
      rw [resolve]
      cases rest with
      | nil =>
          simp only [if_true, resolve]
          split
          · nofun
          · split <;> nofun
      | cons t rest =>
          have hne : t :: rest ≠ [] := nofun
          split
          · exact ih (Or.inr hne) fun heq => absurd heq hne
          · split
            · exact ih (Or.inr hne) fun heq => absurd heq hne
            · exact ih (Or.inr hne) fun heq => absurd heq hne

end Lib
