import Mathlib

/-!
A doubly linked list whose links are stored with its elements.  The list object knows the first and
the last element, and every element whether it is queued and which are its neighbours.
-/

namespace Lib

structure Linked (α : Type*) where
  first : Option α := none
  last : Option α := none
  next : α → Option α := fun _ => none
  previous : α → Option α := fun _ => none
  queued : α → Bool := fun _ => false

namespace Linked

variable {α : Type*} [DecidableEq α]

/-- Appends an element. -/
def push (l : Linked α) (x : α) : Linked α :=
  let linked : Linked α :=
    { l with
      previous := Function.update l.previous x l.last
      next := Function.update l.next x none
      queued := Function.update l.queued x true }
  match l.last with
  | some previous =>
      { linked with next := Function.update linked.next previous (some x), last := some x }
  | none => { linked with first := some x, last := some x }

/-- Makes an element's predecessor skip it. -/
def skipNext (l : Linked α) (x : α) : Linked α :=
  match l.previous x with
  | some previous => { l with next := Function.update l.next previous (l.next x) }
  | none => { l with first := l.next x }

/-- Makes an element's successor skip it. -/
def skipPrevious (l : Linked α) (x : α) : Linked α :=
  match l.next x with
  | some next => { l with previous := Function.update l.previous next (l.previous x) }
  | none => { l with last := l.previous x }

/-- Unlinks an element, if it is queued. -/
def remove (l : Linked α) (x : α) : Linked α :=
  if l.queued x then
    let skipped := (l.skipNext x).skipPrevious x
    { skipped with
      previous := Function.update skipped.previous x none
      next := Function.update skipped.next x none
      queued := Function.update skipped.queued x false }
  else l

omit [DecidableEq α] in
/-- The links are those of this duplicate-free list, which has exactly the queued elements. -/
def Represents (l : Linked α) (list : List α) : Prop :=
  list.Nodup ∧ l.first = list.head? ∧ l.last = list.getLast? ∧
    (∀ before x after, list = before ++ x :: after →
      l.previous x = before.getLast? ∧ l.next x = after.head?) ∧
    ∀ x, l.queued x = true ↔ x ∈ list

omit [DecidableEq α] in
theorem represents_nil : Represents ({} : Linked α) [] :=
  ⟨List.nodup_nil, rfl, rfl, fun before x after h => by simp at h, by simp⟩

variable {l : Linked α} {list : List α} {x : α}

omit [DecidableEq α] in
theorem Represents.queued_eq_false (h : l.Represents list) :
    l.queued x = false ↔ x ∉ list := by
  rw [← h.2.2.2.2 x, Bool.not_eq_true]

theorem push_eq (l : Linked α) (x : α) :
    l.push x =
      { first := if l.last = none then some x else l.first
        last := some x
        next := fun y => if l.last = some y then some x else if y = x then none else l.next y
        previous := Function.update l.previous x l.last
        queued := Function.update l.queued x true } := by
  unfold push
  cases hlast : l.last with
  | none =>
      simp only [reduceCtorEq, if_false, if_true, Linked.mk.injEq, true_and, and_true]
      funext y
      simp [Function.update_apply]
  | some p =>
      simp only [reduceCtorEq, if_false, Linked.mk.injEq, true_and, and_true]
      funext y
      simp [Function.update_apply, eq_comm]

/-- A new element goes to the end. -/
theorem Represents.push (h : l.Represents list) (hx : x ∉ list) :
    (l.push x).Represents (list ++ [x]) := by
  obtain ⟨hnodup, hfirst, hlast, hlinks, hqueued⟩ := h
  rw [push_eq]
  refine ⟨?_, ?_, ?_, ?_, ?_⟩
  · exact List.nodup_append_comm.mp (List.nodup_cons.mpr ⟨hx, hnodup⟩)
  · cases list with
    | nil => simp [hlast]
    | cons y ys => simp [hlast, hfirst]
  · simp
  · intro before y after hsplit
    rcases List.eq_nil_or_concat after with rfl | ⟨rest, last, rfl⟩
    · -- The new element itself.
      obtain ⟨rfl, hy⟩ := List.append_inj' hsplit rfl
      cases hy
      have hne : list.getLast? ≠ some x := fun hl => hx (List.mem_of_getLast? hl)
      simp [hlast, hne]
    · rw [List.concat_eq_append, ← List.cons_append, ← List.append_assoc] at hsplit
      obtain ⟨hlist, hend⟩ := List.append_inj' hsplit rfl
      cases hend
      have hy : y ≠ x := fun heq => hx (by simp [hlist, heq])
      obtain ⟨hprevious, hnext⟩ := hlinks before y rest hlist
      refine ⟨by simp [hy, hprevious], ?_⟩
      cases rest with
      | nil => simp [hlast, hlist]
      | cons z zs =>
          have hz : list.getLast? ≠ some y := by
            intro hl
            rw [hlist, List.getLast?_append_of_ne_nil _ (by simp), List.getLast?_cons_cons] at hl
            have hmem : y ∈ z :: zs := List.mem_of_getLast? hl
            rw [hlist] at hnodup
            exact (List.nodup_cons.mp (List.nodup_append.mp hnodup).2.1).1 hmem
          simp [hlast, hz, hy, hnext]
  · intro y
    by_cases hy : y = x
    · simp [hy]
    · simp [hy, hqueued y]

theorem remove_eq (l : Linked α) (x : α) (hqueued : l.queued x = true)
    (hself : l.previous x ≠ some x) :
    l.remove x =
      { first := if l.previous x = none then l.next x else l.first
        last := if l.next x = none then l.previous x else l.last
        next := fun y =>
          if y = x then none else if l.previous x = some y then l.next x else l.next y
        previous := fun y =>
          if y = x then none else if l.next x = some y then l.previous x else l.previous y
        queued := Function.update l.queued x false } := by
  have hnext : (l.skipNext x).next x = l.next x := by
    unfold skipNext
    split
    · rename_i p hp
      have hne : x ≠ p := fun heq => hself (heq ▸ hp)
      simp [hne]
    · rfl
  have hprevious : (l.skipNext x).previous = l.previous := by
    unfold skipNext
    split <;> rfl
  rw [remove, if_pos hqueued]
  dsimp only
  unfold skipPrevious
  rw [hnext, hprevious]
  unfold skipNext
  cases hp : l.previous x <;> cases hn : l.next x <;>
    · simp only [reduceCtorEq, if_true, if_false, Option.some.injEq, Linked.mk.injEq, true_and,
        and_true]
      refine ⟨?_, ?_⟩ <;> funext y <;> simp [Function.update_apply, eq_comm]

omit [DecidableEq α] in
/-- An element of the list is not its own neighbour. -/
theorem Represents.previous_ne_self {before after : List α}
    (h : l.Represents (before ++ x :: after)) : l.previous x ≠ some x := by
  obtain ⟨hnodup, -, -, hlinks, -⟩ := h
  rw [(hlinks before x after rfl).1]
  intro hl
  have hmem := List.mem_of_getLast? hl
  exact (List.nodup_append.mp hnodup).2.2 x hmem x List.mem_cons_self rfl

omit [DecidableEq α] in
theorem getLast?_ne_of_nodup {list : List α} {y : α} (h : (y :: list).Nodup) :
    list.getLast? ≠ some y :=
  fun hl => (List.nodup_cons.mp h).1 (List.mem_of_getLast? hl)

/-- An element behind the removed one keeps its links, unless it was the next one. -/
theorem links_after {before after rest b : List α} {y : α}
    (hlinks : ∀ a z c, before ++ x :: after = a ++ z :: c →
      l.previous z = a.getLast? ∧ l.next z = c.head?)
    (hdisjoint : ∀ a ∈ before, ∀ c ∈ after, a ≠ c) (hnodup : after.Nodup)
    (hafter : after = rest ++ y :: b) :
    (if after.head? = some y then before.getLast? else l.previous y) = (before ++ rest).getLast? ∧
      (if before.getLast? = some y then after.head? else l.next y) = b.head? := by
  subst hafter
  obtain ⟨hprevious, hnext⟩ := hlinks (before ++ x :: rest) y b (by simp)
  have hbefore : before.getLast? ≠ some y := fun hl =>
    hdisjoint y (List.mem_of_getLast? hl) y (by simp) rfl
  rw [if_neg hbefore]
  refine ⟨?_, hnext⟩
  cases rest with
  | nil => simp
  | cons z zs =>
      have hz : z ≠ y := fun heq => (List.nodup_cons.mp hnodup).1 (by simp [heq])
      simp [hz, hprevious, List.getLast?_append, List.getLast?_cons]

/-- An element before the removed one keeps its links, unless it was the previous one. -/
theorem links_before {a zs after : List α} {y : α}
    (hlinks : ∀ before z c, a ++ y :: zs ++ x :: after = before ++ z :: c →
      l.previous z = before.getLast? ∧ l.next z = c.head?)
    (hdisjoint : ∀ u ∈ a ++ y :: zs, ∀ c ∈ after, u ≠ c) (hnodup : (a ++ y :: zs).Nodup) :
    (if after.head? = some y then (a ++ y :: zs).getLast? else l.previous y) = a.getLast? ∧
      (if (a ++ y :: zs).getLast? = some y then after.head? else l.next y) =
        (zs ++ after).head? := by
  obtain ⟨hprevious, hnext⟩ := hlinks a y (zs ++ x :: after) (by simp)
  have hafter : after.head? ≠ some y := fun hh =>
    hdisjoint y (by simp) y (List.mem_of_head? hh) rfl
  rw [if_neg hafter]
  refine ⟨hprevious, ?_⟩
  cases zs with
  | nil => simp
  | cons z zs =>
      have hlast : (a ++ y :: z :: zs).getLast? ≠ some y := by
        rw [List.getLast?_append_of_ne_nil _ (by simp), List.getLast?_cons_cons]
        exact getLast?_ne_of_nodup (List.nodup_append.mp hnodup).2.1
      rw [if_neg hlast, hnext]
      simp

/-- The neighbours of a removed element become neighbours. -/
theorem Represents.remove_split {before after : List α}
    (h : l.Represents (before ++ x :: after)) : (l.remove x).Represents (before ++ after) := by
  have hself := h.previous_ne_self
  obtain ⟨hnodup, hfirst, hlast, hlinks, hqueued⟩ := h
  obtain ⟨hprevious, hnext⟩ := hlinks before x after rfl
  have hmid : (x :: (before ++ after)).Nodup := List.nodup_middle.mp hnodup
  have hrest : (before ++ after).Nodup := (List.nodup_cons.mp hmid).2
  have hx : x ∉ before ++ after := (List.nodup_cons.mp hmid).1
  rw [remove_eq l x ((hqueued x).mpr (by simp)) hself, hprevious, hnext]
  refine ⟨hrest, ?_, ?_, ?_, ?_⟩
  · cases before with
    | nil => simp
    | cons y ys => simp [hfirst]
  · cases after with
    | nil => simp
    | cons y ys => simp [hlast, List.getLast?_append, List.getLast?_cons]
  · intro a y b hsplit
    have hy : y ≠ x := by
      rintro rfl
      exact hx (by simp [hsplit])
    simp only [hy, if_false]
    have hdisjoint := (List.nodup_append.mp hrest).2.2
    rcases List.append_eq_append_iff.mp hsplit with ⟨rest, rfl, hafter⟩ | ⟨rest, rfl, hb⟩
    · exact links_after hlinks hdisjoint (List.nodup_append.mp hrest).2.1 hafter
    · cases rest with
      | nil =>
          simp only [List.append_nil] at hlinks hdisjoint ⊢
          have hafter : after = [] ++ y :: b := hb.symm
          have hlinked := links_after hlinks hdisjoint (List.nodup_append.mp hrest).2.1 hafter
          simpa only [List.append_nil] using hlinked
      | cons z zs =>
          obtain ⟨rfl, rfl⟩ := List.cons.inj hb
          exact links_before hlinks hdisjoint (List.nodup_append.mp hrest).1
  · intro y
    by_cases hy : y = x
    · simpa [hy] using hx
    · simp [hy, hqueued y]

theorem Represents.remove (h : l.Represents list) : (l.remove x).Represents (list.erase x) := by
  by_cases hx : x ∈ list
  · obtain ⟨before, after, rfl⟩ := List.append_of_mem hx
    have hnot : x ∉ before := fun hin =>
      (List.nodup_append.mp h.1).2.2 x hin x List.mem_cons_self rfl
    rw [List.erase_append_right _ hnot, List.erase_cons_head]
    exact h.remove_split
  · have hqueued : l.queued x = false := h.queued_eq_false.mpr hx
    rw [Linked.remove, if_neg (by simp [hqueued]), List.erase_of_not_mem hx]
    exact h

end Linked

end Lib
