import Mathlib

/-!
A queue in a circular array: it begins at an index and goes on, past the end of the array, at the
front.
-/

namespace Lib

namespace Ring

variable {α : Type*}

/-- The place of an index that may have run past the end, at most once. -/
def wrap (size index : Nat) : Nat := if index < size then index else index - size

/-- The place behind a place. -/
def next (size index : Nat) : Nat := if index + 1 = size then 0 else index + 1

/-- The queue, its oldest element first. -/
def view (cells : List α) (start count : Nat) : List α := (cells.rotate start).take count

variable {cells : List α} {start count : Nat}

theorem wrap_eq_mod (hstart : start < cells.length) {i : Nat} (hi : i < cells.length) :
    wrap cells.length (start + i) = (i + start) % cells.length := by
  rw [wrap, Nat.add_comm i start]
  split
  · rename_i hlt
    exact (Nat.mod_eq_of_lt hlt).symm
  · rename_i hge
    rw [Nat.mod_eq_sub_mod (by omega), Nat.mod_eq_of_lt (by omega)]

theorem wrap_lt (hstart : start < cells.length) {i : Nat} (hi : i < cells.length) :
    wrap cells.length (start + i) < cells.length := by
  rw [wrap_eq_mod hstart hi]
  exact Nat.mod_lt _ (by omega)

theorem next_lt (hstart : start < cells.length) : next cells.length start < cells.length := by
  unfold next
  split
  · exact Nat.zero_lt_of_lt hstart
  · rename_i hne
    exact Nat.lt_of_le_of_ne hstart hne

theorem rotate_next (cells : List α) (start : Nat) :
    cells.rotate (next cells.length start) = cells.rotate (start + 1) := by
  unfold next
  split
  · rename_i hend
    rw [hend, List.rotate_length, List.rotate_zero]
  · rfl

theorem length_view (hcount : count ≤ cells.length) : (view cells start count).length = count := by
  rw [view, List.length_take, List.length_rotate]
  exact Nat.min_eq_left hcount

theorem getElem?_view (hstart : start < cells.length) {i : Nat} (hi : i < count)
    (hcount : count ≤ cells.length) :
    (view cells start count)[i]? = cells[wrap cells.length (start + i)]? := by
  rw [view, List.getElem?_take_of_lt hi, List.getElem?_rotate (by omega),
    wrap_eq_mod hstart (by omega)]

theorem rotate_set (hstart : start < cells.length) {k : Nat} (hk : k < cells.length) (x : α) :
    (cells.set (wrap cells.length (start + k)) x).rotate start = (cells.rotate start).set k x := by
  refine List.ext_getElem? fun i => ?_
  by_cases hi : i < cells.length
  · rw [List.getElem?_rotate (by rwa [List.length_set]), List.length_set, List.getElem?_set,
      List.getElem?_set, List.getElem?_rotate hi, List.length_rotate, ← wrap_eq_mod hstart hi]
    have hinj : wrap cells.length (start + k) = wrap cells.length (start + i) ↔ k = i := by
      unfold wrap
      constructor
      · intro h
        split at h <;> split at h <;> omega
      · rintro rfl
        rfl
    simp only [hinj, hk, wrap_lt hstart hk, if_true]
  · rw [List.getElem?_eq_none (by simpa using hi), List.getElem?_eq_none (by simpa using hi)]

/-- A new element goes behind the last one. -/
theorem view_push (hstart : start < cells.length) (hcount : count < cells.length) (x : α) :
    view (cells.set (wrap cells.length (start + count)) x) start (count + 1) =
      view cells start count ++ [x] := by
  rw [view, rotate_set hstart hcount, view, List.take_add_one, List.take_set_of_le (Nat.le_refl _),
    List.getElem?_set_self (by rwa [List.length_rotate])]
  rfl

/-- Writing behind the last element leaves the queue as it is. -/
theorem view_set_free (hstart : start < cells.length) (hcount : count < cells.length) (x : α) :
    view (cells.set (wrap cells.length (start + count)) x) start count = view cells start count := by
  rw [view, rotate_set hstart hcount, List.take_set_of_le (Nat.le_refl _), view]

/-- The oldest element and the rest. -/
theorem view_succ (hstart : start < cells.length) (hcount : count < cells.length) :
    view cells start (count + 1) =
      cells[start] :: view cells (next cells.length start) count := by
  have hhead : (cells.rotate start)[0]? = some cells[start] := by
    rw [List.getElem?_rotate (by omega), Nat.zero_add, Nat.mod_eq_of_lt hstart,
      List.getElem?_eq_getElem hstart]
  cases hrotate : cells.rotate start with
  | nil =>
      rw [hrotate] at hhead
      exact absurd hhead nofun
  | cons a l =>
      rw [hrotate] at hhead
      have hlength := congrArg List.length hrotate
      rw [List.length_rotate, List.length_cons] at hlength
      have hrest : cells.rotate (next cells.length start) = l ++ [a] := by
        rw [rotate_next, ← List.rotate_rotate, hrotate, List.rotate_cons_succ,
          List.rotate_zero]
      rw [view, hrotate, List.take_succ_cons, view, hrest, List.take_append_of_le_length (by omega)]
      rw [← Option.some.inj hhead]

/-- Replacing the oldest element. -/
theorem view_set_head (hstart : start < cells.length) (hcount : count < cells.length) (x : α) :
    view (cells.set start x) start (count + 1) =
      x :: view cells (next cells.length start) count := by
  have hplace : wrap cells.length (start + 0) = start := if_pos hstart
  have hset := rotate_set hstart (Nat.zero_lt_of_lt hstart) x
  rw [hplace] at hset
  rw [view, hset, List.take_set, ← view, view_succ hstart hcount, List.set_cons_zero]

/-- The place of the oldest element is free once the element is taken. -/
theorem view_set_behind (hstart : start < cells.length) (hcount : count < cells.length) (x : α) :
    view (cells.set start x) (next cells.length start) count =
      view cells (next cells.length start) count := by
  have hset : start < (cells.set start x).length := by rwa [List.length_set]
  have hsucc := @view_succ _ _ _ count hset (by rwa [List.length_set])
  rw [view_set_head hstart hcount, List.length_set] at hsucc
  exact (List.cons.inj hsucc).2.symm

theorem next_eq_mod (hstart : start < cells.length) :
    (start + 1) % cells.length = next cells.length start := by
  unfold next
  split
  · rename_i hend
    rw [hend, Nat.mod_self]
  · rename_i hend
    exact Nat.mod_eq_of_lt (Nat.lt_of_le_of_ne hstart hend)

/-- The place behind the last element, as a remainder. -/
theorem view_push_mod (hstart : start < cells.length) (hcount : count < cells.length) (x : α) :
    view (cells.set ((start + count) % cells.length) x) start (count + 1) =
      view cells start count ++ [x] := by
  rw [Nat.add_comm start, ← wrap_eq_mod hstart hcount]
  exact view_push hstart hcount x

theorem view_map {β : Type*} (f : α → β) (cells : List α) (start count : Nat) :
    view (cells.map f) start count = (view cells start count).map f := by
  rw [view, view, List.map_take, List.map_rotate]

end Ring

end Lib
