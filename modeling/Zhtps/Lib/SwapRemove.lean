import Mathlib

/-!
Removal from an unordered array in constant time: the last element takes the place of the one that
leaves.  A position map finds every element, and removal repairs it for the element that moved.
-/

namespace Lib

open List

variable {α : Type*}

/-- The array without the element at a position. -/
def swapRemove (list : List α) (position : Nat) (last : α) : List α :=
  (list.set position last).dropLast

/-- Every element stands where the map says. -/
def Located (list : List α) (position : α → Nat) : Prop :=
  ∀ x ∈ list, list[position x]? = some x

/-- Removal takes one element out and keeps the others. -/
theorem swapRemove_perm {list : List α} {position : Nat} {x d : α}
    (h : list[position]? = some x) :
    (x :: swapRemove list position (list.getLastD d)).Perm list := by
  obtain ⟨hlt, hget⟩ := List.getElem?_eq_some_iff.mp h
  have hne : list ≠ [] := by
    rintro rfl
    simp at hlt
  obtain ⟨init, last, rfl⟩ := List.eq_nil_or_concat list |>.resolve_left hne
  simp only [List.concat_eq_append, List.length_append, List.length_singleton] at hlt hget ⊢
  have hlast : (init ++ [last]).getLastD d = last := by
    rw [List.getLastD_eq_getLast?, List.getLast?_concat, Option.getD_some]
  rw [hlast, swapRemove]
  by_cases hend : position = init.length
  · subst hend
    simp only [List.getElem_concat_length] at hget
    subst hget
    simp only [List.set_append_right, Nat.le_refl, Nat.sub_self, List.set_cons_zero,
      List.dropLast_concat]
    exact (List.perm_append_singleton _ _).symm
  · have hin : position < init.length := by omega
    rw [List.set_append_left _ _ hin, List.dropLast_concat]
    rw [List.getElem_append_left hin] at hget
    have hset : (init.set position last) = init.take position ++ last :: init.drop (position + 1) :=
      List.set_eq_take_append_cons_drop .. |>.trans (by rw [if_pos hin])
    have hinit : init = init.take position ++ x :: init.drop (position + 1) := by
      rw [← hget, ← List.drop_eq_getElem_cons hin, List.take_append_drop]
    calc x :: init.set position last
        = x :: (init.take position ++ last :: init.drop (position + 1)) := by rw [hset]
      _ ~ x :: last :: (init.take position ++ init.drop (position + 1)) :=
          List.Perm.cons _ List.perm_middle
      _ ~ last :: x :: (init.take position ++ init.drop (position + 1)) := List.Perm.swap ..
      _ ~ last :: (init.take position ++ x :: init.drop (position + 1)) :=
          List.Perm.cons _ List.perm_middle.symm
      _ = last :: init := by rw [← hinit]
      _ ~ init ++ [last] := (List.perm_append_singleton _ _).symm

theorem mem_swapRemove {list : List α} {position : Nat} {x d : α} (hnodup : list.Nodup)
    (h : list[position]? = some x) (y : α) :
    y ∈ swapRemove list position (list.getLastD d) ↔ y ∈ list ∧ y ≠ x := by
  have hperm := swapRemove_perm (d := d) h
  have hnot : x ∉ swapRemove list position (list.getLastD d) :=
    (List.nodup_cons.mp (hperm.nodup_iff.mpr hnodup)).1
  rw [← hperm.mem_iff, List.mem_cons]
  constructor
  · intro hy
    exact ⟨Or.inr hy, fun heq => hnot (heq ▸ hy)⟩
  · rintro ⟨heq | hy, hne⟩
    · exact absurd heq hne
    · exact hy

theorem nodup_swapRemove {list : List α} {position : Nat} {x d : α} (hnodup : list.Nodup)
    (h : list[position]? = some x) : (swapRemove list position (list.getLastD d)).Nodup :=
  (List.nodup_cons.mp ((swapRemove_perm (d := d) h).nodup_iff.mpr hnodup)).2

/-- The moved element is found at the place that became free. -/
theorem Located.swapRemove [DecidableEq α] {list : List α} {position : α → Nat} {x d : α}
    (hloc : Located list position) (hnodup : list.Nodup) (hx : x ∈ list) :
    Located (Lib.swapRemove list (position x) (list.getLastD d))
      (fun y => if y = list.getLastD d then position x else position y) := by
  intro y hy
  have hgetx := hloc x hx
  obtain ⟨hlist, hne⟩ := (mem_swapRemove hnodup hgetx y).mp hy
  have hgety := hloc y hlist
  obtain ⟨hltx, hvalx⟩ := List.getElem?_eq_some_iff.mp hgetx
  obtain ⟨hlty, hvaly⟩ := List.getElem?_eq_some_iff.mp hgety
  have hlen : (list.set (position x) (list.getLastD d)).length = list.length := List.length_set
  have hlastget : list[list.length - 1]? = some (list.getLastD d) := by
    cases list with
    | nil => simp at hltx
    | cons a as =>
        rw [← List.getLast?_eq_getElem?, List.getLast?_cons, List.getLastD_cons,
          List.getLastD_eq_getLast?]
  -- A position below the last one is not affected by `dropLast`.
  have hkeep : ∀ i, i < list.length - 1 →
      (Lib.swapRemove list (position x) (list.getLastD d))[i]? =
        (list.set (position x) (list.getLastD d))[i]? := by
    intro i hi
    rw [Lib.swapRemove, List.getElem?_dropLast, if_pos (by omega)]
  dsimp only
  split
  · rename_i hlast
    have hpos : position x < list.length - 1 := by
      by_contra hge
      have : position x = list.length - 1 := by omega
      rw [this, hlastget, Option.some.injEq] at hgetx
      exact hne (hlast.trans hgetx)
    rw [hkeep _ hpos, List.getElem?_set_self hltx, hlast]
  · rename_i hlast
    have hpos : position y < list.length - 1 := by
      by_contra hge
      have : position y = list.length - 1 := by omega
      rw [this, hlastget, Option.some.injEq] at hgety
      exact hlast hgety.symm
    have hdiff : position x ≠ position y := by
      intro heq
      rw [heq, hgety, Option.some.injEq] at hgetx
      exact hne hgetx
    rw [hkeep _ hpos, List.getElem?_set_ne hdiff, hgety]

end Lib
