import Mathlib

/-!
Lists collected from a finite family.  One member of the family is split off, so that what changes
in it changes its own part of the collection only.
-/

namespace Lib

variable {n : Nat} {α : Type*}

/-- Families of one and of two members are not empty: these give the numerals of their indices. -/
theorem one_neZero : NeZero 1 :=
  ⟨Nat.succ_ne_zero 0⟩

theorem two_neZero : NeZero 2 :=
  ⟨Nat.succ_ne_zero 1⟩

/-- What all members contribute, one after the other. -/
def gather (f : Fin n → List α) : List α := (List.finRange n).flatMap f

/-- What all members but one contribute. -/
def gatherBut (i : Fin n) (f : Fin n → List α) : List α := ((List.finRange n).erase i).flatMap f

theorem mem_gather {f : Fin n → List α} {x : α} : x ∈ gather f ↔ ∃ i, x ∈ f i := by
  simp [gather]

theorem gather_perm (f : Fin n → List α) (i : Fin n) :
    (gather f).Perm (f i ++ gatherBut i f) := by
  have hperm : (List.finRange n).Perm (i :: (List.finRange n).erase i) :=
    List.perm_cons_erase (List.mem_finRange i)
  have := hperm.flatMap_right f
  rwa [List.flatMap_cons] at this

/-- The other members may be replaced by equal ones. -/
theorem gatherBut_congr {i : Fin n} {f g : Fin n → List α} (h : ∀ j, j ≠ i → f j = g j) :
    gatherBut i f = gatherBut i g := by
  refine List.flatMap_congr fun j hj => h j ?_
  rintro rfl
  exact ((List.nodup_finRange n).mem_erase_iff.mp hj).1 rfl

theorem length_gather (f : Fin n → List α) : (gather f).length = ∑ i, (f i).length := by
  rw [gather, List.length_flatMap, Fin.sum_univ_def]

theorem length_gatherBut (i : Fin n) (f : Fin n → List α) :
    (gatherBut i f).length = ∑ j ∈ Finset.univ.erase i, (f j).length := by
  have hlength := (gather_perm f i).length_eq
  have hsum := Finset.add_sum_erase Finset.univ (fun j => (f j).length) (Finset.mem_univ i)
  rw [length_gather, List.length_append] at hlength
  omega

/-- A sum over a family splits likewise. -/
theorem sum_split (f : Fin n → Nat) (i : Fin n) :
    ∑ j, f j = f i + ∑ j ∈ Finset.univ.erase i, f j :=
  (Finset.add_sum_erase Finset.univ f (Finset.mem_univ i)).symm

theorem sum_erase_congr {i : Fin n} {f g : Fin n → Nat} (h : ∀ j, j ≠ i → f j = g j) :
    ∑ j ∈ Finset.univ.erase i, f j = ∑ j ∈ Finset.univ.erase i, g j :=
  Finset.sum_congr rfl fun j hj => h j (Finset.ne_of_mem_erase hj)

end Lib
