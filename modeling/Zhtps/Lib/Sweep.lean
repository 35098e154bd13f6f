import Zhtps.Lib.SwapRemove

/-!
A descending loop over an array that may lose elements on the way.  The element at a position is
visited, and a visit leaves alone what stands below; so the loop sees every element that was there in
the beginning, and each of them once.
-/

namespace Lib

variable {σ α : Type*} {list : σ → List α} {visit : α → σ → σ → Prop} {first s : σ} {position : Nat}
  {visited : List α}

/-- The loop between two visits: the position it has come down to, what it has visited, and the
state. -/
inductive Sweep (list : σ → List α) (visit : α → σ → σ → Prop) (first : σ) :
    Nat → List α → σ → Prop
  | start : Sweep list visit first (list first).length [] first
  | visit {position : Nat} {visited : List α} {s next : σ} {x : α}
      (h : Sweep list visit first (position + 1) visited s) (hget : (list s)[position]? = some x)
      (hvisit : visit x s next) : Sweep list visit first position (visited ++ [x]) next

/-- The elements that are not visited yet are those below the position, as they were. -/
theorem Sweep.spec {inv : σ → Prop}
    (hvisits : ∀ x s next position, inv s → (list s)[position]? = some x → visit x s next →
      inv next ∧ position ≤ (list next).length ∧ (list next).take position = (list s).take position)
    (hfirst : inv first) (h : Sweep list visit first position visited s) :
    inv s ∧ position ≤ (list s).length ∧ (list s).take position = (list first).take position ∧
      visited ++ ((list first).take position).reverse = (list first).reverse := by
  induction h with
  | start =>
      refine ⟨hfirst, Nat.le_refl _, rfl, ?_⟩
      rw [List.take_length, List.nil_append]
  | @visit position visited s next x h hget hvisit ih =>
      obtain ⟨hinv, -, hsame, hvisited⟩ := ih
      obtain ⟨hnext, hle, hkept⟩ := hvisits x s next position hinv hget hvisit
      have hbelow (xs : List α) : xs.take position = (xs.take (position + 1)).take position := by
        rw [List.take_take, Nat.min_eq_left (Nat.le_succ position)]
      have hx : (list first)[position]? = some x := by
        rw [← hget, ← List.getElem?_take_of_lt (Nat.lt_succ_self position), ← hsame,
          List.getElem?_take_of_lt (Nat.lt_succ_self position)]
      refine ⟨hnext, hle, ?_, ?_⟩
      · rw [hkept, hbelow (list s), hsame, ← hbelow]
      · rw [← hvisited, List.take_add_one, hx, Option.toList_some, List.reverse_append,
          List.reverse_singleton, List.append_assoc]

/-- A loop that has come to its end has visited every element. -/
theorem Sweep.complete {inv : σ → Prop}
    (hvisits : ∀ x s next position, inv s → (list s)[position]? = some x → visit x s next →
      inv next ∧ position ≤ (list next).length ∧ (list next).take position = (list s).take position)
    (hfirst : inv first) (h : Sweep list visit first 0 visited s) :
    visited = (list first).reverse := by
  obtain ⟨-, -, -, hvisited⟩ := h.spec hvisits hfirst
  rw [List.take_zero, List.reverse_nil, List.append_nil] at hvisited
  exact hvisited

/-- Removal at a position touches nothing below it. -/
theorem take_swapRemove {xs : List α} {x : α} (h : xs[position]? = some x) (last : α) :
    position ≤ (swapRemove xs position last).length ∧
      (swapRemove xs position last).take position = xs.take position := by
  obtain ⟨hlt, -⟩ := List.getElem?_eq_some_iff.mp h
  have hlength : position ≤ (xs.set position last).length - 1 := by
    rw [List.length_set]
    omega
  unfold swapRemove
  refine ⟨?_, ?_⟩
  · rw [List.length_dropLast]
    exact hlength
  · rw [List.dropLast_eq_take, List.take_take, Nat.min_eq_left hlength, List.take_set_of_le (Nat.le_refl _)]

end Lib
