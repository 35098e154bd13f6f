import Mathlib.Data.List.Basic
import Mathlib.Tactic.SplitIfs
import Zhtps.Http.Syntax

/-!
What the searches of `std.mem` find: the first occurrence of a byte or a text, and the parts of a
text between the occurrences of a byte.
-/

namespace Zhtps

namespace Mem

/-- `std.mem.tokenizeScalar`, run to its end. -/
def tokenizeScalar (c : UInt8) (bytes : Bytes) : List Bytes :=
  (splitScalar c bytes).filter fun token => !token.isEmpty

theorem indexOfScalar_none {bytes : Bytes} {c : UInt8} (h : c ∉ bytes) :
    indexOfScalar bytes c = none := by
  rw [indexOfScalar, List.findIdx?_eq_none_iff]
  intro x hx
  rw [beq_eq_false_iff_ne]
  rintro rfl
  exact h hx

theorem indexOfScalar_first {before after : Bytes} {c : UInt8} (h : c ∉ before) :
    indexOfScalar (before ++ c :: after) c = some before.length := by
  have hnone : before.findIdx? (· == c) = none := indexOfScalar_none h
  rw [indexOfScalar, List.findIdx?_append, hnone, List.findIdx?_cons]
  simp

theorem lastIndexOfScalar_last {before after : Bytes} {c : UInt8} (h : c ∉ after) :
    lastIndexOfScalar (before ++ c :: after) c = some before.length := by
  have hreverse : (before ++ c :: after).reverse = after.reverse ++ c :: before.reverse := by simp
  have hindex : (after.reverse ++ c :: before.reverse).findIdx? (· == c) = some after.length := by
    have hfirst := @indexOfScalar_first after.reverse before.reverse c (by simpa using h)
    rwa [List.length_reverse] at hfirst
  rw [lastIndexOfScalar, hreverse, hindex, Option.map_some, List.length_append, List.length_cons]
  congr 1
  omega

/-- A text with a byte is split at the last one. -/
theorem split_last {bytes : Bytes} {c : UInt8} (h : c ∈ bytes) :
    ∃ before after, bytes = before ++ c :: after ∧ c ∉ after := by
  obtain ⟨before, after, hsplit, hfirst⟩ := List.eq_append_cons_of_mem (List.mem_reverse.mpr h)
  refine ⟨after.reverse, before.reverse, ?_, by simpa using hfirst⟩
  rw [← List.reverse_reverse bytes, hsplit]
  simp

/-- Either a byte is not there, or a text is split at the first one. -/
theorem split_scalar (bytes : Bytes) (c : UInt8) :
    c ∉ bytes ∨ ∃ before after, bytes = before ++ c :: after ∧ c ∉ before := by
  by_cases h : c ∈ bytes
  · obtain ⟨before, after, rfl, hfirst⟩ := List.eq_append_cons_of_mem h
    exact Or.inr ⟨before, after, rfl, hfirst⟩
  · exact Or.inl h

theorem splitScalar_of_not_mem {c : UInt8} {xs : Bytes} (h : c ∉ xs) :
    splitScalar c xs = [xs] := by
  induction xs with
  | nil => rfl
  | cons x xs ih =>
      rw [List.mem_cons, not_or] at h
      simp [splitScalar, Ne.symm h.1, ih h.2]

theorem splitScalar_append {c : UInt8} {xs : Bytes} (ys : Bytes) (h : c ∉ xs) :
    splitScalar c (xs ++ c :: ys) = xs :: splitScalar c ys := by
  induction xs with
  | nil => simp [splitScalar]
  | cons x xs ih =>
      rw [List.mem_cons, not_or] at h
      simp [splitScalar, Ne.symm h.1, ih h.2]

theorem mem_splitScalar (c : UInt8) {x : UInt8} {bytes : Bytes} (h : x ∈ bytes) :
    x = c ∨ ∃ part ∈ splitScalar c bytes, x ∈ part := by
  induction bytes with
  | nil => cases h
  | cons y rest ih =>
      rw [splitScalar]
      split_ifs with hy
      · rcases List.mem_cons.mp h with rfl | h
        · exact Or.inl (by simpa using hy)
        · rcases ih h with rfl | ⟨part, hpart, hx⟩
          · exact Or.inl rfl
          · exact Or.inr ⟨part, List.mem_cons_of_mem _ hpart, hx⟩
      · rcases hsplit : splitScalar c rest with _ | ⟨head, tail⟩
        · rcases List.mem_cons.mp h with rfl | h
          · exact Or.inr ⟨[x], by simp, by simp⟩
          · rcases ih h with rfl | ⟨part, hpart, -⟩
            · exact Or.inl rfl
            · rw [hsplit] at hpart
              cases hpart
        · rcases List.mem_cons.mp h with rfl | h
          · exact Or.inr ⟨x :: head, List.mem_cons_self, List.mem_cons_self⟩
          · rcases ih h with rfl | ⟨part, hpart, hx⟩
            · exact Or.inl rfl
            · rw [hsplit] at hpart
              rcases List.mem_cons.mp hpart with rfl | hpart
              · exact Or.inr ⟨y :: part, List.mem_cons_self, List.mem_cons_of_mem _ hx⟩
              · exact Or.inr ⟨part, List.mem_cons_of_mem _ hpart, hx⟩

/-- A text is found where it stands. -/
theorem indexOf_some {text needle : Bytes} {n : Nat} (h : indexOf text needle = some n) :
    text = text.take n ++ needle ++ text.drop (n + needle.length) := by
  induction text generalizing n with
  | nil =>
      rw [indexOf] at h
      split_ifs at h with hempty
      obtain rfl := Option.some.inj h
      rw [List.isEmpty_iff.mp hempty]
      rfl
  | cons c rest ih =>
      rw [indexOf] at h
      split_ifs at h with hbefore
      · obtain rfl := Option.some.inj h
        obtain ⟨tail, htail⟩ := List.isPrefixOf_iff_prefix.mp hbefore
        rw [← htail, Nat.zero_add, List.take_zero, List.nil_append, List.drop_left]
      · obtain ⟨m, hm, rfl⟩ := Option.map_eq_some_iff.mp h
        rw [List.take_succ_cons, show m + 1 + needle.length = m + needle.length + 1 by omega,
          List.drop_succ_cons, List.cons_append, List.cons_append, ← ih hm]

/-- A text is found behind one that lacks its first byte. -/
theorem indexOf_first {before : Bytes} {c : UInt8} (needle after : Bytes) (h : c ∉ before) :
    indexOf (before ++ (c :: needle ++ after)) (c :: needle) = some before.length := by
  induction before with
  | nil =>
      rw [List.nil_append, List.cons_append, indexOf, if_pos]
      · rfl
      · exact List.isPrefixOf_iff_prefix.mpr (List.prefix_append (c :: needle) after)
  | cons x before ih =>
      rw [List.mem_cons, not_or] at h
      rw [List.cons_append, indexOf, if_neg, ih h.2]
      · rfl
      · intro hbefore
        obtain ⟨tail, htail⟩ := List.isPrefixOf_iff_prefix.mp hbefore
        exact h.1 (List.cons.inj htail).1

end Mem

end Zhtps
