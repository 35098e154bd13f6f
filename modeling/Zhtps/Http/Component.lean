import Zhtps.Http.Grammar

/-!
The components of a URI: bytes of their set, and escapes of two hexadecimal digits.

A byte that is no part of an escape separates components, so that a component may be split at it
and its parts are components again.
-/

namespace Zhtps.Grammar

/-- The bytes of a component that stand for themselves; a path or query has four more. -/
def IsComponentByte (path : Bool) (c : UInt8) : Prop :=
  Syntax.isUnreserved c = true ∨ Syntax.isSubDelimiter c = true ∨
    path = true ∧ (ascii ":@/?").contains c = true

inductive Component (path : Bool) : Bytes → Prop
  | nil : Component path []
  | escape {x y : UInt8} {rest : Bytes} : Syntax.isHex x = true → Syntax.isHex y = true →
      Component path rest → Component path (0x25 :: x :: y :: rest)
  | plain {c : UInt8} {rest : Bytes} : c ≠ 0x25 → IsComponentByte path c → Component path rest →
      Component path (c :: rest)

theorem isUriComponent_iff {path : Bool} {bytes : Bytes} :
    Syntax.isUriComponent path bytes = true ↔ Component path bytes := by
  constructor
  · intro h
    fun_induction Syntax.isUriComponent path bytes with
    | case1 => exact .nil
    | case2 x y rest ih =>
        rw [Bool.and_eq_true, Bool.and_eq_true] at h
        exact .escape h.1.1 h.1.2 (ih h.2)
    | case3 => cases h
    | case4 => cases h
    | case5 c rest _ hpercent hbyte ih =>
        refine .plain (by simpa using hpercent) ?_ (ih h)
        simp only [Bool.and_eq_true, Bool.or_eq_true, Bool.not_eq_true'] at hbyte
        unfold IsComponentByte
        revert hbyte
        cases Syntax.isUnreserved c <;> cases Syntax.isSubDelimiter c <;> cases path <;>
          cases (ascii ":@/?").contains c <;> simp
  · intro h
    induction h with
    | nil => rfl
    | escape hx hy _ ih => rw [Syntax.isUriComponent, hx, hy, ih]; rfl
    | @plain c rest hpercent hbyte _ ih =>
        rw [Syntax.isUriComponent]
        · rw [if_neg (by simpa using hpercent), if_neg ?_, ih]
          rcases hbyte with h | h | ⟨rfl, h⟩
          · simp [h]
          · simp [h]
          · simp [List.contains_iff_mem.mp h]
        · exact fun x y rest hc _ => hpercent hc

theorem Component.append {path : Bool} {a b : Bytes} (ha : Component path a)
    (hb : Component path b) : Component path (a ++ b) := by
  induction ha with
  | nil => exact hb
  | escape hx hy _ ih => exact .escape hx hy ih
  | plain hpercent hbyte _ ih => exact .plain hpercent hbyte ih

/-- A byte that no escape holds separates components. -/
theorem Component.split {path : Bool} {c : UInt8} (hhex : Syntax.isHex c = false)
    (hpercent : c ≠ 0x25) {before after : Bytes} (h : Component path (before ++ c :: after)) :
    Component path before ∧ Component path after := by
  generalize htext : before ++ c :: after = text at h
  induction h generalizing before with
  | nil => simp at htext
  | @escape x y rest hx hy hrest ih =>
      match before, htext with
      | [], htext => exact absurd (List.cons.inj htext).1 hpercent
      | [_], htext =>
          simp only [List.cons_append, List.nil_append, List.cons.injEq] at htext
          rw [htext.2.1, hx] at hhex
          cases hhex
      | [_, _], htext =>
          simp only [List.cons_append, List.nil_append, List.cons.injEq] at htext
          rw [htext.2.2.1, hy] at hhex
          cases hhex
      | _ :: _ :: _ :: before, htext =>
          simp only [List.cons_append, List.cons.injEq] at htext
          obtain ⟨rfl, rfl, rfl, hrest'⟩ := htext
          obtain ⟨hbefore, hafter⟩ := ih hrest'
          exact ⟨.escape hx hy hbefore, hafter⟩
  | @plain d rest hne hbyte hrest ih =>
      cases before with
      | nil =>
          obtain ⟨rfl, rfl⟩ := List.cons.inj htext
          exact ⟨.nil, hrest⟩
      | cons e before =>
          obtain ⟨rfl, hrest'⟩ := List.cons.inj htext
          obtain ⟨hbefore, hafter⟩ := ih hrest'
          exact ⟨.plain hne hbyte hbefore, hafter⟩

/-- The bytes of a component. -/
theorem Component.mem {path : Bool} {bytes : Bytes} (h : Component path bytes) {c : UInt8}
    (hc : c ∈ bytes) : c = 0x25 ∨ Syntax.isHex c = true ∨ IsComponentByte path c := by
  induction h with
  | nil => cases hc
  | escape hx hy _ ih =>
      simp only [List.mem_cons] at hc
      rcases hc with rfl | rfl | rfl | hc
      · exact Or.inl rfl
      · exact Or.inr (Or.inl hx)
      · exact Or.inr (Or.inl hy)
      · exact ih hc
  | plain _ hbyte _ ih =>
      rcases List.mem_cons.mp hc with rfl | hc
      · exact Or.inr (Or.inr hbyte)
      · exact ih hc

end Zhtps.Grammar
