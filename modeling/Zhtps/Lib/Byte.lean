import Mathlib

/-!
Properties of a byte, checked on the 256 of them.
-/

namespace Lib

theorem forall_byte_iff {p : UInt8 → Prop} :
    (∀ c, p c) ↔ ∀ i : Fin 256, p (UInt8.ofNat i) := by
  constructor
  · intro h i
    exact h _
  · intro h c
    have hc := h ⟨c.toNat, c.toNat_lt⟩
    rwa [UInt8.ofNat_toNat] at hc

instance decidableForallByte (p : UInt8 → Prop) [DecidablePred p] : Decidable (∀ c, p c) :=
  decidable_of_iff _ forall_byte_iff.symm

end Lib
