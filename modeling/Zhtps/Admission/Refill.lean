import Zhtps.Admission

/-!
Refills in machine words.  `refillBucket` of `src/Admission.zig` works on `u64` balances: with plain
operators where at most a second of credit is added, with saturating ones elsewhere.  Here the plain
operators answer `none` where they would overflow.
-/

namespace Zhtps

namespace Admission

/-! ### Operators on words -/

def addWord (a b : UInt64) : Option UInt64 :=
  if a.toNat + b.toNat ≤ maxU64 then some (a + b) else none

def mulWord (a b : UInt64) : Option UInt64 :=
  if a.toNat * b.toNat ≤ maxU64 then some (a * b) else none

/-- `+|`. -/
def addSatWord (a b : UInt64) : UInt64 := (addWord a b).getD (.ofNat maxU64)

/-- `*|`. -/
def mulSatWord (a b : UInt64) : UInt64 := (mulWord a b).getD (.ofNat maxU64)

/-- `@as(u32, @intCast(a))`. -/
def narrow (a : UInt64) : Option UInt32 := if a.toNat < 2 ^ 32 then some a.toUInt32 else none

theorem addWord_eq {a b : UInt64} (h : a.toNat + b.toNat ≤ maxU64) :
    ∃ c, addWord a b = some c ∧ c.toNat = a.toNat + b.toNat := by
  refine ⟨a + b, if_pos h, ?_⟩
  rw [UInt64.toNat_add]
  unfold maxU64 at h
  omega

theorem mulWord_eq {a b : UInt64} (h : a.toNat * b.toNat ≤ maxU64) :
    ∃ c, mulWord a b = some c ∧ c.toNat = a.toNat * b.toNat := by
  refine ⟨a * b, if_pos h, ?_⟩
  rw [UInt64.toNat_mul]
  unfold maxU64 at h
  omega

theorem toNat_addSatWord (a b : UInt64) :
    (addSatWord a b).toNat = min maxU64 (a.toNat + b.toNat) := by
  unfold addSatWord
  by_cases h : a.toNat + b.toNat ≤ maxU64
  · obtain ⟨c, hc, hvalue⟩ := addWord_eq h
    rw [hc, Option.getD_some, hvalue, Nat.min_eq_right h]
  · rw [addWord, if_neg h, Option.getD_none, Nat.min_eq_left (Nat.le_of_not_le h)]
    rfl

theorem toNat_mulSatWord (a b : UInt64) :
    (mulSatWord a b).toNat = min maxU64 (a.toNat * b.toNat) := by
  unfold mulSatWord
  by_cases h : a.toNat * b.toNat ≤ maxU64
  · obtain ⟨c, hc, hvalue⟩ := mulWord_eq h
    rw [hc, Option.getD_some, hvalue, Nat.min_eq_right h]
  · rw [mulWord, if_neg h, Option.getD_none, Nat.min_eq_left (Nat.le_of_not_le h)]
    rfl

theorem narrow_eq {a : UInt64} (h : a.toNat < 2 ^ 32) :
    ∃ c, narrow a = some c ∧ c.toNat = a.toNat := by
  refine ⟨a.toUInt32, if_pos h, ?_⟩
  rw [UInt64.toNat_toUInt32, Nat.mod_eq_of_lt h]

theorem toNat_min (a b : UInt64) : (min a b).toNat = min a.toNat b.toNat := by
  rw [show min a b = if a ≤ b then a else b from rfl, Nat.min_def]
  simp only [UInt64.le_iff_toNat_le]
  split <;> rfl

/-! ### One bucket -/

/-- `refillBucket` as the source computes it. -/
def refillBucket64 (tokens : UInt64) (burst rate : UInt32) (elapsed : UInt64) : Option UInt64 := do
  let capacity ← mulWord burst.toUInt64 (.ofNat tokenScale)
  if tokens ≥ capacity then return capacity
  if elapsed ≤ .ofNat tokenScale then
    let elapsed ← narrow elapsed
    let credit ← mulWord elapsed.toUInt64 rate.toUInt64
    let balance ← addWord tokens credit
    return min capacity balance
  return min capacity (addSatWord tokens (mulSatWord elapsed rate.toUInt64))

/-- The capacity of a bucket fits a word, with room for one second of credit. -/
theorem capacity_le (burst rate : UInt32) :
    tokenScale * burst.toNat + tokenScale * rate.toNat ≤ maxU64 := by
  have hburst := burst.toNat_lt
  have hrate := rate.toNat_lt
  unfold tokenScale maxU64
  omega

/-- No operator of the source overflows, and the words are those of the model. -/
theorem refillBucket64_eq (tokens : UInt64) (burst rate : UInt32) (elapsed : UInt64) :
    ∃ balance, refillBucket64 tokens burst rate elapsed = some balance ∧
      balance.toNat = refillBucket tokens.toNat burst.toNat rate.toNat elapsed.toNat := by
  have hfits := capacity_le burst rate
  have hscale : (UInt64.ofNat tokenScale).toNat = tokenScale := by rfl
  obtain ⟨capacity, hcapacity, hvalue⟩ :=
    mulWord_eq (a := burst.toUInt64) (b := .ofNat tokenScale) (by
      rw [UInt32.toNat_toUInt64, hscale, Nat.mul_comm]
      omega)
  rw [UInt32.toNat_toUInt64, hscale, Nat.mul_comm] at hvalue
  unfold refillBucket64 refillBucket
  simp only [hcapacity, Option.bind_eq_bind, Option.bind_some, UInt64.le_iff_toNat_le, ge_iff_le,
    hvalue, hscale]
  split
  · exact ⟨capacity, rfl, hvalue⟩
  · rename_i htokens
    split
    · -- At most one second: the product and the sum fit.
      rename_i helapsed
      have hcredit : elapsed.toNat * rate.toNat ≤ tokenScale * rate.toNat :=
        Nat.mul_le_mul_right _ helapsed
      obtain ⟨short, hshort, hnarrow⟩ :=
        narrow_eq (a := elapsed) (by unfold tokenScale at helapsed; omega)
      obtain ⟨credit, hmul, hproduct⟩ :=
        mulWord_eq (a := short.toUInt64) (b := rate.toUInt64) (by
          rw [UInt32.toNat_toUInt64, UInt32.toNat_toUInt64, hnarrow]
          omega)
      rw [UInt32.toNat_toUInt64, UInt32.toNat_toUInt64, hnarrow] at hproduct
      obtain ⟨balance, hadd, hsum⟩ := addWord_eq (a := tokens) (b := credit) (by omega)
      simp only [hshort, hmul, hadd, Option.bind_some]
      refine ⟨_, rfl, ?_⟩
      rw [toNat_min, hvalue, hsum, hproduct]
    · refine ⟨_, rfl, ?_⟩
      rw [toNat_min, hvalue, toNat_addSatWord, toNat_mulSatWord, UInt32.toNat_toUInt64]

/-- Saturation never shows, since a capacity fits a word. -/
theorem refillBucket_eq {tokens burst rate elapsed : Nat} (hburst : burst < 2 ^ 32) :
    refillBucket tokens burst rate elapsed =
      min (tokenScale * burst) (tokens + elapsed * rate) := by
  have hfits : tokenScale * burst ≤ maxU64 := by
    unfold tokenScale maxU64
    omega
  unfold refillBucket
  dsimp only
  split
  · omega
  · split
    · rfl
    · omega

/-- Credit that is added in two parts is capped as if it were added at once. -/
theorem refillBucket_split {tokens burst rate t₀ t₁ t₂ : Nat} (hburst : burst < 2 ^ 32)
    (hle : t₀ ≤ t₁) (hle' : t₁ ≤ t₂) :
    refillBucket (refillBucket tokens burst rate (t₁ - t₀)) burst rate (t₂ - t₁) =
      refillBucket tokens burst rate (t₂ - t₀) := by
  have hcredit : (t₂ - t₀) * rate = (t₁ - t₀) * rate + (t₂ - t₁) * rate := by
    rw [← Nat.add_mul]
    congr 1
    omega
  rw [refillBucket_eq hburst, refillBucket_eq hburst, refillBucket_eq hburst, hcredit]
  omega

/-- **Refills are exact.** For all words `refillBucket` computes the capped sum of balance and
credit, without an overflow; and a refill on the way to a later one changes neither balance. -/
theorem refill_exact :
    (∀ (tokens : UInt64) (burst rate : UInt32) (elapsed : UInt64),
      ∃ balance, refillBucket64 tokens burst rate elapsed = some balance ∧
        balance.toNat = refillBucket tokens.toNat burst.toNat rate.toNat elapsed.toNat ∧
        balance.toNat =
          min (burst.toNat * 10 ^ 9) (tokens.toNat + elapsed.toNat * rate.toNat)) ∧
      ∀ (a : Admission) (t₁ t₂ : Nat),
        a.options.burst < 2 ^ 32 → a.options.rejectionsPerSecond < 2 ^ 32 →
        a.tokens ≤ tokenScale * a.options.burst →
        a.rejectionTokens ≤ tokenScale * a.options.rejectionsPerSecond →
        a.lastRefillNs ≤ t₁ → t₁ ≤ t₂ → (a.refill t₁).refill t₂ = a.refill t₂ := by
  refine ⟨fun tokens burst rate elapsed => ?_,
    fun a t₁ t₂ hburst hrejections _ _ hfirst hsecond => ?_⟩
  · obtain ⟨balance, hbalance, hvalue⟩ := refillBucket64_eq tokens burst rate elapsed
    refine ⟨balance, hbalance, hvalue, ?_⟩
    rw [hvalue, refillBucket_eq burst.toNat_lt, Nat.mul_comm]
    rfl
  · simp only [refill, Admission.mk.injEq, true_and, and_true]
    exact ⟨refillBucket_split hburst hfirst hsecond, refillBucket_split hrejections hfirst hsecond⟩

theorem refill_exact_second :
    (refill (refill { options := { burst := 2, requestsPerSecond := 3 } } 5) tokenScale).tokens =
      (refill { options := { burst := 2, requestsPerSecond := 3 } } tokenScale).tokens :=
  congrArg Admission.tokens
    (refill_exact.2 { options := { burst := 2, requestsPerSecond := 3 } } 5 tokenScale (by decide)
      (by decide) (by decide) (by decide) (by decide) (by decide))

end Admission

end Zhtps
