import Zhtps.Admission.Refill

/-!
Decisions of admission.  In every reachable state the counters and balances are within their
options, and so the two ways in which the source decides to close, by `exhausted` and by `acquire`,
agree.
-/

namespace Zhtps

namespace Admission

/-- Permits and balances within the options. -/
structure Within (a : Admission) : Prop where
  active_le : a.active ≤ a.options.maxActive
  rejecting_le : a.rejecting ≤ a.options.maxRejecting
  tokens_le : a.tokens ≤ tokenScale * a.options.burst
  rejectionTokens_le : a.rejectionTokens ≤ tokenScale * a.options.rejectionsPerSecond

variable {a next : Admission}

theorem refillBucket_le_capacity (tokens burst rate elapsed : Nat) :
    refillBucket tokens burst rate elapsed ≤ tokenScale * burst := by
  unfold refillBucket
  dsimp only
  split
  · exact Nat.le_refl _
  · split <;> exact Nat.min_le_left _ _

theorem within_init (options : Options) (nowNs : Nat) : (init options nowNs).Within :=
  ⟨Nat.zero_le _, Nat.zero_le _, Nat.le_refl _, Nat.le_refl _⟩

/-- Every refill caps the balances, whatever they were. -/
theorem Within.refill (h : a.Within) (nowNs : Nat) : (a.refill nowNs).Within :=
  ⟨h.active_le, h.rejecting_le, refillBucket_le_capacity _ _ _ _, refillBucket_le_capacity _ _ _ _⟩

theorem Within.acquireRejection (h : a.Within) : a.acquireRejection.1.Within := by
  obtain ⟨hactive, hrejecting, htokens, hrejection⟩ := h
  unfold Admission.acquireRejection
  split
  · exact ⟨hactive, hrejecting, htokens, hrejection⟩
  · rename_i hfree
    rw [not_or] at hfree
    refine ⟨hactive, ?_, htokens, ?_⟩
    · show a.rejecting + 1 ≤ a.options.maxRejecting
      omega
    · show a.rejectionTokens - tokenScale ≤ tokenScale * a.options.rejectionsPerSecond
      omega

theorem Within.acquire (h : a.Within) (nowNs : Nat) (draining : Bool) :
    (a.acquire nowNs draining).1.Within := by
  have hfilled := h.refill nowNs
  unfold Admission.acquire
  dsimp only
  split
  · rename_i hadmit
    obtain ⟨-, hrejecting, htokens, hrejection⟩ := hfilled
    have hfree : (a.refill nowNs).active < (a.refill nowNs).options.maxActive := by
      simp only [canAdmit, Bool.and_eq_true, decide_eq_true_eq] at hadmit
      exact hadmit.1.2
    refine ⟨hfree, hrejecting, ?_, hrejection⟩
    show (if _ then _ else _) ≤ tokenScale * (a.refill nowNs).options.burst
    split
    · exact htokens
    · exact Nat.le_trans (Nat.sub_le _ _) htokens
  · exact hfilled.acquireRejection

theorem Within.release (h : a.Within) {decision : Decision}
    (hnext : a.release decision = some next) : next.Within := by
  obtain ⟨hactive, hrejecting, htokens, hrejection⟩ := h
  cases decision with
  | admitted =>
      simp only [Admission.release] at hnext
      split at hnext <;> cases hnext
      exact ⟨Nat.le_trans (Nat.sub_le _ _) hactive, hrejecting, htokens, hrejection⟩
  | reject =>
      simp only [Admission.release] at hnext
      split at hnext <;> cases hnext
      exact ⟨hactive, Nat.le_trans (Nat.sub_le _ _) hrejecting, htokens, hrejection⟩
  | close =>
      cases hnext
      exact ⟨hactive, hrejecting, htokens, hrejection⟩

theorem Within.apply (h : a.Within) {tally : Tally} {call : Call} {outcome : Admission × Tally}
    (hstep : call.apply a tally = some outcome) : outcome.1.Within := by
  cases call with
  | refill nowNs =>
      cases hstep
      exact h.refill nowNs
  | acquire nowNs draining =>
      cases hstep
      exact h.acquire nowNs draining
  | acquireRejection =>
      cases hstep
      exact h.acquireRejection
  | release decision =>
      obtain ⟨released, hrelease, rfl⟩ := Option.map_eq_some_iff.mp hstep
      exact h.release hrelease

theorem Within.run {calls : List Call} {tally : Tally} {outcome : Admission × Tally}
    (h : a.Within) (hrun : a.run tally calls = some outcome) : outcome.1.Within := by
  induction calls generalizing a tally with
  | nil =>
      cases hrun
      exact h
  | cons call calls ih =>
      rw [Admission.run, Option.bind_eq_some_iff] at hrun
      obtain ⟨middle, hstep, hrest⟩ := hrun
      exact ih (h.apply hstep) hrest

/-! ### Closing -/

/-- A refill at this time adds no credit. -/
def NoCredit (a : Admission) (nowNs : Nat) : Prop :=
  (a.refill nowNs).tokens = a.tokens ∧ (a.refill nowNs).rejectionTokens = a.rejectionTokens

theorem refillBucket_zero {tokens burst : Nat} (rate : Nat) (h : tokens ≤ tokenScale * burst) :
    refillBucket tokens burst rate 0 = tokens := by
  unfold refillBucket
  dsimp only
  split
  · omega
  · rw [if_pos (Nat.zero_le _), Nat.zero_mul, Nat.add_zero]
    exact Nat.min_eq_right h

/-- A clock that does not advance adds none. -/
theorem Within.noCredit (h : a.Within) {nowNs : Nat} (hpast : nowNs ≤ a.lastRefillNs) :
    a.NoCredit nowNs := by
  unfold NoCredit Admission.refill
  dsimp only
  rw [Nat.sub_eq_zero_of_le hpast]
  exact ⟨refillBucket_zero _ h.tokens_le, refillBucket_zero _ h.rejectionTokens_le⟩

theorem acquireRejection_close :
    a.acquireRejection.2 = .close ↔
      a.rejecting = a.options.maxRejecting ∨ a.rejectionTokens < tokenScale := by
  unfold acquireRejection
  split
  · rename_i hclosed
    exact ⟨fun _ => hclosed, fun _ => rfl⟩
  · rename_i hfree
    exact ⟨nofun, fun hclosed => absurd hclosed hfree⟩

/-- A decision to close takes nothing. -/
theorem acquireRejection_of_close (h : a.acquireRejection.2 = .close) :
    a.acquireRejection.1 = a := by
  unfold acquireRejection
  rw [if_pos (acquireRejection_close.mp h)]

theorem acquire_of_close {nowNs : Nat} {draining : Bool} (h : (a.acquire nowNs draining).2 = .close) :
    (a.acquire nowNs draining).1 = a.refill nowNs := by
  unfold acquire at h ⊢
  dsimp only at h ⊢
  split at h
  · cases h
  · rename_i hfull
    rw [if_neg hfull]
    exact acquireRejection_of_close h

/-- The comparisons of `exhausted` are those of `acquire`: a counter that is not below its limit is
at it. -/
theorem Within.exhausted_iff (h : a.Within) (draining : Bool) {nowNs : Nat}
    (hcredit : a.NoCredit nowNs) :
    a.exhausted draining = true ↔ (a.acquire nowNs draining).2 = .close := by
  obtain ⟨htokens, hrejection⟩ := hcredit
  have hsame : (a.refill nowNs).canAdmit draining = a.canAdmit draining := by
    unfold canAdmit
    rw [htokens]
    rfl
  have hreject : (a.refill nowNs).acquireRejection.2 = .close ↔
      ¬(a.rejecting < a.options.maxRejecting ∧ tokenScale ≤ a.rejectionTokens) := by
    have hle := h.rejecting_le
    rw [acquireRejection_close, hrejection]
    show a.rejecting = a.options.maxRejecting ∨ _ ↔ _
    omega
  unfold exhausted Admission.acquire
  dsimp only
  rw [hsame]
  cases a.canAdmit draining with
  | true => simp
  | false =>
      rw [if_neg Bool.false_ne_true, hreject]
      simp only [Bool.not_false, Bool.true_and, Bool.not_eq_true', Bool.and_eq_false_iff,
        decide_eq_false_iff_not, ge_iff_le]
      exact Decidable.not_and_iff_not_or_not.symm

/-- **Decisions agree.** Along every run permits and balances stay within their options; in the
state reached `exhausted` says that an acquire without new credit would close; and a decision to
close changes nothing beyond the refill. -/
theorem decisions_agree (options : Options) (t₀ : Nat) (calls : List Call)
    (final : Admission × Tally) (hrun : (init options t₀).run {} calls = some final) :
    final.1.Within ∧
      (∀ draining nowNs, final.1.NoCredit nowNs →
        (final.1.exhausted draining = true ↔ (final.1.acquire nowNs draining).2 = .close)) ∧
      (∀ nowNs, nowNs ≤ final.1.lastRefillNs → final.1.NoCredit nowNs) ∧
      (∀ draining nowNs, (final.1.acquire nowNs draining).2 = .close →
        (final.1.acquire nowNs draining).1 = final.1.refill nowNs) ∧
      (final.1.acquireRejection.2 = .close → final.1.acquireRejection.1 = final.1) := by
  have hwithin := (within_init options t₀).run hrun
  exact ⟨hwithin, fun draining _ hcredit => hwithin.exhausted_iff draining hcredit,
    fun _ hpast => hwithin.noCredit hpast, fun _ _ hclose => acquire_of_close hclose,
    acquireRejection_of_close⟩

/-- One permit for work and one for a rejection, both taken. -/
theorem decisions_agree_full :
    ∃ final, (init { maxActive := 1, maxRejecting := 1 } 0).run {}
        [.acquire 0 false, .acquire 0 false] = some final ∧
      (final.1.exhausted false = true ↔ (final.1.acquire 0 false).2 = .close) := by
  obtain ⟨final, hrun⟩ := Option.isSome_iff_exists.mp (show
    ((init { maxActive := 1, maxRejecting := 1 } 0).run {}
      [.acquire 0 false, .acquire 0 false]).isSome = true by decide +kernel)
  have hagree := decisions_agree _ _ _ final hrun
  have hlast : final.1.lastRefillNs = 0 := by
    have hsome : some final.1.lastRefillNs = some 0 := by
      rw [show some final.1.lastRefillNs = (some final).map fun f => f.1.lastRefillNs from rfl,
        ← hrun]
      decide +kernel
    exact Option.some.inj hsome
  exact ⟨final, hrun, hagree.2.1 false 0 (hagree.2.2.1 0 (Nat.le_of_eq hlast.symm))⟩

end Admission

end Zhtps
