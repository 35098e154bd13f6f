import Zhtps.Lib.TokenBucket

/-!
Worker-local permits and token buckets, after `src/Admission.zig`.

Counters and balances are natural numbers; the saturating operators of the
source are written out where they can saturate. `release` answers `none`
where the source's assertion would fail, so that a proof that releases are
always matched has something to rule out.
-/

namespace Zhtps

open Lib

def tokenScale : Nat := 1000000000

/-- The largest `u64`, at which `+|` and `*|` stop. -/
def maxU64 : Nat := 2 ^ 64 - 1

inductive Decision | admitted | reject | close
  deriving DecidableEq, Repr

namespace Admission

structure Options where
  maxActive : Nat := 256
  maxRejecting : Nat := 32
  requestsPerSecond : Nat := 0
  burst : Nat := 256
  rejectionsPerSecond : Nat := 1000
  deriving DecidableEq, Repr

end Admission

structure Admission where
  options : Admission.Options := {}
  active : Nat := 0
  rejecting : Nat := 0
  tokens : Nat := 0
  rejectionTokens : Nat := 0
  lastRefillNs : Nat := 0
  deriving DecidableEq, Repr

namespace Admission

/-- Starts with full admission and rejection buckets. -/
def init (options : Options) (nowNs : Nat) : Admission :=
  { options := options
    tokens := tokenScale * options.burst
    rejectionTokens := tokenScale * options.rejectionsPerSecond
    lastRefillNs := nowNs }

def refillBucket (tokens burst rate elapsed : Nat) : Nat :=
  let capacity := tokenScale * burst
  if tokens ≥ capacity then capacity
  else if elapsed ≤ tokenScale then min capacity (tokens + elapsed * rate)
  else min capacity (min maxU64 (tokens + min maxU64 (elapsed * rate)))

/-- Adds elapsed-time credit up to each bucket capacity; backwards time adds
no credit. -/
def refill (a : Admission) (nowNs : Nat) : Admission :=
  let elapsed := nowNs - a.lastRefillNs
  { a with
    lastRefillNs := nowNs
    tokens := refillBucket a.tokens a.options.burst a.options.requestsPerSecond elapsed
    rejectionTokens :=
      refillBucket a.rejectionTokens a.options.rejectionsPerSecond
        a.options.rejectionsPerSecond elapsed }

/-- The test `acquire` and `exhausted` make before admitting. -/
def canAdmit (a : Admission) (draining : Bool) : Bool :=
  !draining && a.active < a.options.maxActive &&
    (a.options.requestsPerSecond == 0 || a.tokens ≥ tokenScale)

/-- Checks current balances without reserving a permit or adding credit. -/
def exhausted (a : Admission) (draining : Bool) : Bool :=
  let canReject := a.rejecting < a.options.maxRejecting && a.rejectionTokens ≥ tokenScale
  !a.canAdmit draining && !canReject

/-- Reserves a rejection permit and token, or returns close without
acquiring either. -/
def acquireRejection (a : Admission) : Admission × Decision :=
  if a.rejecting = a.options.maxRejecting ∨ a.rejectionTokens < tokenScale then (a, .close)
  else
    ({ a with
      rejecting := a.rejecting + 1
      rejectionTokens := a.rejectionTokens - tokenScale }, .reject)

/-- Never waits. Every admission or rejection owns one corresponding
permit, released when the response completes or its connection is
abandoned. -/
def acquire (a : Admission) (nowNs : Nat) (draining : Bool) : Admission × Decision :=
  let a := a.refill nowNs
  if a.canAdmit draining then
    ({ a with
      active := a.active + 1
      tokens := if a.options.requestsPerSecond = 0 then a.tokens else a.tokens - tokenScale },
      .admitted)
  else a.acquireRejection

/-- Returns an acquired permit, asserting that its count is nonzero. -/
def release (a : Admission) : Decision → Option Admission
  | .admitted => if 0 < a.active then some { a with active := a.active - 1 } else none
  | .reject => if 0 < a.rejecting then some { a with rejecting := a.rejecting - 1 } else none
  | .close => some a

/-! ### Runs -/

/-- One call of the interface, with the timestamp the caller passes. -/
inductive Call
  | refill (nowNs : Nat)
  | acquire (nowNs : Nat) (draining : Bool)
  | acquireRejection
  | release (decision : Decision)
  deriving DecidableEq, Repr

/-- How many permits of each kind a run has granted. -/
structure Tally where
  admitted : Nat := 0
  rejected : Nat := 0
  deriving DecidableEq, Repr

def Tally.add (tally : Tally) : Decision → Tally
  | .admitted => { tally with admitted := tally.admitted + 1 }
  | .reject => { tally with rejected := tally.rejected + 1 }
  | .close => tally

def Call.apply (a : Admission) (tally : Tally) : Call → Option (Admission × Tally)
  | .refill nowNs => some (a.refill nowNs, tally)
  | .acquire nowNs draining =>
      some ((a.acquire nowNs draining).1, tally.add (a.acquire nowNs draining).2)
  | .acquireRejection => some (a.acquireRejection.1, tally.add a.acquireRejection.2)
  | .release decision => (a.release decision).map fun a => (a, tally)

/-- A sequence of calls, or `none` once a release assertion fails. -/
def run (a : Admission) (tally : Tally) : List Call → Option (Admission × Tally)
  | [] => some (a, tally)
  | call :: calls => (call.apply a tally).bind fun next => run next.1 next.2 calls

def Call.time? : Call → Option Nat
  | .refill nowNs => some nowNs
  | .acquire nowNs _ => some nowNs
  | .acquireRejection | .release _ => none

/-! ### Credit -/

theorem refillBucket_le (tokens burst rate elapsed : Nat) :
    refillBucket tokens burst rate elapsed ≤ tokens + rate * elapsed := by
  have hcomm := Nat.mul_comm elapsed rate
  unfold refillBucket
  dsimp only
  split
  · omega
  · split <;> omega

/-- Both buckets are covered by their opening balance and the credit of the
time that has passed. -/
structure Bounded (options : Options) (elapsed : Nat) (a : Admission) (tally : Tally) : Prop where
  options_eq : a.options = options
  admitted : 0 < options.requestsPerSecond →
    Covered tokenScale (tokenScale * options.burst) a.tokens tally.admitted
      (options.requestsPerSecond * elapsed)
  rejected : Covered tokenScale (tokenScale * options.rejectionsPerSecond) a.rejectionTokens
    tally.rejected (options.rejectionsPerSecond * elapsed)

theorem bounded_init (options : Options) (nowNs : Nat) :
    Bounded options 0 (init options nowNs) {} :=
  ⟨rfl, fun _ => Covered.start _ _, Covered.start _ _⟩

variable {options : Options} {elapsed : Nat} {a : Admission} {tally : Tally}

/-- Backwards time adds no credit; forward time adds its length, whatever
part of it an earlier call had already credited. -/
theorem Bounded.refill (h : Bounded options elapsed a tally) (nowNs : Nat) :
    Bounded options (elapsed + (nowNs - a.lastRefillNs)) (a.refill nowNs) tally := by
  obtain ⟨hoptions, hadmitted, hrejected⟩ := h
  subst hoptions
  refine ⟨rfl, fun hrate => ?_, ?_⟩
  · rw [Nat.mul_add]
    exact (hadmitted hrate).credit (refillBucket_le _ _ _ _)
  · rw [Nat.mul_add]
    exact hrejected.credit (refillBucket_le _ _ _ _)

theorem Bounded.acquireRejection (h : Bounded options elapsed a tally) :
    Bounded options elapsed a.acquireRejection.1 (tally.add a.acquireRejection.2) := by
  obtain ⟨hoptions, hadmitted, hrejected⟩ := h
  unfold Admission.acquireRejection
  split
  · exact ⟨hoptions, hadmitted, hrejected⟩
  · rename_i hfree
    exact ⟨hoptions, hadmitted, hrejected.spend (by omega)⟩

theorem Bounded.acquire (h : Bounded options elapsed a tally) (nowNs : Nat) (draining : Bool) :
    Bounded options (elapsed + (nowNs - a.lastRefillNs)) (a.acquire nowNs draining).1
      (tally.add (a.acquire nowNs draining).2) := by
  have hfilled := h.refill nowNs
  unfold Admission.acquire
  dsimp only
  split
  · rename_i hadmit
    obtain ⟨hoptions, hadmitted, hrejected⟩ := hfilled
    refine ⟨hoptions, fun hrate => ?_, hrejected⟩
    have hne : (a.refill nowNs).options.requestsPerSecond ≠ 0 := by
      rw [hoptions]
      omega
    have hcost : tokenScale ≤ (a.refill nowNs).tokens := by
      simp only [canAdmit, Bool.and_eq_true, Bool.or_eq_true, beq_iff_eq, hne, false_or,
        decide_eq_true_eq] at hadmit
      exact hadmit.2
    simp only [hne, if_false]
    exact (hadmitted hrate).spend hcost
  · exact hfilled.acquireRejection

/-- The timestamps of a sequence of calls never fall behind the last one
that was used. -/
def Ordered : Nat → List Call → Prop
  | _, [] => True
  | last, call :: calls => last ≤ call.time?.getD last ∧ Ordered (call.time?.getD last) calls

theorem lastRefillNs_acquire (a : Admission) (nowNs : Nat) (draining : Bool) :
    (a.acquire nowNs draining).1.lastRefillNs = nowNs := by
  unfold Admission.acquire Admission.acquireRejection Admission.refill
  dsimp only
  split
  · rfl
  · split <;> rfl

theorem lastRefillNs_acquireRejection (a : Admission) :
    a.acquireRejection.1.lastRefillNs = a.lastRefillNs := by
  unfold Admission.acquireRejection
  split <;> rfl

theorem release_eq {a next : Admission} {decision : Decision}
    (h : a.release decision = some next) :
    next.options = a.options ∧ next.tokens = a.tokens ∧
      next.rejectionTokens = a.rejectionTokens ∧ next.lastRefillNs = a.lastRefillNs := by
  cases decision with
  | admitted =>
      simp only [Admission.release] at h
      split at h <;> cases h
      exact ⟨rfl, rfl, rfl, rfl⟩
  | reject =>
      simp only [Admission.release] at h
      split at h <;> cases h
      exact ⟨rfl, rfl, rfl, rfl⟩
  | close =>
      cases h
      exact ⟨rfl, rfl, rfl, rfl⟩

/-- One call moves the clock to its own timestamp and credits the time in
between. -/
theorem Bounded.apply {call : Call} {next : Admission × Tally}
    (h : Bounded options elapsed a tally) (hstep : call.apply a tally = some next) :
    next.1.lastRefillNs = call.time?.getD a.lastRefillNs ∧
      Bounded options (elapsed + (call.time?.getD a.lastRefillNs - a.lastRefillNs)) next.1
        next.2 := by
  cases call with
  | refill nowNs =>
      cases hstep
      exact ⟨rfl, h.refill nowNs⟩
  | acquire nowNs draining =>
      cases hstep
      exact ⟨lastRefillNs_acquire a nowNs draining, h.acquire nowNs draining⟩
  | acquireRejection =>
      cases hstep
      refine ⟨lastRefillNs_acquireRejection a, ?_⟩
      simpa [Call.time?] using h.acquireRejection
  | release decision =>
      simp only [Call.apply, Option.map_eq_some_iff] at hstep
      obtain ⟨released, hrelease, rfl⟩ := hstep
      obtain ⟨hoptions, htokens, hrejection, hlast⟩ := release_eq hrelease
      refine ⟨hlast, hoptions.trans h.options_eq, fun hrate => ?_, ?_⟩
      · simpa [Call.time?, htokens] using h.admitted hrate
      · simpa [Call.time?, hrejection] using h.rejected

/-- Along calls in clock order the credited time telescopes, so it never
exceeds the interval the calls lie in. -/
theorem Bounded.run {calls : List Call} {final : Admission × Tally} {t₁ : Nat}
    (h : Bounded options elapsed a tally) (hordered : Ordered a.lastRefillNs calls)
    (hwithin : ∀ call ∈ calls, ∀ t, call.time? = some t → t ≤ t₁) (hlast : a.lastRefillNs ≤ t₁)
    (hrun : a.run tally calls = some final) :
    ∃ passed ≤ t₁ - a.lastRefillNs, Bounded options (elapsed + passed) final.1 final.2 := by
  induction calls generalizing a tally elapsed with
  | nil =>
      cases hrun
      exact ⟨0, Nat.zero_le _, h⟩
  | cons call calls ih =>
      rw [Admission.run, Option.bind_eq_some_iff] at hrun
      obtain ⟨next, hstep, hrest⟩ := hrun
      obtain ⟨hclock, hnext⟩ := h.apply hstep
      obtain ⟨hle, hordered⟩ := hordered
      have hnow : call.time?.getD a.lastRefillNs ≤ t₁ := by
        cases htime : call.time? with
        | none => simpa using hlast
        | some t => simpa using hwithin call (by simp) t htime
      obtain ⟨passed, hpassed, hfinal⟩ := ih hnext (by rwa [hclock])
        (fun c hc => hwithin c (by simp [hc])) (by rwa [hclock]) hrest
      rw [hclock] at hpassed
      refine ⟨call.time?.getD a.lastRefillNs - a.lastRefillNs + passed, by omega, ?_⟩
      rwa [← Nat.add_assoc]

/-- **Rate bound.** In every run whose timestamps never go backwards and stay
in `[t₀, t₁]`, admissions are bounded by the burst and the rate over the
interval, and rejections by one second of their rate and the interval. -/
theorem rate_bound_of_ordered (options : Options) (t₀ t₁ : Nat) (calls : List Call)
    (final : Admission × Tally) (hrate : 0 < options.requestsPerSecond) (hle : t₀ ≤ t₁)
    (hwithin : ∀ call ∈ calls, ∀ t, call.time? = some t → t ≤ t₁)
    (hordered : Ordered t₀ calls) (hrun : (init options t₀).run {} calls = some final) :
    tokenScale * final.2.admitted ≤
        tokenScale * options.burst + options.requestsPerSecond * (t₁ - t₀) ∧
      tokenScale * final.2.rejected ≤
        tokenScale * options.rejectionsPerSecond + options.rejectionsPerSecond * (t₁ - t₀) := by
  obtain ⟨passed, hpassed, hfinal⟩ :=
    (bounded_init options t₀).run hordered hwithin hle hrun
  have hcredit (rate : Nat) : rate * (0 + passed) ≤ rate * (t₁ - t₀) :=
    Nat.mul_le_mul_left rate (by simpa [init] using hpassed)
  refine ⟨?_, ?_⟩
  · exact Nat.le_trans (hfinal.admitted hrate).bound (Nat.add_le_add_left (hcredit _) _)
  · exact Nat.le_trans hfinal.rejected.bound (Nat.add_le_add_left (hcredit _) _)

/-- Two admissions a second apart, in clock order. -/
theorem rate_bound_of_ordered_pair :
    Ordered 0 [.acquire 0 false, .acquire tokenScale false] ∧ tokenScale * 2 ≤
      1 * tokenScale + 1 * (tokenScale - 0) :=
  ⟨by simp [Ordered, Call.time?],
    (rate_bound_of_ordered { requestsPerSecond := 1, burst := 1 } 0 tokenScale
      [.acquire 0 false, .acquire tokenScale false]
      ({ options := { requestsPerSecond := 1, burst := 1 }, active := 2, tokens := 0
         rejectionTokens := 1000 * tokenScale, lastRefillNs := tokenScale }, ⟨2, 0⟩)
      (by decide) (by decide)
      (by simp [Call.time?])
      (by simp [Ordered, Call.time?]) (by decide +kernel)).1⟩

/-- A refill with an older timestamp, as `tick` makes after its completions
have acquired at later ones, lets the same second be credited twice: three
admissions where a burst of one and one second at one per second allow two. -/
theorem rate_bound_fails_backwards :
    ∃ final, (init { requestsPerSecond := 1, burst := 1 } 0).run {}
        [.acquire 0 false, .acquire tokenScale false, .refill 0, .acquire tokenScale false] =
        some final ∧
      1 * tokenScale + 1 * (tokenScale - 0) < tokenScale * final.2.admitted :=
  ⟨({ options := { requestsPerSecond := 1, burst := 1 }, active := 3, tokens := 0
      rejectionTokens := 1000 * tokenScale, lastRefillNs := tokenScale }, ⟨3, 0⟩),
    by decide +kernel, by decide⟩

end Admission

end Zhtps
