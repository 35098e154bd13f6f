import Mathlib

/-!
Runs of a partial step function.  A system is given by `step : σ → α → Option σ`, where `none` says
that the action is not enabled.  A run is a list of actions; an invariant is proved for one step and
then holds along every run, possibly only for the runs whose steps all satisfy a guard on the state
before the step.
-/

namespace Lib

variable {σ α : Type*}

/-- Executes the actions in order; `none` when one of them is not enabled. -/
def run (step : σ → α → Option σ) : σ → List α → Option σ
  | s, [] => some s
  | s, a :: as => (step s a).bind fun s' => run step s' as

/-- Every step of the run starts in a state that satisfies the guard for its action. -/
def Guarded (step : σ → α → Option σ) (guard : σ → α → Prop) : σ → List α → Prop
  | _, [] => True
  | s, a :: as => guard s a ∧ ∀ s', step s a = some s' → Guarded step guard s' as

@[simp]
theorem run_nil (step : σ → α → Option σ) (s : σ) : run step s [] = some s := rfl

theorem run_cons {step : σ → α → Option σ} {s s' : σ} {a : α} {as : List α} :
    run step s (a :: as) = some s' ↔ ∃ t, step s a = some t ∧ run step t as = some s' := by
  simp only [run, Option.bind_eq_some_iff]

theorem run_append (step : σ → α → Option σ) (as bs : List α) :
    ∀ s : σ, run step s (as ++ bs) = (run step s as).bind fun s' => run step s' bs := by
  induction as with
  | nil => exact fun s => rfl
  | cons a as ih =>
      intro s
      rw [List.cons_append, run, run, Option.bind_assoc]
      exact congrArg _ (funext ih)

/-- An invariant that every guarded step preserves holds at the end of every guarded run. -/
theorem run_invariant_of_guarded {step : σ → α → Option σ} {guard : σ → α → Prop}
    {inv : σ → Prop} (hstep : ∀ s a s', inv s → guard s a → step s a = some s' → inv s') :
    ∀ (as : List α) (s s' : σ), inv s → Guarded step guard s as →
      run step s as = some s' → inv s'
  | [], s, s', hs, _, h => by
      rw [run_nil, Option.some.injEq] at h
      exact h ▸ hs
  | a :: as, s, s', hs, hg, h => by
      obtain ⟨t, ht, hrun⟩ := run_cons.mp h
      exact run_invariant_of_guarded hstep as t s' (hstep s a t hs hg.1 ht) (hg.2 t ht) hrun

/-- An invariant that every step preserves holds at the end of every run. -/
theorem run_invariant {step : σ → α → Option σ} {inv : σ → Prop}
    (hstep : ∀ s a s', inv s → step s a = some s' → inv s') :
    ∀ (as : List α) (s s' : σ), inv s → run step s as = some s' → inv s'
  | [], s, s', hs, h => by
      rw [run_nil, Option.some.injEq] at h
      exact h ▸ hs
  | a :: as, s, s', hs, h => by
      obtain ⟨t, ht, hrun⟩ := run_cons.mp h
      exact run_invariant hstep as t s' (hstep s a t hs ht) hrun

/-- Where each step is a step of another system on what a function makes of the states, so is each
run. -/
theorem run_map {τ : Type*} {step : σ → α → Option σ} {other : τ → α → Option τ} {f : σ → τ}
    (hstep : ∀ s a, (step s a).map f = other (f s) a) :
    ∀ (as : List α) (s : σ), (run step s as).map f = run other (f s) as
  | [], _ => rfl
  | a :: as, s => by
      rw [run, run, ← hstep]
      cases step s a with
      | none => rfl
      | some t => exact run_map hstep as t

/-- Runs the actions while a test accepts each step. -/
def accepts (step : σ → α → Option σ) (test : σ → α → Bool) : σ → List α → Bool
  | _, [] => true
  | s, a :: as => test s a && ((step s a).map fun s' => accepts step test s' as).getD true

/-- A guard that a computable test implies can be checked by running the test. -/
theorem guarded_of_accepts {step : σ → α → Option σ} {guard : σ → α → Prop}
    (test : σ → α → Bool) (htest : ∀ s a, test s a = true → guard s a) :
    ∀ (as : List α) (s : σ), accepts step test s as = true → Guarded step guard s as
  | [], _, _ => trivial
  | a :: as, s, h => by
      rw [accepts, Bool.and_eq_true] at h
      refine ⟨htest s a h.1, ?_⟩
      intro s' hs'
      have hrest := h.2
      rw [hs', Option.map_some, Option.getD_some] at hrest
      exact guarded_of_accepts test htest as s' hrest

/-- Executes the actions in order and collects what they answer. -/
def trace {ω : Type*} (step : σ → α → Option (σ × ω)) : σ → List α → Option (σ × List ω)
  | s, [] => some (s, [])
  | s, a :: as =>
      (step s a).bind fun next => (trace step next.1 as).map fun last => (last.1, next.2 :: last.2)

/-- Where each step of the abstract system is a step of the concrete one with the same answer, so is
each trace. -/
theorem trace_refines {τ ω : Type*} {abstract : τ → α → Option (τ × ω)}
    {concrete : σ → α → Option (σ × ω)} {related : σ → τ → Prop}
    (hstep : ∀ s t a t' o, related s t → abstract t a = some (t', o) →
      ∃ s', concrete s a = some (s', o) ∧ related s' t') :
    ∀ (as : List α) (s : σ) (t t' : τ) (os : List ω), related s t →
      trace abstract t as = some (t', os) → ∃ s', trace concrete s as = some (s', os) ∧ related s' t'
  | [], s, t, t', os, hrelated, h => by
      obtain ⟨rfl, rfl⟩ := Prod.mk.inj (Option.some.inj h)
      exact ⟨s, rfl, hrelated⟩
  | a :: as, s, t, t', os, hrelated, h => by
      obtain ⟨⟨next, o⟩, hfirst, hrest⟩ := Option.bind_eq_some_iff.mp h
      obtain ⟨⟨last, rest⟩, htrace, hlast⟩ := Option.map_eq_some_iff.mp hrest
      obtain ⟨rfl, rfl⟩ := Prod.mk.inj hlast
      obtain ⟨s', hs, hnext⟩ := hstep s t a next o hrelated hfirst
      obtain ⟨s'', hs', hend⟩ := trace_refines hstep as s' next last rest hnext htrace
      refine ⟨s'', ?_, hend⟩
      rw [trace, hs, Option.bind_some, hs']
      rfl

end Lib
