import Zhtps.Lib.Sweep
import Zhtps.Worker.Roster
import Zhtps.Worker.Safety

/-!
The loops of `tick` and `finishApplications` over the active slots.  Each visits a slot with its whole
chain of calls, in which the slot may close and the last active slot takes its place; executor threads
step meanwhile.  Every slot that was active when the loop began is visited once, while it is open.
-/

namespace Zhtps.Worker

variable {n : Nat} {config : Config} {publicSlots : Nat} {options : Admission.Options} {now : Nat}
  {events : List (Event n)} {first w next : Worker n} {i : Fin n}

/-- What goes on during a visit: its calls, and the threads of the executor. -/
def Event.Inner : Event n → Prop
  | .call _ | .takeTask _ | .pushCompletion .. => True
  | _ => False

/-- The loops, and what their bodies visit a slot for. -/
inductive Loop
  | tick
  | finishApplications

def Loop.Visits : Loop → Visit → Prop
  | .tick, .tick _ => True
  | .finishApplications, .pumpApplication => True
  | _, _ => False

/-- A visit of a slot from its beginning to the end of its last call. -/
def Visits (config : Config) (loop : Loop) (index : Nat) (w next : Worker n) : Prop :=
  ∃ (i : Fin n) (visit : Visit) (started : Worker n) (events : List (Event n)),
    i.val = index ∧ loop.Visits visit ∧ w.step config (.visit i visit) = some started ∧
      (∀ event ∈ events, event.Inner) ∧ started.run config events = some next ∧ next.current = none

/-- The loop over the active slots. -/
abbrev Sweeps (config : Config) (loop : Loop) (first : Worker n) :
    Nat → List Nat → Worker n → Prop :=
  Lib.Sweep (fun w => w.shared.activeSlots) (Visits config loop) first

theorem resume_current {result : Cell × Next} {j : Fin n} {call : Call}
    (h : (w.resume i result).current = some (j, call)) : j = i := by
  obtain ⟨cell, last⟩ := result
  cases last with
  | done => cases h
  | call made => exact (congrArg Prod.fst (Option.some.inj h)).symm

/-- A call that lets the slot leave is the last one. -/
theorem departs_run {result : Cell × Next} (hdeparts : Cell.Departs i.val (w.cell i) result)
    (h : next.shared.roster = (w.resume i result).shared.roster ∨
      (w.resume i result).current ≠ none ∧
        next.shared.roster = without i.val (w.resume i result).shared.roster) :
    next.shared.roster = w.shared.roster ∨ next.shared.roster = without i.val w.shared.roster := by
  obtain ⟨cell, last⟩ := result
  rcases h with hsame | ⟨hbusy, hgone⟩
  · rcases hdeparts with hkept | ⟨-, hleft⟩
    · exact Or.inl (hsame.trans hkept)
    · exact Or.inr (hsame.trans hleft)
  · rcases hdeparts with hkept | ⟨hdone, -⟩
    · exact Or.inr (hgone.trans (congrArg (without i.val) hkept))
    · obtain rfl : last = .done := hdone
      exact absurd rfl hbusy

/-- The rest of a visit takes at most the visited slot off the roster. -/
theorem run_roster (hinner : ∀ event ∈ events, event.Inner) (hrun : w.run config events = some next)
    (hcurrent : ∀ j call, w.current = some (j, call) → j = i) :
    next.shared.roster = w.shared.roster ∨
      w.current ≠ none ∧ next.shared.roster = without i.val w.shared.roster := by
  induction events generalizing w with
  | nil =>
      obtain rfl := Option.some.inj hrun
      exact Or.inl rfl
  | cons event rest ih =>
      obtain ⟨middle, hstep, hrest⟩ := Lib.run_cons.mp hrun
      have hafter := fun hmiddle => @ih middle
        (fun other hmem => hinner other (List.mem_cons_of_mem _ hmem)) hrest hmiddle
      -- a thread changes neither the roster nor the call under way
      have hthread (hroster : middle.shared.roster = w.shared.roster)
          (hsame : middle.current = w.current) : next.shared.roster = w.shared.roster ∨
            w.current ≠ none ∧ next.shared.roster = without i.val w.shared.roster := by
        rw [hsame, hroster] at hafter
        exact hafter hcurrent
      cases event with
      | call choice =>
          obtain ⟨⟨j, call⟩, hcall, hmiddle⟩ := Option.map_eq_some_iff.mp hstep
          obtain rfl := hcurrent j call hcall
          dsimp only at hmiddle
          subst hmiddle
          have hnone : w.current ≠ none := by
            rw [hcall]
            exact Option.some_ne_none _
          exact (departs_run (Cell.dispatch_departs call) (hafter fun _ _ => resume_current)).imp_right
            fun hgone => ⟨hnone, hgone⟩
      | takeTask lane =>
          obtain ⟨executor, -, rfl⟩ := Option.map_eq_some_iff.mp hstep
          exact hthread rfl rfl
      | pushCompletion index position response expired =>
          simp only [step] at hstep
          split at hstep
          · cases hstep
          · split at hstep
            · cases hstep
            · obtain rfl := Option.some.inj hstep
              exact hthread rfl rfl
      | visit j visit => exact absurd (hinner _ (List.mem_cons_self ..)) id
      | refill time => exact absurd (hinner _ (List.mem_cons_self ..)) id
      | beginShutdown => exact absurd (hinner _ (List.mem_cons_self ..)) id
      | stopOperations late => exact absurd (hinner _ (List.mem_cons_self ..)) id

theorem visit_departs {loop : Loop} {visit : Visit} {cell : Cell} {index : Nat} {result : Cell × Next}
    (hloop : loop.Visits visit) (h : cell.visit config index visit = some result) :
    Cell.Departs index cell result := by
  cases visit with
  | tick clock =>
      simp only [Cell.visit] at h
      split at h
      · cases h
      · obtain rfl := Option.some.inj h
        exact Cell.tick_departs clock
  | pumpApplication =>
      simp only [Cell.visit] at h
      split at h
      · cases h
      · obtain rfl := Option.some.inj h
        exact Cell.pumpApplication_departs
  | _ => cases loop <;> exact absurd hloop id

/-- A visit takes at most the visited slot off the roster. -/
theorem Visits.roster {loop : Loop} {index : Nat} (h : Visits config loop index w next) :
    next.shared.roster = w.shared.roster ∨
      next.shared.roster = without index w.shared.roster := by
  obtain ⟨i, visit, started, events, rfl, hloop, hstep, hinner, hrun, -⟩ := h
  simp only [step] at hstep
  split at hstep
  · cases hstep
  · obtain ⟨result, hvisit, hstarted⟩ := Option.map_eq_some_iff.mp hstep
    subst hstarted
    exact departs_run (visit_departs hloop hvisit) (run_roster hinner hrun fun _ _ => resume_current)

theorem Visits.consistent {loop : Loop} {index : Nat} (h : Visits config loop index w next)
    (hw : w.Consistent config publicSlots) : next.Consistent config publicSlots := by
  obtain ⟨i, visit, started, events, -, -, hstep, -, hrun, -⟩ := h
  exact Lib.run_invariant (fun _ _ _ h hstep => step_consistent h hstep) events _ _
    (step_consistent hw hstep) hrun

/-- A visit leaves the slots at lower positions alone. -/
theorem visits_below {loop : Loop} (index : Nat) (w next : Worker n) (position : Nat)
    (hw : w.Consistent config publicSlots) (hget : w.shared.activeSlots[position]? = some index)
    (h : Visits config loop index w next) :
    next.Consistent config publicSlots ∧ position ≤ next.shared.activeSlots.length ∧
      next.shared.activeSlots.take position = w.shared.activeSlots.take position := by
  refine ⟨h.consistent hw, ?_⟩
  obtain ⟨⟨hnodup, -⟩, ⟨hlocated, -⟩, -⟩ := hw.1.2.2.2.1
  obtain ⟨hlt, hvalue⟩ := List.getElem?_eq_some_iff.mp hget
  rcases h.roster with hsame | hgone
  · rw [(Prod.mk.inj hsame).1]
    exact ⟨Nat.le_of_lt hlt, rfl⟩
  · have hposition : w.shared.activePosition index = position := by
      obtain ⟨hlt', hvalue'⟩ :=
        List.getElem?_eq_some_iff.mp (hlocated index (List.mem_of_getElem? hget))
      exact hnodup.getElem_inj_iff.mp (hvalue'.trans hvalue.symm)
    have hactive := (Prod.mk.inj hgone).1
    dsimp only [Shared.roster] at hactive
    rw [hposition] at hactive
    rw [hactive]
    exact Lib.take_swapRemove hget _

/-- Whatever the visits do, `tick` and `finishApplications` never look past the active slots, the slot
that is next is open and was not visited before, and at the end every slot that was active in the
beginning has been visited once. -/
theorem sweep_complete (hrun : (init n config publicSlots options now).run config events = some first)
    (loop : Loop) {position : Nat} {visited : List Nat}
    (hsweep : Sweeps config loop first position visited w) :
    position ≤ w.shared.activeSlots.length ∧
    (∀ below, position = below + 1 → ∃ i : Fin n, w.shared.activeSlots[below]? = some i.val ∧
      (w.slots i).fd.isSome = true ∧ i.val ∉ visited) ∧
    (position = 0 → visited = first.shared.activeSlots.reverse ∧ visited.Nodup) := by
  have hfirst : first.Consistent config publicSlots := run_consistent hrun
  obtain ⟨hw, hle, hsame, hvisited⟩ := hsweep.spec visits_below hfirst
  have hnodup : first.shared.activeSlots.Nodup := hfirst.1.2.2.2.1.1.1
  refine ⟨hle, fun below hposition => ?_, fun hzero => ?_⟩
  · have hlt : below < w.shared.activeSlots.length := by omega
    have hmem : w.shared.activeSlots[below] ∈ w.shared.activeSlots := List.getElem_mem hlt
    obtain ⟨i, hi, hopen⟩ := (hw.1.2.2.2.1.1.2 _).mp hmem
    refine ⟨i, ?_, hopen, fun hin => ?_⟩
    · rw [List.getElem?_eq_getElem hlt, hi]
    · -- the slots below the position and the visited ones are apart
      have happart := hvisited ▸ List.nodup_reverse.mpr hnodup
      refine (List.nodup_append.mp happart).2.2 _ hin _ ?_ rfl
      rw [List.mem_reverse, ← hsame, hi]
      exact List.mem_take_iff_getElem.mpr ⟨below, by omega, rfl⟩
  · subst hzero
    have hall := hsweep.complete visits_below hfirst
    exact ⟨hall, hall ▸ List.nodup_reverse.mpr hnodup⟩

attribute [local instance] Lib.two_neZero in
/-- Two connections, the older one in the inspection stage. -/
def inspectingRun : List (Event 2) :=
  [Event.visit 1 (.accept 8 false false {}), .call {},
    .visit 1 (.complete 0 (.received (.bytes (ascii "GET / HTTP/1.1\r\nHost: a\r\n\r\n"))))] ++
    List.replicate 8 (Event.call { normalized := some (ascii "/"), inspect := true }) ++
    [Event.visit 0 (.accept 7 false false {}), .call {}]

/-- At the end of their time the newer connection waits for its receive, and the older one leaves. -/
theorem sweep_complete_late :
    ∃ first middle w : Worker 2, (init 2 sample 1 {} 0).run sample inspectingRun = some first ∧
      first.shared.activeSlots = [1, 0] ∧ middle.shared.activeSlots = [1, 0] ∧
      w.shared.activeSlots = [0] ∧ Sweeps sample .tick first 0 [0, 1] w ∧
      [0, 1] = first.shared.activeSlots.reverse ∧ [0, 1].Nodup := by
  obtain ⟨first, hrun, hactive, middle, hmiddle, hidle, hkept, w, hw, hdone, hleft⟩ :
      ∃ first : Worker 2, (init 2 sample 1 {} 0).run sample inspectingRun = some first ∧
        first.shared.activeSlots = [1, 0] ∧
        ∃ middle : Worker 2, first.step sample (.visit 0 (.tick { late := true })) = some middle ∧
          middle.current = none ∧ middle.shared.activeSlots = [1, 0] ∧
          ∃ w : Worker 2, middle.step sample (.visit 1 (.tick { late := true })) = some w ∧
            w.current = none ∧ w.shared.activeSlots = [0] := by
    refine ⟨_, (Option.some_get (by decide +kernel)).symm, by decide +kernel, ?_⟩
    refine ⟨_, (Option.some_get (by decide +kernel)).symm, by decide +kernel, by decide +kernel, ?_⟩
    exact ⟨_, (Option.some_get (by decide +kernel)).symm, by decide +kernel, by decide +kernel⟩
  have hstart : Sweeps sample .tick first 2 [] first := by
    have h : Sweeps sample .tick first first.shared.activeSlots.length [] first := .start
    rwa [hactive] at h
  have hnewer : Sweeps sample .tick first 1 [0] middle :=
    .visit hstart (by rw [hactive]; rfl)
      ⟨0, .tick { late := true }, middle, [], rfl, trivial, hmiddle, by simp, rfl, hidle⟩
  have hsweep : Sweeps sample .tick first 0 [0, 1] w :=
    .visit hnewer (by rw [hkept]; rfl)
      ⟨1, .tick { late := true }, w, [], rfl, trivial, hw, by simp, rfl, hdone⟩
  exact ⟨first, middle, w, hrun, hactive, hkept, hleft, hsweep,
    (sweep_complete hrun .tick hsweep).2.2 rfl⟩

end Zhtps.Worker
