import Mathlib.Algebra.Order.BigOperators.Group.Finset
import Zhtps.Worker.Safety

/-!
What tasks of the executor borrow.  As long as a task is outstanding its slot keeps what the task
reads, every slot and every stream has lent itself at most once, and so the completion ring has room
for every completion.
-/

namespace Zhtps

namespace Worker

variable {n : Nat} {config : Config} {publicSlots : Nat} {options : Admission.Options} {now : Nat}
  {events : List (Event n)} {w next : Worker n} {i : Fin n}

/-- What a task borrows is in a later state of its slot as it was before.  A hook also reads the
receive buffer, into which the kernel writes nothing. -/
def Task.Retains (task : Task) (before after : Connection) : Prop :=
  (after.generation = before.generation ∧ after.occupant = before.occupant) ∧
    match task.loan with
    | .application =>
        after.phase = .application ∧ after.fd = before.fd ∧ after.receivePending = false ∧
          after.view = before.view ∧ after.input = before.input
    | .producer => after.responseStreamBusy = true ∧ after.view = before.view
    | .stream address _ => ∀ stream ∈ before.streams, stream.address = address →
        ∃ kept ∈ after.streams, kept.busy = true ∧ kept.view = stream.view

theorem Task.Retains.trans {task : Task} {a b c : Connection} (h : task.Retains a b)
    (h' : task.Retains b c) : task.Retains a c := by
  obtain ⟨⟨hg, ho⟩, h⟩ := h
  obtain ⟨⟨hg', ho'⟩, h'⟩ := h'
  refine ⟨⟨hg'.trans hg, ho'.trans ho⟩, ?_⟩
  cases hloan : task.loan with
  | application =>
      simp only [hloan] at h h' ⊢
      obtain ⟨-, hfd, -, hview, hinput⟩ := h
      obtain ⟨hphase', hfd', hreceive', hview', hinput'⟩ := h'
      exact ⟨hphase', hfd'.trans hfd, hreceive', hview'.trans hview, hinput'.trans hinput⟩
  | producer =>
      simp only [hloan] at h h' ⊢
      exact ⟨h'.1, h'.2.trans h.2⟩
  | stream address stage =>
      simp only [hloan] at h h' ⊢
      intro stream hmem haddress
      obtain ⟨middle, hin, -, hview⟩ := h stream hmem haddress
      have hsame : middle.address = address := (congrArg (fun v => v.1.1) hview).trans haddress
      obtain ⟨kept, hkept, hbusy, hview'⟩ := h' middle hin hsame
      exact ⟨kept, hkept, hbusy, hview'.trans hview⟩

/-! ### What a loan asks a slot to keep -/

def Loan.producer? (loan : Loan) (c : Connection) : Option Connection :=
  if loan = .producer then some c else none

def Loan.streams (loan : Loan) (c : Connection) : List Stream :=
  match loan with
  | .stream address _ => c.streams.filter fun stream => stream.address == address
  | _ => []

namespace Consistent

/-- Streams with one address are one stream. -/
theorem stream_unique (h : w.Balanced config publicSlots) {stream other : Stream}
    (hstream : stream ∈ (w.slots i).streams) (hother : other ∈ (w.slots i).streams)
    (hsame : stream.address = other.address) : stream = other := by
  have haddresses : (w.slots i).addresses.Nodup := by
    obtain ⟨hheap, hnodup, -⟩ := (h.cell i).hosted
    exact (List.nodup_append.mp (List.nodup_append.mp (hheap.nodup_iff.mpr hnodup)).1).1
  exact List.inj_on_of_nodup_map haddresses hstream hother hsame

theorem mem_stream_loans {c : Connection} {resting : Bool} {address : Nat} {stage : Stage}
    (h : Loan.stream address stage ∈ c.loans resting) :
    ∃ stream ∈ c.streams, stream.address = address ∧ stream.lentFor = some stage := by
  unfold Connection.loans at h
  rcases List.mem_append.mp h with h | h
  · rcases List.mem_append.mp h with h | h
    · split at h <;> simp at h
    · split at h <;> simp at h
  · obtain ⟨stream, hmem, hmap⟩ := List.mem_filterMap.mp h
    obtain ⟨lent, hlent, heq⟩ := Option.map_eq_some_iff.mp hmap
    cases heq
    exact ⟨stream, hmem, rfl, hlent⟩

theorem mem_producer_loans {c : Connection} {resting : Bool} (h : Loan.producer ∈ c.loans resting) :
    c.responseStreamBusy = true := by
  unfold Connection.loans at h
  rcases List.mem_append.mp h with h | h
  · rcases List.mem_append.mp h with h | h
    · split at h <;> simp at h
    · by_contra hbusy
      simp [hbusy] at h
  · obtain ⟨stream, -, hmap⟩ := List.mem_filterMap.mp h
    obtain ⟨lent, -, heq⟩ := Option.map_eq_some_iff.mp hmap
    cases heq

/-- A slot honors, as it is, what one of its tasks borrows. -/
theorem honors_loan (h : w.Balanced config publicSlots) {loan : Loan} {resting : Bool}
    (hloan : loan ∈ (w.slots i).loans resting) :
    (w.slots i).Honors (w.keeping config publicSlots i (loan.producer? (w.slots i))
      (loan.streams (w.slots i))) := by
  refine ⟨fun before hbefore => ?_, fun before hmem => ?_⟩
  · have hbefore : loan.producer? (w.slots i) = some before := hbefore
    unfold Loan.producer? at hbefore
    split at hbefore
    · rename_i hproducer
      cases hbefore
      exact ⟨mem_producer_loans (hproducer ▸ hloan), rfl⟩
    · cases hbefore
  · have hmem : before ∈ loan.streams (w.slots i) := hmem
    unfold Loan.streams at hmem
    split at hmem
    · rename_i address stage _
      obtain ⟨hin, haddress⟩ := List.mem_filter.mp hmem
      obtain ⟨stream, hstream, hsame, hlent⟩ := mem_stream_loans hloan
      have haddress : before.address = address := by simpa using haddress
      have heq : stream = before := stream_unique h hstream hin (hsame.trans haddress.symm)
      have hbusy := ((h.cell i).lent stream hstream).1
      rw [hlent] at hbusy
      exact ⟨before, hin, heq ▸ hbusy.symm, rfl⟩
    · cases hmem

/-- A slot that honors the loan of a task other than a hook's retains what the task borrows. -/
theorem retains_of_honors {task : Task} {before after : Connection} {others : Others}
    (htags : after.generation = before.generation ∧ after.occupant = before.occupant)
    (hhook : task.loan ≠ .application) (hproducer : others.producer = task.loan.producer? before)
    (hlent : others.lent = task.loan.streams before) (hhonors : after.Honors others) :
    task.Retains before after := by
  refine ⟨htags, ?_⟩
  cases hloan : task.loan with
  | application => exact absurd hloan hhook
  | producer => exact hhonors.1 before (by rw [hproducer, hloan]; rfl)
  | stream address stage =>
      intro stream hmem haddress
      refine hhonors.2 stream ?_
      rw [hlent, hloan]
      exact List.mem_filter.mpr ⟨hmem, by simp [haddress]⟩

/-- A slot whose request a hook borrows is at rest in the application's phase. -/
theorem application_rest (h : w.Consistent config publicSlots) {task : Task}
    (htask : task ∈ w.shared.executor.outstanding) (hindex : task.index = i.val)
    (hloan : task.loan = .application) :
    (∀ call, w.current ≠ some (i, call)) ∧ (w.slots i).fd.isSome = true ∧
      (w.slots i).phase = .application ∧ (w.slots i).AtRest config := by
  obtain ⟨hresting, hfd, hphase⟩ := application_lent h.1 htask hindex hloan
  have hcurrent : ∀ call, w.current ≠ some (i, call) := by
    intro call hcurrent
    simp [resting, hcurrent] at hresting
  refine ⟨hcurrent, hfd, hphase, ?_⟩
  have hdue := h.2.2.1 i
  unfold Due at hdue
  split at hdue
  · rwa [Connection.Rest, if_pos hfd] at hdue
  · rename_i j call hj
    have hne : j ≠ i := by
      rintro rfl
      exact hcurrent call hj
    rw [if_neg hne, Connection.Rest, if_pos hfd] at hdue
    exact hdue

/-- While a hook borrows the request no receive is pending. -/
theorem application_fresh (h : w.Consistent config publicSlots) {task : Task}
    (htask : task ∈ w.shared.executor.outstanding) (hindex : task.index = i.val)
    (hloan : task.loan = .application) : (w.slots i).receivePending = false := by
  obtain ⟨-, -, hphase, hrest⟩ := h.application_rest htask hindex hloan
  simp only [Connection.AtRest, hphase] at hrest
  exact hrest.2.2.2.1.1

/-- A slot that does not change retains everything. -/
theorem retains_same (h : w.Consistent config publicSlots) {task : Task}
    (htask : task ∈ w.shared.executor.outstanding) (hindex : task.index = i.val)
    (hsame : next.slots i = w.slots i) : task.Retains (w.slots i) (next.slots i) := by
  rw [hsame]
  by_cases hloan : task.loan = .application
  · obtain ⟨-, -, hphase, -⟩ := h.application_rest htask hindex hloan
    refine ⟨⟨rfl, rfl⟩, ?_⟩
    simp only [hloan]
    exact ⟨hphase, trivial, h.application_fresh htask hindex hloan, trivial, trivial⟩
  · exact retains_of_honors ⟨rfl, rfl⟩ hloan rfl rfl
      (honors_loan h.1 (loan_mem h.1 htask hindex).1)

/-- Generation and occupant are those of the task, before and after. -/
theorem tags_kept (h : w.Consistent config publicSlots) (hnext : next.Consistent config publicSlots)
    {task : Task} (hbefore : task ∈ w.shared.executor.outstanding)
    (hafter : task ∈ next.shared.executor.outstanding) (hindex : task.index = i.val) :
    (next.slots i).generation = (w.slots i).generation ∧
      (next.slots i).occupant = (w.slots i).occupant := by
  obtain ⟨-, hg, ho⟩ := loan_mem h.1 hbefore hindex
  obtain ⟨-, hg', ho'⟩ := loan_mem hnext.1 hafter hindex
  exact ⟨hg'.symm.trans hg, ho'.symm.trans ho⟩

/-- A task and the one whose completion is taken borrow different things. -/
theorem taken_spares (h : w.Balanced config publicSlots) {task : Task} {completion : Completion}
    (htask : task ∈ w.shared.executor.outstanding) (hindex : task.index = i.val)
    (htaken : completion.task ∈ w.shared.executor.outstanding)
    (hsame : completion.task.index = i.val) (hne : completion.task ≠ task) :
    (w.keeping config publicSlots i (task.loan.producer? (w.slots i))
      (task.loan.streams (w.slots i))).Spares completion.task.loan := by
  have hmem : task ∈ w.shared.executor.tasks i.val := List.mem_filter.mpr ⟨htask, by simp [hindex]⟩
  have hmem' : completion.task ∈ w.shared.executor.tasks i.val :=
    List.mem_filter.mpr ⟨htaken, by simp [hsame]⟩
  have hloans : completion.task.loan ≠ task.loan := fun heq =>
    hne (List.inj_on_of_nodup_map (loan_injective h i) hmem' hmem heq)
  refine ⟨fun hproducer => ?_, fun before hin stage heq => ?_⟩
  · show task.loan.producer? (w.slots i) = none
    unfold Loan.producer?
    rw [if_neg fun hloan => hloans (hproducer.trans hloan.symm)]
  · -- One stream is lent for one stage only.
    have hin : before ∈ task.loan.streams (w.slots i) := hin
    unfold Loan.streams at hin
    split at hin
    · rename_i address other hloan
      obtain ⟨hbefore, haddress⟩ := List.mem_filter.mp hin
      have haddress : before.address = address := by simpa using haddress
      obtain ⟨first, hfirst, hsameFirst, hstage⟩ :=
        mem_stream_loans (hloan ▸ (loan_mem h htask hindex).1)
      obtain ⟨second, hsecond, hsameSecond, hstage'⟩ :=
        mem_stream_loans (heq ▸ (loan_mem h htaken hsame).1)
      have hone : first = second := stream_unique h hfirst hsecond
        (hsameFirst.trans (haddress.symm.trans hsameSecond.symm))
      have hstages : other = stage := by
        rw [hone, hstage'] at hstage
        exact (Option.some.inj hstage).symm
      exact hloans (by rw [heq, hloan, haddress, hstages])
    · cases hin

/-- Closing slots whose requests no hook borrows keeps what is lent. -/
theorem closeAll_honors (slots : List (Fin n)) :
    ∀ {w : Worker n}, w.Consistent config publicSlots → w.current = none → slots.Nodup →
      (∀ j ∈ slots, (w.slots j).fd.isSome = true → (w.slots j).phase ≠ .application) →
      ∀ {others : Others}, (w.slots i).Honors others →
        ((w.closeAll slots).slots i).Honors others := by
  induction slots with
  | nil => exact fun _ _ _ _ _ hhonors => hhonors
  | cons j slots ih =>
      intro w h hnone hnodup hphases others hhonors
      obtain ⟨hnot, hnodup⟩ := List.nodup_cons.mp hnodup
      have hlater : ∀ k ∈ slots, (w.slots k).fd.isSome = true → (w.slots k).phase ≠ .application :=
        fun k hk => hphases k (List.mem_cons_of_mem _ hk)
      unfold Worker.closeAll
      rw [List.foldl_cons]
      split
      · rename_i hfd
        have hphase := hphases j List.mem_cons_self hfd
        refine ih (h.close hnone hfd hphase) hnone hnodup (fun k hk => ?_) ?_
        · have hne : k ≠ j := fun heq => hnot (heq ▸ hk)
          have hsame : (w.put j ((w.cell j).forceClose j.val)).slots k = w.slots k :=
            Function.update_of_ne hne ..
          rw [hsame]
          exact hlater k hk
        · by_cases hji : i = j
          · subst hji
            have hkeeps : (w.slots i).Honors
                (w.keeping config publicSlots i others.producer others.lent) := hhonors
            have hrests := h.rests hnone i hkeeps
            have hvisits := Cell.forceClose_visits (hrests.2.2.start hphase) hrests.2.1 hfd
            have hself : (w.put i ((w.cell i).forceClose i.val)).slots i =
                ((w.cell i).forceClose i.val).connection := Function.update_self ..
            rw [hself]
            exact hvisits.2.2.2
          · have hsame : (w.put j ((w.cell j).forceClose j.val)).slots i = w.slots i :=
              Function.update_of_ne hji ..
            rw [hsame]
            exact hhonors
      · exact ih h hnone hnodup hlater hhonors

/-- An outcome that keeps contract and ledger honors what the others ask for. -/
theorem visits_honors {others : Others} {index : Nat} {outcome : Cell × Next}
    (h : Cell.Visits config others index outcome) : outcome.1.connection.Honors others := by
  obtain ⟨cell, next⟩ := outcome
  cases next with
  | done => exact h.2.2.2
  | call call => exact h.2.2.2

/-- While a hook borrows the request, the slot has lent nothing else. -/
theorem hook_alone (h : w.Consistent config publicSlots) {task other : Task}
    (htask : task ∈ w.shared.executor.outstanding) (hindex : task.index = i.val)
    (hother : other ∈ w.shared.executor.outstanding) (hsame : other.index = i.val)
    (hloan : task.loan = .application) : other = task := by
  obtain ⟨hresting, hfd, hphase⟩ := application_lent h.1 htask hindex hloan
  have honly : (w.slots i).loans true = [.application] :=
    Cell.AtRest.application_loans (h.application_rest htask hindex hloan).2.2.2 hfd hphase
  have hlent := (loan_mem h.1 hother hsame).1
  rw [hresting, honly, List.mem_singleton] at hlent
  have hmem : task ∈ w.shared.executor.tasks i.val :=
    List.mem_filter.mpr ⟨htask, by simp [hindex]⟩
  have hmem' : other ∈ w.shared.executor.tasks i.val :=
    List.mem_filter.mpr ⟨hother, by simp [hsame]⟩
  exact List.inj_on_of_nodup_map (loan_injective h.1 i) hmem' hmem (hlent.trans hloan.symm)

/-- The task that comes back is applied, and so it is not outstanding. -/
theorem taken_gone (h : w.Consistent config publicSlots) (hnone : w.current = none)
    {choice : StreamChoice} {outcome : Cell × Next} {completion : Completion} {rest : List Completion}
    (hvisit : (w.cell i).visit config i.val (.finishApplication choice) = some outcome)
    (hnext : (w.resume i outcome).Consistent config publicSlots)
    (hcompletions : w.shared.executor.completions = completion :: rest)
    (hown : completion.task.index = i.val) :
    completion.task ∉ (w.resume i outcome).shared.executor.outstanding := by
  intro hafter
  have hvisits := h.visit_finish hnone hvisit hcompletions hown (honors_nothing (w.slots i))
    (spares_nothing _)
  have happlied : outcome.1.shared.executor.applied =
      w.shared.executor.applied ++ [completion.task.ticket] := by
    rw [hvisits.completions.2]
    show w.shared.executor.applied ++ (w.shared.executor.completions.head?.map _).toList = _
    rw [hcompletions]
    rfl
  have htickets : outcome.1.shared.executor.Ticketed := hnext.1.2.2.1.2.2
  have hnodup := htickets.nodup_iff.mpr List.nodup_range
  rw [List.nodup_append] at hnodup
  refine hnodup.2.2 completion.task.ticket (List.mem_map_of_mem hafter) completion.task.ticket ?_ rfl
  rw [happlied]
  exact List.mem_append_right _ List.mem_cons_self

/-- A visit of the slot itself retains what its task borrows, unless it takes the task back. -/
theorem visit_retains (h : w.Consistent config publicSlots) (hnone : w.current = none)
    {visit : Visit} {outcome : Cell × Next} {task : Task}
    (hvisit : (w.cell i).visit config i.val visit = some outcome)
    (hnext : (w.resume i outcome).Consistent config publicSlots)
    (hbefore : task ∈ w.shared.executor.outstanding)
    (hafter : task ∈ (w.resume i outcome).shared.executor.outstanding)
    (hindex : task.index = i.val) :
    task.Retains (w.slots i) ((w.resume i outcome).slots i) := by
  have htags := h.tags_kept hnext hbefore hafter hindex
  have hself : (w.resume i outcome).slots i = outcome.1.connection := Function.update_self ..
  have hhonors := honors_loan h.1 (loan_mem h.1 hbefore hindex).1
  by_cases hfinish : ∃ choice, visit = .finishApplication choice
  · obtain ⟨choice, rfl⟩ := hfinish
    obtain ⟨completion, rest, hcompletions, hown⟩ := (Cell.finishApplication_head hvisit).2
    have hcompletions : w.shared.executor.completions = completion :: rest := hcompletions
    have htaken : completion.task ∈ w.shared.executor.outstanding :=
      mem_outstanding (by rw [hcompletions]; exact List.mem_cons_self)
    have hne : completion.task ≠ task := fun heq =>
      h.taken_gone hnone hvisit hnext hcompletions hown (heq ▸ hafter)
    have hspares := taken_spares h.1 hbefore hindex htaken hown hne
    have hvisits := h.visit_finish hnone hvisit hcompletions hown hhonors hspares
    have hhook : task.loan ≠ .application := fun hloan =>
      hne (h.hook_alone hbefore hindex htaken hown hloan)
    rw [hself] at htags ⊢
    exact retains_of_honors htags hhook rfl rfl (visits_honors hvisits)
  · have hother : ∀ choice, visit ≠ .finishApplication choice :=
      fun choice heq => hfinish ⟨choice, heq⟩
    by_cases hhook : task.loan = .application
    · obtain ⟨-, hfd, hphase, -⟩ := h.application_rest hbefore hindex hhook
      obtain ⟨-, hphase', hfd', ⟨hview, hinput⟩, -⟩ := Cell.visit_application
        (h.rests hnone i (honors_nothing (w.slots i))) hfd hphase hvisit hother
      refine ⟨htags, ?_⟩
      have hfresh := hnext.application_fresh hafter hindex hhook
      simp only [hhook]
      rw [hself] at hfresh ⊢
      exact ⟨hphase', hfd', hfresh, hview, hinput⟩
    · rw [hself] at htags ⊢
      exact retains_of_honors htags hhook rfl rfl
        (visits_honors (h.visit hnone hvisit hother hhonors))

/-- A task that stays outstanding over a step keeps what it borrows. -/
theorem step_retains (h : w.Consistent config publicSlots) {event : Event n}
    (hstep : w.step config event = some next) {task : Task}
    (hbefore : task ∈ w.shared.executor.outstanding)
    (hafter : task ∈ next.shared.executor.outstanding) (hindex : task.index = i.val) :
    task.Retains (w.slots i) (next.slots i) := by
  have hnext := step_consistent h hstep
  have hhonors := honors_loan h.1 (loan_mem h.1 hbefore hindex).1
  cases event with
  | call choice =>
      obtain ⟨⟨j, call⟩, hcurrent, rfl⟩ := Option.map_eq_some_iff.mp hstep
      by_cases hji : i = j
      · subst hji
        have hhook : task.loan ≠ .application := fun hloan =>
          (h.application_rest hbefore hindex hloan).1 call hcurrent
        have hself : (w.resume i ((w.cell i).dispatch config choice i.val call)).slots i =
            ((w.cell i).dispatch config choice i.val call).1.connection := Function.update_self ..
        have htags := h.tags_kept hnext hbefore hafter hindex
        rw [hself] at htags ⊢
        exact retains_of_honors htags hhook rfl rfl
          (visits_honors (h.call hcurrent choice hhonors))
      · exact h.retains_same hbefore hindex (Function.update_of_ne hji ..)
  | visit j visit =>
      simp only [step] at hstep
      split at hstep
      · cases hstep
      · rename_i hidle
        obtain ⟨outcome, hvisit, rfl⟩ := Option.map_eq_some_iff.mp hstep
        by_cases hji : i = j
        · subst hji
          exact h.visit_retains (by simpa using hidle) hvisit hnext hbefore hafter hindex
        · exact h.retains_same hbefore hindex (Function.update_of_ne hji ..)
  | refill now =>
      simp only [step] at hstep
      split at hstep
      · cases hstep
      · cases hstep
        exact h.retains_same hbefore hindex rfl
  | beginShutdown =>
      simp only [step] at hstep
      split at hstep
      · cases hstep
      · cases hstep
        exact h.retains_same hbefore hindex rfl
  | stopOperations late =>
      have htags := h.tags_kept hnext hbefore hafter hindex
      simp only [step] at hstep
      split at hstep
      · cases hstep
      · rename_i hready
        simp only [not_or, Bool.not_eq_true', Bool.not_eq_false, Bool.or_eq_true,
          Bool.and_eq_true, List.isEmpty_iff] at hready
        obtain ⟨hidle, -, -, hquiet⟩ := hready
        have hnone : w.current = none := by simpa using hidle
        have hphases : ∀ j, (w.slots j).fd.isSome = true → (w.slots j).phase ≠ .application :=
          fun j => h.not_application hnone (hquiet.imp_right fun hlate => hlate.2)
        have hhook : task.loan ≠ .application := by
          intro hloan
          obtain ⟨-, hfd, hphase, -⟩ := h.application_rest hbefore hindex hloan
          exact hphases i hfd hphase
        cases hstep
        refine retains_of_honors htags hhook rfl rfl (closeAll_honors _
          (h.shared { w.shared with stopping := true } rfl rfl rfl) hnone
          (List.nodup_finRange n) (fun j _ => hphases j) hhonors)
  | takeTask lane =>
      obtain ⟨executor, -, rfl⟩ := Option.map_eq_some_iff.mp hstep
      exact h.retains_same hbefore hindex rfl
  | pushCompletion index position response expired =>
      simp only [step] at hstep
      split at hstep
      · cases hstep
      · split at hstep
        · cases hstep
        · cases hstep
          exact h.retains_same hbefore hindex rfl

end Consistent

/-- The task is outstanding where a step starts. -/
def Outstanding (task : Task) (w : Worker n) : Prop := task ∈ w.shared.executor.outstanding

/-- Over a run a task keeps what it borrows, as long as it is outstanding. -/
theorem Consistent.run_retains {task : Task} {later : List (Event n)}
    (h : w.Consistent config publicSlots)
    (hlater : Lib.Guarded (step config) (fun v _ => Outstanding task v) w later)
    (hrun : w.run config later = some next) (hend : Outstanding task next)
    (hindex : task.index = i.val) : task.Retains (w.slots i) (next.slots i) := by
  induction later generalizing w with
  | nil =>
      cases hrun
      exact h.retains_same hend hindex rfl
  | cons event later ih =>
      obtain ⟨middle, hstep, hrest⟩ := Lib.run_cons.mp hrun
      have hguarded := hlater.2 middle hstep
      have hmiddle : Outstanding task middle := by
        cases later with
        | nil =>
            cases hrest
            exact hend
        | cons event later => exact hguarded.1
      exact (h.step_retains hstep hlater.1 hmiddle hindex).trans
        (ih (step_consistent h hstep) hguarded hrest)

/-- **Borrowing.** From every reachable worker on, and over every run, a task that stays outstanding
finds its slot, or its stream, as it was lent: same occupant, nothing released, nothing overwritten.
Every accepted task is queued, running, completed or applied, in one of these places and once, and
the outstanding tasks of a slot are exactly what it has lent, so that a refused one left nothing. -/
theorem tasks_borrow
    (hrun : (init n config publicSlots options now).run config events = some w) :
    (∀ (task : Task) (i : Fin n) (later : List (Event n)) (next : Worker n),
        task.index = i.val →
        Lib.Guarded (step config) (fun v _ => Outstanding task v) w later →
        w.run config later = some next → Outstanding task next →
          task.Retains (w.slots i) (next.slots i)) ∧
      ((w.shared.executor.queued ++ w.shared.executor.running ++
          w.shared.executor.completions.map fun c => c.task).map (fun task => task.ticket) ++
        w.shared.executor.applied).Perm (List.range w.shared.executor.submitted) ∧
      ∀ i : Fin n, ((w.shared.executor.tasks i.val).map Task.loan).Perm
        ((w.slots i).loans (w.resting i)) := by
  have h := run_consistent hrun
  obtain ⟨-, hloans, htickets⟩ := h.1.2.2.1
  exact ⟨fun task i later next hindex hlater hnext hend => h.run_retains hlater hnext hend hindex,
    htickets, fun i => (hloans i).1⟩

attribute [local instance] Lib.two_neZero in
/-- While the task of `streamsRun` runs, more of the body comes, the peer resets the stream, and the
task completes. -/
def laterRun : List (Event 2) :=
  [Event.visit 0 (.complete 0 (.received (.bytes [1, 2])))] ++
    [Http2Step.body 3 [7] {}, .closed 3 8, .finish false true].map
      (fun step => Event.call { http2 := step }) ++
  [Event.pushCompletion 0 0 none false]

/-- The closed stream is kept for its task, with the prefix that the task was given. -/
theorem tasks_borrow_sample :
    ∃ w next, (init 2 sampleHttp2 1 {} 0).run sampleHttp2 streamsRun = some w ∧
      w.run sampleHttp2 laterRun = some next ∧ bodyTask.Retains (w.slots 0) (next.slots 0) ∧
      (next.slots 0).streams.map (fun stream => stream.closed) = [true] ∧
      (next.slots 0).streams.map (fun stream => stream.body) = [[1, 2, 3, 7]] ∧
      w.shared.executor.tasks 0 = [bodyTask] ∧
      ((w.shared.executor.tasks 0).map Task.loan).Perm ((w.slots 0).loans (w.resting 0)) ∧
      w.shared.executor.submitted = 1 ∧
      ((w.shared.executor.queued ++ w.shared.executor.running ++
          w.shared.executor.completions.map fun c => c.task).map (fun task => task.ticket) ++
        w.shared.executor.applied).Perm (List.range 1) := by
  have hstart : ((init 2 sampleHttp2 1 {} 0).run sampleHttp2 streamsRun).map (fun w =>
      (w.shared.executor.tasks 0, w.shared.executor.submitted)) = some ([bodyTask], 1) := by
    decide +kernel
  obtain ⟨w, hrun, hview⟩ := Option.map_eq_some_iff.mp hstart
  obtain ⟨htasks, hsubmitted⟩ := Prod.mk.inj hview
  have hlast : ((init 2 sampleHttp2 1 {} 0).run sampleHttp2 streamsRun).bind (fun w =>
      (w.run sampleHttp2 laterRun).map fun next =>
        (Lib.accepts (step sampleHttp2)
            (fun v _ => decide (bodyTask ∈ v.shared.executor.outstanding)) w laterRun,
          decide (bodyTask ∈ next.shared.executor.outstanding),
          (next.slots 0).streams.map (fun stream => stream.closed),
          (next.slots 0).streams.map (fun stream => stream.body))) =
      some (true, true, [true], [[1, 2, 3, 7]]) := by
    decide +kernel
  rw [hrun, Option.bind_some] at hlast
  obtain ⟨next, hnext, hview⟩ := Option.map_eq_some_iff.mp hlast
  simp only [Prod.mk.injEq, decide_eq_true_eq] at hview
  obtain ⟨hlater, hend, hclosed, hbody⟩ := hview
  obtain ⟨hretains, htickets, hloans⟩ := tasks_borrow hrun
  have hguarded := @Lib.guarded_of_accepts _ _ (step sampleHttp2) (fun v _ => Outstanding bodyTask v) _
    (fun v _ htest => @of_decide_eq_true (bodyTask ∈ v.shared.executor.outstanding) _ htest) laterRun
    w hlater
  rw [hsubmitted] at htickets
  exact ⟨w, next, hrun, hnext, hretains bodyTask 0 laterRun next rfl hguarded hnext hend, hclosed,
    hbody, htasks, hloans 0, hsubmitted, htickets⟩

/-! ### The bodies of streams -/

/-- The task of a body hook has the prefix that was recorded for it, and more DATA comes behind. -/
theorem body_retained {task : Task} {before after : Connection} {stream : Stream}
    (h : task.Retains before after) (hmem : stream ∈ before.streams)
    (hstream : task.stream = some stream.address) :
    ∃ kept ∈ after.streams, kept.address = stream.address ∧ kept.serial = stream.serial ∧
      kept.busy = true ∧ kept.taskBodyLen = stream.taskBodyLen ∧
      kept.body.take kept.taskBodyLen = stream.body.take stream.taskBodyLen := by
  have hloan : task.loan = .stream stream.address task.stage := by
    rw [Task.loan, hstream]
  have hview := h.2
  rw [hloan] at hview
  obtain ⟨kept, hin, hbusy, hsame⟩ := hview stream hmem rfl
  simp only [Stream.view, Prod.mk.injEq] at hsame
  obtain ⟨⟨haddress, hserial⟩, -, -, hlength, hbody⟩ := hsame
  exact ⟨kept, hin, haddress, hserial, hbusy, hlength, hbody⟩

/-- **Bodies of streams.** In every reachable worker the buffered bytes of a stream and those that
were credited are bytes that were taken, no byte as both, and on an open stream they are all of
them.  As long as the engine has kept to its window of a stream, the buffer has room for whatever the
window still allows, and the application was given a prefix of the payload.  A task finds the prefix
that it borrows unchanged for as long as it is outstanding. -/
theorem bodies_flow
    (hrun : (init n config publicSlots options now).run config events = some w) :
    (∀ (i : Fin n), ∀ stream ∈ (w.slots i).streams,
        (stream.credited + stream.body.length ≤ stream.taken ∧
            stream.taken ≤ stream.received.length ∧
            (stream.closed = false →
              stream.credited + stream.body.length = stream.taken)) ∧
          (stream.overrun = false →
            stream.body.length ≤ stream.taken - stream.credited ∧
              stream.taken - stream.credited ≤ 65535 ∧
              stream.delivered <+: stream.received ∧
              ∀ bytes : Bytes,
                stream.received.length + bytes.length - stream.credited ≤ 65535 →
                  (stream.body ++ bytes).length ≤ window)) ∧
      ∀ (task : Task) (i : Fin n) (later : List (Event n)) (next : Worker n),
        task.index = i.val →
        Lib.Guarded (step config) (fun v _ => Outstanding task v) w later →
        w.run config later = some next → Outstanding task next →
          ∀ stream ∈ (w.slots i).streams, task.stream = some stream.address →
            ∃ kept ∈ (next.slots i).streams,
              kept.address = stream.address ∧ kept.serial = stream.serial ∧ kept.busy = true ∧
                kept.taskBodyLen = stream.taskBodyLen ∧
                kept.body.take kept.taskBodyLen = stream.body.take stream.taskBodyLen := by
  have h := run_consistent hrun
  refine ⟨fun i stream hmem => ?_, fun task i later next hindex hlater hnext hend stream hmem
    hstream => body_retained (h.run_retains hlater hnext hend hindex) hmem hstream⟩
  obtain ⟨-, -, hmetered⟩ := (h.1.cell i).formed.2.1 stream hmem
  obtain ⟨-, hexact, -⟩ := (h.2.1 i).2 stream hmem
  obtain ⟨⟨hcredit, htaken⟩, hwindow⟩ := id hmetered
  refine ⟨⟨hcredit, htaken, fun hopen => (hexact hopen).1⟩, fun ho => ⟨by omega, ?_,
    (hwindow ho).2, fun bytes hbytes => hmetered.room ?_⟩⟩
  · have := (hwindow ho).1
    rw [window] at this
    omega
  · rw [window]
    omega

attribute [local instance] Lib.two_neZero in
/-- A stream whose body hook runs while more DATA arrives. -/
def bodyRun : List (Event 2) :=
  [.visit 0 (.accept 7 false true {}), .call { tls := .complete [] 0 true }] ++
    [.begin 1 500 true, .headComplete 1 false false, .body 1 [1, 2, 3] {},
      .drive [{ inlineHead := true, streamsBody := true }], .body 1 [4, 5] {},
      .finish false true].map (fun step => .call { http2 := step }) ++ [.takeTask 0]

theorem bodyRun_runs :
    ∃ w, (init 2 { sample with tls := true } 1 {} 0).run { sample with tls := true } bodyRun =
        some w ∧
      (w.slots 0).streams.map (fun stream => (stream.overrun, stream.delivered)) =
        [(false, [1, 2, 3])] :=
  Option.map_eq_some_iff.mp (by decide +kernel)

theorem bodies_flow_sample :
    ∃ w, (init 2 { sample with tls := true } 1 {} 0).run { sample with tls := true } bodyRun =
        some w ∧
      ∃ stream ∈ (w.slots 0).streams, stream.delivered = [1, 2, 3] ∧
        stream.delivered <+: stream.received := by
  obtain ⟨w, hrun, hstreams⟩ := bodyRun_runs
  obtain ⟨stream, hmem, hstream⟩ := List.mem_map.mp (hstreams ▸ List.mem_singleton_self _)
  obtain ⟨ho, hdelivered⟩ := Prod.mk.inj hstream
  exact ⟨w, hrun, stream, hmem, hdelivered, (((bodies_flow hrun).1 0 stream hmem).2 ho).2.2.1⟩

/-! ### Room for completions -/

/-- The tasks of all slots together. -/
theorem sum_tasks (tasks : List Task) (h : ∀ task ∈ tasks, task.index < n) :
    ∑ i : Fin n, (tasks.filter fun task => task.index == i.val).length = tasks.length := by
  induction tasks with
  | nil => simp
  | cons task tasks ih =>
      have ih := ih fun other hmem => h other (List.mem_cons_of_mem _ hmem)
      let own : Fin n := ⟨task.index, h task List.mem_cons_self⟩
      have hone : ∀ i : Fin n, ((task :: tasks).filter fun task => task.index == i.val).length =
          (if own = i then 1 else 0) + (tasks.filter fun task => task.index == i.val).length := by
        intro i
        by_cases hi : own = i
        · have hindex : task.index = i.val := congrArg Fin.val hi
          rw [List.filter_cons_of_pos (by simp [hindex]), List.length_cons, if_pos hi, Nat.add_comm]
        · have hindex : task.index ≠ i.val := fun heq => hi (Fin.ext heq)
          rw [List.filter_cons_of_neg (by simpa using hindex), if_neg hi, Nat.zero_add]
      rw [Finset.sum_congr rfl fun i _ => hone i, Finset.sum_add_distrib, ih,
        Finset.sum_ite_eq Finset.univ own, if_pos (Finset.mem_univ own), List.length_cons,
        Nat.add_comm]

/-- What a slot lends other than streams. -/
def Loan.ofSlot : Loan → Bool
  | .application | .producer => true
  | .stream _ _ => false

/-- The stream that a loan is of. -/
def Loan.ofStream (address : Nat) : Loan → Bool
  | .stream lent _ => lent == address
  | _ => false

theorem stream_loans (p : Loan → Bool) (streams : List Stream) (count : Nat → Bool)
    (hp : ∀ address stage, p (.stream address stage) = count address) :
    (streams.filterMap fun stream =>
        stream.lentFor.map fun stage => Loan.stream stream.address stage).countP p ≤
      streams.countP fun stream => count stream.address := by
  induction streams with
  | nil => exact Nat.le_refl _
  | cons stream streams ih =>
      rw [List.countP_cons, List.filterMap_cons]
      cases hl : stream.lentFor with
      | none => exact Nat.le_trans ih (Nat.le_add_right _ _)
      | some stage =>
          simp only [Option.map_some, List.countP_cons, hp]
          omega

/-- While a slot at rest lends its request it has no producer. -/
theorem Consistent.lends_once (h : w.Consistent config publicSlots) (i : Fin n) :
    ((w.slots i).loans (w.resting i)).countP Loan.ofSlot ≤
      if i.val < publicSlots then 1 else 0 := by
  have hadmin := h.1.2.2.2.1.2.1.2 i
  have hformed := (h.1.2.2.2.2.2.2 i).2.2.2.2.2
  have hquiet : w.resting i = true ∧ (w.slots i).fd.isSome = true ∧
      (w.slots i).phase = .application →
        (w.slots i).responseStreamBusy = false ∧ (w.slots i).admin = false := by
    rintro ⟨hresting, hfd, hphase⟩
    have hdue := h.2.2.1 i
    unfold Due at hdue
    unfold resting at hresting
    have hrest : (w.slots i).AtRest config := by
      split at hdue
      · rwa [Connection.Rest, if_pos hfd] at hdue
      · rename_i j call hcurrent
        rw [hcurrent] at hresting
        rwa [if_neg (by simpa using hresting), Connection.Rest, if_pos hfd] at hdue
    simp only [Connection.AtRest, hphase] at hrest
    exact ⟨hrest.2.1.1.1.2, hrest.2.2.2.2.2.2.1⟩
  have hstreams : ((w.slots i).streams.filterMap fun stream =>
      stream.lentFor.map fun stage => Loan.stream stream.address stage).countP Loan.ofSlot = 0 := by
    have := stream_loans Loan.ofSlot (w.slots i).streams (fun _ => false) fun _ _ => rfl
    simpa using this
  unfold Connection.loans
  rw [List.countP_append, List.countP_append, hstreams, Nat.add_zero]
  by_cases hpublic : i.val < publicSlots
  · rw [if_pos hpublic]
    by_cases hhook : w.resting i = true ∧ (w.slots i).fd.isSome = true ∧
        (w.slots i).phase = .application
    · simp [hhook, (hquiet hhook).1, Loan.ofSlot]
    · rw [if_neg hhook]
      cases (w.slots i).responseStreamBusy <;> simp [Loan.ofSlot]
  · have hkind : (w.slots i).admin = true := by
      rw [hadmin]
      simpa using hpublic
    have hhook : ¬(w.resting i = true ∧ (w.slots i).fd.isSome = true ∧
        (w.slots i).phase = .application) := by
      intro hhook
      have := (hquiet hhook).2
      rw [hkind] at this
      cases this
    rw [if_neg hpublic, if_neg hhook, (hformed hkind).2]
    simp

/-- Every slot lends itself once, and each of its streams once. -/
theorem Consistent.tasks_length (h : w.Consistent config publicSlots) (i : Fin n) :
    (w.shared.executor.tasks i.val).length ≤
      (if i.val < publicSlots then 1 else 0) + (w.slots i).streams.length := by
  have hperm := (h.1.2.2.1.2.1 i).1
  have hlength : (w.shared.executor.tasks i.val).length =
      ((w.slots i).loans (w.resting i)).length := by
    rw [← hperm.length_eq, List.length_map]
  have hstreams := stream_loans (fun loan => !loan.ofSlot) (w.slots i).streams (fun _ => true)
    fun _ _ => rfl
  have hslot : ((w.slots i).loans (w.resting i)).countP (fun loan => !loan.ofSlot) ≤
      (w.slots i).streams.length := by
    unfold Connection.loans
    rw [List.countP_append, List.countP_append]
    have hrest : ∀ (p : Prop) [Decidable p] (loan : Loan), loan.ofSlot = true →
        (if p then [loan] else []).countP (fun loan => !loan.ofSlot) = 0 := by
      intro p _ loan hloan
      split <;> simp [hloan]
    rw [hrest _ _ rfl, hrest _ _ rfl, Nat.zero_add]
    exact Nat.le_trans hstreams List.countP_le_length
  have honce := h.lends_once i
  rw [hlength, List.length_eq_countP_add_countP (p := Loan.ofSlot)]
  have hsame : ((w.slots i).loans (w.resting i)).countP (fun loan => decide ¬loan.ofSlot = true) =
      ((w.slots i).loans (w.resting i)).countP fun loan => !loan.ofSlot :=
    List.countP_congr fun loan _ => by simp
  rw [hsame]
  exact Nat.add_le_add honce hslot

theorem public_slots_le (publicSlots : Nat) :
    ∑ i : Fin n, (if i.val < publicSlots then 1 else 0) ≤ publicSlots := by
  rw [← Finset.card_filter]
  calc (Finset.univ.filter fun i : Fin n => i.val < publicSlots).card
      _ ≤ (Finset.range publicSlots).card :=
          Finset.card_le_card_of_injOn (fun i => i.val)
            (fun i hi => by simpa using hi) fun i _ j _ hij => Fin.ext hij
      _ = publicSlots := Finset.card_range publicSlots

/-- Fewer tasks are outstanding than the ring has places for. -/
theorem Consistent.outstanding_le (h : w.Consistent config publicSlots) :
    w.shared.executor.outstanding.length ≤ publicSlots + config.maxStreamsPerWorker := by
  have hcount : w.shared.http2Streams = ∑ i, (w.slots i).streams.length :=
    h.1.2.2.2.2.1.2.2.2.2.2.1
  have hbound : w.shared.http2Streams ≤ config.maxStreamsPerWorker := h.1.2.2.2.2.1.2.2.2.2.2.2
  calc w.shared.executor.outstanding.length
      _ = ∑ i : Fin n, (w.shared.executor.tasks i.val).length :=
          (sum_tasks _ h.1.2.2.1.1).symm
      _ ≤ ∑ i : Fin n, ((if i.val < publicSlots then 1 else 0) + (w.slots i).streams.length) :=
          Finset.sum_le_sum fun i _ => h.tasks_length i
      _ = ∑ i : Fin n, (if i.val < publicSlots then 1 else 0) +
            ∑ i, (w.slots i).streams.length := Finset.sum_add_distrib
      _ ≤ publicSlots + config.maxStreamsPerWorker :=
          Nat.add_le_add (public_slots_le publicSlots) (hcount ▸ hbound)

/-- **Completion rings.** In every reachable worker each connection and each live stream has at most
one task outstanding, and whenever a thread pushes a completion the ring has a free place. -/
theorem completions_fit
    (hrun : (init n config publicSlots options now).run config events = some w) :
    (∀ i : Fin n, ((w.shared.executor.tasks i.val).map Task.loan).countP Loan.ofSlot ≤ 1) ∧
      (∀ (i : Fin n) (address : Nat),
        ((w.shared.executor.tasks i.val).map Task.loan).countP (Loan.ofStream address) ≤ 1) ∧
      ∀ (i : Fin n) (position : Nat) (response : Option Response) (expired : Bool)
        (next : Worker n), w.step config (.pushCompletion i position response expired) = some next →
        w.shared.executor.completions.length < publicSlots + config.maxStreamsPerWorker := by
  have h := run_consistent hrun
  have hperm := fun i => (h.1.2.2.1.2.1 i).1
  refine ⟨fun i => ?_, fun i address => ?_, fun i position response expired next hstep => ?_⟩
  · rw [(hperm i).countP_eq]
    refine Nat.le_trans (h.lends_once i) ?_
    split <;> omega
  · rw [(hperm i).countP_eq]
    have hstreams := stream_loans (Loan.ofStream address) (w.slots i).streams
      (fun lent => lent == address) fun _ _ => rfl
    have haddresses : (w.slots i).addresses.Nodup := by
      obtain ⟨hheap, hnodup, -⟩ := (h.1.cell i).hosted
      exact (List.nodup_append.mp (List.nodup_append.mp (hheap.nodup_iff.mpr hnodup)).1).1
    have hone : (w.slots i).streams.countP (fun stream => stream.address == address) ≤ 1 := by
      have := List.nodup_iff_count_le_one.mp haddresses address
      rwa [Connection.addresses, List.count, List.countP_map] at this
    unfold Connection.loans
    rw [List.countP_append, List.countP_append]
    have hrest : ∀ (p : Prop) [Decidable p] (loan : Loan), loan.ofStream address = false →
        (if p then [loan] else []).countP (Loan.ofStream address) = 0 := by
      intro p _ loan hloan
      split <;> simp [hloan]
    rw [hrest _ _ rfl, hrest _ _ rfl, Nat.zero_add]
    exact Nat.le_trans hstreams hone
  · simp only [step] at hstep
    split at hstep
    · cases hstep
    · rename_i task htask
      -- The task that is pushed is still running.
      have hrunning : 0 < w.shared.executor.running.length :=
        List.length_pos_of_mem (List.mem_of_getElem? htask)
      have hall := h.outstanding_le
      rw [Executor.outstanding, List.length_append, List.length_append, List.length_map] at hall
      omega

/-- The completion of the stream's task finds the ring of three with room. -/
theorem completions_fit_sample :
    ∃ w next, (init 2 sampleHttp2 1 {} 0).run sampleHttp2 streamsRun = some w ∧
      w.step sampleHttp2 (.pushCompletion 0 0 none false) = some next ∧
      next.shared.executor.completions.length = 1 ∧ w.shared.executor.completions.length < 1 + 2 ∧
      ((w.shared.executor.tasks 0).map Task.loan).countP Loan.ofSlot ≤ 1 ∧
      ((w.shared.executor.tasks 0).map Task.loan).countP (Loan.ofStream 500) ≤ 1 ∧
      w.shared.executor.tasks 0 = [bodyTask] := by
  have heval : ((init 2 sampleHttp2 1 {} 0).run sampleHttp2 streamsRun).bind (fun w =>
      (w.step sampleHttp2 (.pushCompletion 0 0 none false)).map fun next =>
        (next.shared.executor.completions.length, w.shared.executor.tasks 0)) =
      some (1, [bodyTask]) := by
    decide +kernel
  obtain ⟨w, hrun, hview⟩ := Option.bind_eq_some_iff.mp heval
  obtain ⟨next, hnext, hview⟩ := Option.map_eq_some_iff.mp hview
  obtain ⟨hlength, htasks⟩ := Prod.mk.inj hview
  obtain ⟨hslots, hstreams, hroom⟩ := completions_fit hrun
  exact ⟨w, next, hrun, hnext, hlength, hroom 0 0 none false next hnext, hslots 0, hstreams 0 500,
    htasks⟩

end Worker

end Zhtps
