import Zhtps.Worker.Accounts

/-!
Runs of the worker.  The invariant: the accounts balance, the books of every slot agree, the current
call starts as its callers promise, every other slot is at rest, and completions carry the answers
that their stages need.  Every event preserves it, whatever its choices are.
-/

namespace Zhtps

namespace Worker

open scoped List

variable {n : Nat} {config : Config} {publicSlots : Nat} {w : Worker n} {i : Fin n}

/-- The slot of the current call is ready for it, and every other slot is at rest. -/
def Due (config : Config) (w : Worker n) (i : Fin n) : Prop :=
  match w.current with
  | none => (w.slots i).Rest config
  | some (j, call) => if j = i then (w.slots i).Pre config call else (w.slots i).Rest config

/-- The completions that wait answer what their stages need. -/
def Awaited (w : Worker n) : Prop :=
  ∀ completion ∈ w.shared.executor.completions, ∀ i : Fin n, completion.task.index = i.val →
    completion.Suits (w.slots i)

def Consistent (config : Config) (publicSlots : Nat) (w : Worker n) : Prop :=
  w.Balanced config publicSlots ∧ (∀ i, (w.slots i).Booked ∧ (w.slots i).Sounds) ∧ (∀ i, w.Due config i) ∧
    w.Awaited

/-- The other slots' part, and what this slot has lent and must keep. -/
def keeping (config : Config) (publicSlots : Nat) (w : Worker n) (i : Fin n) (producer : Option Connection)
    (lent : List Stream) : Others :=
  { w.others config publicSlots i with producer := producer, lent := lent }

namespace Consistent

theorem rest (h : w.Consistent config publicSlots) (hnone : w.current = none) (i : Fin n) :
    (w.slots i).Rest config := by
  have := h.2.2.1 i
  rwa [Due, hnone] at this

theorem settled (h : w.Consistent config publicSlots) (i : Fin n) {producer : Option Connection}
    {lent : List Stream} (hhonors : (w.slots i).Honors (w.keeping config publicSlots i producer lent)) :
    (w.cell i).Settled config (w.keeping config publicSlots i producer lent) i.val (w.resting i) :=
  ⟨h.1.cell i, (h.2.1 i).2, hhonors⟩

theorem rests (h : w.Consistent config publicSlots) (hnone : w.current = none) (i : Fin n)
    {producer : Option Connection} {lent : List Stream}
    (hhonors : (w.slots i).Honors (w.keeping config publicSlots i producer lent)) :
    (w.cell i).Rests config (w.keeping config publicSlots i producer lent) i.val := by
  have hsettled := h.settled i hhonors
  rw [resting, hnone] at hsettled
  exact ⟨h.rest hnone i, (h.2.1 i).1, hsettled⟩

/-- A slot honors what nobody asks it to keep. -/
theorem honors_nothing (c : Connection) : c.Honors (w.keeping config publicSlots i none []) :=
  ⟨fun before (h : none = some before) => (Option.some_ne_none before h.symm).elim,
    fun _ h => absurd h List.not_mem_nil⟩

/-- Streams with different storage are lent separately. -/
theorem stream_loans_nodup {streams : List Stream}
    (h : (streams.map fun stream => stream.address).Nodup) :
    (streams.filterMap fun stream =>
      stream.lentFor.map fun stage => Loan.stream stream.address stage).Nodup := by
  induction streams with
  | nil => exact List.nodup_nil
  | cons stream streams ih =>
      rw [List.map_cons, List.nodup_cons] at h
      rw [List.filterMap_cons]
      split
      · exact ih h.2
      · rename_i loan hloan
        refine List.nodup_cons.mpr ⟨fun hmem => ?_, ih h.2⟩
        obtain ⟨stage, -, rfl⟩ := Option.map_eq_some_iff.mp hloan
        obtain ⟨other, hin, hother⟩ := List.mem_filterMap.mp hmem
        obtain ⟨_, -, hsame⟩ := Option.map_eq_some_iff.mp hother
        rw [Loan.stream.injEq] at hsame
        exact h.1 (hsame.1 ▸ List.mem_map_of_mem hin)

/-- Loans are distinct: a slot lends its request and its exchange once, and every stream once. -/
theorem loans_nodup (h : w.Balanced config publicSlots) (i : Fin n) (resting : Bool) :
    ((w.slots i).loans resting).Nodup := by
  have haddresses : (w.slots i).addresses.Nodup := by
    obtain ⟨hheap, hnodup, -⟩ := (h.cell i).hosted
    exact (List.nodup_append.mp (List.nodup_append.mp (hheap.nodup_iff.mpr hnodup)).1).1
  have hstreams := stream_loans_nodup haddresses
  unfold Connection.loans
  refine List.nodup_append.mpr ⟨?_, hstreams, ?_⟩
  · split
    · split <;> simp
    · split <;> simp
  · intro loan hloan other hother heq
    subst heq
    obtain ⟨stream, -, hmap⟩ := List.mem_filterMap.mp hother
    obtain ⟨stage, -, rfl⟩ := Option.map_eq_some_iff.mp hmap
    rcases List.mem_append.mp hloan with hloan | hloan
    · split at hloan <;> simp at hloan
    · split at hloan <;> simp at hloan

/-- Two tasks of a slot never borrow the same. -/
theorem loan_injective (h : w.Balanced config publicSlots) (i : Fin n) :
    ((w.shared.executor.tasks i.val).map Task.loan).Nodup :=
  (h.cell i).loaned.2.1.nodup_iff.mpr (loans_nodup h i _)

/-- Of the completions of a slot the others borrow something else than the first one. -/
theorem loan_ne_head (h : w.Balanced config publicSlots) {completion other : Completion}
    {rest : List Completion} (hcompletions : w.shared.executor.completions = completion :: rest)
    (hindex : completion.task.index = i.val) (hother : other ∈ rest)
    (hsame : other.task.index = i.val) : other.task.loan ≠ completion.task.loan := by
  have hnodup := loan_injective h i
  simp only [Executor.tasks, Executor.outstanding, hcompletions, List.map_cons,
    List.filter_append, List.map_append] at hnodup
  rw [List.filter_cons_of_pos (by simp [hindex]), List.map_cons] at hnodup
  have htail := (List.nodup_append.mp hnodup).2.1
  intro heq
  refine (List.nodup_cons.mp htail).1 ?_
  rw [← heq]
  refine List.mem_map_of_mem (List.mem_filter.mpr ⟨List.mem_map_of_mem hother, ?_⟩)
  simp [hsame]

/-- A task of the slot borrows what the slot has lent. -/
theorem loan_mem (h : w.Balanced config publicSlots) {task : Task}
    (htask : task ∈ w.shared.executor.outstanding) (hindex : task.index = i.val) :
    task.loan ∈ (w.slots i).loans (w.resting i) ∧ task.generation = (w.slots i).generation ∧
      task.occupant = (w.slots i).occupant := by
  have hmem : task ∈ w.shared.executor.tasks i.val :=
    List.mem_filter.mpr ⟨htask, by simp [hindex]⟩
  obtain ⟨hperm, htagged⟩ := (h.cell i).loaned.2
  exact ⟨hperm.mem_iff.mp (List.mem_map_of_mem hmem), htagged.1 task hmem⟩

/-- A hook borrows the request of a slot at rest in the application's phase. -/
theorem application_lent (h : w.Balanced config publicSlots) {task : Task}
    (htask : task ∈ w.shared.executor.outstanding) (hindex : task.index = i.val)
    (hloan : task.loan = .application) :
    w.resting i = true ∧ (w.slots i).fd.isSome = true ∧ (w.slots i).phase = .application := by
  have hmem := (loan_mem h htask hindex).1
  rw [hloan] at hmem
  cases hresting : w.resting i with
  | true =>
      rw [hresting] at hmem
      exact ⟨rfl, Cell.application_lent hmem⟩
  | false =>
      rw [hresting] at hmem
      simp only [Connection.loans, Bool.false_eq_true, false_and, if_false, List.nil_append,
        List.mem_append, List.mem_filterMap, Option.map_eq_some_iff] at hmem
      rcases hmem with hmem | ⟨_, -, _, -, hmem⟩
      · split at hmem <;> simp at hmem
      · cases hmem

theorem mem_outstanding {executor : Executor} {completion : Completion}
    (h : completion ∈ executor.completions) : completion.task ∈ executor.outstanding :=
  List.mem_append_right _ (List.mem_map_of_mem h)

/-- Nobody else is at work while the slot is visited or called. -/
theorem resting_other (hcurrent : ∀ j call, w.current = some (j, call) → j = i) {j : Fin n}
    (hne : j ≠ i) : w.resting j = true := by
  unfold resting
  split
  · rfl
  · rename_i k call hk
    rw [hcurrent k call hk]
    simpa using hne.symm

/-- A slot whose call or visit keeps contract and ledger leaves the worker consistent. -/
theorem resume (h : w.Consistent config publicSlots) {outcome : Cell × Next}
    (completions : List Completion) {applied : List Nat} {producer : Option Connection} {lent : List Stream}
    (hvisits : Cell.Visits config
      { w.keeping config publicSlots i producer lent with
        completions := completions
        applied := applied } i.val outcome)
    (hcurrent : ∀ j call, w.current = some (j, call) → j = i)
    (hring : ∀ completion ∈ outcome.1.shared.executor.completions,
      completion ∈ w.shared.executor.completions)
    (hsuits : ∀ completion ∈ outcome.1.shared.executor.completions,
      completion.task.index = i.val → completion.Suits outcome.1.connection) :
    (w.resume i outcome).Consistent config publicSlots := by
  obtain ⟨cell, next⟩ := outcome
  obtain ⟨⟨hbooked, hkept⟩, hbalances⟩ := hvisits
  have hself : (w.resume i (cell, next)).slots i = cell.connection := Function.update_self ..
  have hother : ∀ j, j ≠ i → (w.resume i (cell, next)).slots j = w.slots j :=
    fun j hne => Function.update_of_ne hne ..
  have hsettled : cell.Settled config
      { w.keeping config publicSlots i producer lent with
        completions := completions
        applied := applied } i.val
      ((w.resume i (cell, next)).resting i) := by
    cases next with
    | done => exact hbalances
    | call call =>
        have : (w.resume i (cell, .call call)).resting i = false := by simp [resting, Worker.resume]
        rw [this]
        exact hbalances
  have hresting : ∀ j, j ≠ i → (w.resume i (cell, next)).resting j = w.resting j := by
    intro j hne
    rw [resting_other hcurrent hne]
    refine resting_other (i := i) (fun k call hk => ?_) hne
    cases next with
    | done => cases hk
    | call call =>
        cases hk
        rfl
  refine ⟨h.1.put hsettled.1 rfl rfl hresting, fun j => ?_, fun j => ?_, fun completion hmem j hj => ?_⟩
  · by_cases hji : j = i
    · subst hji
      rw [hself]
      exact ⟨hbooked, hsettled.2.1⟩
    · rw [hother j hji]
      exact h.2.1 j
  · by_cases hji : j = i
    · subst hji
      cases next with
      | done =>
          show ((w.resume j (cell, .done)).slots j).Rest config
          rw [hself]
          exact hkept
      | call call =>
          show if j = j then _ else _
          rw [if_pos rfl, hself]
          exact hkept
    · -- The other slots were at rest, and are.
      have hrest : (w.slots j).Rest config := by
        have hdue := h.2.2.1 j
        unfold Due at hdue
        split at hdue
        · exact hdue
        · rename_i k call hk
          rw [hcurrent k call hk, if_neg fun h => hji h.symm] at hdue
          exact hdue
      cases next with
      | done =>
          show ((w.resume i (cell, .done)).slots j).Rest config
          rw [hother j hji]
          exact hrest
      | call call =>
          show if i = j then _ else _
          rw [if_neg fun h => hji h.symm, hother j hji]
          exact hrest
  · by_cases hji : j = i
    · subst hji
      rw [hself]
      exact hsuits completion hmem hj
    · rw [hother j hji]
      exact h.2.2.2 completion (hring completion hmem) j hj

/-- The next call of the slot under way. -/
theorem call (h : w.Consistent config publicSlots) {call : Call} (hcurrent : w.current = some (i, call))
    (choice : Choice) {producer : Option Connection} {lent : List Stream}
    (hhonors : (w.slots i).Honors (w.keeping config publicSlots i producer lent)) :
    Cell.Visits config (w.keeping config publicSlots i producer lent) i.val
      ((w.cell i).dispatch config choice i.val call) := by
  have hpre := h.2.2.1 i
  simp only [Due, hcurrent, if_true] at hpre
  have hsettled := h.settled i hhonors
  have hresting : w.resting i = false := by simp [resting, hcurrent]
  rw [hresting] at hsettled
  exact Cell.dispatch_carried choice hpre (h.2.1 i).1 hsettled

theorem step_call (h : w.Consistent config publicSlots) {call : Call} (hcurrent : w.current = some (i, call))
    (choice : Choice) :
    (w.resume i ((w.cell i).dispatch config choice i.val call)).Consistent config publicSlots := by
  have hvisits := h.call hcurrent choice (honors_nothing (w.slots i))
  have hsame : ((w.cell i).dispatch config choice i.val call).1.shared.executor.completions =
      w.shared.executor.completions := hvisits.completions.1
  refine h.resume w.shared.executor.completions hvisits ?_ ?_ ?_
  · intro j other hother
    rw [hcurrent] at hother
    cases hother
    rfl
  · rw [hsame]
    exact fun _ hmem => hmem
  · -- During a call no hook borrows the slot.
    rw [hsame]
    intro completion hmem hindex hloan
    have := (application_lent h.1 (mem_outstanding hmem) hindex hloan).1
    simp [resting, hcurrent] at this

/-- A visit that takes no completion. -/
theorem visit (h : w.Consistent config publicSlots) (hnone : w.current = none) {visit : Visit}
    {outcome : Cell × Next} (hvisit : (w.cell i).visit config i.val visit = some outcome)
    (hother : ∀ choice, visit ≠ .finishApplication choice) {producer : Option Connection}
    {lent : List Stream} (hhonors : (w.slots i).Honors (w.keeping config publicSlots i producer lent)) :
    Cell.Visits config (w.keeping config publicSlots i producer lent) i.val outcome :=
  Cell.visit_visits (h.rests hnone i hhonors) hvisit hother

/-- The visit that takes the first completion. -/
theorem visit_finish (h : w.Consistent config publicSlots) (hnone : w.current = none) {choice : StreamChoice}
    {outcome : Cell × Next} {completion : Completion} {rest : List Completion}
    (hvisit : (w.cell i).visit config i.val (.finishApplication choice) = some outcome)
    (hcompletions : w.shared.executor.completions = completion :: rest)
    (hindex : completion.task.index = i.val) {producer : Option Connection} {lent : List Stream}
    (hhonors : (w.slots i).Honors (w.keeping config publicSlots i producer lent))
    (hspares : (w.keeping config publicSlots i producer lent).Spares completion.task.loan) :
    Cell.Visits config (w.keeping config publicSlots i producer lent).taken i.val outcome := by
  refine Cell.finishApplication_visits choice (h.rests hnone i hhonors)
    (Cell.finishApplication_head hvisit).1 fun other hhead _ => ?_
  have hsame : some completion = some other := by
    rw [← hhead]
    show _ = w.shared.executor.completions.head?
    rw [hcompletions]
    rfl
  cases hsame
  exact ⟨hspares, h.2.2.2 completion (by rw [hcompletions]; exact List.mem_cons_self) i hindex⟩

theorem spares_nothing (loan : Loan) : (w.keeping config publicSlots i none []).Spares loan :=
  ⟨fun _ => rfl, fun _ h => absurd h List.not_mem_nil⟩

theorem step_visit (h : w.Consistent config publicSlots) (hnone : w.current = none) {visit : Visit}
    {outcome : Cell × Next} (hvisit : (w.cell i).visit config i.val visit = some outcome) :
    (w.resume i outcome).Consistent config publicSlots := by
  have hcurrent : ∀ j call, w.current = some (j, call) → j = i := by
    rw [hnone]
    nofun
  by_cases hfinish : ∃ choice, visit = .finishApplication choice
  · obtain ⟨choice, rfl⟩ := hfinish
    obtain ⟨completion, rest, hcompletions, hindex⟩ := (Cell.finishApplication_head hvisit).2
    have hcompletions : w.shared.executor.completions = completion :: rest := hcompletions
    have hvisits := h.visit_finish hnone hvisit hcompletions hindex
      (honors_nothing (w.slots i)) (spares_nothing _)
    have hring : outcome.1.shared.executor.completions = rest := by
      rw [hvisits.completions.1]
      show w.shared.executor.completions.tail = rest
      rw [hcompletions]
      rfl
    refine h.resume w.shared.executor.completions.tail hvisits hcurrent ?_ ?_
    · rw [hring, hcompletions]
      exact fun _ hmem => List.mem_cons_of_mem _ hmem
    · -- The request, if a hook borrowed it, is the one that came back.
      rw [hring]
      intro other hmem hsame hloan
      have hout : other.task ∈ w.shared.executor.outstanding :=
        mem_outstanding (by rw [hcompletions]; exact List.mem_cons_of_mem _ hmem)
      obtain ⟨hresting, hfd, hphase⟩ := application_lent h.1 hout hsame hloan
      have hfirst := (loan_mem h.1 (mem_outstanding (by
        rw [hcompletions]
        exact List.mem_cons_self)) hindex).1
      have hrest := (h.rests hnone i (honors_nothing (w.slots i))).atRest hfd
      have hlent : (w.slots i).loans true = [.application] :=
        Cell.AtRest.application_loans hrest hfd hphase
      rw [hresting, hlent, List.mem_singleton] at hfirst
      exact absurd (hloan.trans hfirst.symm) (loan_ne_head h.1 hcompletions hindex hmem hsame)
  · have hother : ∀ choice, visit ≠ .finishApplication choice :=
      fun choice heq => hfinish ⟨choice, heq⟩
    have hvisits := h.visit hnone hvisit hother (honors_nothing (w.slots i))
    have hsame : outcome.1.shared.executor.completions = w.shared.executor.completions :=
      hvisits.completions.1
    refine h.resume w.shared.executor.completions hvisits hcurrent ?_ ?_
    · rw [hsame]
      exact fun _ hmem => hmem
    · rw [hsame]
      intro completion hmem hindex hloan
      obtain ⟨-, hfd, hphase⟩ := application_lent h.1 (mem_outstanding hmem) hindex hloan
      obtain ⟨-, -, -, -, hlate⟩ := Cell.visit_application
        (h.rests hnone i (honors_nothing (w.slots i))) hfd hphase hvisit hother
      rcases h.2.2.2 completion hmem i hindex hloan with hs | hs | hs | hs | hs
      · exact Or.inl hs
      · exact Or.inr (Or.inl hs)
      · exact Or.inr (Or.inr (Or.inl hs))
      · exact Or.inr (Or.inr (Or.inr (Or.inl hs)))
      · exact Or.inr (Or.inr (Or.inr (Or.inr (hlate hs))))

/-! ### The executor's threads -/

/-- Threads move tasks along, which the slots do not notice. -/
theorem executor_balanced (h : w.Balanced config publicSlots) {executor : Executor}
    (hperm : executor.outstanding.Perm w.shared.executor.outstanding)
    (hsubmitted : executor.submitted = w.shared.executor.submitted)
    (happlied : executor.applied = w.shared.executor.applied) :
    Balanced config publicSlots { w with shared := { w.shared with executor := executor } } := by
  obtain ⟨haccounted, hsane, ⟨hrange, hloans, htickets⟩, hlisted, hhosted, hstocked, hformed⟩ := h
  have htasks : ∀ j, (executor.tasks j).Perm (w.shared.executor.tasks j) :=
    fun j => hperm.filter _
  refine ⟨haccounted, hsane, ⟨fun task hmem => hrange task (hperm.mem_iff.mp hmem), fun j => ?_, ?_⟩,
    hlisted, hhosted, hstocked, hformed⟩
  · exact ⟨((htasks j.val).map _).trans (hloans j).1,
      fun task hmem => (hloans j).2 task ((htasks j.val).mem_iff.mp hmem)⟩
  · show (_ ++ executor.applied).Perm (List.range executor.submitted)
    rw [hsubmitted, happlied]
    exact ((hperm.map _).append_right _).trans htickets

theorem takeTask_perm {executor next : Executor} {lane : Nat}
    (h : executor.takeTask lane = some next) :
    next.outstanding.Perm executor.outstanding ∧ next.submitted = executor.submitted ∧
      next.applied = executor.applied ∧ next.completions = executor.completions := by
  obtain ⟨task, hfind, rfl⟩ := Option.map_eq_some_iff.mp h
  refine ⟨?_, rfl, rfl, rfl⟩
  -- The first task of the lane moves from the queue to the running ones.
  have hqueue : executor.queued.Perm
      (task :: executor.queued.eraseP fun task => task.lane == lane) := by
    obtain ⟨hlane, before, after, hsplit, hbefore⟩ := List.find?_eq_some_iff_append.mp hfind
    rw [hsplit, List.eraseP_append_right _ fun other hin => by simpa using hbefore other hin,
      List.eraseP_cons_of_pos (p := fun task : Task => task.lane == lane) hlane]
    exact List.perm_middle
  simp only [Executor.outstanding]
  refine List.Perm.append_right _ ?_
  calc (executor.queued.eraseP fun task => task.lane == lane) ++ (executor.running ++ [task])
      _ ~ (executor.queued.eraseP fun task => task.lane == lane) ++ (task :: executor.running) :=
          List.Perm.append_left _ (List.perm_append_singleton _ _)
      _ ~ task :: ((executor.queued.eraseP fun task => task.lane == lane) ++ executor.running) :=
          List.perm_middle
      _ ~ executor.queued ++ executor.running := (hqueue.append_right _).symm

theorem pushCompletion_perm {executor : Executor} {position : Nat} {task : Task}
    {response : Option Response} {expired : Bool} (h : executor.running[position]? = some task) :
    (executor.pushCompletion position task response expired).outstanding.Perm
      executor.outstanding := by
  obtain ⟨hlt, hget⟩ := List.getElem?_eq_some_iff.mp h
  have hrunning : (task :: executor.running.eraseIdx position).Perm executor.running := by
    rw [← hget]
    exact List.getElem_cons_eraseIdx_perm hlt
  simp only [Executor.pushCompletion, Executor.outstanding, List.map_append, List.map_cons,
    List.map_nil, List.append_assoc]
  refine List.Perm.append_left _ ?_
  calc executor.running.eraseIdx position ++ (executor.completions.map (fun c => c.task) ++ [task])
      _ ~ (executor.running.eraseIdx position ++ executor.completions.map fun c => c.task) ++
            [task] := by rw [List.append_assoc]
      _ ~ task :: (executor.running.eraseIdx position ++
            executor.completions.map fun c => c.task) := List.perm_append_singleton _ _
      _ ~ executor.running ++ executor.completions.map fun c => c.task :=
          hrunning.append_right _

theorem executor (h : w.Consistent config publicSlots) {executor : Executor}
    (hperm : executor.outstanding.Perm w.shared.executor.outstanding)
    (hsubmitted : executor.submitted = w.shared.executor.submitted)
    (happlied : executor.applied = w.shared.executor.applied)
    (hawaited : ∀ completion ∈ executor.completions, ∀ i : Fin n,
      completion.task.index = i.val → completion.Suits (w.slots i)) :
    Consistent config publicSlots { w with shared := { w.shared with executor := executor } } :=
  ⟨executor_balanced h.1 hperm hsubmitted happlied, h.2.1, h.2.2.1, hawaited⟩

/-- A completion that is pushed answers what its stage needs: a request that was canceled is late. -/
theorem pushCompletion_suits (h : w.Consistent config publicSlots) {position : Nat} {task : Task}
    {response : Option Response} {expired : Bool}
    (htask : w.shared.executor.running[position]? = some task) (hindex : task.index = i.val)
    (hanswers : answers (w.slots i) task response expired = true) :
    Completion.Suits ⟨task, response, expired⟩ (w.slots i) := by
  intro (hloan : task.loan = .application)
  have hstream : task.stream = none := by
    unfold Task.loan at hloan
    split at hloan
    · cases hloan
    · rename_i hstream
      exact hstream
  have hout : task ∈ w.shared.executor.outstanding :=
    List.mem_append_left _ (List.mem_append_right _ (List.mem_of_getElem? htask))
  obtain ⟨hresting, hfd, hphase⟩ := application_lent h.1 hout hindex hloan
  have hrest : (w.slots i).Rest config := by
    have hdue := h.2.2.1 i
    unfold Due at hdue
    unfold resting at hresting
    split at hdue
    · exact hdue
    · rename_i j call hcurrent
      rw [hcurrent] at hresting
      rwa [if_neg (by simpa using hresting)] at hdue
  rw [Connection.Rest, if_pos hfd] at hrest
  simp only [Connection.AtRest, hphase] at hrest
  have hlate := hrest.2.2.2.2.2.2.2
  have hneeds : (response.isSome || expired || canceled (w.slots i) task) = true →
      response.isSome = true ∨ expired = true ∨ (w.slots i).applicationTimedOut = true := by
    intro hor
    simp only [Bool.or_eq_true, canceled, hstream] at hor
    rcases hor with (hor | hor) | hor
    · exact Or.inl hor
    · exact Or.inr (Or.inl hor)
    · exact Or.inr (Or.inr (hlate hor))
  unfold answers at hanswers
  cases hstage : task.stage <;> simp only [hstage] at hanswers
  case head => exact Or.inl rfl
  case body => exact Or.inr (Or.inl rfl)
  case bodyResponse => exact Or.inr (Or.inr (hneeds hanswers))
  case response => exact Or.inr (Or.inr (hneeds hanswers))
  case produce =>
    unfold Task.loan at hloan
    rw [hstream, hstage] at hloan
    cases hloan

/-! ### The end of the worker -/

/-- Closing a slot whose request no hook borrows. -/
theorem close (h : w.Consistent config publicSlots) (hnone : w.current = none)
    (hfd : (w.slots i).fd.isSome = true) (hphase : (w.slots i).phase ≠ .application) :
    (w.put i ((w.cell i).forceClose i.val)).Consistent config publicSlots := by
  have hrests := h.rests hnone i (honors_nothing (w.slots i))
  have hvisits := Cell.forceClose_visits (hrests.2.2.start hphase) hrests.2.1 hfd
  have hsame : ((w.cell i).forceClose i.val).shared.executor.completions =
      w.shared.executor.completions := hvisits.completions.1
  have hresumed := h.resume w.shared.executor.completions hvisits
    (by rw [hnone]; nofun) (by rw [hsame]; exact fun _ hmem => hmem) (by
      rw [hsame]
      intro completion hmem hindex hloan
      exact absurd (application_lent h.1 (mem_outstanding hmem) hindex hloan).2.2 hphase)
  have heq : w.put i ((w.cell i).forceClose i.val) =
      w.resume i ((w.cell i).forceClose i.val, .done) := by
    simp only [Worker.resume, put, hnone]
  rw [heq]
  exact hresumed

/-- `stopOperations` closes the slots one after another. -/
theorem closeAll (slots : List (Fin n)) :
    ∀ {w : Worker n}, w.Consistent config publicSlots → w.current = none → slots.Nodup →
      (∀ i ∈ slots, (w.slots i).fd.isSome = true → (w.slots i).phase ≠ .application) →
      (w.closeAll slots).Consistent config publicSlots := by
  induction slots with
  | nil => exact fun h _ _ _ => h
  | cons i slots ih =>
      intro w h hnone hnodup hphases
      obtain ⟨hnot, hnodup⟩ := List.nodup_cons.mp hnodup
      unfold Worker.closeAll
      rw [List.foldl_cons]
      split
      · rename_i hfd
        refine ih (h.close hnone hfd (hphases i List.mem_cons_self hfd)) hnone hnodup ?_
        intro j hj
        have hne : j ≠ i := fun heq => hnot (heq ▸ hj)
        have hsame : (w.put i ((w.cell i).forceClose i.val)).slots j = w.slots j :=
          Function.update_of_ne hne ..
        rw [hsame]
        exact hphases j (List.mem_cons_of_mem _ hj)
      · exact ih h hnone hnodup fun j hj => hphases j (List.mem_cons_of_mem _ hj)

/-- Shared fields that no account is about may change. -/
theorem shared (h : w.Consistent config publicSlots) (shared : Shared)
    (hsame : shared =
      { w.shared with
        admission := shared.admission, draining := shared.draining, stopping := shared.stopping })
    (hactive : shared.admission.active = w.shared.admission.active)
    (hrejecting : shared.admission.rejecting = w.shared.admission.rejecting) :
    Consistent config publicSlots { w with shared := shared } := by
  obtain ⟨⟨⟨ha, hr, ht⟩, hsane, hloaned, hlisted, hhosted, hstocked, hformed⟩, hbooks, hdue,
    hawaited⟩ := h
  rw [hsame]
  exact ⟨⟨⟨hactive.trans ha, hrejecting.trans hr, ht⟩, hsane, hloaned, hlisted, hhosted, hstocked,
    hformed⟩, hbooks, hdue, hawaited⟩

/-- No slot's request is borrowed when the worker stops. -/
theorem not_application (h : w.Consistent config publicSlots) (hnone : w.current = none)
    (hquiet : w.shared.activeSlots = [] ∨ w.hasApplicationWork config = false)
    (hfd : (w.slots i).fd.isSome = true) : (w.slots i).phase ≠ .application := by
  intro hphase
  have hactive : i.val ∈ w.shared.activeSlots := (h.1.2.2.2.1.1.2 i.val).mpr ⟨i, rfl, hfd⟩
  rcases hquiet with hempty | hwork
  · rw [hempty] at hactive
    cases hactive
  · have hrest := h.rest hnone i
    rw [Connection.Rest, if_pos hfd] at hrest
    simp only [Connection.AtRest, hphase] at hrest
    have hiso := hrest.2.2.2.2.2.1
    simp only [hasApplicationWork, hiso, Bool.true_and, decide_eq_false_iff_not, not_exists] at hwork
    exact hwork i ⟨List.contains_iff_mem.mpr hactive, by simp [working, hphase]⟩

end Consistent

/-- Every event preserves the invariant. -/
theorem step_consistent {event : Event n} {next : Worker n} (h : w.Consistent config publicSlots)
    (hstep : w.step config event = some next) : next.Consistent config publicSlots := by
  cases event with
  | call choice =>
      obtain ⟨⟨i, call⟩, hcurrent, rfl⟩ := Option.map_eq_some_iff.mp hstep
      exact h.step_call hcurrent choice
  | visit i visit =>
      simp only [step] at hstep
      split at hstep
      · cases hstep
      · rename_i hidle
        obtain ⟨outcome, hvisit, rfl⟩ := Option.map_eq_some_iff.mp hstep
        exact h.step_visit (by simpa using hidle) hvisit
  | refill now =>
      simp only [step] at hstep
      split at hstep
      · cases hstep
      · cases hstep
        exact h.shared _ rfl rfl rfl
  | beginShutdown =>
      simp only [step] at hstep
      split at hstep
      · cases hstep
      · cases hstep
        exact h.shared _ rfl rfl rfl
  | stopOperations late =>
      simp only [step] at hstep
      split at hstep
      · cases hstep
      · rename_i hready
        simp only [not_or, Bool.not_eq_true', Bool.not_eq_false, Bool.or_eq_true,
          Bool.and_eq_true, List.isEmpty_iff] at hready
        obtain ⟨hidle, -, -, hquiet⟩ := hready
        have hnone : w.current = none := by simpa using hidle
        cases hstep
        refine Consistent.closeAll _ (h.shared { w.shared with stopping := true } rfl
          rfl rfl) hnone (List.nodup_finRange n) fun i _ hfd => ?_
        exact h.not_application hnone (hquiet.imp_right fun hlate => hlate.2) hfd
  | takeTask lane =>
      obtain ⟨executor, htake, rfl⟩ := Option.map_eq_some_iff.mp hstep
      obtain ⟨hperm, hsubmitted, happlied, hring⟩ := Consistent.takeTask_perm htake
      exact h.executor hperm hsubmitted happlied (by rw [hring]; exact h.2.2.2)
  | pushCompletion index position response expired =>
      simp only [step] at hstep
      split at hstep
      · cases hstep
      · rename_i task htask
        split at hstep
        · cases hstep
        · rename_i hready
          simp only [not_or, Decidable.not_not, Bool.not_eq_true', Bool.not_eq_false] at hready
          cases hstep
          refine h.executor (Consistent.pushCompletion_perm htask) rfl rfl ?_
          intro completion hmem i hindex
          rcases List.mem_append.mp hmem with hmem | hmem
          · exact h.2.2.2 completion hmem i hindex
          · rw [List.mem_singleton.mp hmem] at hindex ⊢
            have hsame : index = i := Fin.ext (hready.1.symm.trans hindex)
            exact h.pushCompletion_suits htask hindex (hsame ▸ hready.2)

/-! ### The initial worker -/

/-- The numbers of the slots that satisfy a condition, as `init` lists them. -/
theorem mem_slots (p : Nat → Prop) [DecidablePred p] {j : Nat} :
    j ∈ ((List.finRange n).filterMap fun i => if p i.val then some i.val else none) ↔
      ∃ i : Fin n, i.val = j ∧ p i.val := by
  simp only [List.mem_filterMap, List.mem_finRange, true_and]
  refine exists_congr fun i => ?_
  by_cases h : p i.val <;> simp [h]

theorem nodup_slots (p : Nat → Prop) [DecidablePred p] :
    ((List.finRange n).filterMap fun i => if p i.val then some i.val else none).Nodup := by
  refine List.Nodup.filterMap (fun i j k hi hj => ?_) (List.nodup_finRange n)
  simp only [Option.mem_def, Option.ite_none_right_eq_some, Option.some.injEq] at hi hj
  exact Fin.ext (hi.2.trans hj.2.symm)

/-- A slot as `init` leaves it. -/
theorem init_slot (n : Nat) (config : Config) (publicSlots : Nat) (options : Admission.Options)
    (now : Nat) (i : Fin n) :
    ∃ parser, (init n config publicSlots options now).slots i =
      { admin := decide (publicSlots ≤ i.val)
        lease := decide (publicSlots ≤ i.val)
        parser := parser } :=
  ⟨_, rfl⟩

theorem init_adminFree (n : Nat) (config : Config) (publicSlots : Nat) (options : Admission.Options)
    (now : Nat) : (init n config publicSlots options now).shared.adminFree =
      (List.finRange n).filterMap fun i => if ¬i.val < publicSlots then some i.val else none := by
  refine List.filterMap_congr fun i _ => ?_
  by_cases hi : i.val < publicSlots <;> simp [hi]

theorem init_consistent (n : Nat) (config : Config) (publicSlots : Nat)
    (options : Admission.Options) (now : Nat) :
    (init n config publicSlots options now).Consistent config publicSlots := by
  refine ⟨⟨⟨?_, ?_, ?_⟩, by rintro _ ⟨⟩, ⟨by rintro _ ⟨⟩, fun i => ⟨?_, by rintro _ ⟨⟩⟩, List.Perm.refl _⟩,
    ⟨⟨List.nodup_nil, fun j => ?_⟩, ⟨by rintro _ ⟨⟩, fun _ => rfl⟩, ⟨?_, fun j => ?_⟩, ⟨?_, fun j => ?_⟩, [],
      Lib.Linked.represents_nil, by rintro _ ⟨⟩⟩, ⟨?_, List.nodup_nil, rfl, Nat.zero_le _, ?_, ?_,
      Nat.zero_le _⟩, ⟨?_, Nat.zero_le _, fun kind => ⟨rfl, ?_⟩, ?_⟩, fun i => ?_⟩,
    fun i => ⟨⟨rfl, fun kind => ?_, fun _ hmem => absurd hmem List.not_mem_nil⟩,
      Cell.Sounds.of_http1 rfl⟩, fun i => ?_, fun _ hmem => absurd hmem List.not_mem_nil⟩
  · simp [init, Connection.initParser, Connection.admits, Connection.batched, Connection.streams,
      Connection.streamHolds, holds, Admission.init]
  · simp [init, Connection.initParser, Connection.rejects, Connection.streams,
      Connection.streamHolds, holds, Admission.init]
  · simp [init, Connection.initParser, Connection.live, Connection.requesting, Connection.batched,
      Connection.streams]
  · exact List.Perm.refl _
  · constructor
    · rintro ⟨⟩
    · rintro ⟨i, -, hopen⟩
      cases hopen
  · exact nodup_slots fun i => i < publicSlots
  · refine (mem_slots fun i => i < publicSlots).trans
      (exists_congr fun i => and_congr_right fun _ => ?_)
    simp [Free, init, Connection.initParser]
  · rw [init_adminFree]
    exact nodup_slots fun i => ¬i < publicSlots
  · rw [init_adminFree]
    refine (mem_slots fun i => ¬i < publicSlots).trans
      (exists_congr fun i => and_congr_right fun _ => ?_)
    simp [Free, init, Connection.initParser]
  · simp [init, Connection.initParser, Connection.addresses, Connection.streams, Lib.gather]
  · simp [init, Connection.initParser, Connection.serials, Connection.streams, Lib.gather]
  · simp [init, Connection.initParser, Connection.streams]
  · simp [init, Connection.initParser, Connection.charge]
  · have : ∑ i, ((init n config publicSlots options now).slots i).blocks kind = 0 := by
      simp [init, Connection.initParser, Connection.blocks]
    rw [this]
    exact BufferPool.valid_empty _
  · have : ∑ i, ((init n config publicSlots options now).slots i).smallBlock.isSome.toNat = 0 := by
      simp [init, Connection.initParser]
    rw [this]
    exact BufferPool.valid_empty _
  · obtain ⟨parser, hslot⟩ := init_slot n config publicSlots options now i
    rw [hslot]
    exact ⟨by rintro _ ⟨⟩, fun _ hmem => absurd hmem List.not_mem_nil, by rintro _ ⟨⟩, rfl, fun _ => ⟨rfl, rfl⟩,
      fun _ => ⟨rfl, rfl⟩⟩
  · obtain ⟨parser, hslot⟩ := init_slot n config publicSlots options now i
    rw [hslot]
    cases kind <;> rfl
  · obtain ⟨parser, hslot⟩ := init_slot n config publicSlots options now i
    show ((init n config publicSlots options now).slots i).Rest config
    rw [hslot]
    exact ⟨rfl, rfl, rfl, rfl, rfl, rfl, rfl⟩

/-- Every reachable worker is consistent. -/
theorem run_consistent {publicSlots : Nat} {options : Admission.Options} {now : Nat}
    {events : List (Event n)}
    (hrun : (init n config publicSlots options now).run config events = some w) :
    w.Consistent config publicSlots :=
  Lib.run_invariant (fun _ _ _ h hstep => step_consistent h hstep) events _ _
    (init_consistent n config publicSlots options now) hrun

end Worker

end Zhtps
