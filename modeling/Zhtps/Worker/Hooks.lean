import Mathlib.Data.List.InsertIdx
import Zhtps.Worker.Cancellation
import Zhtps.Worker.Safety

/-!
The threads of the executor beside the worker.  A thread reads the clock, then whether its task was
canceled; it runs the hooks of the task's stage, with a second look at the clock between the two hooks
of a last body chunk, reads the clock once more and pushes the completion.  The worker may take any of
its steps between two of these, and time may pass.

The loop applies a completion without a response only where nobody waits for one.
-/

namespace Zhtps

namespace Worker

variable {n : Nat}

/-- What the hooks of a task answer: `runHead` or `runBody`, which may pass, and `respond`. -/
structure Answer where
  early : Option Response := none
  response : Response

/-- How far `threadMain` has come with its task.  `startedNs` is `started_ns`. -/
inductive Progress
  | taken
  | started (startedNs : Nat)
  | running (startedNs : Nat)
  /-- `runBody` passed on the last chunk. -/
  | passed (startedNs : Nat)
  | responding (startedNs : Nat)
  | answered (startedNs : Nat) (response : Option Response)
  | judged (response : Option Response) (expired : Bool)
  deriving DecidableEq

structure Thread where
  task : Task
  deadlineNs : Nat
  progress : Progress := .taken
  deriving DecidableEq

/-- `threadMain` up to the next point at which others may step. -/
def Thread.next (clock : Nat) (canceled : Bool) (answer : Answer) (thread : Thread) : Progress :=
  match thread.progress with
  | .taken => .started clock
  | .started startedNs =>
      if thread.deadlineNs ≤ startedNs ∨ canceled then .answered startedNs none else .running startedNs
  | .running startedNs =>
      match thread.task.stage with
      | .head | .body => .answered startedNs answer.early
      | .response => .answered startedNs (some answer.response)
      | .produce => .answered startedNs none
      | .bodyResponse =>
          match answer.early with
          | some response => .answered startedNs (some response)
          | none => .passed startedNs
  | .passed startedNs =>
      if thread.deadlineNs ≤ clock then .answered startedNs none else .responding startedNs
  | .responding startedNs => .answered startedNs (some answer.response)
  | .answered startedNs response =>
      .judged response (decide (thread.deadlineNs ≤ startedNs) || decide (thread.deadlineNs ≤ clock))
  | .judged response expired => .judged response expired

def Thread.advance (clock : Nat) (canceled : Bool) (answer : Answer) (thread : Thread) : Thread :=
  { thread with progress := thread.next clock canceled answer }

@[simp] theorem Thread.advance_task (clock : Nat) (canceled : Bool) (answer : Answer)
    (thread : Thread) : (thread.advance clock canceled answer).task = thread.task := rfl

/-- The flag that a thread reads: the stream's, or the slot's. -/
def taskCanceled (w : Worker n) (task : Task) : Bool :=
  if h : task.index < n then canceled (w.slots ⟨task.index, h⟩) task else false

/-- A worker, the threads that run its tasks, in the order in which they took them, and the clock. -/
structure Execution (n : Nat) where
  worker : Worker n
  threads : List Thread := []
  clock : Nat := 0

inductive Happening (n : Nat)
  | worker (event : Event n)
  | elapse (ns : Nat)
  /-- A thread of the lane takes a task with this `deadline_ns`. -/
  | take (lane deadlineNs : Nat)
  | advance (position : Nat) (answer : Answer)
  | push (position : Nat)

namespace Execution

def setExecutor (executor : Executor) (e : Execution n) : Execution n :=
  { e with worker := { e.worker with shared := { e.worker.shared with executor := executor } } }

/-- A thread takes the first task of its lane. -/
def take (lane deadlineNs : Nat) (e : Execution n) : Option (Execution n) :=
  match e.worker.shared.executor.queued.find? fun task => task.lane == lane with
  | none => none
  | some task =>
      (e.worker.shared.executor.takeTask lane).map fun executor =>
        { e.setExecutor executor with threads := e.threads ++ [{ task, deadlineNs }] }

def advance (position : Nat) (answer : Answer) (e : Execution n) : Option (Execution n) :=
  (e.threads[position]?).map fun thread =>
    { e with
      threads := e.threads.set position
        (thread.advance e.clock (e.worker.taskCanceled thread.task) answer) }

/-- A thread that is done pushes its completion. -/
def push (position : Nat) (e : Execution n) : Option (Execution n) :=
  match e.threads[position]? with
  | none => none
  | some thread =>
      match thread.progress with
      | .judged response expired => some
          { e.setExecutor (e.worker.shared.executor.pushCompletion position thread.task response
              expired) with
            threads := e.threads.eraseIdx position }
      | _ => none

def step (config : Config) (e : Execution n) : Happening n → Option (Execution n)
  | .worker event =>
      if event.threaded then none
      else (e.worker.step config event).map fun worker => { e with worker := worker }
  | .elapse ns => some { e with clock := e.clock + ns }
  | .take lane deadlineNs => e.take lane deadlineNs
  | .advance position answer => e.advance position answer
  | .push position => e.push position

def run (config : Config) : Execution n → List (Happening n) → Option (Execution n) :=
  Lib.run (step config)

end Execution

/-! ### What a thread leaves out -/

variable {config : Config} {publicSlots : Nat} {options : Admission.Options} {now : Nat}
  {w next : Worker n} {i : Fin n}

/-- A thread that has no response has seen the deadline, or that its task is dropped. -/
def Progress.Excused (task : Task) (deadlineNs clock : Nat) (c : Connection) : Progress → Prop
  | .answered startedNs response => task.Final → response.isSome = true ∨
      deadlineNs ≤ startedNs ∨ deadlineNs ≤ clock ∨ task.Dropped c
  | .judged response expired => Completion.Excused ⟨task, response, expired⟩ c
  | _ => True

def Thread.Excused (clock : Nat) (c : Connection) (thread : Thread) : Prop :=
  thread.progress.Excused thread.task thread.deadlineNs clock c

/-- A stage without a final response needs no excuse. -/
theorem Progress.excused_of_stage {task : Task} {deadlineNs clock startedNs : Nat} {c : Connection}
    {response : Option Response} (h : ¬task.Final) :
    (Progress.answered startedNs response).Excused task deadlineNs clock c :=
  fun hfinal => absurd hfinal h

theorem Thread.advance_excused {clock : Nat} {canceled : Bool} {c : Connection} {thread : Thread}
    (answer : Answer) (h : thread.Excused clock c)
    (hcanceled : thread.task.Final → canceled = true → thread.task.Dropped c) :
    (thread.advance clock canceled answer).Excused clock c := by
  show (thread.next clock canceled answer).Excused thread.task thread.deadlineNs clock c
  unfold Thread.Excused at h
  unfold Thread.next
  cases hprogress : thread.progress with
  | taken => trivial
  | started startedNs =>
      dsimp only
      split_ifs with hdrop
      · intro hfinal
        rcases hdrop with hlate | hdrop
        · exact Or.inr (Or.inl hlate)
        · exact Or.inr (Or.inr (Or.inr (hcanceled hfinal hdrop)))
      · trivial
  | running startedNs =>
      cases hstage : thread.task.stage with
      | head => exact Progress.excused_of_stage (by simp [Task.Final, hstage])
      | body => exact Progress.excused_of_stage (by simp [Task.Final, hstage])
      | produce => exact Progress.excused_of_stage (by simp [Task.Final, hstage])
      | response => exact fun _ => Or.inl rfl
      | bodyResponse =>
          cases answer.early with
          | none => trivial
          | some response => exact fun _ => Or.inl rfl
  | passed startedNs =>
      dsimp only
      split_ifs with hlate
      · exact fun _ => Or.inr (Or.inr (Or.inl hlate))
      · trivial
  | responding startedNs => exact fun _ => Or.inl rfl
  | answered startedNs response =>
      rw [hprogress] at h
      intro hfinal
      rcases h hfinal with hsome | hlate | hlate | hdropped
      · exact Or.inl hsome
      · exact Or.inr (Or.inl (by simp [hlate]))
      · exact Or.inr (Or.inl (by simp [hlate]))
      · exact Or.inr (Or.inr hdropped)
  | judged response expired =>
      rw [hprogress] at h
      exact h

/-- Time passes, and what was dropped stays dropped. -/
theorem Thread.Excused.mono {clock later : Nat} {c changed : Connection} {thread : Thread}
    (h : thread.Excused clock c) (hclock : clock ≤ later)
    (hdropped : thread.task.Final → thread.task.Dropped c → thread.task.Dropped changed) :
    thread.Excused later changed := by
  unfold Thread.Excused at h ⊢
  cases hprogress : thread.progress with
  | answered startedNs response =>
      rw [hprogress] at h
      intro hfinal
      exact (h hfinal).imp_right fun h => h.imp_right fun h =>
        h.imp (fun h => h.trans hclock) (hdropped hfinal)
  | judged response expired =>
      rw [hprogress] at h
      intro hfinal
      exact (h hfinal).imp_right fun h => h.imp_right (hdropped hfinal)
  | taken => trivial
  | started startedNs => trivial
  | running startedNs => trivial
  | passed startedNs => trivial
  | responding startedNs => trivial

/-! ### The worker's steps -/

/-- Closing slots leaves the completions. -/
theorem Consistent.closeAll_completions (slots : List (Fin n)) :
    ∀ {w : Worker n}, w.Consistent config publicSlots → w.current = none → slots.Nodup →
      (∀ i ∈ slots, (w.slots i).fd.isSome = true → (w.slots i).phase ≠ .application) →
      (w.closeAll slots).shared.executor.completions = w.shared.executor.completions := by
  induction slots with
  | nil => exact fun _ _ _ _ => rfl
  | cons i slots ih =>
      intro w h hnone hnodup hphases
      obtain ⟨hnot, hnodup⟩ := List.nodup_cons.mp hnodup
      unfold Worker.closeAll
      rw [List.foldl_cons]
      split
      · rename_i hfd
        have hphase := hphases i List.mem_cons_self hfd
        have hrests := h.rests hnone i (honors_nothing (w.slots i))
        have hvisits := Cell.forceClose_visits (hrests.2.2.start hphase) hrests.2.1 hfd
        have hsame : ((w.cell i).forceClose i.val).shared.executor.completions =
            w.shared.executor.completions := hvisits.completions.1
        refine (ih (h.close hnone hfd hphase) hnone hnodup ?_).trans hsame
        intro j hj
        have hne : j ≠ i := fun heq => hnot (heq ▸ hj)
        rw [show (w.put i ((w.cell i).forceClose i.val)).slots j = w.slots j from
          Function.update_of_ne hne ..]
        exact hphases j (List.mem_cons_of_mem _ hj)
      · exact ih h hnone hnodup fun j hj => hphases j (List.mem_cons_of_mem _ hj)

/-- The worker completes no task by itself. -/
theorem Consistent.completions_step (h : w.Consistent config publicSlots) {event : Event n}
    (hstep : w.step config event = some next) (hevent : event.threaded = false) :
    ∀ completion ∈ next.shared.executor.completions,
      completion ∈ w.shared.executor.completions := by
  cases event with
  | call choice =>
      obtain ⟨⟨i, call⟩, hcurrent, rfl⟩ := Option.map_eq_some_iff.mp hstep
      have hsame : ((w.cell i).dispatch config choice i.val call).1.shared.executor.completions =
          w.shared.executor.completions :=
        (h.call hcurrent choice (honors_nothing (w.slots i))).completions.1
      intro completion hmem
      exact hsame ▸ hmem
  | visit i visit =>
      simp only [step] at hstep
      split at hstep
      · cases hstep
      · rename_i hidle
        have hnone : w.current = none := by simpa using hidle
        obtain ⟨outcome, hvisit, rfl⟩ := Option.map_eq_some_iff.mp hstep
        by_cases hfinish : ∃ choice, visit = .finishApplication choice
        · obtain ⟨choice, rfl⟩ := hfinish
          obtain ⟨completion, rest, hcompletions, hindex⟩ := (Cell.finishApplication_head hvisit).2
          have hcompletions : w.shared.executor.completions = completion :: rest := hcompletions
          have hvisits := h.visit_finish hnone hvisit hcompletions hindex
            (honors_nothing (w.slots i)) (spares_nothing _)
          have hring : outcome.1.shared.executor.completions = w.shared.executor.completions.tail :=
            hvisits.completions.1
          intro other hmem
          exact List.mem_of_mem_tail (hring ▸ hmem)
        · have hsame : outcome.1.shared.executor.completions = w.shared.executor.completions :=
            (h.visit hnone hvisit (fun choice heq => hfinish ⟨choice, heq⟩)
              (honors_nothing (w.slots i))).completions.1
          intro completion hmem
          exact hsame ▸ hmem
  | refill now =>
      simp only [step] at hstep
      split at hstep
      · cases hstep
      · cases hstep
        exact fun _ hmem => hmem
  | beginShutdown =>
      simp only [step] at hstep
      split at hstep
      · cases hstep
      · cases hstep
        exact fun _ hmem => hmem
  | stopOperations late =>
      simp only [step] at hstep
      split at hstep
      · cases hstep
      · rename_i hready
        simp only [not_or, Bool.not_eq_true', Bool.not_eq_false, Bool.or_eq_true,
          Bool.and_eq_true, List.isEmpty_iff] at hready
        obtain ⟨hidle, -, -, hquiet⟩ := hready
        have hnone : w.current = none := by simpa using hidle
        cases hstep
        have hsame := closeAll_completions (List.finRange n)
          (h.shared { w.shared with stopping := true } rfl rfl rfl) hnone (List.nodup_finRange n)
          fun i _ hfd => h.not_application hnone (hquiet.imp_right fun hlate => hlate.2) hfd
        intro completion hmem
        exact hsame ▸ hmem
  | takeTask lane => cases hevent
  | pushCompletion index position response expired => cases hevent

/-- A task that was canceled is dropped. -/
theorem Consistent.dropped_of_canceled (h : w.Consistent config publicSlots)
    (htold : AllTold (w.slots i).streams) {task : Task}
    (htask : task ∈ w.shared.executor.outstanding) (hindex : task.index = i.val)
    (hfinal : task.Final) (hcanceled : w.taskCanceled task = true) :
    task.Dropped (w.slots i) := by
  have hread : canceled (w.slots i) task = true := by
    unfold taskCanceled at hcanceled
    split at hcanceled
    · rename_i hlt
      rwa [show (⟨task.index, hlt⟩ : Fin n) = i from Fin.ext hindex] at hcanceled
    · cases hcanceled
  unfold Task.Dropped
  unfold canceled at hread
  cases hstream : task.stream with
  | none =>
      rw [hstream] at hread
      obtain ⟨-, -, hphase, hrest⟩ := h.application_rest htask hindex (hfinal.loan hstream)
      simp only [Connection.AtRest, hphase] at hrest
      exact hrest.2.2.2.2.2.2.2 hread
  | some address =>
      rw [hstream] at hread
      intro stream hmem haddress
      cases hsession : (w.slots i).http2 with
      | none =>
          rw [hsession] at hread
          cases hread
      | some session =>
          rw [hsession] at hread
          have hstreams : (w.slots i).streams = session.streams := by
            rw [Connection.streams, hsession]
          obtain ⟨lent, hlent, hfound⟩ := List.any_eq_true.mp hread
          obtain ⟨hsame, hset⟩ := Bool.and_eq_true_iff.mp hfound
          have heq : stream = lent := stream_unique h.1 hmem (hstreams ▸ hlent)
            (haddress.trans (beq_iff_eq.mp hsame).symm)
          exact htold stream hmem (heq ▸ hset)

/-! ### Runs -/

namespace Execution

variable {e later : Execution n} {happenings : List (Happening n)}

/-- The threads run what the worker knows as running, and nothing misses a response unexcused. -/
structure Sound (config : Config) (publicSlots : Nat) (e : Execution n) : Prop where
  consistent : e.worker.Consistent config publicSlots
  told : ∀ i, AllTold (e.worker.slots i).streams
  heard : e.worker.shared.missed = []
  running : (e.threads.map fun thread => thread.task) = e.worker.shared.executor.running
  excuses : e.worker.Excuses
  threads : ∀ thread ∈ e.threads, ∀ i : Fin n, thread.task.index = i.val →
    thread.Excused e.clock (e.worker.slots i)

theorem Sound.outstanding (h : e.Sound config publicSlots) {thread : Thread}
    (hmem : thread ∈ e.threads) : thread.task ∈ e.worker.shared.executor.outstanding := by
  have hrunning : thread.task ∈ e.worker.shared.executor.running :=
    h.running ▸ List.mem_map_of_mem hmem
  exact List.mem_append_left _ (List.mem_append_right _ hrunning)

theorem Sound.worker (h : e.Sound config publicSlots) {event : Event n} {worker : Worker n}
    (hevent : event.threaded = false) (hstep : e.worker.step config event = some worker) :
    Sound config publicSlots { e with worker := worker } := by
  obtain ⟨hconsistent, htold, hheard, hrunning, hexcuses, hthreads⟩ := id h
  have hfollows := step_follows hstep hevent hexcuses
  have hnext := step_consistent hconsistent hstep
  have hsame : worker.shared.executor.running = e.worker.shared.executor.running := hfollows.1.1
  refine ⟨hnext, fun i => (hfollows.2 i).2 (htold i), hfollows.1.2.trans hheard,
    hrunning.trans hsame.symm, fun completion hmem i hindex hfinal => ?_,
    fun thread hmem i hindex => ?_⟩
  · have hbefore := hconsistent.completions_step hstep hevent completion hmem
    rcases hexcuses completion hbefore i hindex hfinal with hsome | hexpired | hdropped
    · exact Or.inl hsome
    · exact Or.inr (Or.inl hexpired)
    · exact Or.inr (Or.inr (dropped_step hconsistent hstep hfollows
        (Consistent.mem_outstanding hbefore) (Consistent.mem_outstanding hmem) hindex hfinal hdropped))
  · refine (hthreads thread hmem i hindex).mono le_rfl fun hfinal hdropped => ?_
    have hrun : thread.task ∈ worker.shared.executor.running := by
      rw [hsame, ← hrunning]
      exact List.mem_map_of_mem hmem
    have hafter : thread.task ∈ worker.shared.executor.outstanding :=
      List.mem_append_left _ (List.mem_append_right _ hrun)
    exact dropped_step hconsistent hstep hfollows (h.outstanding hmem) hafter hindex hfinal hdropped

theorem Sound.take (h : e.Sound config publicSlots) {lane deadlineNs : Nat}
    (htake : e.take lane deadlineNs = some later) : later.Sound config publicSlots := by
  unfold Execution.take at htake
  split at htake
  · cases htake
  · rename_i task hfind
    obtain ⟨executor, htaken, rfl⟩ := Option.map_eq_some_iff.mp htake
    obtain ⟨hperm, hsubmitted, happlied, hring⟩ := Consistent.takeTask_perm htaken
    have hrunning : executor.running = e.worker.shared.executor.running ++ [task] := by
      unfold Executor.takeTask at htaken
      rw [hfind] at htaken
      obtain rfl := Option.some.inj htaken
      rfl
    refine ⟨h.consistent.executor hperm hsubmitted happlied ?_, h.told, h.heard, ?_, ?_, ?_⟩
    · rw [hring]
      exact h.consistent.2.2.2
    · show ((e.threads ++ _).map fun thread => thread.task) = executor.running
      rw [List.map_append, h.running, hrunning]
      rfl
    · intro completion hmem
      exact h.excuses completion (hring ▸ hmem)
    · intro thread hmem i hindex
      rcases List.mem_append.mp hmem with hmem | hmem
      · exact h.threads thread hmem i hindex
      · obtain rfl := List.mem_singleton.mp hmem
        trivial

theorem Sound.advance (h : e.Sound config publicSlots) {position : Nat} {answer : Answer}
    (hadvance : e.advance position answer = some later) : later.Sound config publicSlots := by
  obtain ⟨thread, hget, rfl⟩ := Option.map_eq_some_iff.mp hadvance
  have hin : thread ∈ e.threads := List.mem_of_getElem? hget
  refine ⟨h.consistent, h.told, h.heard, ?_, h.excuses, fun other hmem i hindex => ?_⟩
  · obtain ⟨hlt, hat⟩ := List.getElem?_eq_some_iff.mp hget
    rw [← h.running, List.map_set, Thread.advance_task, ← hat,
      ← List.getElem_map (fun thread : Thread => thread.task), List.set_getElem_self]
    rwa [List.length_map]
  · rcases List.mem_or_eq_of_mem_set hmem with hmem | rfl
    · exact h.threads other hmem i hindex
    · exact Thread.advance_excused answer (h.threads thread hin i hindex) fun hfinal hcanceled =>
        h.consistent.dropped_of_canceled (h.told i) (h.outstanding hin) hindex hfinal hcanceled

/-- What a thread that is done pushes suits its slot. -/
theorem Sound.suits (h : e.Sound config publicSlots) {thread : Thread} {response : Option Response}
    {expired : Bool} (hmem : thread ∈ e.threads) (hindex : thread.task.index = i.val)
    (hjudged : thread.progress = .judged response expired) :
    Completion.Excused ⟨thread.task, response, expired⟩ (e.worker.slots i) ∧
      Completion.Suits ⟨thread.task, response, expired⟩ (e.worker.slots i) := by
  have hexcused := h.threads thread hmem i hindex
  unfold Thread.Excused at hexcused
  rw [hjudged] at hexcused
  refine ⟨hexcused, fun (hloan : thread.task.loan = .application) => ?_⟩
  have hneeds (hfinal : thread.task.Final) : response.isSome = true ∨ expired = true ∨
      (e.worker.slots i).applicationTimedOut = true := by
    refine (hexcused hfinal).imp_right fun h => h.imp_right fun hdropped => ?_
    have hstream : thread.task.stream = none := by
      cases hstream : thread.task.stream with
      | none => rfl
      | some address =>
          rw [Task.loan, hstream] at hloan
          cases hloan
    unfold Task.Dropped at hdropped
    rwa [hstream] at hdropped
  cases hstage : thread.task.stage with
  | head => exact Or.inl rfl
  | body => exact Or.inr (Or.inl rfl)
  | response => exact Or.inr (Or.inr (hneeds (Or.inl hstage)))
  | bodyResponse => exact Or.inr (Or.inr (hneeds (Or.inr hstage)))
  | produce =>
      rw [Task.loan, hstage] at hloan
      split at hloan <;> cases hloan

theorem Sound.push (h : e.Sound config publicSlots) {position : Nat}
    (hpush : e.push position = some later) : later.Sound config publicSlots := by
  unfold Execution.push at hpush
  split at hpush
  · cases hpush
  · rename_i thread hget
    split at hpush
    · rename_i response expired hjudged
      obtain rfl := Option.some.inj hpush
      have hin : thread ∈ e.threads := List.mem_of_getElem? hget
      have htask : e.worker.shared.executor.running[position]? = some thread.task := by
        rw [← h.running, List.getElem?_map, hget]
        rfl
      refine ⟨h.consistent.executor (Consistent.pushCompletion_perm htask) rfl rfl ?_, h.told,
        h.heard, ?_, ?_, ?_⟩
      · intro completion hmem i hindex
        rcases List.mem_append.mp hmem with hmem | hmem
        · exact h.consistent.2.2.2 completion hmem i hindex
        · obtain rfl := List.mem_singleton.mp hmem
          exact (h.suits hin hindex hjudged).2
      · show ((e.threads.eraseIdx position).map fun thread => thread.task) =
          e.worker.shared.executor.running.eraseIdx position
        rw [← h.running, List.eraseIdx_map]
      · intro completion hmem i hindex
        rcases List.mem_append.mp hmem with hmem | hmem
        · exact h.excuses completion hmem i hindex
        · obtain rfl := List.mem_singleton.mp hmem
          exact (h.suits hin hindex hjudged).1
      · intro other hmem i hindex
        exact h.threads other (List.mem_of_mem_eraseIdx hmem) i hindex
    · cases hpush

theorem step_sound (h : e.Sound config publicSlots) {happening : Happening n}
    (hstep : e.step config happening = some later) : later.Sound config publicSlots := by
  cases happening with
  | worker event =>
      simp only [step] at hstep
      split at hstep
      · cases hstep
      · rename_i hevent
        obtain ⟨worker, hworker, rfl⟩ := Option.map_eq_some_iff.mp hstep
        exact h.worker (Bool.eq_false_iff.mpr hevent) hworker
  | elapse ns =>
      obtain rfl := Option.some.inj hstep
      exact ⟨h.consistent, h.told, h.heard, h.running, h.excuses, fun thread hmem i hindex =>
        (h.threads thread hmem i hindex).mono (Nat.le_add_right _ _) fun _ h => h⟩
  | take lane deadlineNs => exact h.take hstep
  | advance position answer => exact h.advance hstep
  | push position => exact h.push hstep

/-- Before the first connection no thread runs. -/
def init (n : Nat) (config : Config) (publicSlots : Nat) (options : Admission.Options)
    (now clock : Nat) : Execution n :=
  { worker := Worker.init n config publicSlots options now, clock }

theorem init_sound (n : Nat) (config : Config) (publicSlots : Nat) (options : Admission.Options)
    (now clock : Nat) : (init n config publicSlots options now clock).Sound config publicSlots :=
  ⟨init_consistent n config publicSlots options now,
    fun _ _ hmem => absurd hmem List.not_mem_nil, rfl, rfl,
    fun _ hmem => absurd hmem List.not_mem_nil, fun _ hmem => absurd hmem List.not_mem_nil⟩

theorem run_sound {clock : Nat}
    (hrun : (init n config publicSlots options now clock).run config happenings = some e) :
    e.Sound config publicSlots :=
  Lib.run_invariant (fun _ _ _ h hstep => step_sound h hstep) happenings _ _
    (init_sound n config publicSlots options now clock) hrun

/-- **Final completions.** In every interleaving of the worker with the threads of its executor, the
clock and the deadlines, the loop never misses a response.  The completion of a last hook that brings
none is marked as expired, or the connection of its slot has timed out, or its stream is closed or gone. -/
theorem completions_answered {clock : Nat}
    (hrun : (init n config publicSlots options now clock).run config happenings = some e) :
    Fault.response ∉ e.worker.shared.faults ∧
      ∀ completion ∈ e.worker.shared.executor.completions,
        completion.task.stage = .response ∨ completion.task.stage = .bodyResponse →
        completion.expired = false → ∀ i : Fin n, completion.task.index = i.val →
        (completion.task.stream = none → (e.worker.slots i).applicationTimedOut = false →
          completion.response.isSome = true) ∧
        ∀ address, completion.task.stream = some address →
          ∀ stream ∈ (e.worker.slots i).streams, stream.address = address →
            stream.closed = false → completion.response.isSome = true := by
  have h := run_sound hrun
  refine ⟨fun hmem => ?_, fun completion hmem hfinal hexpired i hindex => ?_⟩
  · have hmissed : Fault.response ∈ e.worker.shared.missed := List.mem_filter.mpr ⟨hmem, rfl⟩
    rw [h.heard] at hmissed
    cases hmissed
  · have hexcused := h.excuses completion hmem i hindex hfinal
    rw [hexpired] at hexcused
    unfold Task.Dropped at hexcused
    refine ⟨fun hstream htimely => ?_, fun address hstream stream hin haddress hopen => ?_⟩
    · rw [hstream, htimely] at hexcused
      simpa using hexcused
    · rw [hstream] at hexcused
      rcases hexcused with hsome | hnot | hclosed
      · exact hsome
      · cases hnot
      · rw [hclosed stream hin haddress] at hopen
        cases hopen

attribute [local instance] Lib.two_neZero in
/-- The head hook passes, and the deadline of the second hook is past before it runs. -/
def sampleHappenings : List (Happening 2) :=
  (sampleRun.take 8).map Happening.worker ++ [Happening.take 0 10] ++
    List.replicate 4 (Happening.advance 0 { response := {} }) ++
    [Happening.push 0, .worker (.visit 0 (.finishApplication {}))] ++
    List.replicate 4 (Happening.worker (.call {})) ++ [Happening.take 0 10, .elapse 10] ++
    List.replicate 3 (Happening.advance 0 { response := {} }) ++ [Happening.push 0]

theorem completions_answered_sample :
    ∃ e, (init 2 sample 1 {} 0 0).run sample sampleHappenings = some e ∧
      Fault.response ∉ e.worker.shared.faults := by
  obtain ⟨e, hrun⟩ : ∃ e, (init 2 sample 1 {} 0 0).run sample sampleHappenings = some e :=
    Option.isSome_iff_exists.mp (by decide +kernel)
  exact ⟨e, hrun, (completions_answered hrun).1⟩

end Execution

end Worker

end Zhtps
