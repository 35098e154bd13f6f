import Zhtps.Lib.Monitor
import Zhtps.Lib.Ring

/-!
The lanes of the executor: circular arrays of tasks, each with its own threads.  What the source does
between `lock` and `unlock` is one step; a thread inside `waitUncancelable` has let the mutex go.

Each lane is the monitor of the library on the list that its array holds, so that no wakeup is lost
and `stop` ends with every task done.
-/

namespace Zhtps

variable {Task : Type*} {m k : Nat}

/-- A lane's queue: `count` tasks from `readIndex` on. -/
structure LaneQueue (Task : Type*) where
  tasks : List Task
  readIndex : Nat := 0
  count : Nat := 0
  stopping : Bool := false
  indexed : tasks ≠ [] → readIndex < tasks.length
  fits : count ≤ tasks.length

namespace LaneQueue

/-- The tasks of a lane that starts; what its cells hold is arbitrary. -/
def init (tasks : List Task) : LaneQueue Task where
  tasks := tasks
  indexed := fun h => List.length_pos_iff.mpr h
  fits := Nat.zero_le _

/-- The queued tasks, the oldest first. -/
def queued (lane : LaneQueue Task) : List Task := Lib.Ring.view lane.tasks lane.readIndex lane.count

/-- `submit`; `none` when it refuses. -/
def submit (task : Task) (lane : LaneQueue Task) : Option (LaneQueue Task) :=
  if hrefuse : lane.stopping ∨ lane.count = lane.tasks.length then none
  else
    some
      { lane with
        tasks := lane.tasks.set ((lane.readIndex + lane.count) % lane.tasks.length) task
        count := lane.count + 1
        indexed := fun h => by
          rw [List.length_set]
          exact lane.indexed (List.ne_nil_of_length_pos (by
            rw [← List.length_set]
            exact List.length_pos_iff.mpr h))
        fits := by
          rw [List.length_set]
          exact Nat.lt_of_le_of_ne lane.fits fun h => hrefuse (Or.inr h) }

/-- What a thread that holds the mutex finds in `takeTask`. -/
inductive Found (Task : Type*)
  | wait
  | stop
  | task (task : Task)

theorem index_lt (lane : LaneQueue Task) (h : lane.count ≠ 0) : lane.readIndex < lane.tasks.length :=
  lane.indexed (List.ne_nil_of_length_pos (Nat.lt_of_lt_of_le (Nat.pos_of_ne_zero h) lane.fits))

/-- One round of the loop in `takeTask`, and what follows it. -/
def takeTask (lane : LaneQueue Task) : Found Task × LaneQueue Task :=
  if h : lane.count = 0 then (if lane.stopping then .stop else .wait, lane)
  else
    (.task (lane.tasks.get ⟨lane.readIndex, lane.index_lt h⟩),
      { lane with
        readIndex := (lane.readIndex + 1) % lane.tasks.length
        count := lane.count - 1
        indexed := fun _ => Nat.mod_lt _ (Nat.zero_lt_of_lt (lane.index_lt h))
        fits := Nat.le_trans (Nat.sub_le _ _) lane.fits })

variable {lane next : LaneQueue Task} {task : Task}

theorem length_queued (lane : LaneQueue Task) : lane.queued.length = lane.count :=
  Lib.Ring.length_view lane.fits

theorem queued_eq_nil (h : lane.count = 0) : lane.queued = [] :=
  List.eq_nil_of_length_eq_zero (lane.length_queued.trans h)

/-- A task that is not refused is queued behind the others. -/
theorem submit_spec (lane : LaneQueue Task) (task : Task) :
    (lane.submit task = none ∧ (lane.stopping = true ∨ lane.tasks.length ≤ lane.queued.length)) ∨
      ∃ next, lane.submit task = some next ∧ lane.stopping = false ∧
        lane.queued.length < lane.tasks.length ∧ next.queued = lane.queued ++ [task] ∧
        next.tasks.length = lane.tasks.length ∧ next.stopping = lane.stopping := by
  unfold submit
  split
  · rename_i hrefuse
    refine Or.inl ⟨rfl, hrefuse.imp id fun h => ?_⟩
    rw [length_queued, h]
  · rename_i hrefuse
    obtain ⟨hrunning, hroom⟩ := not_or.mp hrefuse
    have hcount : lane.count < lane.tasks.length := Nat.lt_of_le_of_ne lane.fits hroom
    have hstart : lane.readIndex < lane.tasks.length :=
      lane.indexed (List.ne_nil_of_length_pos (Nat.zero_lt_of_lt hcount))
    refine Or.inr ⟨_, rfl, Bool.eq_false_iff.mpr hrunning, ?_, ?_, List.length_set, rfl⟩
    · rw [length_queued]
      exact hcount
    · exact Lib.Ring.view_push_mod hstart hcount task

/-- The oldest task leaves; where there is none, the thread waits or ends. -/
theorem takeTask_spec (lane : LaneQueue Task) :
    (lane.queued = [] ∧ lane.takeTask = (if lane.stopping then .stop else .wait, lane)) ∨
      ∃ task next, lane.takeTask = (.task task, next) ∧ lane.queued = task :: next.queued ∧
        next.tasks = lane.tasks ∧ next.stopping = lane.stopping := by
  unfold takeTask
  split
  · rename_i hcount
    exact Or.inl ⟨queued_eq_nil hcount, rfl⟩
  · rename_i hcount
    refine Or.inr ⟨_, _, rfl, ?_, rfl, rfl⟩
    have hstart := lane.index_lt hcount
    obtain ⟨rest, hrest⟩ := Nat.exists_eq_succ_of_ne_zero hcount
    have hroom : rest < lane.tasks.length := by
      have hfits := lane.fits
      omega
    have hview := Lib.Ring.view_succ hstart hroom
    unfold queued
    simp only [hrest, Lib.Ring.next_eq_mod hstart, Nat.succ_eq_add_one, Nat.add_sub_cancel]
    exact hview

end LaneQueue

/-- A lane and its threads; `accepted`, `taken` and `done` are history. -/
structure Lane (Task : Type*) (m : Nat) where
  queue : LaneQueue Task
  threads : Fin m → Lib.Consumer Task := fun _ => .idle
  accepted : List Task := []
  taken : List Task := []
  done : List Task := []

namespace Lane

/-- `submit` with the thread that its signal reaches, the part of `stop` that is about this lane,
`takeTask`, a task done and its completion delivered, and a wakeup without a signal. -/
abbrev Event := Lib.Monitor.Event

def set (i : Fin m) (thread : Lib.Consumer Task) (s : Lane Task m) : Lane Task m :=
  { s with threads := Function.update s.threads i thread }

def signal (signaled : Option (Fin m)) (s : Lane Task m) : Option (Lane Task m) :=
  match signaled with
  | some i => if (s.threads i).isWaiting then some (s.set i .woken) else none
  | none => if ∀ i, (s.threads i).isWaiting = false then some s else none

def submit (task : Task) (signaled : Option (Fin m)) (s : Lane Task m) : Option (Lane Task m) :=
  match s.queue.submit task with
  | none => some s
  | some queue => { s with queue := queue, accepted := s.accepted ++ [task] }.signal signaled

def stop (s : Lane Task m) : Lane Task m :=
  { s with
    queue := { s.queue with stopping := true }
    threads := fun i => if (s.threads i).isWaiting then .woken else s.threads i }

def enter (i : Fin m) (s : Lane Task m) : Lane Task m :=
  match s.queue.takeTask with
  | (.wait, _) => s.set i .waiting
  | (.stop, _) => s.set i .ended
  | (.task task, queue) => { s with queue := queue, taken := s.taken ++ [task] }.set i (.running task)

def step (s : Lane Task m) : Event Task m → Option (Lane Task m)
  | .submit task signaled => s.submit task signaled
  | .stop => some s.stop
  | .enter i =>
      match s.threads i with
      | .idle | .woken => some (s.enter i)
      | _ => none
  | .finish i =>
      match s.threads i with
      | .running task => some ({ s with done := s.done ++ [task] }.set i .idle)
      | _ => none
  | .wake i => if (s.threads i).isWaiting then some (s.set i .woken) else none

/-- The monitor that the lane is. -/
def abs (s : Lane Task m) : Lib.Monitor Task m where
  capacity := s.queue.tasks.length
  queue := s.queue.queued
  stopping := s.queue.stopping
  consumers := s.threads
  accepted := s.accepted
  taken := s.taken
  done := s.done

theorem signal_abs (signaled : Option (Fin m)) (s : Lane Task m) :
    (s.signal signaled).map abs = s.abs.signal signaled := by
  unfold signal Lib.Monitor.signal
  split
  · rename_i i
    show Option.map abs (if (s.threads i).isWaiting then _ else _) = if (s.threads i).isWaiting then _ else _
    split
    · rfl
    · rfl
  · show Option.map abs (if ∀ i, (s.threads i).isWaiting = false then _ else _) =
      if ∀ i, (s.threads i).isWaiting = false then _ else _
    split
    · rfl
    · rfl

theorem enter_abs (i : Fin m) (s : Lane Task m) : (s.enter i).abs = s.abs.enter i := by
  unfold enter Lib.Monitor.enter
  rcases s.queue.takeTask_spec with ⟨hempty, htake⟩ | ⟨task, next, htake, hqueued, htasks, hstopping⟩
  · rw [htake, show s.abs.queue = [] from hempty]
    show abs _ = s.abs.set i (if s.queue.stopping then _ else _)
    cases s.queue.stopping
    · rfl
    · rfl
  · rw [htake, show s.abs.queue = _ from hqueued]
    show Lib.Monitor.mk next.tasks.length next.queued next.stopping _ _ _ _ = _
    rw [htasks, hstopping]
    rfl

/-- Each step of a lane is a step of its monitor. -/
theorem step_abs (s : Lane Task m) (event : Event Task m) :
    (s.step event).map abs = s.abs.step event := by
  cases event with
  | submit task signaled =>
      show (s.submit task signaled).map abs = if s.abs.refuses then some s.abs else _
      unfold submit
      rcases s.queue.submit_spec task with
        ⟨hsubmit, hrefuse⟩ | ⟨next, hsubmit, hrunning, hroom, hqueued, hlength, hstopping⟩
      · have hrefuses : s.abs.refuses = true := by
          rw [Lib.Monitor.refuses, Bool.or_eq_true, decide_eq_true_iff]
          exact hrefuse
        rw [hsubmit, hrefuses]
        rfl
      · have hrefuses : s.abs.refuses = false := by
          rw [Lib.Monitor.refuses, Bool.or_eq_false_iff, decide_eq_false_iff_not]
          exact ⟨hrunning, Nat.not_le_of_lt hroom⟩
        rw [hsubmit, hrefuses]
        refine (signal_abs signaled _).trans (congrArg (Lib.Monitor.signal signaled) ?_)
        show Lib.Monitor.mk next.tasks.length next.queued next.stopping _ _ _ _ = _
        rw [hlength, hqueued, hstopping]
        rfl
  | stop => rfl
  | enter i =>
      show Option.map abs (match s.threads i with | .idle | .woken => _ | _ => _) =
        match s.threads i with | .idle | .woken => _ | _ => _
      cases s.threads i
      case idle => exact congrArg some (enter_abs i s)
      case woken => exact congrArg some (enter_abs i s)
      all_goals rfl
  | finish i =>
      show Option.map abs (match s.threads i with | .running task => _ | _ => _) =
        match s.threads i with | .running task => _ | _ => _
      cases s.threads i
      all_goals rfl
  | wake i =>
      show Option.map abs (if (s.threads i).isWaiting then _ else _) =
        if (s.threads i).isWaiting then _ else _
      split
      · rfl
      · rfl

/-- How many steps the threads of a lane that stops may still make. -/
def work (s : Lane Task m) : Nat := 2 * s.queue.count + ∑ i, (s.threads i).weight

theorem work_abs (s : Lane Task m) : s.abs.work = s.work := by
  unfold work
  rw [← s.queue.length_queued]
  rfl

variable {s t : Lane Task m} {events : List (Event Task m)}

theorem run_abs (h : Lib.run step s events = some t) : s.abs.run events = some t.abs := by
  rw [Lib.Monitor.run, ← Lib.run_map step_abs, h]
  rfl

theorem init_sound {cells : List Task}
    (h : Lib.run step ({ queue := LaneQueue.init cells } : Lane Task m) events = some s) :
    s.abs.Sound := by
  have habs := run_abs h
  have hinit : abs ({ queue := LaneQueue.init cells } : Lane Task m) = { capacity := cells.length } :=
    congrArg (fun queue => Lib.Monitor.mk cells.length queue false _ _ _ _) (LaneQueue.queued_eq_nil rfl)
  rw [hinit] at habs
  exact Lib.Monitor.run_sound habs

end Lane

/-- The lanes with their threads.  What one lane does is its own. -/
abbrev ApplicationExecutor (Task : Type*) (threads : Fin k → Nat) :=
  (lane : Fin k) → Lane Task (threads lane)

namespace ApplicationExecutor

variable {threads : Fin k → Nat} {cells : Fin k → List Task} {s t : ApplicationExecutor Task threads}

abbrev Event (Task : Type*) (threads : Fin k → Nat) :=
  (lane : Fin k) × Lane.Event Task (threads lane)

def init (cells : Fin k → List Task) : ApplicationExecutor Task threads :=
  fun lane => { queue := LaneQueue.init (cells lane) }

def step (s : ApplicationExecutor Task threads) (event : Event Task threads) :
    Option (ApplicationExecutor Task threads) :=
  ((s event.1).step event.2).map (Function.update s event.1)

def run : ApplicationExecutor Task threads → List (Event Task threads) →
    Option (ApplicationExecutor Task threads) := Lib.run step

/-- The events of one lane. -/
def eventsOf (lane : Fin k) (events : List (Event Task threads)) :
    List (Lane.Event Task (threads lane)) :=
  events.filterMap fun event => if h : event.1 = lane then some (h ▸ event.2) else none

/-- A run of the executor is a run of each lane. -/
theorem run_lane (lane : Fin k) : ∀ {events : List (Event Task threads)}
    {s t : ApplicationExecutor Task threads}, s.run events = some t →
    Lib.run Lane.step (s lane) (eventsOf lane events) = some (t lane)
  | [], s, t, h => by
      obtain rfl := Option.some.inj h
      rfl
  | ⟨first, event⟩ :: events, s, t, h => by
      obtain ⟨next, hstep, hrest⟩ := Lib.run_cons.mp h
      obtain ⟨after, hlane, rfl⟩ := Option.map_eq_some_iff.mp hstep
      have ih := run_lane lane hrest
      by_cases hfirst : first = lane
      · subst hfirst
        have hevents : eventsOf first (⟨first, event⟩ :: events) = event :: eventsOf first events :=
          List.filterMap_cons_some (dif_pos rfl)
        rw [Function.update_self] at ih
        rw [hevents]
        exact Lib.run_cons.mpr ⟨after, hlane, ih⟩
      · have hevents : eventsOf lane (⟨first, event⟩ :: events) = eventsOf lane events :=
          List.filterMap_cons_none (dif_neg hfirst)
        rw [Function.update_of_ne (Ne.symm hfirst)] at ih
        rw [hevents]
        exact ih

/-- Whatever the interleaving: the tasks leave a lane in the order in which they were accepted, each
is done once or in the hands of one thread, and while tasks are queued the threads that wait are
matched by woken ones, so that not all of them sleep. -/
theorem tasks_once {events : List (Event Task threads)}
    (hrun : (init cells : ApplicationExecutor Task threads).run events = some s) (lane : Fin k) :
    (s lane).accepted = (s lane).taken ++ (s lane).queue.queued ∧
      (s lane).taken.Perm ((s lane).done ++
        Lib.gather fun i => ((s lane).threads i).item?.toList) ∧
      ((∃ i, (s lane).threads i = .waiting) →
        (s lane).queue.queued.length ≤ ∑ i, ((s lane).threads i).isWoken.toNat) ∧
      (0 < threads lane → (s lane).queue.queued ≠ [] → ∃ i, ((s lane).threads i).Awake) := by
  have hsound : (s lane).abs.Sound := Lane.init_sound (run_lane lane hrun)
  exact ⟨hsound.fifo, hsound.kept, hsound.awake, hsound.attended⟩

attribute [local instance] Lib.two_neZero in
/-- One thread waits for its task while the other takes it. -/
def sampleTasks : List (Event Nat fun _ : Fin 2 => 2) :=
  [⟨0, .enter 0⟩, ⟨1, .submit 5 none⟩, ⟨0, .submit 7 (some 0)⟩, ⟨0, .submit 8 none⟩,
    ⟨0, .submit 9 none⟩, ⟨0, .enter 1⟩, ⟨0, .finish 1⟩]

theorem tasks_once_sample : ∃ s : ApplicationExecutor Nat fun _ : Fin 2 => 2,
    (init fun _ => [0, 0]).run sampleTasks = some s ∧
    (s 0).accepted = (s 0).taken ++ (s 0).queue.queued ∧ (s 0).taken = [7] ∧
    ∃ i, ((s 0).threads i).Awake := by
  have hrun : (init fun _ => [0, 0]).run sampleTasks = some _ := rfl
  have hqueued := tasks_once hrun 0
  exact ⟨_, hrun, hqueued.1, rfl, hqueued.2.2.2 Nat.two_pos (List.cons_ne_nil 8 [])⟩

/-- After `stop` has visited every lane: nothing more is accepted, the threads make a bounded number
of steps, a thread that has not ended leaves a step to make, and when all have ended, so that `join`
returns, each accepted task was done once. -/
theorem stop_drains (hthreads : ∀ lane, 0 < threads lane) {before after : List (Event Task threads)}
    (hbefore : (init cells : ApplicationExecutor Task threads).run before = some s)
    (hstop : ∀ lane, (s lane).queue.stopping = true) (hafter : s.run after = some t) (lane : Fin k) :
    (t lane).accepted = (s lane).accepted ∧
      (t lane).work + (eventsOf lane after).countP Lib.Monitor.Event.own ≤ (s lane).work ∧
      ((∃ i, (t lane).threads i ≠ .ended) →
        ∃ event : Event Task threads, event.2.own = true ∧ event.1 = lane ∧ (t.step event).isSome) ∧
      ((∀ i, (t lane).threads i = .ended) → (t lane).done.Perm (s lane).accepted) := by
  have hsound : (s lane).abs.Sound := Lane.init_sound (run_lane lane hbefore)
  have habs := Lane.run_abs (run_lane lane hafter)
  obtain ⟨hstopping, haccepted, hwork⟩ := hsound.spend_run (hstop lane) habs
  have hlast : (t lane).abs.Sound :=
    Lib.run_invariant (fun _ _ _ h hstep => Lib.Monitor.step_sound h hstep) _ _ _ hsound habs
  rw [Lane.work_abs, Lane.work_abs] at hwork
  refine ⟨haccepted, hwork, fun ⟨i, hi⟩ => ?_, fun hended => ?_⟩
  · obtain ⟨event, hown, hsome⟩ := hlast.live hstopping hi
    refine ⟨⟨lane, event⟩, hown, rfl, ?_⟩
    rw [← Lane.step_abs, Option.isSome_map] at hsome
    unfold step
    rw [Option.isSome_map]
    exact hsome
  · have hdone := hlast.complete (hthreads lane) hended
    rwa [haccepted] at hdone

attribute [local instance] Lib.one_neZero Lib.two_neZero in
/-- The lane stops while a task is queued and its thread waits. -/
def sampleStop : List (Event Nat fun _ : Fin 2 => 1) :=
  [⟨0, .enter 0⟩, ⟨0, .submit 7 (some 0)⟩, ⟨1, .stop⟩, ⟨0, .stop⟩]

attribute [local instance] Lib.one_neZero Lib.two_neZero in
def sampleDrain : List (Event Nat fun _ : Fin 2 => 1) :=
  [⟨0, .enter 0⟩, ⟨0, .submit 8 none⟩, ⟨0, .finish 0⟩, ⟨1, .enter 0⟩, ⟨0, .enter 0⟩]

theorem stop_drains_sample : ∃ s t : ApplicationExecutor Nat fun _ : Fin 2 => 1,
    (init fun _ => [0, 0]).run sampleStop = some s ∧
    s.run sampleDrain = some t ∧
    (t 0).done.Perm (s 0).accepted := by
  have hbefore : (init fun _ => [0, 0]).run sampleStop = some _ := rfl
  refine ⟨_, _, hbefore, rfl, ?_⟩
  refine (@stop_drains _ _ _ _ _ _ (fun _ => Nat.one_pos) _ sampleDrain hbefore ?_ rfl 0).2.2.2 ?_
  · exact fun | 0 => rfl | 1 => rfl
  · exact fun | 0 => rfl

end ApplicationExecutor

end Zhtps
