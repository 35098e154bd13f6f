import Zhtps.Lib.Gather
import Zhtps.Lib.Transition
import Mathlib.Algebra.Order.BigOperators.Group.Finset

/-!
A bounded queue under a mutex, and a condition variable on which its consumers wait.  A producer that
adds an item signals one of those that wait; the one who stops the queue wakes all.  A consumer that
enters takes the oldest item; where there is none it waits, or ends when the queue is stopping.  A
consumer may also wake without a signal.

No wakeup is lost: where an item is queued, someone is awake for it.
-/

namespace Lib

variable {α : Type*} {m : Nat}

/-- Where a consumer is.  One that was woken has not entered again yet. -/
inductive Consumer (α : Type*)
  | idle
  | waiting
  | woken
  | running (item : α)
  | ended
  deriving DecidableEq, Repr

namespace Consumer

def isWaiting : Consumer α → Bool
  | .waiting => true
  | _ => false

def isWoken : Consumer α → Bool
  | .woken => true
  | _ => false

def item? : Consumer α → Option α
  | .running item => some item
  | _ => none

/-- How many steps the consumer makes before it ends, if it gets no item. -/
def weight : Consumer α → Nat
  | .running _ => 2
  | .ended => 0
  | _ => 1

/-- Neither waiting nor at its end. -/
def Awake (consumer : Consumer α) : Prop := consumer ≠ .waiting ∧ consumer ≠ .ended

end Consumer

/-- `accepted`, `taken` and `done` are history. -/
structure Monitor (α : Type*) (m : Nat) where
  capacity : Nat
  queue : List α := []
  stopping : Bool := false
  consumers : Fin m → Consumer α := fun _ => .idle
  accepted : List α := []
  taken : List α := []
  done : List α := []

namespace Monitor

inductive Event (α : Type*) (m : Nat)
  /-- A producer adds an item, and wakes this consumer. -/
  | submit (item : α) (signaled : Option (Fin m))
  | stop
  | enter (i : Fin m)
  | finish (i : Fin m)
  /-- A wakeup without a signal. -/
  | wake (i : Fin m)
  deriving Repr

/-- A step that the consumers make by themselves. -/
def Event.own : Event α m → Bool
  | .enter _ | .finish _ => true
  | _ => false

def set (i : Fin m) (consumer : Consumer α) (s : Monitor α m) : Monitor α m :=
  { s with consumers := Function.update s.consumers i consumer }

/-- A signal reaches one of those that wait, unless there is none. -/
def signal (signaled : Option (Fin m)) (s : Monitor α m) : Option (Monitor α m) :=
  match signaled with
  | some i => if (s.consumers i).isWaiting then some (s.set i .woken) else none
  | none => if ∀ i, (s.consumers i).isWaiting = false then some s else none

def refuses (s : Monitor α m) : Bool := s.stopping || decide (s.capacity ≤ s.queue.length)

def add (item : α) (s : Monitor α m) : Monitor α m :=
  { s with queue := s.queue ++ [item], accepted := s.accepted ++ [item] }

def broadcast (s : Monitor α m) : Monitor α m :=
  { s with
    stopping := true
    consumers := fun i => if (s.consumers i).isWaiting then .woken else s.consumers i }

def enter (i : Fin m) (s : Monitor α m) : Monitor α m :=
  match s.queue with
  | [] => s.set i (if s.stopping then .ended else .waiting)
  | item :: rest => { s with queue := rest, taken := s.taken ++ [item] }.set i (.running item)

def step (s : Monitor α m) : Event α m → Option (Monitor α m)
  | .submit item signaled => if s.refuses then some s else (s.add item).signal signaled
  | .stop => some s.broadcast
  | .enter i =>
      match s.consumers i with
      | .idle | .woken => some (s.enter i)
      | _ => none
  | .finish i =>
      match s.consumers i with
      | .running item => some ({ s with done := s.done ++ [item] }.set i .idle)
      | _ => none
  | .wake i => if (s.consumers i).isWaiting then some (s.set i .woken) else none

def run : Monitor α m → List (Event α m) → Option (Monitor α m) := Lib.run step

variable {s t : Monitor α m} {i : Fin m}

@[simp] theorem set_self (i : Fin m) (consumer : Consumer α) (s : Monitor α m) :
    (s.set i consumer).consumers i = consumer := Function.update_self ..

theorem set_other {j : Fin m} (consumer : Consumer α) (s : Monitor α m) (h : j ≠ i) :
    (s.set i consumer).consumers j = s.consumers j := Function.update_of_ne h ..

/-- Sums over the consumers change by what the one contributes. -/
theorem sum_set (f : Consumer α → Nat) (i : Fin m) (consumer : Consumer α) (s : Monitor α m) :
    ∑ j, f ((s.set i consumer).consumers j) + f (s.consumers i) =
      ∑ j, f (s.consumers j) + f consumer := by
  have hothers : ∑ j ∈ Finset.univ.erase i, f ((s.set i consumer).consumers j) =
      ∑ j ∈ Finset.univ.erase i, f (s.consumers j) :=
    sum_erase_congr fun j hj => by rw [set_other consumer s hj]
  have hafter := sum_split (fun j => f ((s.set i consumer).consumers j)) i
  have hbefore := sum_split (fun j => f (s.consumers j)) i
  rw [set_self, hothers] at hafter
  omega

def woken (s : Monitor α m) : Nat := ∑ i, (s.consumers i).isWoken.toNat

theorem woken_set (i : Fin m) (consumer : Consumer α) (s : Monitor α m) :
    (s.set i consumer).woken + (s.consumers i).isWoken.toNat = s.woken + consumer.isWoken.toNat :=
  sum_set (fun consumer => consumer.isWoken.toNat) i consumer s

/-- The items that the consumers work on. -/
def held (s : Monitor α m) : List α := gather fun i => (s.consumers i).item?.toList

theorem held_set (i : Fin m) (consumer : Consumer α) (s : Monitor α m) :
    ((s.consumers i).item?.toList ++ (s.set i consumer).held).Perm (consumer.item?.toList ++ s.held) := by
  have hafter := gather_perm (fun j => ((s.set i consumer).consumers j).item?.toList) i
  have hbefore := gather_perm (fun j => (s.consumers j).item?.toList) i
  have hothers : gatherBut i (fun j => ((s.set i consumer).consumers j).item?.toList) =
      gatherBut i fun j => (s.consumers j).item?.toList :=
    gatherBut_congr fun j hj => by rw [set_other consumer s hj]
  rw [set_self, hothers] at hafter
  have hmiddle := (hafter.append_left (s.consumers i).item?.toList).trans
    (List.perm_append_comm_assoc _ _ _)
  exact hmiddle.trans (hbefore.symm.append_left _)

/-- Everything accepted is queued, worked on or done, once; and someone is awake for what is queued. -/
structure Sound (s : Monitor α m) : Prop where
  fifo : s.accepted = s.taken ++ s.queue
  bounded : s.queue.length ≤ s.capacity
  kept : s.taken.Perm (s.done ++ s.held)
  awake : (∃ i, s.consumers i = .waiting) → s.queue.length ≤ s.woken
  stopped : s.stopping = true → ∀ i, s.consumers i ≠ .waiting
  ended : (∃ i, s.consumers i = .ended) → s.stopping = true ∧ s.queue = []

theorem init_sound (capacity : Nat) : ({ capacity } : Monitor α m).Sound := by
  refine ⟨rfl, Nat.zero_le _, ?_, nofun, nofun, nofun⟩
  have hempty : ({ capacity } : Monitor α m).held = [] :=
    List.eq_nil_iff_forall_not_mem.mpr fun item hmem => by
      obtain ⟨i, hin⟩ := mem_gather.mp hmem
      cases hin
  rw [hempty]
  exact List.Perm.refl _

/-- One consumer wakes. -/
theorem Sound.wake (h : s.Sound) (hwaiting : s.consumers i = .waiting) : (s.set i .woken).Sound := by
  have hheld := held_set i .woken s
  rw [hwaiting] at hheld
  refine ⟨h.fifo, h.bounded, h.kept.trans (List.Perm.append_left _ hheld.symm), fun ⟨j, hj⟩ => ?_,
    fun hstop j => ?_, fun ⟨j, hj⟩ => ?_⟩
  · have hcount := woken_set i .woken s
    rw [hwaiting, show Consumer.waiting.isWoken = false from rfl] at hcount
    calc s.queue.length ≤ s.woken := h.awake ⟨i, hwaiting⟩
      _ ≤ (s.set i .woken).woken := by
        rw [Bool.toNat_false, Nat.add_zero] at hcount
        exact hcount ▸ Nat.le_add_right _ _
  · exact absurd hwaiting (h.stopped hstop i)
  · by_cases hji : j = i
    · subst hji
      rw [set_self] at hj
      cases hj
    · rw [set_other _ _ hji] at hj
      exact h.ended ⟨j, hj⟩

theorem isWaiting_iff {consumer : Consumer α} : consumer.isWaiting = true ↔ consumer = .waiting := by
  cases consumer <;> simp [Consumer.isWaiting]

/-- An item comes in, and one of those that wait is woken for it. -/
theorem Sound.submit (h : s.Sound) (hroom : s.refuses = false) {item : α} {signaled : Option (Fin m)}
    (hsignal : (s.add item).signal signaled = some t) : t.Sound := by
  obtain ⟨hrunning, hlength⟩ : s.stopping = false ∧ s.queue.length < s.capacity := by
    simpa [refuses] using hroom
  have hfifo : (s.add item).accepted = (s.add item).taken ++ (s.add item).queue := by
    show s.accepted ++ [item] = s.taken ++ (s.queue ++ [item])
    rw [h.fifo, List.append_assoc]
  have hbounded : (s.add item).queue.length ≤ (s.add item).capacity := by
    show (s.queue ++ [item]).length ≤ s.capacity
    rw [List.length_append]
    exact hlength
  have hended : ∀ j, s.consumers j ≠ .ended := fun j hj => by
    rw [(h.ended ⟨j, hj⟩).1] at hrunning
    cases hrunning
  unfold signal at hsignal
  split at hsignal
  · rename_i i
    split_ifs at hsignal with hwaiting
    obtain rfl := Option.some.inj hsignal
    have hwaiting : s.consumers i = .waiting := isWaiting_iff.mp hwaiting
    have hheld := held_set i .woken (s.add item)
    rw [show (s.add item).consumers i = .waiting from hwaiting] at hheld
    refine ⟨hfifo, hbounded, h.kept.trans (List.Perm.append_left _ hheld.symm), fun _ => ?_,
      fun hstop => ?_, fun ⟨j, hj⟩ => ?_⟩
    · have hcount : ((s.add item).set i .woken).woken + _ = s.woken + 1 := woken_set i .woken (s.add item)
      rw [show (s.add item).consumers i = .waiting from hwaiting] at hcount
      show (s.queue ++ [item]).length ≤ ((s.add item).set i .woken).woken
      rw [List.length_append, List.length_singleton]
      exact (Nat.succ_le_succ (h.awake ⟨i, hwaiting⟩)).trans_eq hcount.symm
    · have hstop : s.stopping = true := hstop
      rw [hrunning] at hstop
      cases hstop
    · by_cases hji : j = i
      · subst hji
        rw [set_self] at hj
        cases hj
      · rw [set_other _ _ hji] at hj
        exact absurd hj (hended j)
  · split_ifs at hsignal with hnobody
    obtain rfl := Option.some.inj hsignal
    refine ⟨hfifo, hbounded, h.kept, fun ⟨j, hj⟩ => ?_, fun hstop => ?_, fun ⟨j, hj⟩ => ?_⟩
    · have hnone := hnobody j
      rw [hj] at hnone
      cases hnone
    · have hstop : s.stopping = true := hstop
      rw [hrunning] at hstop
      cases hstop
    · exact absurd hj (hended j)

theorem Sound.broadcast (h : s.Sound) : s.broadcast.Sound := by
  have hnobody (j : Fin m) : s.broadcast.consumers j ≠ .waiting := by
    show (if (s.consumers j).isWaiting then _ else _) ≠ _
    split
    · nofun
    · rename_i hnot
      exact fun hj => hnot (isWaiting_iff.mpr hj)
  have hheld : s.broadcast.held = s.held := by
    unfold held gather
    refine List.flatMap_congr fun j _ => ?_
    show (if (s.consumers j).isWaiting then _ else _ : Consumer α).item?.toList = _
    split
    · rename_i hwaiting
      rw [isWaiting_iff.mp hwaiting]
      rfl
    · rfl
  refine ⟨h.fifo, h.bounded, ?_, fun ⟨j, hj⟩ => absurd hj (hnobody j), fun _ => hnobody,
    fun ⟨j, hj⟩ => ⟨rfl, ?_⟩⟩
  · rw [hheld]
    exact h.kept
  · have hj : (if (s.consumers j).isWaiting then Consumer.woken else s.consumers j) = .ended := hj
    split_ifs at hj
    exact (h.ended ⟨j, hj⟩).2

/-- A consumer that is idle or was woken. -/
def Entering (consumer : Consumer α) : Prop := consumer = .idle ∨ consumer = .woken

theorem Sound.enter (h : s.Sound) (hentering : Entering (s.consumers i)) : (s.enter i).Sound := by
  have hitem : (s.consumers i).item? = none := by
    rcases hentering with heq | heq <;> rw [heq] <;> rfl
  have hwoken : (s.consumers i).isWoken.toNat ≤ 1 := Bool.toNat_le _
  unfold Monitor.enter
  split
  · rename_i hqueue
    generalize hlast : (if s.stopping then Consumer.ended else .waiting : Consumer α) = last
    have hnone : last.item? = none := by
      rw [← hlast]
      split <;> rfl
    have hheld := held_set i last s
    rw [hitem, hnone] at hheld
    refine ⟨h.fifo, h.bounded, h.kept.trans (List.Perm.append_left _ hheld.symm), fun _ => ?_,
      fun hstop j hj => ?_, ?_⟩
    · show s.queue.length ≤ _
      rw [hqueue]
      exact Nat.zero_le _
    · by_cases hji : j = i
      · subst hji
        rw [set_self, ← hlast, if_pos (show s.stopping = true from hstop)] at hj
        cases hj
      · rw [set_other _ _ hji] at hj
        exact h.stopped hstop j hj
    · rintro ⟨j, hj⟩
      by_cases hji : j = i
      · subst hji
        rw [set_self, ← hlast] at hj
        split_ifs at hj with hstop
        exact ⟨hstop, hqueue⟩
      · rw [set_other _ _ hji] at hj
        exact h.ended ⟨j, hj⟩
  · rename_i item rest hqueue
    have hheld := held_set i (.running item) { s with queue := rest, taken := s.taken ++ [item] }
    rw [show (({ s with queue := rest, taken := s.taken ++ [item] } : Monitor α m).consumers i).item? =
      none from hitem] at hheld
    refine ⟨?_, ?_, ?_, ?_, fun hstop j hj => ?_, ?_⟩
    · show s.accepted = s.taken ++ [item] ++ rest
      rw [h.fifo, hqueue, List.append_assoc]
      rfl
    · have hbounded := h.bounded
      rw [hqueue, List.length_cons] at hbounded
      exact Nat.le_of_succ_le hbounded
    · show (s.taken ++ [item]).Perm (s.done ++ _)
      refine ((h.kept.append_right [item]).trans ?_).trans (List.Perm.append_left _ hheld.symm)
      rw [List.append_assoc]
      exact List.Perm.append_left _ List.perm_append_comm
    · -- The item that leaves is the one that this consumer, if woken, was woken for.
      rintro ⟨j, hj⟩
      have hji : j ≠ i := by
        rintro rfl
        rw [set_self] at hj
        cases hj
      rw [set_other _ _ hji] at hj
      have hbefore := h.awake ⟨j, hj⟩
      rw [hqueue, List.length_cons] at hbefore
      have hcount : Monitor.woken (set i (.running item) _) + (s.consumers i).isWoken.toNat = s.woken + 0 :=
        woken_set i (.running item) { s with queue := rest, taken := s.taken ++ [item] }
      show rest.length ≤ _
      omega
    · by_cases hji : j = i
      · subst hji
        rw [set_self] at hj
        cases hj
      · rw [set_other _ _ hji] at hj
        exact h.stopped hstop j hj
    · rintro ⟨j, hj⟩
      by_cases hji : j = i
      · subst hji
        rw [set_self] at hj
        cases hj
      · rw [set_other _ _ hji] at hj
        have hempty := (h.ended ⟨j, hj⟩).2
        rw [hqueue] at hempty
        cases hempty

theorem Sound.finish (h : s.Sound) {item : α} (hrunning : s.consumers i = .running item) :
    Sound ({ s with done := s.done ++ [item] }.set i .idle) := by
  have hheld := held_set i .idle { s with done := s.done ++ [item] }
  rw [show ({ s with done := s.done ++ [item] } : Monitor α m).consumers i = .running item
    from hrunning] at hheld
  refine ⟨h.fifo, h.bounded, ?_, fun ⟨j, hj⟩ => ?_, fun hstop j hj => ?_, fun ⟨j, hj⟩ => ?_⟩
  · show s.taken.Perm (s.done ++ [item] ++ _)
    rw [List.append_assoc]
    exact h.kept.trans (List.Perm.append_left _ hheld.symm)
  · have hji : j ≠ i := by
      rintro rfl
      rw [set_self] at hj
      cases hj
    rw [set_other _ _ hji] at hj
    have hcount : Monitor.woken (set i .idle _) + (s.consumers i).isWoken.toNat = s.woken + 0 :=
      woken_set i .idle { s with done := s.done ++ [item] }
    rw [hrunning] at hcount
    exact (h.awake ⟨j, hj⟩).trans_eq hcount.symm
  · by_cases hji : j = i
    · subst hji
      rw [set_self] at hj
      cases hj
    · rw [set_other _ _ hji] at hj
      exact h.stopped hstop j hj
  · by_cases hji : j = i
    · subst hji
      rw [set_self] at hj
      cases hj
    · rw [set_other _ _ hji] at hj
      exact h.ended ⟨j, hj⟩

theorem step_sound {event : Event α m} (h : s.Sound) (hstep : s.step event = some t) : t.Sound := by
  cases event with
  | submit item signaled =>
      simp only [step] at hstep
      split_ifs at hstep with hrefuses
      · obtain rfl := Option.some.inj hstep
        exact h
      · exact h.submit (Bool.eq_false_iff.mpr hrefuses) hstep
  | stop =>
      obtain rfl := Option.some.inj hstep
      exact h.broadcast
  | enter i =>
      simp only [step] at hstep
      split at hstep
      · rename_i hidle
        obtain rfl := Option.some.inj hstep
        exact h.enter (Or.inl hidle)
      · rename_i hwoken
        obtain rfl := Option.some.inj hstep
        exact h.enter (Or.inr hwoken)
      · cases hstep
  | finish i =>
      simp only [step] at hstep
      split at hstep
      · rename_i item hrunning
        obtain rfl := Option.some.inj hstep
        exact h.finish hrunning
      · cases hstep
  | wake i =>
      simp only [step] at hstep
      split_ifs at hstep with hwaiting
      obtain rfl := Option.some.inj hstep
      exact h.wake (isWaiting_iff.mp hwaiting)

theorem run_sound {events : List (Event α m)} {capacity : Nat}
    (hrun : ({ capacity } : Monitor α m).run events = some s) : s.Sound :=
  Lib.run_invariant (fun _ _ _ h hstep => step_sound h hstep) events _ _ (init_sound capacity) hrun

/-- Where something is queued, a consumer is awake. -/
theorem Sound.attended (h : s.Sound) (hconsumers : 0 < m) (hqueue : s.queue ≠ []) :
    ∃ i, (s.consumers i).Awake := by
  have hnone (i : Fin m) : s.consumers i ≠ .ended := fun hi => hqueue (h.ended ⟨i, hi⟩).2
  by_contra hasleep
  have hwaiting (i : Fin m) : s.consumers i = .waiting := by
    by_contra hi
    exact hasleep ⟨i, hi, hnone i⟩
  have hcount := h.awake ⟨⟨0, hconsumers⟩, hwaiting _⟩
  have hzero : s.woken = 0 := Finset.sum_eq_zero fun i _ => by
    rw [hwaiting i]
    rfl
  rw [hzero] at hcount
  exact hqueue (List.eq_nil_of_length_eq_zero (Nat.le_zero.mp hcount))

/-- How many steps the consumers make, at most, once nothing comes in. -/
def work (s : Monitor α m) : Nat := 2 * s.queue.length + ∑ i, (s.consumers i).weight

theorem weight_set (i : Fin m) (consumer : Consumer α) (s : Monitor α m) :
    ∑ j, ((s.set i consumer).consumers j).weight + (s.consumers i).weight =
      ∑ j, (s.consumers j).weight + consumer.weight := sum_set Consumer.weight i consumer s

/-- Once the queue stops, nothing comes in, and each step of a consumer uses some of the work up. -/
theorem Sound.spend (h : s.Sound) (hstop : s.stopping = true) {event : Event α m}
    (hstep : s.step event = some t) :
    t.stopping = true ∧ t.accepted = s.accepted ∧ t.work + event.own.toNat ≤ s.work := by
  cases event with
  | submit item signaled =>
      simp only [step, refuses, hstop, Bool.true_or, if_true, Option.some.injEq] at hstep
      exact hstep ▸ ⟨hstop, rfl, Nat.le_refl _⟩
  | stop =>
      obtain rfl := Option.some.inj hstep
      refine ⟨rfl, rfl, Nat.add_le_add_left (Finset.sum_le_sum fun i _ => ?_) _⟩
      show (if (s.consumers i).isWaiting then Consumer.woken else s.consumers i).weight ≤ _
      rw [if_neg fun hi => h.stopped hstop i (isWaiting_iff.mp hi)]
  | enter i =>
      have hweight : s.step (.enter i) = some t → (s.consumers i).weight = 1 ∧ t = s.enter i := by
        intro hstep
        simp only [step] at hstep
        split at hstep
        · rename_i hidle
          exact ⟨by rw [hidle]; rfl, (Option.some.inj hstep).symm⟩
        · rename_i hwoken
          exact ⟨by rw [hwoken]; rfl, (Option.some.inj hstep).symm⟩
        · cases hstep
      obtain ⟨hone, rfl⟩ := hweight hstep
      unfold Monitor.enter work
      split
      · rename_i hqueue
        have hcount := weight_set i Consumer.ended s
        rw [hstop, if_pos rfl]
        refine ⟨hstop, rfl, ?_⟩
        show 2 * s.queue.length + _ + 1 ≤ _
        rw [hone, show (Consumer.ended : Consumer α).weight = 0 from rfl] at hcount
        omega
      · rename_i item rest hqueue
        have hcount : ∑ j, (((set i (.running item) _ : Monitor α m).consumers j)).weight +
            (s.consumers i).weight = ∑ j, (s.consumers j).weight + 2 :=
          weight_set i (.running item) { s with queue := rest, taken := s.taken ++ [item] }
        refine ⟨hstop, rfl, ?_⟩
        rw [hqueue, List.length_cons]
        show 2 * rest.length + _ + 1 ≤ _
        omega
  | finish i =>
      simp only [step] at hstep
      split at hstep
      · rename_i item hrunning
        obtain rfl := Option.some.inj hstep
        have hcount : ∑ j, (((set i .idle _ : Monitor α m).consumers j)).weight +
            (s.consumers i).weight = ∑ j, (s.consumers j).weight + 1 :=
          weight_set i .idle { s with done := s.done ++ [item] }
        rw [hrunning, show (Consumer.running item).weight = 2 from rfl] at hcount
        refine ⟨hstop, rfl, ?_⟩
        show 2 * s.queue.length + _ + 1 ≤ 2 * s.queue.length + _
        omega
      · cases hstep
  | wake i =>
      simp only [step] at hstep
      split_ifs at hstep with hwaiting
      exact absurd (isWaiting_iff.mp hwaiting) (h.stopped hstop i)

theorem Sound.spend_run (h : s.Sound) (hstop : s.stopping = true) {events : List (Event α m)}
    (hrun : s.run events = some t) :
    t.stopping = true ∧ t.accepted = s.accepted ∧ t.work + events.countP Event.own ≤ s.work := by
  induction events generalizing s with
  | nil =>
      obtain rfl := Option.some.inj hrun
      exact ⟨hstop, rfl, Nat.le_refl _⟩
  | cons event events ih =>
      obtain ⟨next, hstep, hrest⟩ := run_cons.mp hrun
      obtain ⟨hstopping, haccepted, hwork⟩ := h.spend hstop hstep
      obtain ⟨hlast, hsame, hleft⟩ := ih (step_sound h hstep) hstopping hrest
      refine ⟨hlast, hsame.trans haccepted, ?_⟩
      rw [List.countP_cons]
      cases hown : event.own <;> rw [hown] at hwork <;> simp only [Bool.toNat_true, Bool.toNat_false] at hwork
      · simp only [Bool.false_eq_true, if_false]
        omega
      · simp only [if_true]
        omega

/-- Until all are at their end, a consumer can make a step. -/
theorem Sound.live (h : s.Sound) (hstop : s.stopping = true) {i : Fin m} (hi : s.consumers i ≠ .ended) :
    ∃ event : Event α m, event.own = true ∧ (s.step event).isSome := by
  cases hconsumer : s.consumers i with
  | idle => exact ⟨.enter i, rfl, by simp only [step, hconsumer, Option.isSome_some]⟩
  | woken => exact ⟨.enter i, rfl, by simp only [step, hconsumer, Option.isSome_some]⟩
  | running item => exact ⟨.finish i, rfl, by simp only [step, hconsumer, Option.isSome_some]⟩
  | waiting => exact absurd hconsumer (h.stopped hstop i)
  | ended => exact absurd hconsumer hi

/-- When all are at their end, everything accepted is done. -/
theorem Sound.complete (h : s.Sound) (hconsumers : 0 < m) (hended : ∀ i, s.consumers i = .ended) :
    s.done.Perm s.accepted := by
  have hheld : s.held = [] := List.eq_nil_iff_forall_not_mem.mpr fun item hmem => by
    obtain ⟨i, hin⟩ := mem_gather.mp hmem
    rw [hended i] at hin
    cases hin
  have hkept := h.kept
  rw [hheld, List.append_nil] at hkept
  rw [h.fifo, (h.ended ⟨⟨0, hconsumers⟩, hended _⟩).2, List.append_nil]
  exact hkept.symm

end Monitor

end Lib
