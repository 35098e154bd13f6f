import Zhtps.Lib.Ring
import Zhtps.Lib.Transition
import Mathlib.Data.List.FinRange

/-!
The completions of one worker and the eventfd that wakes it.  An executor thread puts a completion
into the ring and, once it has let the mutex go, writes to the eventfd; a producer does the same
after it has published bytes of its stream.  The worker keeps a read of the eventfd at the kernel and
drains the ring when the read completes, and at each tick.

A step is what happens under one lock, one system call, or one iteration of a loop of the worker.
-/

namespace Zhtps

variable {Completion : Type*} {m n : Nat}

/-- What a completion of the ring of the kernel is about. -/
inductive Cqe
  | application
  | tick
  | other
  deriving DecidableEq, Repr

/-- Where the worker is: at the top of `loop`, in `submit` and `copy_cqes`, dispatching what was
copied, in the loop of `finishApplications`, or in the one behind it with the slots still to visit. -/
inductive LoopPhase (n : Nat)
  | top
  | waiting
  | dispatching (batch : List Cqe)
  | finishing (batch : List Cqe)
  | pumping (slots : List (Fin n)) (batch : List Cqe)
  deriving DecidableEq, Repr

namespace LoopPhase

/-- What was copied and is not dispatched yet. -/
def batch : LoopPhase n → List Cqe
  | .top | .waiting => []
  | .dispatching batch | .finishing batch | .pumping _ batch => batch

/-- What follows a completion at which the worker drains the ring, unless it stops. -/
def called (stopping : Bool) (batch : List Cqe) : LoopPhase n :=
  if stopping then .dispatching batch else .finishing batch

def isFinishing : LoopPhase n → Bool
  | .finishing _ => true
  | _ => false

/-- The slot is visited before the worker dispatches again. -/
def visits (slot : Fin n) : LoopPhase n → Bool
  | .finishing _ => true
  | .pumping slots _ => slots.contains slot
  | _ => false

theorem called_spec (stopping : Bool) (batch : List Cqe) :
    (called stopping batch : LoopPhase n).batch = batch ∧ called stopping batch ≠ (.waiting : LoopPhase n) ∧
      (stopping = true ∨ called stopping batch = (.finishing batch : LoopPhase n)) := by
  cases stopping with
  | true => exact ⟨rfl, nofun, Or.inl rfl⟩
  | false => exact ⟨rfl, nofun, Or.inr rfl⟩

end LoopPhase

/-- The value at which a write to the eventfd answers `EAGAIN`. -/
def eventLimit : Nat := 2 ^ 64 - 2

/-- The completions of a worker, its eventfd and its loop, with the notifiers: the executor threads
and the producers.  `unseen` marks the slots whose stream was published after the last visit;
`pushed` and `taken` are history. -/
structure Mailbox (Completion : Type*) (m n : Nat) where
  completions : List Completion
  completionRead : Nat := 0
  completionCount : Nat := 0
  /-- Those that have still to write to the eventfd. -/
  notifying : Fin m → Bool := fun _ => false
  unseen : Fin n → Bool := fun _ => false
  counter : Nat := 0
  abort : Bool := false
  /-- `application_event_pending`, and whether the kernel has the read. -/
  eventPending : Bool := false
  reading : Bool := false
  ticking : Bool := false
  cqes : List Cqe := []
  stopping : Bool := false
  phase : LoopPhase n := .top
  pushed : List Completion := []
  taken : List Completion := []

namespace Mailbox

inductive Event (Completion : Type*) (m n : Nat)
  /-- `threadMain` under the mutex of the completions. -/
  | push (notifier : Fin m) (completion : Completion)
  /-- `flush`, `finish` and `fail` up to their call of `notify`. -/
  | publish (notifier : Fin m) (slot : Fin n)
  /-- The write to the eventfd, and one that fails. -/
  | notify (notifier : Fin m)
  | notifyFails (notifier : Fin m)
  /-- The kernel completes the read, the timeout, or another operation. -/
  | read
  | expire
  | complete
  /-- The worker's steps; `copy` takes the first of the completions. -/
  | arm
  | interrupt
  | copy (count : Nat)
  | dispatch
  | finish
  | visit
  | stop
  deriving Repr

/-- The completions that wait for the worker, the oldest first. -/
def waiting (s : Mailbox Completion m n) : List Completion :=
  Lib.Ring.view s.completions s.completionRead s.completionCount

/-- What `takeCompletion` leaves. -/
def take (completion : Completion) (s : Mailbox Completion m n) : Mailbox Completion m n :=
  { s with
    completionRead := (s.completionRead + 1) % s.completions.length
    completionCount := s.completionCount - 1
    taken := s.taken ++ [completion] }

def takeCompletion (s : Mailbox Completion m n) : Option (Completion × Mailbox Completion m n) :=
  if s.completionCount = 0 then none
  else s.completions[s.completionRead]?.map fun completion => (completion, s.take completion)

def push (notifier : Fin m) (completion : Completion) (s : Mailbox Completion m n) :
    Mailbox Completion m n :=
  { s with
    completions := s.completions.set
      ((s.completionRead + s.completionCount) % s.completions.length) completion
    completionCount := s.completionCount + 1
    notifying := Function.update s.notifying notifier true
    pushed := s.pushed ++ [completion] }

def publish (notifier : Fin m) (slot : Fin n) (s : Mailbox Completion m n) : Mailbox Completion m n :=
  { s with
    unseen := Function.update s.unseen slot true
    notifying := Function.update s.notifying notifier true }

/-- `notify`; a full counter answers `EAGAIN`, which is as good. -/
def notify (notifier : Fin m) (s : Mailbox Completion m n) : Mailbox Completion m n :=
  { s with
    counter := if s.counter < eventLimit then s.counter + 1 else s.counter
    notifying := Function.update s.notifying notifier false }

/-- The top of `loop`, up to `submit`. -/
def arm (s : Mailbox Completion m n) : Mailbox Completion m n :=
  if s.stopping then { s with phase := .waiting }
  else { s with ticking := true, eventPending := true, reading := s.reading || !s.eventPending, phase := .waiting }

/-- `complete` on the next of the copied completions; `tick` begins with `finishApplications`. -/
def dispatch (s : Mailbox Completion m n) : List Cqe → Mailbox Completion m n
  | [] => { s with phase := .top }
  | .application :: batch => { s with eventPending := false, phase := .called s.stopping batch }
  | .tick :: batch => { s with ticking := false, phase := .called s.stopping batch }
  | .other :: batch => { s with phase := .dispatching batch }

/-- One iteration of the loop that takes the completions; behind it all slots are visited. -/
def finish (batch : List Cqe) (s : Mailbox Completion m n) : Mailbox Completion m n :=
  match s.takeCompletion with
  | some (_, next) => next
  | none => { s with phase := .pumping (List.finRange n).reverse batch }

def visit (slots : List (Fin n)) (batch : List Cqe) (s : Mailbox Completion m n) :
    Mailbox Completion m n :=
  match slots with
  | [] => { s with phase := .dispatching batch }
  | slot :: rest => { s with unseen := Function.update s.unseen slot false, phase := .pumping rest batch }

def step (s : Mailbox Completion m n) : Event Completion m n → Option (Mailbox Completion m n)
  | .push notifier completion =>
      if s.notifying notifier = false ∧ s.completionCount < s.completions.length then
        some (s.push notifier completion)
      else none
  | .publish notifier slot =>
      if s.notifying notifier = false then some (s.publish notifier slot) else none
  | .notify notifier => if s.notifying notifier then some (s.notify notifier) else none
  | .notifyFails notifier =>
      if s.notifying notifier then
        some { s with notifying := Function.update s.notifying notifier false, abort := true }
      else none
  | .read =>
      if s.reading = true ∧ 0 < s.counter then
        some { s with reading := false, counter := 0, cqes := s.cqes ++ [.application] }
      else none
  | .expire => if s.ticking then some { s with cqes := s.cqes ++ [.tick] } else none
  | .complete => some { s with cqes := s.cqes ++ [.other] }
  | .arm => match s.phase with
      | .top => some s.arm
      | _ => none
  | .interrupt => match s.phase with
      | .waiting => some { s with phase := .top }
      | _ => none
  | .copy count => match s.phase with
      | .waiting =>
          if 0 < count ∧ count ≤ s.cqes.length then
            some { s with cqes := s.cqes.drop count, phase := .dispatching (s.cqes.take count) }
          else none
      | _ => none
  | .dispatch => match s.phase with
      | .dispatching batch => some (s.dispatch batch)
      | _ => none
  | .finish => match s.phase with
      | .finishing batch => some (s.finish batch)
      | _ => none
  | .visit => match s.phase with
      | .pumping slots batch => some (s.visit slots batch)
      | _ => none
  | .stop => match s.phase with
      | .dispatching [] => some { s with stopping := true }
      | _ => none

def run : Mailbox Completion m n → List (Event Completion m n) → Option (Mailbox Completion m n) :=
  Lib.run step

variable {s t : Mailbox Completion m n} {notifier : Fin m} {slot : Fin n}

/-- The worker has been called, or someone is about to call it; or it is on its way out. -/
def Rung (s : Mailbox Completion m n) : Prop :=
  s.stopping = true ∨ s.abort = true ∨ (∃ i, s.notifying i = true) ∨ 0 < s.counter ∨
    Cqe.application ∈ s.cqes ++ s.phase.batch

/-- All that calls the worker, what the kernel answered apart. -/
def bell (s : Mailbox Completion m n) : (Bool × Bool) × (Fin m → Bool) × Nat :=
  ((s.stopping, s.abort), s.notifying, s.counter)

theorem Rung.of (h : s.Rung) (hbell : t.bell = s.bell)
    (hmem : Cqe.application ∈ s.cqes ++ s.phase.batch → Cqe.application ∈ t.cqes ++ t.phase.batch) :
    t.Rung := by
  simp only [bell, Prod.mk.injEq] at hbell
  obtain ⟨⟨hstopping, habort⟩, hnotifying, hcounter⟩ := hbell
  unfold Rung at h ⊢
  rw [hstopping, habort, hnotifying, hcounter]
  exact h.imp id (Or.imp id (Or.imp id (Or.imp id hmem)))

/-- Nothing lies in the ring unless the worker is called for it or is taking it, and no publication is
unseen unless the worker is called for it or will come by. -/
structure Sound (s : Mailbox Completion m n) : Prop where
  indexed : s.completions ≠ [] → s.completionRead < s.completions.length
  fits : s.completionCount ≤ s.completions.length
  fifo : s.pushed = s.taken ++ s.waiting
  held : s.eventPending = true → s.reading = true ∨ Cqe.application ∈ s.cqes ++ s.phase.batch
  armed : s.phase = .waiting → s.stopping = true ∨ s.eventPending = true
  heard : s.completionCount ≠ 0 → s.Rung ∨ s.phase.isFinishing = true
  seen : ∀ slot, s.unseen slot = true → s.Rung ∨ s.phase.visits slot = true

theorem init_sound (cells : List Completion) :
    ({ completions := cells } : Mailbox Completion m n).Sound :=
  ⟨fun h => List.length_pos_iff.mpr h, Nat.zero_le _, rfl, nofun, nofun, fun h => absurd rfl h, nofun⟩

/-- The ring and its history. -/
def ring (s : Mailbox Completion m n) : (List Completion × Nat × Nat) × List Completion × List Completion :=
  ((s.completions, s.completionRead, s.completionCount), s.pushed, s.taken)

/-- A step that leaves the ring and the slots alone and takes no call back. -/
theorem Sound.calm (h : s.Sound) (hring : t.ring = s.ring) (hunseen : t.unseen = s.unseen)
    (hrung : s.Rung → t.Rung) (hfinishing : t.Rung ∨ s.phase.isFinishing = t.phase.isFinishing)
    (hvisits : t.Rung ∨ ∀ slot, s.phase.visits slot = t.phase.visits slot)
    (hheld : t.eventPending = true → t.reading = true ∨ Cqe.application ∈ t.cqes ++ t.phase.batch)
    (harmed : t.phase = .waiting → t.stopping = true ∨ t.eventPending = true) : t.Sound := by
  simp only [ring, Prod.mk.injEq] at hring
  obtain ⟨⟨hcompletions, hread, hcount⟩, hpushed, htaken⟩ := hring
  refine ⟨?_, ?_, ?_, hheld, harmed, fun hne => ?_, fun slot hslot => ?_⟩
  · rw [hcompletions, hread]
    exact h.indexed
  · rw [hcompletions, hcount]
    exact h.fits
  · unfold waiting
    rw [hcompletions, hread, hcount, hpushed, htaken]
    exact h.fifo
  · rw [hcount] at hne
    rcases hfinishing with hrings | hsame
    · exact Or.inl hrings
    · exact (h.heard hne).imp hrung (hsame ▸ ·)
  · rw [hunseen] at hslot
    rcases hvisits with hrings | hsame
    · exact Or.inl hrings
    · exact (h.seen slot hslot).imp hrung (hsame slot ▸ ·)

/-- A completion goes behind the others, and its thread is about to call. -/
theorem Sound.push (h : s.Sound) (hroom : s.completionCount < s.completions.length)
    (notifier : Fin m) (completion : Completion) : (s.push notifier completion).Sound := by
  have hrung : (s.push notifier completion).Rung :=
    Or.inr (Or.inr (Or.inl ⟨notifier, Function.update_self ..⟩))
  have hstart : s.completionRead < s.completions.length :=
    h.indexed (List.ne_nil_of_length_pos (Nat.zero_lt_of_lt hroom))
  refine ⟨fun _ => ?_, ?_, ?_, h.held, h.armed, fun _ => Or.inl hrung, fun _ _ => Or.inl hrung⟩
  · exact hstart.trans_eq List.length_set.symm
  · exact Nat.succ_le_of_lt (hroom.trans_eq List.length_set.symm)
  · show s.pushed ++ [completion] =
      s.taken ++ Lib.Ring.view (s.completions.set _ _) s.completionRead (_ + 1)
    rw [Lib.Ring.view_push_mod hstart hroom, ← List.append_assoc, h.fifo]
    rfl

/-- `takeCompletion` on a ring that is not empty takes the oldest. -/
theorem Sound.takeCompletion (h : s.Sound) (hcount : s.completionCount ≠ 0) :
    ∃ completion, s.takeCompletion = some (completion, s.take completion) ∧
      s.waiting = completion :: (s.take completion).waiting := by
  have hfits := h.fits
  have hstart : s.completionRead < s.completions.length :=
    h.indexed (List.ne_nil_of_length_pos (Nat.lt_of_lt_of_le (Nat.pos_of_ne_zero hcount) hfits))
  obtain ⟨rest, hrest⟩ := Nat.exists_eq_succ_of_ne_zero hcount
  have hview := Lib.Ring.view_succ hstart (show rest < s.completions.length by omega)
  refine ⟨s.completions[s.completionRead], ?_, ?_⟩
  · unfold Mailbox.takeCompletion
    rw [if_neg hcount, List.getElem?_eq_getElem hstart]
    rfl
  · unfold waiting take
    simp only [hrest, Lib.Ring.next_eq_mod hstart, Nat.succ_eq_add_one, Nat.add_sub_cancel]
    exact hview

theorem Sound.take (h : s.Sound) {completion : Completion} {batch : List Cqe}
    (hphase : s.phase = .finishing batch)
    (hwaiting : s.waiting = completion :: (s.take completion).waiting) : (s.take completion).Sound := by
  have hfinishing : s.phase.isFinishing = true := by
    rw [hphase]
    rfl
  have hvisits (slot : Fin n) : s.phase.visits slot = true := by
    rw [hphase]
    rfl
  refine ⟨fun hne => Nat.mod_lt _ (List.length_pos_iff.mpr hne), ?_, ?_, h.held, h.armed,
    fun _ => Or.inr hfinishing, fun slot _ => Or.inr (hvisits slot)⟩
  · exact (Nat.sub_le s.completionCount 1).trans h.fits
  · show s.pushed = s.taken ++ [completion] ++ (s.take completion).waiting
    rw [h.fifo, hwaiting, List.append_assoc]
    rfl

/-- One iteration of the first loop of `finishApplications`. -/
theorem Sound.finish (h : s.Sound) {batch : List Cqe} (hphase : s.phase = .finishing batch) :
    (s.finish batch).Sound := by
  unfold Mailbox.finish
  by_cases hcount : s.completionCount = 0
  · have hnone : s.takeCompletion = none := if_pos hcount
    rw [hnone]
    have hbatch : s.phase.batch = batch := by
      rw [hphase]
      rfl
    have hheld := h.held
    rw [hbatch] at hheld
    refine ⟨h.indexed, h.fits, h.fifo, hheld, nofun, fun hne => absurd hcount hne,
      fun slot _ => Or.inr ?_⟩
    show (List.finRange n).reverse.contains slot = true
    rw [List.contains_iff_mem, List.mem_reverse]
    exact List.mem_finRange slot
  · obtain ⟨completion, htake, hwaiting⟩ := h.takeCompletion hcount
    rw [htake]
    exact h.take hphase hwaiting

/-- One iteration of the second. -/
theorem Sound.visit (h : s.Sound) {slots : List (Fin n)} {batch : List Cqe}
    (hphase : s.phase = .pumping slots batch) : (s.visit slots batch).Sound := by
  have hbatch : s.phase.batch = batch := by
    rw [hphase]
    rfl
  have hheld := h.held
  rw [hbatch] at hheld
  have hrung (hs : s.Rung) (t : Mailbox Completion m n) (hphase : t.phase.batch = batch)
      (hcqes : t.cqes = s.cqes) (hbell : t.bell = s.bell) : t.Rung :=
    hs.of hbell fun hmem => by rwa [hcqes, hphase, ← hbatch]
  have hcalled (hne : s.completionCount ≠ 0) : s.Rung := (h.heard hne).resolve_right fun hfinishing => by
    rw [hphase] at hfinishing
    cases hfinishing
  have hcoming (slot : Fin n) (hslot : s.unseen slot = true) : s.Rung ∨ slot ∈ slots :=
    (h.seen slot hslot).imp id fun hvisits => by
      rw [hphase] at hvisits
      exact List.contains_iff_mem.mp hvisits
  cases slots with
  | nil =>
      refine ⟨h.indexed, h.fits, h.fifo, hheld, nofun, fun hne => Or.inl (hrung (hcalled hne) _ rfl rfl rfl),
        fun slot hslot => Or.inl (hrung ?_ _ rfl rfl rfl)⟩
      exact (hcoming slot hslot).resolve_right List.not_mem_nil
  | cons first rest =>
      refine ⟨h.indexed, h.fits, h.fifo, hheld, nofun, fun hne => Or.inl (hrung (hcalled hne) _ rfl rfl rfl),
        fun slot hslot => ?_⟩
      have hslot : Function.update s.unseen first false slot = true := hslot
      have hne : slot ≠ first := by
        rintro rfl
        rw [Function.update_self] at hslot
        cases hslot
      rw [Function.update_of_ne hne] at hslot
      refine (hcoming slot hslot).imp (hrung · _ rfl rfl rfl) fun hmem => ?_
      exact List.contains_iff_mem.mpr ((List.mem_cons.mp hmem).resolve_left hne)

/-- What was copied is dispatched, one after the other. -/
theorem Sound.dispatch (h : s.Sound) {batch : List Cqe} (hphase : s.phase = .dispatching batch) :
    (s.dispatch batch).Sound := by
  have hbatch : s.phase.batch = batch := by
    rw [hphase]
    rfl
  have hnone : s.phase.isFinishing = false := by
    rw [hphase]
    rfl
  have hvisits (slot : Fin n) : s.phase.visits slot = false := by
    rw [hphase]
    rfl
  have hheld := h.held
  rw [hbatch] at hheld
  cases batch with
  | nil =>
      exact h.calm rfl rfl (·.of rfl fun hmem => by rwa [hbatch] at hmem) (Or.inr hnone) (Or.inr hvisits)
        hheld nofun
  | cons cqe batch =>
      have hrest (hne : cqe ≠ .application) :
          Cqe.application ∈ s.cqes ++ cqe :: batch → Cqe.application ∈ s.cqes ++ batch := by
        intro hmem
        rcases List.mem_append.mp hmem with hcqes | hcqe
        · exact List.mem_append_left _ hcqes
        · exact List.mem_append_right _ ((List.mem_cons.mp hcqe).resolve_left (Ne.symm hne))
      cases cqe with
      | other =>
          exact h.calm rfl rfl (·.of rfl fun hmem => hrest nofun (hbatch ▸ hmem)) (Or.inr hnone)
            (Or.inr hvisits) (fun hpending => (hheld hpending).imp id (hrest nofun)) nofun
      | tick =>
          obtain ⟨hcalled, hawake, hnext⟩ := @LoopPhase.called_spec n s.stopping batch
          refine ⟨h.indexed, h.fits, h.fifo, fun hpending => ?_, fun hphase => absurd hphase hawake,
            fun _ => hnext.imp Or.inl fun hfinishing => ?_,
            fun _ _ => hnext.imp Or.inl fun hfinishing => ?_⟩
          · show _ ∨ Cqe.application ∈ s.cqes ++ (LoopPhase.called s.stopping batch : LoopPhase n).batch
            rw [hcalled]
            exact (hheld hpending).imp id (hrest nofun)
          · exact congrArg LoopPhase.isFinishing hfinishing
          · exact congrArg (LoopPhase.visits _) hfinishing
      | application =>
          obtain ⟨-, hawake, hnext⟩ := @LoopPhase.called_spec n s.stopping batch
          exact ⟨h.indexed, h.fits, h.fifo, nofun, fun hphase => absurd hphase hawake,
            fun _ => hnext.imp Or.inl (congrArg LoopPhase.isFinishing),
            fun _ _ => hnext.imp Or.inl (congrArg (LoopPhase.visits _))⟩

/-- The kernel answers for another operation. -/
theorem Sound.answered (h : s.Sound) (cqe : Cqe) :
    Sound ({ s with cqes := s.cqes ++ [cqe] } : Mailbox Completion m n) := by
  have hmem : Cqe.application ∈ s.cqes ++ s.phase.batch →
      Cqe.application ∈ (s.cqes ++ [cqe]) ++ s.phase.batch := by
    intro hmem
    rw [List.append_assoc]
    exact (List.mem_append.mp hmem).elim (List.mem_append_left _)
      fun hbatch => List.mem_append_right _ (List.mem_append_right _ hbatch)
  exact h.calm rfl rfl (·.of rfl hmem) (Or.inr rfl) (Or.inr fun _ => rfl)
    (fun hpending => (h.held hpending).imp id hmem) h.armed

/-- Unless it stops, the worker goes to sleep with a read of the eventfd under way. -/
theorem Sound.arm (h : s.Sound) (hphase : s.phase = .top) : s.arm.Sound := by
  have hheld := h.held
  rw [hphase] at hheld
  unfold Mailbox.arm
  split
  · rename_i hstop
    exact h.calm rfl rfl (·.of rfl (by rw [hphase]; exact id)) (Or.inr (by rw [hphase]; rfl))
      (Or.inr fun _ => by rw [hphase]; rfl) hheld fun _ => Or.inl hstop
  · refine h.calm rfl rfl (·.of rfl (by rw [hphase]; exact id)) (Or.inr (by rw [hphase]; rfl))
      (Or.inr fun _ => by rw [hphase]; rfl) (fun _ => ?_) fun _ => Or.inr rfl
    show (s.reading || !s.eventPending) = true ∨ _
    cases hpending : s.eventPending with
    | true => exact (hheld hpending).imp (by rintro hreading; rw [hreading]; rfl) id
    | false => exact Or.inl (Bool.or_true _)

/-- What a step does, with what it found. -/
theorem step_cases {event : Event Completion m n} {P : Event Completion m n → Mailbox Completion m n → Prop}
    (hstep : s.step event = some t)
    (push : ∀ notifier completion, s.completionCount < s.completions.length →
      P (.push notifier completion) (s.push notifier completion))
    (publish : ∀ notifier slot, P (.publish notifier slot) (s.publish notifier slot))
    (notify : ∀ notifier, P (.notify notifier) (s.notify notifier))
    (notifyFails : ∀ notifier, P (.notifyFails notifier)
      { s with notifying := Function.update s.notifying notifier false, abort := true })
    (read : P .read { s with reading := false, counter := 0, cqes := s.cqes ++ [.application] })
    (expire : P .expire { s with cqes := s.cqes ++ [.tick] })
    (complete : P .complete { s with cqes := s.cqes ++ [.other] })
    (arm : s.phase = .top → P .arm s.arm)
    (interrupt : s.phase = .waiting → P .interrupt { s with phase := .top })
    (copy : ∀ count, s.phase = .waiting →
      P (.copy count) { s with cqes := s.cqes.drop count, phase := .dispatching (s.cqes.take count) })
    (dispatch : ∀ batch, s.phase = .dispatching batch → P .dispatch (s.dispatch batch))
    (finish : ∀ batch, s.phase = .finishing batch → P .finish (s.finish batch))
    (visit : ∀ slots batch, s.phase = .pumping slots batch → P .visit (s.visit slots batch))
    (stop : s.phase = .dispatching [] → P .stop { s with stopping := true }) : P event t := by
  cases event with
  | push notifier completion =>
      simp only [step] at hstep
      split_ifs at hstep with hroom
      exact Option.some.inj hstep ▸ push notifier completion hroom.2
  | publish notifier slot =>
      simp only [step] at hstep
      split_ifs at hstep
      exact Option.some.inj hstep ▸ publish notifier slot
  | notify notifier =>
      simp only [step] at hstep
      split_ifs at hstep
      exact Option.some.inj hstep ▸ notify notifier
  | notifyFails notifier =>
      simp only [step] at hstep
      split_ifs at hstep
      exact Option.some.inj hstep ▸ notifyFails notifier
  | read =>
      simp only [step] at hstep
      split_ifs at hstep
      exact Option.some.inj hstep ▸ read
  | expire =>
      simp only [step] at hstep
      split_ifs at hstep
      exact Option.some.inj hstep ▸ expire
  | complete => exact Option.some.inj hstep ▸ complete
  | arm =>
      simp only [step] at hstep
      split at hstep
      · rename_i hphase
        exact Option.some.inj hstep ▸ arm hphase
      · cases hstep
  | interrupt =>
      simp only [step] at hstep
      split at hstep
      · rename_i hphase
        exact Option.some.inj hstep ▸ interrupt hphase
      · cases hstep
  | copy count =>
      simp only [step] at hstep
      split at hstep
      · rename_i hphase
        split_ifs at hstep
        exact Option.some.inj hstep ▸ copy count hphase
      · cases hstep
  | dispatch =>
      simp only [step] at hstep
      split at hstep
      · rename_i batch hphase
        exact Option.some.inj hstep ▸ dispatch batch hphase
      · cases hstep
  | finish =>
      simp only [step] at hstep
      split at hstep
      · rename_i batch hphase
        exact Option.some.inj hstep ▸ finish batch hphase
      · cases hstep
  | visit =>
      simp only [step] at hstep
      split at hstep
      · rename_i slots batch hphase
        exact Option.some.inj hstep ▸ visit slots batch hphase
      · cases hstep
  | stop =>
      simp only [step] at hstep
      split at hstep
      · rename_i hphase
        exact Option.some.inj hstep ▸ stop hphase
      · cases hstep

/-- A notifier has yet to write, or has written. -/
theorem Sound.called (h : s.Sound) (hrung : t.Rung) (hring : t.ring = s.ring)
    (hheld : t.eventPending = true → t.reading = true ∨ Cqe.application ∈ t.cqes ++ t.phase.batch)
    (harmed : t.phase = .waiting → t.stopping = true ∨ t.eventPending = true) : t.Sound := by
  simp only [ring, Prod.mk.injEq] at hring
  obtain ⟨⟨hcompletions, hread, hcount⟩, hpushed, htaken⟩ := hring
  refine ⟨?_, ?_, ?_, hheld, harmed, fun _ => Or.inl hrung, fun _ _ => Or.inl hrung⟩
  · rw [hcompletions, hread]
    exact h.indexed
  · rw [hcompletions, hcount]
    exact h.fits
  · unfold waiting
    rw [hcompletions, hread, hcount, hpushed, htaken]
    exact h.fifo

theorem notify_counter (notifier : Fin m) (s : Mailbox Completion m n) : 0 < (s.notify notifier).counter := by
  show 0 < if s.counter < eventLimit then s.counter + 1 else s.counter
  split
  · exact Nat.succ_pos _
  · rename_i hfull
    exact Nat.lt_of_lt_of_le (by decide) (Nat.le_of_not_lt hfull)

theorem step_sound {event : Event Completion m n} (h : s.Sound) (hstep : s.step event = some t) :
    t.Sound := by
  refine @step_cases _ _ _ s t event (fun _ t => t.Sound) hstep ?push ?publish ?notify ?notifyFails ?read
    (h.answered .tick) (h.answered .other) h.arm ?interrupt ?copy (fun _ => h.dispatch)
    (fun _ => h.finish) (fun _ _ => h.visit) ?stop
  case push => exact fun notifier completion hroom => h.push hroom notifier completion
  case publish =>
    exact fun notifier slot => h.called (Or.inr (Or.inr (Or.inl ⟨notifier, Function.update_self ..⟩))) rfl
      h.held h.armed
  case notify =>
    exact fun notifier => h.called (Or.inr (Or.inr (Or.inr (Or.inl (notify_counter notifier s))))) rfl
      h.held h.armed
  case notifyFails => exact fun _ => h.called (Or.inr (Or.inl rfl)) rfl h.held h.armed
  case read =>
    have hmem : Cqe.application ∈ (s.cqes ++ [.application]) ++ s.phase.batch :=
      List.mem_append_left _ (List.mem_append_right _ (List.mem_singleton_self _))
    exact h.called (Or.inr (Or.inr (Or.inr (Or.inr hmem)))) rfl (fun _ => Or.inr hmem) h.armed
  case interrupt =>
    intro hphase
    have hheld := h.held
    rw [hphase] at hheld
    exact h.calm rfl rfl (·.of rfl (by rw [hphase]; exact id)) (Or.inr (by rw [hphase]; rfl))
      (Or.inr fun _ => by rw [hphase]; rfl) hheld nofun
  case copy =>
    intro count hphase
    have hheld := h.held
    have hmem : Cqe.application ∈ s.cqes ++ s.phase.batch →
        Cqe.application ∈ s.cqes.drop count ++ s.cqes.take count := by
      rw [hphase, LoopPhase.batch, List.append_nil]
      intro hmem
      rw [← List.take_append_drop count s.cqes, List.mem_append] at hmem
      exact List.mem_append.mpr hmem.symm
    exact h.calm rfl rfl (·.of rfl hmem) (Or.inr (by rw [hphase]; rfl))
      (Or.inr fun _ => by rw [hphase]; rfl) (fun hpending => (hheld hpending).imp id hmem) nofun
  case stop => exact fun _ => h.called (Or.inl rfl) rfl h.held fun _ => Or.inl rfl

theorem run_sound {events : List (Event Completion m n)} {cells : List Completion}
    (hrun : ({ completions := cells } : Mailbox Completion m n).run events = some s) : s.Sound :=
  Lib.run_invariant (fun _ _ _ h hstep => step_sound h hstep) events _ _ (init_sound cells) hrun

/-- Whoever has published or delivered has also called: while the worker sleeps, with nobody between
the two, the read of the eventfd is about to complete or has, unless every completion was taken and
every publication was seen. -/
theorem no_lost_wakeup {events : List (Event Completion m n)} {cells : List Completion}
    (hrun : ({ completions := cells } : Mailbox Completion m n).run events = some s)
    (hwaiting : s.phase = .waiting) (hstop : s.stopping = false) (habort : s.abort = false)
    (hquiet : ∀ i, s.notifying i = false) :
    (s.step .read).isSome ∨ Cqe.application ∈ s.cqes ∨
      (s.taken = s.pushed ∧ ∀ slot, s.unseen slot = false) := by
  have h := run_sound hrun
  by_cases hanswered : Cqe.application ∈ s.cqes
  · exact Or.inr (Or.inl hanswered)
  have hbatch : Cqe.application ∉ s.cqes ++ s.phase.batch := by
    rw [hwaiting, LoopPhase.batch, List.append_nil]
    exact hanswered
  have hpending : s.eventPending = true :=
    (h.armed hwaiting).resolve_left fun hstopping => by
      rw [hstop] at hstopping
      cases hstopping
  have hreading : s.reading = true := (h.held hpending).resolve_right hbatch
  have hcounter (hrung : s.Rung) : 0 < s.counter := by
    rcases hrung with hstopping | haborted | ⟨i, hi⟩ | hcounter | hmem
    · rw [hstop] at hstopping
      cases hstopping
    · rw [habort] at haborted
      cases haborted
    · rw [hquiet i] at hi
      cases hi
    · exact hcounter
    · exact absurd hmem hbatch
  by_cases hready : 0 < s.counter
  · refine Or.inl ?_
    show (if s.reading = true ∧ 0 < s.counter then _ else _ : Option _).isSome = true
    rw [if_pos ⟨hreading, hready⟩]
    rfl
  have hsilent : ¬ s.Rung := fun hrung => hready (hcounter hrung)
  refine Or.inr (Or.inr ⟨?_, fun slot => ?_⟩)
  · have hcount : s.completionCount = 0 := by
      by_contra hne
      have hfinishing := (h.heard hne).resolve_left hsilent
      rw [hwaiting] at hfinishing
      cases hfinishing
    have hfifo := h.fifo
    rw [waiting, hcount, Lib.Ring.view, List.take_zero, List.append_nil] at hfifo
    exact hfifo.symm
  · by_contra hslot
    have hvisits := (h.seen slot (Bool.eq_true_of_not_eq_false hslot)).resolve_left hsilent
    rw [hwaiting] at hvisits
    cases hvisits

/-- A completion is delivered while the worker sleeps. -/
def sampleCall : List (Event Nat 2 1) := [.arm, .push 0 5, .push 1 6, .notify 0, .notify 1]

theorem no_lost_wakeup_sample : ∃ s : Mailbox Nat 2 1,
    ({ completions := [0, 0] } : Mailbox Nat 2 1).run sampleCall = some s ∧
    ((s.step .read).isSome ∨ Cqe.application ∈ s.cqes ∨
      (s.taken = s.pushed ∧ ∀ slot, s.unseen slot = false)) := by
  have hrun : ({ completions := [0, 0] } : Mailbox Nat 2 1).run sampleCall = some _ := rfl
  exact ⟨_, hrun, no_lost_wakeup hrun rfl rfl rfl fun | 0 => rfl | 1 => rfl⟩

/-- All that was pushed by then is taken, or the worker is still taking. -/
def Drained (pushed : List Completion) (s : Mailbox Completion m n) : Prop :=
  pushed <+: s.pushed ∧ (s.phase.isFinishing = true ∨ pushed <+: s.taken)

theorem Drained.of {pushed : List Completion} (h : s.Drained pushed) (hpushed : s.pushed <+: t.pushed)
    (htaken : t.taken = s.taken) (hphase : s.phase.isFinishing = true → t.phase.isFinishing = true) :
    t.Drained pushed :=
  ⟨h.1.trans hpushed, h.2.imp hphase fun hprior => htaken ▸ hprior⟩

theorem step_drained {pushed : List Completion} {event : Event Completion m n} (h : s.Sound)
    (hdrained : s.Drained pushed) (hstep : s.step event = some t) : t.Drained pushed := by
  have hsame : s.pushed <+: s.pushed := List.prefix_refl _
  refine @step_cases _ _ _ s t event (fun _ t => t.Drained pushed) hstep
    (fun _ completion _ => hdrained.of (List.prefix_append _ [completion]) rfl id)
    (fun _ _ => hdrained.of hsame rfl id) (fun _ => hdrained.of hsame rfl id)
    (fun _ => hdrained.of hsame rfl id) (hdrained.of hsame rfl id) (hdrained.of hsame rfl id)
    (hdrained.of hsame rfl id) ?arm ?interrupt ?copy ?dispatch ?finish ?visit
    (fun _ => hdrained.of hsame rfl id)
  case arm =>
    intro hphase
    have hnot : s.phase.isFinishing = true → s.arm.phase.isFinishing = true := by
      rw [hphase]
      rintro ⟨⟩
    unfold Mailbox.arm at hnot ⊢
    split at hnot
    · rename_i hstop
      rw [if_pos hstop]
      exact hdrained.of hsame rfl hnot
    · rename_i hstop
      rw [if_neg hstop]
      exact hdrained.of hsame rfl hnot
  case interrupt => exact fun hphase => hdrained.of hsame rfl (by rw [hphase]; rintro ⟨⟩)
  case copy => exact fun _ hphase => hdrained.of hsame rfl (by rw [hphase]; rintro ⟨⟩)
  case dispatch =>
    intro batch hphase
    have hnot : s.phase.isFinishing ≠ true := by
      rw [hphase]
      rintro ⟨⟩
    have hprior : pushed <+: s.taken := hdrained.2.resolve_left hnot
    obtain _ | ⟨event, rest⟩ := batch
    · exact ⟨hdrained.1, Or.inr hprior⟩
    · cases event <;> exact ⟨hdrained.1, Or.inr hprior⟩
  case finish =>
    intro batch hphase
    unfold Mailbox.finish
    by_cases hcount : s.completionCount = 0
    · have hfifo := h.fifo
      rw [waiting, hcount, Lib.Ring.view, List.take_zero, List.append_nil] at hfifo
      rw [show s.takeCompletion = none from if_pos hcount]
      exact ⟨hdrained.1, Or.inr (hfifo ▸ hdrained.1)⟩
    · obtain ⟨completion, htake, -⟩ := h.takeCompletion hcount
      rw [htake]
      refine ⟨hdrained.1, Or.inl ?_⟩
      show s.phase.isFinishing = true
      rw [hphase]
      rfl
  case visit =>
    intro slots batch hphase
    have hnot : s.phase.isFinishing ≠ true := by
      rw [hphase]
      rintro ⟨⟩
    have hprior : pushed <+: s.taken := hdrained.2.resolve_left hnot
    cases slots <;> exact ⟨hdrained.1, Or.inr hprior⟩

/-- A publication that is unseen will be seen before the worker dispatches again. -/
def Coming (slot : Fin n) (s : Mailbox Completion m n) : Prop :=
  s.unseen slot = true → s.phase.visits slot = true

theorem Coming.of (h : s.Coming slot) (hvisits : s.phase.visits slot = false)
    (hunseen : t.unseen = s.unseen) : t.Coming slot := fun hslot => by
  rw [hunseen] at hslot
  rw [h hslot] at hvisits
  cases hvisits

theorem step_coming {event : Event Completion m n} (h : s.Sound) (hcoming : s.Coming slot)
    (hevent : ∀ notifier, event ≠ .publish notifier slot) (hstep : s.step event = some t) :
    t.Coming slot := by
  revert hevent
  refine @step_cases _ _ _ s t event
    (fun event t => (∀ notifier, event ≠ .publish notifier slot) → t.Coming slot) hstep
    (fun _ _ _ _ => hcoming) ?publish (fun _ _ => hcoming) (fun _ _ => hcoming) (fun _ => hcoming)
    (fun _ => hcoming) (fun _ => hcoming) ?arm ?interrupt ?copy ?dispatch ?finish ?visit
    (fun _ _ => hcoming)
  case publish =>
    intro notifier other hother
    have hne : slot ≠ other := fun heq => hother notifier (by rw [heq])
    intro hslot
    have hslot : Function.update s.unseen other true slot = true := hslot
    rw [Function.update_of_ne hne] at hslot
    exact hcoming hslot
  case arm =>
    intro hphase _
    have hunseen : s.arm.unseen = s.unseen := by
      unfold Mailbox.arm
      split
      · rfl
      · rfl
    exact hcoming.of (by rw [hphase]; rfl) hunseen
  case interrupt => exact fun hphase _ => hcoming.of (by rw [hphase]; rfl) rfl
  case copy => exact fun _ hphase _ => hcoming.of (by rw [hphase]; rfl) rfl
  case dispatch =>
    intro batch hphase _
    have hvisits : s.phase.visits slot = false := by
      rw [hphase]
      rfl
    match batch with
    | [] | .application :: _ | .tick :: _ | .other :: _ => exact hcoming.of hvisits rfl
  case finish =>
    intro batch hphase _
    unfold Mailbox.finish
    by_cases hcount : s.completionCount = 0
    · rw [show s.takeCompletion = none from if_pos hcount]
      intro _
      show (List.finRange n).reverse.contains slot = true
      rw [List.contains_iff_mem, List.mem_reverse]
      exact List.mem_finRange slot
    · obtain ⟨completion, htake, -⟩ := h.takeCompletion hcount
      rw [htake]
      exact hcoming
  case visit =>
    intro slots batch hphase _ hslot
    match slots with
    | [] =>
        have hvisits := hcoming hslot
        rw [hphase] at hvisits
        cases hvisits
    | first :: rest =>
        have hslot : Function.update s.unseen first false slot = true := hslot
        have hne : slot ≠ first := by
          rintro rfl
          rw [Function.update_self] at hslot
          cases hslot
        rw [Function.update_of_ne hne] at hslot
        have hvisits := hcoming hslot
        rw [hphase] at hvisits
        have hmem : slot ∈ first :: rest := List.contains_iff_mem.mp hvisits
        exact List.contains_iff_mem.mpr ((List.mem_cons.mp hmem).resolve_left hne)

/-- A call of `finishApplications` takes everything that was pushed before it, and sees every slot
that was published before it, however the notifiers go on in the meantime. -/
theorem wakeup_drains {before after : List (Event Completion m n)} {cells : List Completion}
    {batch : List Cqe}
    (hbefore : ({ completions := cells } : Mailbox Completion m n).run before = some s)
    (hfinishing : s.phase = .finishing batch) (hafter : s.run after = some t)
    (hwaiting : t.phase = .waiting) :
    s.pushed <+: t.taken ∧
      ∀ slot, (∀ notifier, Event.publish notifier slot ∉ after) → t.unseen slot = false := by
  have hsound := run_sound hbefore
  have hend (hvisits : t.phase.isFinishing = true) : False := by
    rw [hwaiting] at hvisits
    cases hvisits
  constructor
  · have hdrained : s.Drained s.pushed := ⟨List.prefix_refl _, Or.inl (by rw [hfinishing]; rfl)⟩
    have hlast := @Lib.run_invariant _ _ step (fun now => now.Sound ∧ now.Drained s.pushed)
      (fun _ _ _ h hstep => ⟨step_sound h.1 hstep, step_drained h.1 h.2 hstep⟩) after s t
      ⟨hsound, hdrained⟩ hafter
    exact hlast.2.2.resolve_left hend
  · intro slot hslot
    have hcoming : s.Coming slot := fun _ => by
      rw [hfinishing]
      rfl
    clear hfinishing hbefore hend
    induction after generalizing s with
    | nil =>
        obtain rfl := Option.some.inj hafter
        by_contra hunseen
        have hvisits := hcoming (Bool.eq_true_of_not_eq_false hunseen)
        rw [hwaiting] at hvisits
        cases hvisits
    | cons event after ih =>
        obtain ⟨next, hstep, hrest⟩ := Lib.run_cons.mp hafter
        refine ih hrest (step_sound hsound hstep) (fun notifier hmem => ?_)
          (step_coming hsound hcoming (fun notifier heq => ?_) hstep)
        · exact hslot notifier (List.mem_cons_of_mem _ hmem)
        · exact hslot notifier (heq ▸ List.mem_cons_self ..)

/-- The worker drains the ring while a producer publishes and a thread delivers once more. -/
def sampleDrain : List (Event Nat 2 1) :=
  [.publish 0 0, .finish, .push 1 7, .finish, .finish, .finish, .visit, .visit, .dispatch, .arm]

theorem wakeup_drains_sample : ∃ s t : Mailbox Nat 2 1,
    ({ completions := [0, 0] } : Mailbox Nat 2 1).run
      (sampleCall ++ [.read, .copy 1, .dispatch]) = some s ∧
    s.run sampleDrain = some t ∧ s.pushed = [5, 6] ∧ s.pushed <+: t.taken := by
  have hbefore : ({ completions := [0, 0] } : Mailbox Nat 2 1).run
      (sampleCall ++ [.read, .copy 1, .dispatch]) = some _ := rfl
  refine ⟨_, _, hbefore, rfl, rfl, ?_⟩
  exact (@wakeup_drains _ _ _ _ _ _ sampleDrain _ _ hbefore rfl rfl rfl).1

end Mailbox

end Zhtps
