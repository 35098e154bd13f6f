import Mathlib.Logic.Function.Basic
import Zhtps.Config
import Zhtps.Lib.Transition
import Zhtps.Logger

/-!
The log descriptor that all workers write to, after `queueLog`, `releaseLog` and the completion of a
log write in `src/server/worker.zig`.  A worker owns the descriptor while it writes a batch of
records; the kernel moves the bytes of a queued write piece by piece, whenever it likes.
-/

namespace Zhtps

namespace Logger

/-- A slice of a slot's buffer, which the kernel reads when it writes. -/
structure Iovec where
  slot : Nat
  base : Nat
  len : Nat
  deriving DecidableEq, Repr

def Iovec.read (slots : List Slot) (vector : Iovec) : Bytes :=
  ((slots[vector.slot]?.getD {}).bytes.drop vector.base).take vector.len

/-- The slices of the queued slots from an offset on, or `none` where no slot is queued. -/
def vectors (logger : Logger) : Nat → Nat → Option (List Iovec)
  | _, 0 => some []
  | offset, n + 1 =>
      match logger.peekAt offset with
      | none => none
      | some index =>
          match logger.slots[index]? with
          | none => none
          | some slot =>
              (vectors logger (offset + 1) n).map
                (⟨index, slot.sent, slot.bytes.length - slot.sent⟩ :: ·)

/-- Drops every record. -/
def consumeAll (logger : Logger) : Logger := Nat.repeat consume logger.count logger

end Logger

/-- What a worker knows of its log writes. -/
structure LogWriter where
  logger : Logger
  logging : Bool := false
  logDisabled : Bool := false
  logBatchRemaining : Nat := 0
  logIovecs : List Logger.Iovec := []
  deriving DecidableEq, Repr

namespace LogWriter

open Logger

variable {ι : Type} [DecidableEq ι]

def iovecCount : Nat := 128

/-- `ECANCELED`, as completions report it. -/
def canceled : Int := -125

/-- Only the owner gives the descriptor back. -/
def releaseLog (id : ι) (owner : Option ι) : Option ι := if owner = some id then none else owner

/-- Queues a write of the batch when the descriptor is free or owned already.  A batch is selected
once and stays as it is across short writes. -/
def queueLog (config : Config) (id : ι) (writer : LogWriter) (owner : Option ι) :
    Option (LogWriter × Option ι) :=
  if writer.logging || writer.logDisabled then some (writer, owner)
  else if config.logFd.isNone then some (writer, owner)
  else if writer.logger.peek.isNone then some (writer, owner)
  else if owner ≠ some id ∧ owner ≠ none then some (writer, owner)
  else
    let batch :=
      if writer.logBatchRemaining = 0 then
        min writer.logger.count (if config.victoriaLogs.isSome then 2 else iovecCount)
      else writer.logBatchRemaining
    (writer.logger.vectors 0 batch).map fun iovecs =>
      ({ writer with
        logging := true
        logBatchRemaining := batch
        logIovecs := iovecs }, some id)

/-- The completion of a log write, with the result that the kernel reports. -/
def completeLog (config : Config) (id : ι) (writer : LogWriter) (owner : Option ι) (res : Int) :
    Option (LogWriter × Option ι) :=
  let writer := { writer with logging := false }
  if config.victoriaLogs.isSome ∧ res = canceled then some (writer, releaseLog id owner)
  else if res ≤ 0 then
    some ({ writer with
      logDisabled := true
      logger := writer.logger.consumeAll }, releaseLog id owner)
  else
    match writer.logger.consumeBytes res.toNat with
    | none => none
    | some (records, logger) =>
        if writer.logBatchRemaining < records then none
        else
          let remaining := writer.logBatchRemaining - records
          some ({ writer with
            logger := logger
            logBatchRemaining := remaining },
            if remaining = 0 then releaseLog id owner else owner)

/-- The bytes of the queued write, as the kernel finds them in the buffers. -/
def inFlight (writer : LogWriter) : Bytes := writer.logIovecs.flatMap (Iovec.read writer.logger.slots)

end LogWriter

/-- All workers, the descriptor and its output.  `transferred` counts the bytes of a queued write
that are out; `accepted` and `written` are history: the records that a worker's queue has taken, and
the records whose write is complete. -/
structure SharedLog (n : Nat) where
  workers : Fin n → LogWriter
  logOwner : Option (Fin n) := none
  output : Bytes := []
  transferred : Fin n → Nat := fun _ => 0
  accepted : Fin n → List Bytes := fun _ => []
  written : List (Fin n × Bytes) := []

namespace SharedLog

open Logger

variable {n : Nat}

inductive Action (n : Nat)
  | emit (worker : Fin n) (event : Logger.Event)
  | queue (worker : Fin n)
  | transfer (worker : Fin n) (bytes : Nat)
  | complete (worker : Fin n)
  deriving DecidableEq, Repr

/-- Every worker begins with an empty queue in its own slots. -/
def start (config : Config) (verbose : Bool) (slots : Fin n → List Slot) : SharedLog n where
  workers worker :=
    { logger := { slots := slots worker, verbose := verbose, enabled := config.logFd.isSome } }

def step (config : Config) (s : SharedLog n) : Action n → Option (SharedLog n)
  | .emit worker event =>
      let writer := s.workers worker
      some { s with
        workers := Function.update s.workers worker
          { writer with logger := writer.logger.emit event }
        accepted := Function.update s.accepted worker
          (s.accepted worker ++ if writer.logger.accepts event then [record event] else []) }
  | .queue worker =>
      ((s.workers worker).queueLog config worker s.logOwner).map fun (writer, owner) =>
        { s with
          workers := Function.update s.workers worker writer
          logOwner := owner }
  | .transfer worker bytes =>
      let writer := s.workers worker
      if writer.logging ∧ 0 < bytes ∧ s.transferred worker + bytes ≤ writer.inFlight.length then
        some { s with
          output := s.output ++ (writer.inFlight.drop (s.transferred worker)).take bytes
          transferred := Function.update s.transferred worker (s.transferred worker + bytes) }
      else none
  | .complete worker =>
      let writer := s.workers worker
      if writer.logging ∧ 0 < s.transferred worker then
        (writer.completeLog config worker s.logOwner (s.transferred worker)).map
          fun (writer', owner) =>
            { s with
              workers := Function.update s.workers worker writer'
              logOwner := owner
              transferred := Function.update s.transferred worker 0
              written := s.written ++
                (writer.logger.queue.take (writer.logger.count - writer'.logger.count)).map
                  fun slot => (worker, slot.bytes) }
      else none

/-! ### What a write is made of -/

theorem read_slot {slots : List Slot} {index : Nat} {slot : Slot} (h : slots[index]? = some slot) :
    (Iovec.mk index slot.sent (slot.bytes.length - slot.sent)).read slots = slot.unsent := by
  rw [Iovec.read, h, Option.getD_some, Slot.unsent]
  exact List.take_of_length_le (by rw [List.length_drop])

/-- A queued slot, by its offset. -/
theorem peekAt_queue {logger : Logger} (h : logger.Valid) {offset : Nat}
    (hoffset : offset < logger.count) :
    ∃ index, index = Lib.Ring.wrap logger.slots.length (logger.readIndex + offset) ∧
      logger.peekAt offset = some index ∧ logger.slots[index]? = logger.queue[offset]? := by
  have hpos : 0 < logger.slots.length := Nat.lt_of_lt_of_le (by omega) h.count_le
  refine ⟨_, rfl, ?_, ?_⟩
  · rw [peekAt, if_neg (by omega)]
  · exact (Lib.Ring.getElem?_view (h.readIndex_lt hpos) hoffset h.count_le).symm

/-- The slices of queued slots exist, and the kernel finds the unsent bytes there. -/
theorem vectors_some {logger : Logger} (h : logger.Valid) {offset k : Nat}
    (hk : offset + k ≤ logger.count) :
    ∃ iovecs, logger.vectors offset k = some iovecs ∧
      iovecs.flatMap (Iovec.read logger.slots) = unsent ((logger.queue.drop offset).take k) := by
  induction k generalizing offset with
  | zero => exact ⟨[], rfl, by rw [List.take_zero]; rfl⟩
  | succ k ih =>
      obtain ⟨iovecs, hvectors, hread⟩ := @ih (offset + 1) (by omega)
      obtain ⟨index, -, hpeek, hget⟩ := @peekAt_queue _ h offset (by omega)
      have hoffset : offset < logger.queue.length := by
        rw [h.length_queue]
        omega
      rw [List.getElem?_eq_getElem hoffset] at hget
      have hcons : logger.vectors offset (k + 1) =
          some (⟨index, logger.queue[offset].sent,
            logger.queue[offset].bytes.length - logger.queue[offset].sent⟩ :: iovecs) := by
        rw [vectors, hpeek]
        simp only [hget, hvectors]
        rfl
      refine ⟨_, hcons, ?_⟩
      rw [List.flatMap_cons, hread, read_slot hget, List.drop_eq_getElem_cons hoffset,
        List.take_succ_cons]
      rfl

/-- A record that arrives while a write is queued moves no slice of it. -/
theorem vectors_emit {logger : Logger} (h : logger.Valid) (event : Logger.Event) {offset k : Nat}
    (hk : offset + k ≤ logger.count) :
    (logger.emit event).vectors offset k = logger.vectors offset k := by
  induction k generalizing offset with
  | zero => rfl
  | succ k ih =>
      have hcount : logger.count ≤ (logger.emit event).count := by
        unfold emit
        split <;> simp
      have hindex : (logger.emit event).readIndex = logger.readIndex ∧
          (logger.emit event).slots.length = logger.slots.length := by
        unfold emit
        split <;> simp
      have hoffset : offset < logger.queue.length := by
        rw [h.length_queue]
        omega
      obtain ⟨index, hplace, hpeek, hget⟩ := @peekAt_queue _ h offset (by omega)
      obtain ⟨index', hplace', hpeek', hget'⟩ :=
        @peekAt_queue _ (h.emit event) offset (by omega)
      rw [hindex.1, hindex.2, ← hplace] at hplace'
      rw [hplace', queue_emit h, List.getElem?_append_left hoffset, ← hget] at hget'
      rw [vectors, vectors, hpeek, hpeek', hplace', @ih (offset + 1) (by omega)]
      simp only [hget']

/-! ### The invariant -/

/-- What is out of the records that a worker has not finished. -/
def progress (s : SharedLog n) (worker : Fin n) : Bytes :=
  let writer := s.workers worker
  begun writer.logger.queue ++
    (unsent (writer.logger.queue.take writer.logBatchRemaining)).take (s.transferred worker)

def inProgress (s : SharedLog n) : Bytes :=
  match s.logOwner with
  | none => []
  | some worker => s.progress worker

/-- The records of the selected batch that are not finished. -/
def batch (s : SharedLog n) (worker : Fin n) : List Bytes :=
  ((s.workers worker).logger.queue.take (s.workers worker).logBatchRemaining).map Slot.bytes

/-- The records that a worker has finished. -/
def finished (s : SharedLog n) (worker : Fin n) : List Bytes :=
  (s.written.filter (·.1 = worker)).map Prod.snd

/-- The state of one worker, given whether it owns the descriptor. -/
structure Sound (writer : LogWriter) (owns : Prop) (transferred : Nat) : Prop where
  valid : writer.logger.Valid
  enabled : writer.logDisabled = false
  batch_le : writer.logBatchRemaining ≤ writer.logger.count
  held : owns ↔ writer.logBatchRemaining ≠ 0
  begun : ¬owns → begun writer.logger.queue = []
  logging : writer.logging = true → owns ∧
    writer.logger.vectors 0 writer.logBatchRemaining = some writer.logIovecs ∧
    transferred ≤ (unsent (writer.logger.queue.take writer.logBatchRemaining)).length
  idle : writer.logging = false → transferred = 0

structure Invariant (s : SharedLog n) : Prop where
  sound : ∀ worker, Sound (s.workers worker) (s.logOwner = some worker) (s.transferred worker)
  output : s.output = (s.written.map Prod.snd).flatten ++ s.inProgress
  accepted : ∀ worker, s.accepted worker =
    s.finished worker ++ (s.workers worker).logger.queue.map Slot.bytes

theorem invariant_start (config : Config) (verbose : Bool) (slots : Fin n → List Slot) :
    Invariant (start config verbose slots) := by
  have hempty : ∀ worker, ((start config verbose slots).workers worker).logger.queue = [] := by
    intro worker
    simp [start, queue, Lib.Ring.view]
  refine ⟨fun worker => ?_, rfl, fun worker => ?_⟩
  · refine ⟨⟨Nat.zero_le _, fun hne => List.length_pos_iff.mpr hne, ?_⟩, rfl, Nat.le_refl _, ?_, ?_,
      by rintro ⟨⟩, fun _ => rfl⟩
    · rw [hempty]
      exact ⟨by rintro _ ⟨⟩, by rintro _ ⟨⟩⟩
    · exact ⟨by rintro ⟨⟩, fun hne => absurd rfl hne⟩
    · intro _
      rw [hempty]
      rfl
  · rw [hempty]
    rfl

/-- The kernel finds the unsent bytes of the batch in the buffers. -/
theorem Sound.inFlight {writer : LogWriter} {owns : Prop} {transferred : Nat}
    (h : Sound writer owns transferred) (hlogging : writer.logging = true) :
    writer.inFlight = unsent (writer.logger.queue.take writer.logBatchRemaining) := by
  obtain ⟨-, hvectors, -⟩ := h.logging hlogging
  obtain ⟨iovecs, hsome, hread⟩ :=
    @vectors_some _ h.valid 0 writer.logBatchRemaining (by rw [Nat.zero_add]; exact h.batch_le)
  rw [hvectors] at hsome
  obtain rfl := Option.some.inj hsome
  rw [LogWriter.inFlight, hread, List.drop_zero]

/-! ### One step -/

/-- A new record does not change what is begun. -/
theorem begun_append {slots : List Slot} (bytes : Bytes) :
    begun (slots ++ [⟨bytes, 0⟩]) = begun slots := by
  cases slots with
  | nil => simp [begun]
  | cons => rfl

theorem emit_invariant {s : SharedLog n} (h : Invariant s) (config : Config) (worker : Fin n)
    (event : Logger.Event) {s' : SharedLog n} (hstep : step config s (.emit worker event) = some s') :
    Invariant s' := by
  obtain rfl := Option.some.inj hstep
  have hsound := h.sound worker
  have hqueue := queue_emit hsound.valid event
  have htake : ((s.workers worker).logger.emit event).queue.take
      (s.workers worker).logBatchRemaining =
        (s.workers worker).logger.queue.take (s.workers worker).logBatchRemaining := by
    rw [hqueue, List.take_append_of_le_length]
    rw [hsound.valid.length_queue]
    exact hsound.batch_le
  have hbegun : begun ((s.workers worker).logger.emit event).queue =
      begun (s.workers worker).logger.queue := by
    rw [hqueue]
    split
    · exact begun_append _
    · rw [List.append_nil]
  refine ⟨?_, ?_, ?_⟩
  · intro other
    by_cases hother : other = worker
    · subst hother
      simp only [Function.update_self]
      refine ⟨hsound.valid.emit event, hsound.enabled, ?_, hsound.held, ?_, ?_, hsound.idle⟩
      · refine Nat.le_trans hsound.batch_le ?_
        show _ ≤ ((s.workers other).logger.emit event).count
        unfold emit
        split <;> simp
      · rw [hbegun]
        exact hsound.begun
      · rw [htake]
        intro hlogging
        obtain ⟨hheld, hvectors, hmoved⟩ := hsound.logging hlogging
        refine ⟨hheld, ?_, hmoved⟩
        rw [← hvectors]
        exact vectors_emit hsound.valid event (by rw [Nat.zero_add]; exact hsound.batch_le)
    · simp only [Function.update_of_ne hother]
      exact h.sound other
  · refine h.output.trans ?_
    congr 1
    unfold inProgress progress
    cases howner : s.logOwner with
    | none => rfl
    | some owner =>
        by_cases hother : owner = worker
        · subst hother
          simp only [Function.update_self, htake, hbegun]
        · simp only [Function.update_of_ne hother]
  · intro other
    by_cases hother : other = worker
    · subst hother
      simp only [Function.update_self, hqueue, List.map_append]
      rw [h.accepted other, List.append_assoc]
      split <;> rfl
    · simp only [Function.update_of_ne hother]
      exact h.accepted other

/-- What `queueLog` does: nothing, or a write of the worker's batch, which is a new one when the
descriptor was free. -/
theorem queueLog_cases {ι : Type} [DecidableEq ι] {config : Config} {id : ι} {writer writer' : LogWriter}
    {owner owner' : Option ι} (h : writer.queueLog config id owner = some (writer', owner')) :
    (writer' = writer ∧ owner' = owner) ∨
      (writer.logging = false ∧ (owner = some id ∨ owner = none) ∧ owner' = some id ∧
        ∃ batch iovecs, writer.logger.vectors 0 batch = some iovecs ∧
          ((writer.logBatchRemaining ≠ 0 ∧ batch = writer.logBatchRemaining) ∨
            (writer.logBatchRemaining = 0 ∧ 0 < batch ∧ batch ≤ writer.logger.count)) ∧
          writer' = { writer with
            logging := true
            logBatchRemaining := batch
            logIovecs := iovecs }) := by
  unfold LogWriter.queueLog at h
  split at h
  · obtain ⟨rfl, rfl⟩ := Prod.mk.inj (Option.some.inj h)
    exact Or.inl ⟨rfl, rfl⟩
  · rename_i hfree
    split at h
    · obtain ⟨rfl, rfl⟩ := Prod.mk.inj (Option.some.inj h)
      exact Or.inl ⟨rfl, rfl⟩
    · split at h
      · obtain ⟨rfl, rfl⟩ := Prod.mk.inj (Option.some.inj h)
        exact Or.inl ⟨rfl, rfl⟩
      · rename_i hpeek
        split at h
        · obtain ⟨rfl, rfl⟩ := Prod.mk.inj (Option.some.inj h)
          exact Or.inl ⟨rfl, rfl⟩
        · rename_i howner
          obtain ⟨iovecs, hvectors, heq⟩ := Option.map_eq_some_iff.mp h
          obtain ⟨rfl, rfl⟩ := Prod.mk.inj heq
          have hcount : 0 < writer.logger.count := by
            rw [peek, peekAt] at hpeek
            split at hpeek
            · exact absurd rfl hpeek
            · omega
          refine Or.inr ⟨?_, ?_, rfl, _, iovecs, hvectors, ?_, rfl⟩
          · rw [Bool.or_eq_true, not_or] at hfree
            simpa using hfree.1
          · by_contra hnot
            exact howner (not_or.mp hnot)
          · by_cases hzero : writer.logBatchRemaining = 0
            · rw [if_pos hzero]
              refine Or.inr ⟨hzero, ?_, Nat.min_le_left _ _⟩
              refine Nat.lt_min.mpr ⟨hcount, ?_⟩
              split <;> decide
            · rw [if_neg hzero]
              exact Or.inl ⟨hzero, rfl⟩

theorem Sound.congr {writer : LogWriter} {owns owns' : Prop} {transferred : Nat}
    (h : Sound writer owns transferred) (howns : owns ↔ owns') : Sound writer owns' transferred := by
  rwa [← propext howns]

theorem queue_invariant {s : SharedLog n} (h : Invariant s) (config : Config) (worker : Fin n)
    {s' : SharedLog n} (hstep : step config s (.queue worker) = some s') : Invariant s' := by
  obtain ⟨⟨writer', owner'⟩, hqueue, rfl⟩ := Option.map_eq_some_iff.mp hstep
  have hsound := h.sound worker
  obtain ⟨rfl, rfl⟩ | ⟨hlogging, howner, rfl, batch, iovecs, hvectors, hbatch, rfl⟩ :=
    queueLog_cases hqueue
  · dsimp only
    rw [Function.update_eq_self]
    exact h
  · have hidle := hsound.idle hlogging
    have hle : batch ≤ (s.workers worker).logger.count := by
      obtain ⟨-, rfl⟩ | ⟨-, -, hle⟩ := hbatch
      · exact hsound.batch_le
      · exact hle
    have hne : batch ≠ 0 := by
      obtain ⟨hne, rfl⟩ | ⟨-, hpos, -⟩ := hbatch
      · exact hne
      · exact Nat.ne_of_gt hpos
    refine ⟨?_, ?_, ?_⟩
    · intro other
      by_cases hother : other = worker
      · subst hother
        simp only [Function.update_self]
        refine ⟨hsound.valid, hsound.enabled, hle, ⟨fun _ => hne, fun _ => trivial⟩,
          fun hnot => absurd trivial hnot, fun _ => ⟨trivial, hvectors, ?_⟩, fun _ => hidle⟩
        rw [hidle]
        exact Nat.zero_le _
      · simp only [Function.update_of_ne hother]
        refine (h.sound other).congr ⟨fun hown => ?_, fun hown => ?_⟩
        · rcases howner with hown' | hown'
          · rw [hown'] at hown
            exact absurd (Option.some.inj hown).symm hother
          · rw [hown'] at hown
            exact absurd hown nofun
        · exact absurd (Option.some.inj hown).symm hother
    · refine h.output.trans ?_
      congr 1
      unfold inProgress progress
      simp only [Function.update_self, hidle, List.take_zero, List.append_nil]
      rcases howner with hown | hown
      · simp only [hown, hidle, List.take_zero, List.append_nil]
      · rw [hown]
        refine (hsound.begun ?_).symm
        rw [hown]
        exact nofun
    · intro other
      by_cases hother : other = worker
      · subst hother
        simp only [Function.update_self]
        exact h.accepted other
      · simp only [Function.update_of_ne hother]
        exact h.accepted other

theorem transfer_invariant {s : SharedLog n} (h : Invariant s) (config : Config) (worker : Fin n)
    (bytes : Nat) {s' : SharedLog n} (hstep : step config s (.transfer worker bytes) = some s') :
    Invariant s' := by
  rw [step] at hstep
  split at hstep
  · rename_i hguard
    obtain rfl := Option.some.inj hstep
    obtain ⟨hlogging, -, hfits⟩ := hguard
    have hsound := h.sound worker
    obtain ⟨howner, hvectors, hmoved⟩ := hsound.logging hlogging
    rw [hsound.inFlight hlogging] at hfits ⊢
    refine ⟨?_, ?_, h.accepted⟩
    · intro other
      by_cases hother : other = worker
      · subst hother
        simp only [Function.update_self]
        refine ⟨hsound.valid, hsound.enabled, hsound.batch_le, hsound.held, hsound.begun,
          fun _ => ⟨howner, hvectors, hfits⟩, ?_⟩
        intro hidle
        rw [hlogging] at hidle
        exact absurd hidle nofun
      · simp only [Function.update_of_ne hother]
        exact h.sound other
    · have hout := h.output
      unfold inProgress progress at hout ⊢
      simp only [howner, Function.update_self] at hout ⊢
      rw [hout, List.append_assoc, List.append_assoc, ← List.take_add]
  · exact absurd hstep nofun

theorem unsent_split (slots : List Slot) (k : Nat) :
    unsent slots = unsent (slots.take k) ++ unsent (slots.drop k) := by
  rw [unsent, unsent, unsent, ← List.flatMap_append, List.take_append_drop]

/-- The completion of a write, in terms of the queue. -/
theorem completeLog_queue {ι : Type} [DecidableEq ι] {config : Config} {id : ι} {writer : LogWriter}
    {owner : Option ι} {moved : Nat} (hvalid : writer.logger.Valid) (hpos : 0 < moved)
    (hmoved : moved ≤ (unsent (writer.logger.queue.take writer.logBatchRemaining)).length) :
    ∃ next : Logger, next.Valid ∧
      next.queue = (consumeQueue writer.logger.queue moved).2 ∧
      writer.completeLog config id owner moved = some ({ writer with
        logging := false
        logger := next
        logBatchRemaining := writer.logBatchRemaining - (consumeQueue writer.logger.queue moved).1 },
        if writer.logBatchRemaining - (consumeQueue writer.logger.queue moved).1 = 0 then
          LogWriter.releaseLog id owner else owner) := by
  have hall : moved ≤ (unsent writer.logger.queue).length := by
    refine Nat.le_trans hmoved ?_
    rw [unsent_split writer.logger.queue writer.logBatchRemaining, List.length_append]
    exact Nat.le_add_right _ _
  obtain ⟨next, hconsume, hqueue, hnext⟩ := consumeBytes_queue hvalid hall
  refine ⟨next, hnext, hqueue, ?_⟩
  have hle := consumeQueue_le hvalid.orderly hmoved
  have hcanceled : ¬(config.victoriaLogs.isSome ∧ (moved : Int) = LogWriter.canceled) := by
    rintro ⟨-, hres⟩
    rw [LogWriter.canceled] at hres
    omega
  rw [LogWriter.completeLog, if_neg hcanceled, if_neg (by omega), Int.toNat_natCast, hconsume]
  simp only [if_neg (Nat.not_lt.mpr hle)]

/-- Finished records, when some of a worker's are added. -/
theorem finished_append (written : List (Fin n × Bytes)) (slots : List Slot) (worker other : Fin n) :
    ((written ++ slots.map fun slot => (worker, slot.bytes)).filter (·.1 = other)).map Prod.snd =
      (written.filter (·.1 = other)).map Prod.snd ++
        if other = worker then slots.map Slot.bytes else [] := by
  rw [List.filter_append, List.map_append]
  congr 1
  by_cases hother : other = worker
  · rw [if_pos hother, List.filter_eq_self.mpr (by simp [hother]), List.map_map]
    rfl
  · rw [if_neg hother, List.filter_eq_nil_iff.mpr (by simp [Ne.symm hother])]
    rfl

theorem complete_cases {s s' : SharedLog n} (h : Invariant s) {config : Config} {worker : Fin n}
    (hstep : step config s (.complete worker) = some s') :
    ∃ next : Logger, next.Valid ∧ s.logOwner = some worker ∧
      next.queue = (consumeQueue (s.workers worker).logger.queue (s.transferred worker)).2 ∧
      s.transferred worker ≤
        (unsent ((s.workers worker).logger.queue.take (s.workers worker).logBatchRemaining)).length ∧
      ∃ records, records =
          (consumeQueue (s.workers worker).logger.queue (s.transferred worker)).1 ∧
        records ≤ (s.workers worker).logBatchRemaining ∧
        next.count = (s.workers worker).logger.count - records ∧
        s' = { s with
          workers := Function.update s.workers worker { s.workers worker with
            logging := false
            logger := next
            logBatchRemaining := (s.workers worker).logBatchRemaining - records }
          logOwner :=
            if (s.workers worker).logBatchRemaining - records = 0 then none else s.logOwner
          transferred := Function.update s.transferred worker 0
          written := s.written ++ ((s.workers worker).logger.queue.take records).map
            fun slot => (worker, slot.bytes) } := by
  rw [step] at hstep
  split at hstep
  · rename_i hguard
    obtain ⟨hlogging, hpos⟩ := hguard
    have hsound := h.sound worker
    obtain ⟨howner, -, hmoved⟩ := hsound.logging hlogging
    obtain ⟨next, hnext, hqueue, hcomplete⟩ :=
      @completeLog_queue _ _ config worker _ s.logOwner _ hsound.valid hpos hmoved
    have hle := consumeQueue_le hsound.valid.orderly hmoved
    have hrecords := consumeQueue_records (s.workers worker).logger.queue (s.transferred worker)
    have hcount : next.count = (s.workers worker).logger.count -
        (consumeQueue (s.workers worker).logger.queue (s.transferred worker)).1 := by
      have hlength := congrArg List.length hrecords
      rw [← hqueue, List.length_map, hnext.length_queue, List.length_drop, List.length_map,
        hsound.valid.length_queue] at hlength
      exact hlength
    refine ⟨next, hnext, howner, hqueue, hmoved, _, rfl, hle, hcount, ?_⟩
    rw [hcomplete, Option.map_some] at hstep
    obtain rfl := Option.some.inj hstep
    have hbatch := hsound.batch_le
    dsimp only
    rw [hcount, Nat.sub_sub_self (Nat.le_trans hle hbatch)]
    congr 1
    rw [howner, LogWriter.releaseLog, if_pos rfl]
  · exact absurd hstep nofun

theorem complete_invariant {s : SharedLog n} (h : Invariant s) (config : Config) (worker : Fin n)
    {s' : SharedLog n} (hstep : step config s (.complete worker) = some s') : Invariant s' := by
  obtain ⟨next, hnext, howner, hqueue, hmoved, records, hrecords, hle, hcount, rfl⟩ :=
    complete_cases h hstep
  have hsound := h.sound worker
  have hbegun : (s.workers worker).logBatchRemaining - records = 0 → begun next.queue = [] := by
    intro hzero
    rw [hqueue]
    refine consumeQueue_exact hsound.valid.orderly hmoved ?_ ?_
    · intro hbatch
      exact absurd hbatch (hsound.held.mp howner)
    · omega
  refine ⟨?_, ?_, ?_⟩
  · intro other
    by_cases hother : other = worker
    · subst hother
      simp only [Function.update_self]
      refine ⟨hnext, hsound.enabled, ?_, ?_, ?_, nofun, fun _ => rfl⟩
      · show _ - records ≤ next.count
        rw [hcount]
        exact Nat.sub_le_sub_right hsound.batch_le _
      · split
        · rename_i hzero
          exact ⟨nofun, fun hne => absurd hzero hne⟩
        · rename_i hne
          exact ⟨fun _ => hne, fun _ => howner⟩
      · intro hnot
        refine hbegun ?_
        by_contra hne
        rw [if_neg hne] at hnot
        exact hnot howner
    · simp only [Function.update_of_ne hother]
      refine (h.sound other).congr ?_
      rw [howner]
      have hneq : ¬(some worker = some other) := fun heq => hother (Option.some.inj heq).symm
      split
      · exact ⟨fun heq => absurd heq hneq, nofun⟩
      · exact Iff.rfl
  · have hsplit := unsent_split (s.workers worker).logger.queue (s.workers worker).logBatchRemaining
    have hbytes := @consumeQueue_bytes _ hsound.valid.orderly (s.transferred worker) (by
      rw [hsplit, List.length_append]
      exact Nat.le_add_right_of_le hmoved)
    rw [hsplit, List.take_append_of_le_length hmoved, ← hrecords, ← hqueue] at hbytes
    have hbefore : s.inProgress = s.progress worker := by
      rw [inProgress, howner]
    rw [h.output, hbefore, progress, hbytes, List.map_append, List.flatten_append, List.append_assoc]
    congr 2
    · rw [List.map_map]
      rfl
    · unfold inProgress progress
      split
      · rename_i hnone
        refine hbegun ?_
        by_contra hne
        dsimp only at hnone
        rw [if_neg hne, howner] at hnone
        exact absurd hnone nofun
      · rename_i owner hsome
        have hsame : owner = worker := by
          dsimp only at hsome
          split at hsome
          · exact absurd hsome nofun
          · rw [howner] at hsome
            exact (Option.some.inj hsome).symm
        rw [hsame]
        simp only [Function.update_self, List.take_zero, List.append_nil]
  · intro other
    rw [finished, finished_append, ← finished, h.accepted other]
    by_cases hother : other = worker
    · subst hother
      simp only [Function.update_self, if_true]
      rw [hqueue, consumeQueue_records, ← hrecords, List.append_assoc, List.map_take,
        List.take_append_drop]
    · simp only [Function.update_of_ne hother, if_neg hother, List.append_nil]

theorem step_invariant {s s' : SharedLog n} {config : Config} {a : Action n} (h : Invariant s)
    (hstep : step config s a = some s') : Invariant s' := by
  cases a with
  | emit worker event => exact emit_invariant h config worker event hstep
  | queue worker => exact queue_invariant h config worker hstep
  | transfer worker bytes => exact transfer_invariant h config worker bytes hstep
  | complete worker => exact complete_invariant h config worker hstep

theorem run_invariant {config : Config} {verbose : Bool} {slots : Fin n → List Slot}
    {actions : List (Action n)} {s : SharedLog n}
    (hrun : Lib.run (step config) (start config verbose slots) actions = some s) : Invariant s :=
  Lib.run_invariant (fun _ _ _ hs hstep => step_invariant hs hstep) actions _ _
    (invariant_start config verbose slots) hrun

/-! ### The batch and its owner -/

/-- The finished records, and behind them the rest of the batch under way. -/
def selected (s : SharedLog n) : List (Fin n × Bytes) :=
  s.written ++
    match s.logOwner with
    | none => []
    | some worker => (s.batch worker).map fun bytes => (worker, bytes)

theorem batch_ne_nil {s : SharedLog n} (h : Invariant s) {worker : Fin n}
    (howner : s.logOwner = some worker) : s.batch worker ≠ [] := by
  have hsound := h.sound worker
  have hne := hsound.held.mp howner
  have hle := hsound.batch_le
  rw [← hsound.valid.length_queue] at hle
  intro hnil
  have hlength := congrArg List.length hnil
  rw [batch, List.length_map, List.length_take, List.length_nil] at hlength
  omega

/-- While a worker owns the descriptor its batch is not written. -/
theorem selected_ne {s : SharedLog n} (h : Invariant s) {worker : Fin n}
    (howner : s.logOwner = some worker) : s.written ≠ s.selected := by
  rw [selected, howner]
  intro heq
  have hnil := List.self_eq_append_right.mp heq
  exact batch_ne_nil h howner (List.map_eq_nil_iff.mp hnil)

theorem batch_owned {s s' : SharedLog n} {config : Config} (h : Invariant s) {worker : Fin n}
    (howner : s.logOwner = some worker) {a : Action n} (hstep : step config s a = some s') :
    (s'.logOwner = some worker ∧ s'.selected = s.selected) ∨
      (s'.logOwner = none ∧ s'.written = s.selected) := by
  have hsound := h.sound worker
  cases a with
  | emit other event =>
      obtain rfl := Option.some.inj hstep
      refine Or.inl ⟨howner, ?_⟩
      unfold selected batch
      simp only [howner]
      by_cases hother : worker = other
      · subst hother
        simp only [Function.update_self]
        rw [queue_emit hsound.valid, List.take_append_of_le_length]
        rw [hsound.valid.length_queue]
        exact hsound.batch_le
      · simp only [Function.update_of_ne hother]
  | queue other =>
      obtain ⟨⟨writer', owner'⟩, hqueue, rfl⟩ := Option.map_eq_some_iff.mp hstep
      obtain ⟨rfl, rfl⟩ | ⟨-, hfree, rfl, batch', iovecs, -, hbatch, rfl⟩ := queueLog_cases hqueue
      · dsimp only
        rw [Function.update_eq_self]
        exact Or.inl ⟨howner, rfl⟩
      · obtain rfl : other = worker := by
          rw [howner] at hfree
          exact hfree.elim (fun heq => (Option.some.inj heq).symm) nofun
        obtain ⟨-, rfl⟩ | ⟨hzero, -⟩ := hbatch
        · refine Or.inl ⟨rfl, ?_⟩
          unfold selected batch
          simp only [howner, Function.update_self]
        · exact absurd hzero (hsound.held.mp howner)
  | transfer other bytes =>
      rw [step] at hstep
      split at hstep
      · obtain rfl := Option.some.inj hstep
        exact Or.inl ⟨howner, rfl⟩
      · exact absurd hstep nofun
  | complete other =>
      obtain ⟨next, -, howner', hqueue, -, records, hrecords, hle, -, rfl⟩ :=
        complete_cases h hstep
      obtain rfl : other = worker := Option.some.inj (howner'.symm.trans howner)
      by_cases hzero : (s.workers other).logBatchRemaining - records = 0
      · refine Or.inr ⟨if_pos hzero, ?_⟩
        have hall : records = (s.workers other).logBatchRemaining := by omega
        rw [selected, howner, hall]
        simp only [batch, List.map_map]
        rfl
      · refine Or.inl ⟨(if_neg hzero).trans howner, ?_⟩
        have hfirst : (s.batch other).take records =
            ((s.workers other).logger.queue.take records).map Slot.bytes := by
          rw [batch, ← List.map_take, List.take_take, Nat.min_eq_left hle]
        have hrest : (s.batch other).drop records =
            (next.queue.take ((s.workers other).logBatchRemaining - records)).map Slot.bytes := by
          rw [batch, ← List.map_drop, List.drop_take, hqueue, List.map_take, List.map_take,
            consumeQueue_records, ← hrecords, List.map_drop]
        have hwhole : s.selected = s.written ++
            ((s.batch other).take records ++ (s.batch other).drop records).map
              fun bytes => (other, bytes) := by
          rw [selected, howner, List.take_append_drop]
        rw [hwhole, hfirst, hrest, List.map_append, List.map_map, selected]
        simp only [if_neg hzero, howner, batch, Function.update_self]
        exact List.append_assoc _ _ _

/-! ### Whole runs -/

theorem begun_unsent {slots : List Slot} (h : Orderly slots) :
    begun slots ++ unsent slots = (slots.map Slot.bytes).flatten := by
  have hrest : ∀ rest : List Slot, (∀ slot ∈ rest, slot.sent = 0) →
      unsent rest = (rest.map Slot.bytes).flatten := by
    intro rest hrest
    rw [unsent, List.flatMap_def]
    congr 1
    refine List.map_congr_left fun slot hslot => ?_
    rw [Slot.unsent, hrest slot hslot, List.drop_zero]
  cases slots with
  | nil => rfl
  | cons slot rest =>
      have hbegun := hrest rest h.2
      rw [unsent] at hbegun
      rw [begun, unsent, List.flatMap_cons, hbegun, ← List.append_assoc, Slot.unsent,
        List.take_append_drop]
      rfl

theorem orderly_take {slots : List Slot} (h : Orderly slots) (k : Nat) :
    Orderly (slots.take k) := by
  refine ⟨fun slot hslot => h.1 slot (List.mem_of_mem_take hslot), fun slot hslot => ?_⟩
  cases slots with
  | nil => simp at hslot
  | cons first rest =>
      cases k with
      | zero => exact absurd hslot List.not_mem_nil
      | succ k => exact h.2 slot (List.mem_of_mem_take hslot)

theorem progress_prefix {s : SharedLog n} (h : Invariant s) (worker : Fin n) :
    s.progress worker <+: (s.batch worker).flatten := by
  have hsound := h.sound worker
  have hbegun : begun (s.workers worker).logger.queue =
      begun ((s.workers worker).logger.queue.take (s.workers worker).logBatchRemaining) := by
    by_cases hzero : (s.workers worker).logBatchRemaining = 0
    · rw [hsound.begun fun howner => hsound.held.mp howner hzero, hzero, List.take_zero]
      rfl
    · obtain ⟨k, hk⟩ := Nat.exists_eq_succ_of_ne_zero hzero
      rw [hk]
      cases (s.workers worker).logger.queue <;> rfl
  rw [batch, ← begun_unsent (orderly_take hsound.valid.orderly _), progress, hbegun,
    List.prefix_append_right_inj]
  exact List.take_prefix _ _

/-- The output is made of whole records, behind which the owner's batch is under way; every accepted
record is written once, in the order of its worker, or still queued; and the owner keeps the
descriptor until its batch is written, and gives it back then. -/
theorem records_whole {config : Config} {verbose : Bool} {slots : Fin n → List Slot}
    {actions : List (Action n)} {s : SharedLog n}
    (hrun : Lib.run (step config) (start config verbose slots) actions = some s) :
    (s.written.map Prod.snd).flatten <+: s.output ∧
      s.output <+: (s.selected.map Prod.snd).flatten ∧
      (s.logOwner = none → s.output = (s.written.map Prod.snd).flatten) ∧
      (∀ worker, s.accepted worker =
        s.finished worker ++ (s.workers worker).logger.queue.map Slot.bytes) ∧
      ∀ worker, s.logOwner = some worker → ∀ a s', step config s a = some s' →
        (s'.logOwner = some worker ∧ s'.selected = s.selected ∧ s'.written ≠ s.selected) ∨
          (s'.logOwner = none ∧ s'.written = s.selected) := by
  have h := run_invariant hrun
  refine ⟨?_, ?_, ?_, h.accepted, ?_⟩
  · rw [h.output]
    exact List.prefix_append _ _
  · rw [h.output, selected, List.map_append, List.flatten_append, List.prefix_append_right_inj,
      inProgress]
    cases howner : s.logOwner with
    | none => exact List.nil_prefix
    | some worker =>
        simp only [List.map_map]
        have hprogress := progress_prefix h worker
        rwa [← List.map_id (s.batch worker)] at hprogress
  · intro hnone
    rw [h.output, inProgress, hnone, List.append_nil]
  · intro worker howner a s' hstep
    obtain ⟨hkept, hsame⟩ | hdone := batch_owned h howner hstep
    · refine Or.inl ⟨hkept, hsame, ?_⟩
      rw [← hsame]
      exact selected_ne (step_invariant h hstep) hkept
    · exact Or.inr hdone

/-- Two workers share the descriptor; the first one's record goes out in two writes, and the second
one must wait for both. -/
theorem records_whole_two :
    ∃ s : SharedLog 2, s.output = ascii "ab\nc" ∧ s.logOwner = some 1 ∧
      (s.written.map Prod.snd).flatten <+: s.output := by
  let actions : List (Action 2) :=
    [.emit 0 ⟨.info, ascii "ab"⟩, .emit 1 ⟨.info, ascii "c"⟩, .queue 0, .queue 1, .transfer 0 1,
      .complete 0, .queue 1, .queue 0, .transfer 0 2, .complete 0, .queue 1, .transfer 1 1]
  have hout : (Lib.run (step {}) (start {} false fun _ => [{}, {}]) actions).map
      (fun s => (s.output, s.logOwner)) = some (ascii "ab\nc", some 1) := by decide +kernel
  obtain ⟨s, hrun, hs⟩ := Option.map_eq_some_iff.mp hout
  obtain ⟨hout, howner⟩ := Prod.mk.inj hs
  exact ⟨s, hout, howner, (records_whole hrun).1⟩

/-- No assertion on the way fails: a batch has its slots, and a write stays within the batch. -/
theorem writes_defined {config : Config} {verbose : Bool} {slots : Fin n → List Slot}
    {actions : List (Action n)} {s : SharedLog n}
    (hrun : Lib.run (step config) (start config verbose slots) actions = some s)
    (worker : Fin n) :
    (step config s (.queue worker)).isSome = true ∧
      ((s.workers worker).logging = true → 0 < s.transferred worker →
        (step config s (.complete worker)).isSome = true) := by
  have h := run_invariant hrun
  have hsound := h.sound worker
  refine ⟨?_, fun hlogging hpos => ?_⟩
  · rw [step, Option.isSome_map]
    unfold LogWriter.queueLog
    split
    · rfl
    · split
      · rfl
      · split
        · rfl
        · split
          · rfl
          · rw [Option.isSome_map]
            have hle : ∀ batch ≤ (s.workers worker).logger.count,
                ((s.workers worker).logger.vectors 0 batch).isSome = true := by
              intro batch hbatch
              obtain ⟨iovecs, hsome, -⟩ :=
                @vectors_some _ hsound.valid 0 batch (by rwa [Nat.zero_add])
              rw [hsome]
              rfl
            refine hle _ ?_
            split
            · exact Nat.min_le_left _ _
            · exact hsound.batch_le
  · obtain ⟨-, -, hmoved⟩ := hsound.logging hlogging
    obtain ⟨next, -, -, hcomplete⟩ :=
      @completeLog_queue _ _ config worker _ s.logOwner _ hsound.valid hpos hmoved
    rw [step, if_pos ⟨hlogging, hpos⟩, hcomplete]
    rfl

end SharedLog

end Zhtps
