import Zhtps.Http.Scan
import Zhtps.Lib.Lines
import Zhtps.Lib.Transition
import Zhtps.Logger.Queue

/-!
The background sender of the log, after `src/Logger/VictoriaLogs.zig`.  The workers write whole
records to a pipe; the sender reads the pipe in pieces and posts batches of lines.  When the workers
have stopped, `finish` closes the pipe, and the sender posts what is left there and in the loggers
until a deadline cancels it.
-/

namespace Zhtps

/-- `batch_bytes` in the source. -/
def batchBytes : Nat := 256 * 1024

/-- How a call of `http_push.post` ends.  A pause follows a failed delivery, and may be canceled. -/
inductive Delivery
  | succeeded
  | failed (pauseCanceled : Bool)
  | canceled
  | unavailable
  deriving DecidableEq, Repr

/-- What a read of the pipe answers, unless the task is canceled before.  A pause follows an empty pipe
where nothing is batched. -/
inductive PipeRead
  | canceled
  | bytes (count : Nat)
  | interrupted
  | again (pauseCanceled : Bool)
  | failed
  deriving DecidableEq, Repr

/-- How `drain` ends; a trap is a failed assertion or an index past the batch. -/
inductive DrainEnd
  | returned
  | canceled
  | unavailable
  | trap
  deriving DecidableEq, Repr

inductive SenderTask
  | idle
  | draining
  | ended
  /-- `finish` has returned. -/
  | finished
  | trapped
  deriving DecidableEq, Repr

/-- The sender, with the bytes in its pipe and the bodies that it posted, in order and with their
success. -/
structure VictoriaLogs where
  pipe : Bytes := []
  batch : Bytes := []
  batchRecords : Nat := 0
  finalLoggers : List Log.Ring := []
  /-- The write end of the pipe is closed. -/
  finishing : Bool := false
  task : SenderTask := .idle
  logDroppedTotal : Nat := 0
  logWriteErrorsTotal : Nat := 0
  posts : List (Bytes × Bool) := []

namespace VictoriaLogs

/-- A part of `drain`: either the task goes on, or `drain` ends. -/
abbrev Call := Except (DrainEnd × VictoriaLogs) VictoriaLogs

/-- Posts the lines of the batch.  The part of a line behind them stays. -/
def flush (deliveries : Nat → Delivery) (self : VictoriaLogs) : Call :=
  match Mem.lastIndexOfScalar self.batch Ascii.lf with
  | none => .ok self
  | some index =>
      let delivery := deliveries self.posts.length
      let posted := { self with
        posts := self.posts ++ [(self.batch.take (index + 1), decide (delivery = .succeeded))] }
      match delivery with
      | .canceled => .error (.canceled, posted)
      | .unavailable => .error (.unavailable, posted)
      | .succeeded => .ok { posted with batch := self.batch.drop (index + 1), batchRecords := 0 }
      | .failed pauseCanceled =>
          let failed := { posted with
            logWriteErrorsTotal := self.logWriteErrorsTotal + 1
            logDroppedTotal := self.logDroppedTotal + self.batchRecords
            batch := self.batch.drop (index + 1)
            batchRecords := 0 }
          if pauseCanceled then .error (.canceled, failed) else .ok failed

def flushIf (deliveries : Nat → Delivery) (condition : Bool) (self : VictoriaLogs) : Call :=
  if condition then self.flush deliveries else .ok self

/-- Copies the record of a logger to the batch. -/
def takeSlot (index : Nat) (logger : Log.Ring) (slot : Log.Slot) (self : VictoriaLogs) : Call :=
  if batchBytes < self.batch.length + slot.len then .error (.trap, self)
  else match logger.consume with
    | none => .error (.trap, self)
    | some logger =>
        .ok { self with
          batch := self.batch ++ slot.text
          batchRecords := self.batchRecords + 1
          finalLoggers := self.finalLoggers.set index logger }

/-- The loop over the records of a logger.  Each turn takes one, so their number is enough fuel. -/
def drainSlots (deliveries : Nat → Delivery) (index : Nat) : Nat → VictoriaLogs → Call
  | 0, self => .ok self
  | fuel + 1, self =>
      match self.finalLoggers[index]? with
      | none => .ok self
      | some logger =>
          match logger.readAt 0 with
          | none => .ok self
          | some slot => do
              let self ← self.flushIf deliveries (batchBytes - self.batch.length < slot.len)
              let self ← self.takeSlot index logger slot
              drainSlots deliveries index fuel self

/-- The loop over the loggers, from an index on. -/
def drainLoggers (deliveries : Nat → Delivery) : List Nat → VictoriaLogs → Call
  | [], self => .ok self
  | index :: rest, self => do
      let count := (self.finalLoggers[index]?.map Log.Ring.count).getD 0
      let self ← self.drainSlots deliveries index count
      drainLoggers deliveries rest self

/-- What follows the end of the pipe. -/
def drainRest (deliveries : Nat → Delivery) (self : VictoriaLogs) : Call :=
  if !self.finishing then .error (.trap, self)
  else do
    let self ← self.drainLoggers deliveries (List.range self.finalLoggers.length)
    let self ← self.flushIf deliveries (self.batch.length != 0)
    .error (.returned, self)

/-- The batch with so many bytes of the pipe. -/
def batched (self : VictoriaLogs) (count : Nat) : VictoriaLogs :=
  { self with
    pipe := self.pipe.drop count
    batch := self.batch ++ self.pipe.take count
    batchRecords := self.batchRecords + (self.pipe.take count).count Ascii.lf }

/-- A turn of the loop in `drain`. -/
def turn (self : VictoriaLogs) (deliveries : Nat → Delivery) : PipeRead → Call
  | .canceled => .error (.canceled, self)
  | .bytes 0 => self.drainRest deliveries
  | .bytes (n + 1) =>
      let self := self.batched (n + 1)
      if self.batch.length < batchBytes then .ok self else self.flush deliveries
  | .interrupted => .ok self
  | .again pauseCanceled =>
      if self.batch.length = 0 then
        if pauseCanceled then .error (.canceled, self) else .ok self
      else self.flush deliveries
  | .failed => .error (.returned, { self with logWriteErrorsTotal := self.logWriteErrorsTotal + 1 })

def dropBatch (self : VictoriaLogs) : VictoriaLogs :=
  { self with
    logDroppedTotal := self.logDroppedTotal + self.batchRecords
    batchRecords := 0
    batch := [] }

/-- What `run` does with the end of `drain`. -/
def endTask (self : VictoriaLogs) : DrainEnd → VictoriaLogs
  | .trap => { self with task := .trapped }
  | .unavailable =>
      { self.dropBatch with task := .ended, logWriteErrorsTotal := self.logWriteErrorsTotal + 1 }
  | .returned | .canceled => { self.dropBatch with task := .ended }

/-- The loop that empties a logger. -/
def consumeAll : Nat → Log.Ring → Option Log.Ring
  | 0, logger => some logger
  | fuel + 1, logger =>
      match logger.readAt 0 with
      | none => some logger
      | some _ => logger.consume.bind (consumeAll fuel)

/-- Counts what is left in a logger, and empties it. -/
def dropLogger (logger : Log.Ring) : Option Log.Ring :=
  consumeAll logger.count { logger with
    metrics := { logger.metrics with
      logDroppedTotal := logger.metrics.logDroppedTotal + logger.count } }

/-- The last loop of `finish`. -/
def dropLoggers (self : VictoriaLogs) : VictoriaLogs :=
  match self.finalLoggers.mapM dropLogger with
  | none => { self with task := .trapped }
  | some loggers => { self with finalLoggers := loggers, task := .finished }

/-- A turn of the loop in `finish` that empties the pipe. -/
def discard (self : VictoriaLogs) : Nat → VictoriaLogs
  | 0 => self.dropLoggers
  | n + 1 =>
      { self with
        pipe := self.pipe.drop (n + 1)
        logDroppedTotal := self.logDroppedTotal + (self.pipe.take (n + 1)).count Ascii.lf }

/-! ### Runs -/

/-- The workers write records until `finish` is called.  A turn of the sender takes the answers of the
pipe and of the deliveries, by the number of earlier ones.  A read of the loop that empties the pipe is
interrupted or has a number of bytes. -/
inductive Action
  | start
  | write (record : Bytes)
  | turn (read : PipeRead) (deliveries : Nat → Delivery)
  | finish (loggers : List Log.Ring)
  | discard (read : Option Nat)

/-- The pipe can answer a read into so much room like this: it answers nothing at its closed end or
where there is no room. -/
def Answers (self : VictoriaLogs) (room : Nat) : PipeRead → Prop
  | .bytes n =>
      n ≤ room ∧ n ≤ self.pipe.length ∧ (n = 0 → room = 0 ∨ self.pipe = [] ∧ self.finishing = true)
  | .again _ => self.pipe = [] ∧ self.finishing = false
  | .canceled | .interrupted | .failed => True

instance (self : VictoriaLogs) (room : Nat) (read : PipeRead) : Decidable (self.Answers room read) := by
  cases read <;> unfold Answers <;> infer_instance

/-- `discarded.len` in the source. -/
def discardBytes : Nat := 4096

/-- `none` is an action that cannot happen. -/
def step (self : VictoriaLogs) : Action → Option VictoriaLogs
  | .start => if self.task = .idle ∧ !self.finishing then some { self with task := .draining } else none
  | .write record => if self.finishing then none else some { self with pipe := self.pipe ++ record }
  | .turn read deliveries =>
      if self.task = .draining ∧ self.Answers (batchBytes - self.batch.length) read then
        match self.turn deliveries read with
        | .ok next => some next
        | .error (ending, next) => some (next.endTask ending)
      else none
  | .finish loggers =>
      if self.finishing then none
      else some { self with
        finalLoggers := loggers
        finishing := true
        task := if self.task = .idle then .ended else self.task }
  | .discard read =>
      if self.finishing ∧ self.task = .ended then
        match read with
        | none => some self
        | some n => if self.Answers discardBytes (.bytes n) then some (self.discard n) else none
      else none

/-! ### Records -/

/-- The records of a logger, the oldest first. -/
def records (logger : Log.Ring) : List Bytes := logger.view.map Log.Slot.text

/-- The records of the loggers that the sender has not taken. -/
def waiting (self : VictoriaLogs) : List Bytes := self.finalLoggers.flatMap records

/-- What `log_dropped_total` is in all. -/
def droppedTotal (self : VictoriaLogs) : Nat :=
  self.logDroppedTotal + (self.finalLoggers.map fun logger => logger.metrics.logDroppedTotal).sum

/-- The lines of the successful posts. -/
def delivered (self : VictoriaLogs) : Nat :=
  (self.posts.map fun post => if post.2 then post.1.count Ascii.lf else 0).sum

/-- All bytes that were posted. -/
def sent (self : VictoriaLogs) : Bytes := (self.posts.map Prod.fst).flatten

variable {sender next : VictoriaLogs} {deliveries : Nat → Delivery} {stream : List Bytes} {base : Nat}

/-- What holds of the sender at any time: whatever was posted is the beginning of the stream, cut behind
line feeds, and every record is delivered, dropped or counted where it is. -/
structure Counted (stream : List Bytes) (base : Nat) (sender : VictoriaLogs) : Prop where
  lines : ∀ record ∈ stream, Lib.Line Ascii.lf record
  loggers : ∀ logger ∈ sender.finalLoggers, logger.Valid
  ends : ∀ post ∈ sender.posts, Lib.Ends Ascii.lf post.1
  ordered : sender.sent <+: stream.flatten
  total : sender.droppedTotal + sender.delivered + sender.batchRecords + sender.pipe.count Ascii.lf +
    sender.waiting.length = base + stream.length

/-- What holds while no byte is lost: what was posted, the batch and the pipe are the records that left
the loggers. -/
structure Flowing (stream : List Bytes) (base : Nat) (sender : VictoriaLogs) : Prop
    extends Counted stream base sender where
  whole : ∃ taken, taken ++ sender.waiting = stream ∧
    sender.sent ++ sender.batch ++ sender.pipe = taken.flatten
  counted : sender.batchRecords = sender.batch.count Ascii.lf

/-- Neither the pipe nor the task is touched, and the loggers only when they are final. -/
structure Beside (sender next : VictoriaLogs) : Prop where
  pipe : next.pipe = sender.pipe
  finishing : next.finishing = sender.finishing
  task : next.task = sender.task
  loggers : sender.finishing = false → next.finalLoggers = sender.finalLoggers

theorem Beside.refl (sender : VictoriaLogs) : Beside sender sender := ⟨rfl, rfl, rfl, fun _ => rfl⟩

theorem Beside.trans {last : VictoriaLogs} (h : Beside sender next) (hlast : Beside next last) :
    Beside sender last where
  pipe := hlast.pipe.trans h.pipe
  finishing := hlast.finishing.trans h.finishing
  task := hlast.task.trans h.task
  loggers := fun hopen => (hlast.loggers (h.finishing.trans hopen)).trans (h.loggers hopen)

/-- The task goes on and no byte is lost, or it ends without a trap. -/
def Keeps (stream : List Bytes) (base : Nat) (sender : VictoriaLogs) (good : VictoriaLogs → Prop) :
    Call → Prop
  | .ok next => Flowing stream base next ∧ Beside sender next ∧ good next
  | .error (ending, next) => Counted stream base next ∧ Beside sender next ∧ ending ≠ .trap

theorem Keeps.of_beside {call : Call} {good : VictoriaLogs → Prop} (h : Keeps stream base next good call)
    (hbeside : Beside sender next) : Keeps stream base sender good call := by
  cases call with
  | ok last => exact ⟨h.1, hbeside.trans h.2.1, h.2.2⟩
  | error ended => exact ⟨h.1, hbeside.trans h.2.1, h.2.2⟩

theorem Keeps.bind {call : Call} {rest : VictoriaLogs → Call} {good last : VictoriaLogs → Prop}
    (h : Keeps stream base sender good call)
    (hrest : ∀ next, Flowing stream base next → Beside sender next → good next →
      Keeps stream base next last (rest next)) :
    Keeps stream base sender last (call >>= rest) := by
  cases call with
  | error ended => exact h
  | ok next => exact (hrest next h.1 h.2.1 h.2.2).of_beside h.2.1

theorem Keeps.imp {call : Call} {good last : VictoriaLogs → Prop} (h : Keeps stream base sender good call)
    (hgood : ∀ next, Flowing stream base next → Beside sender next → good next → last next) :
    Keeps stream base sender last call := by
  cases call with
  | error ended => exact h
  | ok next => exact ⟨h.1, h.2.1, hgood next h.1 h.2.1 h.2.2⟩

/-! ### The batch -/

theorem Flowing.ordered_batch (h : Flowing stream base sender) :
    sender.sent ++ sender.batch <+: stream.flatten := by
  obtain ⟨taken, rfl, htaken⟩ := h.whole
  rw [List.flatten_append, ← htaken, List.append_assoc _ sender.pipe]
  exact List.prefix_append _ _

theorem sent_append (sender : VictoriaLogs) (body : Bytes) (success : Bool) :
    ((sender.posts ++ [(body, success)]).map Prod.fst).flatten = sender.sent ++ body := by
  rw [List.map_append, List.flatten_append]
  exact congrArg _ (List.append_nil _)

theorem delivered_append (sender : VictoriaLogs) (body : Bytes) (success : Bool) :
    ((sender.posts ++ [(body, success)]).map
        fun post => if post.2 then post.1.count Ascii.lf else 0).sum =
      sender.delivered + if success then body.count Ascii.lf else 0 := by
  rw [List.map_append, List.sum_append]
  rfl

/-- A line of the batch ends where the last line feed is. -/
theorem split_batch (batch : Bytes) :
    Mem.lastIndexOfScalar batch Ascii.lf = none ∧ Ascii.lf ∉ batch ∨
      ∃ body rest, batch = body ++ rest ∧ Lib.Ends Ascii.lf body ∧ Ascii.lf ∉ rest ∧
        ∃ index, Mem.lastIndexOfScalar batch Ascii.lf = some index ∧
          batch.take (index + 1) = body ∧ batch.drop (index + 1) = rest := by
  by_cases h : Ascii.lf ∈ batch
  · obtain ⟨before, rest, rfl, hrest⟩ := Mem.split_last h
    have hlength : before.length + 1 = (before ++ [Ascii.lf]).length := by
      rw [List.length_append, List.length_singleton]
    have hsplit : before ++ Ascii.lf :: rest = (before ++ [Ascii.lf]) ++ rest := by
      rw [List.append_assoc, List.singleton_append]
    refine Or.inr ⟨before ++ [Ascii.lf], rest, hsplit, List.getLast?_concat, hrest, before.length,
      Mem.lastIndexOfScalar_last hrest, ?_, ?_⟩
    · rw [hsplit, hlength, List.take_left]
    · rw [hsplit, hlength, List.drop_left]
  · have hnone : batch.reverse.findIdx? (· == Ascii.lf) = none :=
      Mem.indexOfScalar_none (List.mem_reverse.not.mpr h)
    exact Or.inl ⟨by rw [Mem.lastIndexOfScalar, hnone, Option.map_none], h⟩

/-- What is left of the sender once the lines of its batch are posted. -/
structure Posted (sender next : VictoriaLogs) (body rest : Bytes) (success : Bool) : Prop where
  posts : next.posts = sender.posts ++ [(body, success)]
  dropped : next.logDroppedTotal = sender.logDroppedTotal + if success then 0 else sender.batchRecords
  batch : next.batch = rest
  batchRecords : next.batchRecords = 0
  finalLoggers : next.finalLoggers = sender.finalLoggers
  beside : Beside sender next

theorem Flowing.posted {body rest : Bytes} {success : Bool} (h : Flowing stream base sender)
    (hbatch : sender.batch = body ++ rest) (hends : Lib.Ends Ascii.lf body) (hrest : Ascii.lf ∉ rest)
    (hnext : Posted sender next body rest success) : Flowing stream base next := by
  have hsent : next.sent = sender.sent ++ body := by rw [sent, hnext.posts, sent_append]
  have hdelivered : next.delivered = sender.delivered + if success then body.count Ascii.lf else 0 := by
    rw [delivered, hnext.posts, delivered_append]
  have hnone : rest.count Ascii.lf = 0 := List.count_eq_zero.mpr hrest
  have hrecords : sender.batchRecords = body.count Ascii.lf := by
    rw [h.counted, hbatch, List.count_append, hnone, Nat.add_zero]
  have hwaiting : next.waiting = sender.waiting := by rw [waiting, waiting, hnext.finalLoggers]
  have hbytes := h.ordered_batch
  rw [hbatch, ← List.append_assoc] at hbytes
  refine ⟨⟨h.lines, ?_, ?_, ?_, ?_⟩, ?_, ?_⟩
  · rw [hnext.finalLoggers]
    exact h.loggers
  · intro post hpost
    rw [hnext.posts] at hpost
    rcases List.mem_append.mp hpost with hold | hnew
    · exact h.ends post hold
    · obtain rfl := List.mem_singleton.mp hnew
      exact hends
  · rw [hsent]
    exact (List.prefix_append _ _).trans hbytes
  · have htotal := h.total
    rw [droppedTotal, hnext.dropped, hnext.finalLoggers, hdelivered, hnext.batchRecords, hnext.beside.pipe,
      hwaiting]
    rw [droppedTotal] at htotal
    cases success
    · simp only [Bool.false_eq_true, if_false]
      omega
    · simp only [if_true]
      omega
  · obtain ⟨taken, htaken, hwhole⟩ := h.whole
    refine ⟨taken, by rw [hwaiting, htaken], ?_⟩
    rw [hsent, hnext.batch, hnext.beside.pipe, ← hwhole, hbatch, List.append_assoc sender.sent body rest]
  · rw [hnext.batchRecords, hnext.batch, hnone]

/-- A delivery that does not come back leaves the batch as it is. -/
theorem Flowing.attempted {body rest : Bytes} (h : Flowing stream base sender)
    (hbatch : sender.batch = body ++ rest) (hends : Lib.Ends Ascii.lf body) :
    Counted stream base { sender with posts := sender.posts ++ [(body, false)] } := by
  refine ⟨h.lines, h.loggers, ?_, ?_, ?_⟩
  · intro post hpost
    rcases List.mem_append.mp hpost with hold | hnew
    · exact h.ends post hold
    · obtain rfl := List.mem_singleton.mp hnew
      exact hends
  · have hbytes := h.ordered_batch
    rw [hbatch, ← List.append_assoc] at hbytes
    rw [sent, sent_append]
    exact (List.prefix_append _ _).trans hbytes
  · rw [delivered, delivered_append]
    exact h.total

/-- After the lines of the batch are posted, the part of a line is left that was behind them. -/
theorem flush_keeps (h : Flowing stream base sender) :
    Keeps stream base sender (fun next => next.batch <:+ sender.batch ∧ Ascii.lf ∉ next.batch ∧
      next.finalLoggers = sender.finalLoggers) (sender.flush deliveries) := by
  unfold flush
  have beside {posts batch records dropped errors} : Beside sender
      { sender with
        posts := posts, batch := batch, batchRecords := records, logDroppedTotal := dropped
        logWriteErrorsTotal := errors } := ⟨rfl, rfl, rfl, fun _ => rfl⟩
  rcases split_batch sender.batch with ⟨hnone, hbatch⟩ | ⟨body, rest, hbatch, hends, hrest, index, hlast,
      htake, hdrop⟩
  · rw [hnone]
    exact ⟨h, .refl sender, List.suffix_refl _, hbatch, rfl⟩
  · rw [hlast]
    dsimp only
    rw [htake, hdrop]
    have hsuffix : rest <:+ sender.batch := hbatch ▸ List.suffix_append body rest
    cases deliveries sender.posts.length with
    | succeeded =>
        exact ⟨h.posted hbatch hends hrest ⟨rfl, rfl, rfl, rfl, rfl, beside⟩, beside, hsuffix, hrest, rfl⟩
    | canceled => exact ⟨h.attempted hbatch hends, beside, nofun⟩
    | unavailable => exact ⟨h.attempted hbatch hends, beside, nofun⟩
    | failed pauseCanceled =>
        cases pauseCanceled
        · exact ⟨h.posted hbatch hends hrest ⟨rfl, rfl, rfl, rfl, rfl, beside⟩, beside, hsuffix, hrest, rfl⟩
        · refine ⟨Flowing.toCounted ?_, beside, nofun⟩
          exact h.posted hbatch hends hrest ⟨rfl, rfl, rfl, rfl, rfl, beside⟩

/-! ### The loggers -/

variable {logger : Log.Ring} {index : Nat}

theorem records_eq (h : logger.Valid) : records logger = logger.toLogger.queue.map Logger.Slot.bytes := by
  rw [records, Log.Ring.toLogger_queue, List.map_map]
  refine List.map_congr_left fun slot hslot => ?_
  exact (congrArg Logger.Slot.bytes (h.holds slot hslot).record_eq).symm

theorem length_records (h : logger.Valid) : (records logger).length = logger.count := by
  rw [records_eq h, List.length_map, h.length_queue]

/-- A logger is empty, or its oldest record is what is read and then consumed. -/
theorem read_records (h : logger.Valid) :
    logger.readAt 0 = none ∧ records logger = [] ∧ logger.count = 0 ∨
      ∃ slot next, logger.readAt 0 = some slot ∧ logger.consume = some next ∧ next.Valid ∧
        slot.len = slot.text.length ∧ slot.len ≤ Logger.slotBytes ∧
        records logger = slot.text :: records next ∧ next.count + 1 = logger.count ∧
        next.metrics.logDroppedTotal = logger.metrics.logDroppedTotal := by
  have hread := h.readAt 0
  have hlength := h.length_view
  cases hview : logger.view with
  | nil =>
      rw [hview] at hread hlength
      exact Or.inl ⟨hread, by rw [records, hview, List.map_nil], hlength.symm⟩
  | cons slot rest =>
      rw [hview] at hread hlength
      have hpos : 0 < logger.count := by
        rw [← hlength]
        exact Nat.succ_pos _
      have hholds := h.holds slot (hview ▸ List.mem_cons_self)
      obtain ⟨next, hconsume, hvalid, hqueue, -, -⟩ := @Log.Ring.consume_spec Log.noDecimal _ h hpos
      have hrecords : records logger = slot.text :: records next := by
        rw [records_eq hvalid, hqueue, List.map_tail, ← records_eq h, records, hview]
        rfl
      have hmetrics : next.metrics.logDroppedTotal = logger.metrics.logDroppedTotal ∧
          next.count + 1 = logger.count := by
        rw [Log.Ring.consume, if_neg (Nat.ne_of_gt hpos)] at hconsume
        obtain rfl := Option.some.inj hconsume
        exact ⟨rfl, Nat.sub_add_cancel hpos⟩
      have htext : slot.len = slot.text.length := by
        have hsized : slot.bytes.length = Logger.slotBytes := hholds.1
        rw [Log.Slot.text, List.length_take, hsized]
        exact (Nat.min_eq_left hholds.2).symm
      exact Or.inr ⟨slot, next, hread, hconsume, hvalid, htext, hholds.2, hrecords, hmetrics.2,
        hmetrics.1⟩

/-- The loggers before an index are empty. -/
def Emptied (index : Nat) (sender : VictoriaLogs) : Prop :=
  ∀ i < index, ∀ logger, sender.finalLoggers[i]? = some logger → records logger = []

/-- The records before an index are all taken, so the ones there are the next in the stream. -/
theorem waiting_split (h : Emptied index sender) (hlogger : sender.finalLoggers[index]? = some logger) :
    ∃ after, sender.waiting = records logger ++ after ∧
      ∀ next : Log.Ring, (sender.finalLoggers.set index next).flatMap records = records next ++ after := by
  obtain ⟨before, rest, hsplit, hindex⟩ : ∃ before rest,
      sender.finalLoggers = before ++ logger :: rest ∧ before.length = index := by
    obtain ⟨hlt, hget⟩ := List.getElem?_eq_some_iff.mp hlogger
    refine ⟨sender.finalLoggers.take index, sender.finalLoggers.drop (index + 1), ?_,
      List.length_take_of_le (Nat.le_of_lt hlt)⟩
    rw [← hget, ← List.drop_eq_getElem_cons hlt, List.take_append_drop]
  have hbefore : before.flatMap records = [] := by
    refine List.flatMap_eq_nil_iff.mpr fun other hother => ?_
    obtain ⟨i, hlt, hget⟩ := List.getElem_of_mem hother
    refine h i (hindex ▸ hlt) other ?_
    rw [hsplit, List.getElem?_append_left hlt, List.getElem?_eq_getElem hlt, hget]
  refine ⟨rest.flatMap records, ?_, fun next => ?_⟩
  · rw [waiting, hsplit, List.flatMap_append, hbefore, List.flatMap_cons, List.nil_append]
  · rw [hsplit, List.set_append_right _ _ (Nat.le_of_eq hindex), hindex, Nat.sub_self, List.set_cons_zero,
      List.flatMap_append, hbefore, List.flatMap_cons, List.nil_append]

theorem dropped_set {next : Log.Ring} (hlogger : sender.finalLoggers[index]? = some logger)
    (hnext : next.metrics.logDroppedTotal = logger.metrics.logDroppedTotal) :
    ((sender.finalLoggers.set index next).map fun logger => logger.metrics.logDroppedTotal) =
      sender.finalLoggers.map fun logger => logger.metrics.logDroppedTotal := by
  obtain ⟨hlt, hget⟩ := List.getElem?_eq_some_iff.mp hlogger
  have hsame := @List.set_getElem_self _
    (sender.finalLoggers.map fun logger => logger.metrics.logDroppedTotal) index
    (by rwa [List.length_map])
  rw [List.getElem_map, hget] at hsame
  rw [List.map_set, hnext]
  exact hsame

/-- Where the pipe is read to its end, the batch consists of whole lines. -/
theorem Flowing.batch_ends (h : Flowing stream base sender) (hpipe : sender.pipe = []) :
    sender.batch = [] ∨ Lib.Ends Ascii.lf sender.batch := by
  obtain ⟨taken, htaken, hwhole⟩ := h.whole
  rw [hpipe, List.append_nil] at hwhole
  by_cases hbatch : sender.batch = []
  · exact Or.inl hbatch
  · have hlines : ∀ record ∈ taken, Lib.Ends Ascii.lf record :=
      fun record hrecord => (h.lines record (htaken ▸ List.mem_append_left _ hrecord)).ends
    rcases Lib.ends_flatten hlines with hnone | hends
    · rw [hnone] at hwhole
      exact absurd (List.append_eq_nil_iff.mp hwhole).2 hbatch
    · rw [← hwhole, Lib.Ends, List.getLast?_append_of_ne_nil _ hbatch] at hends
      exact Or.inr hends

/-- A flush of whole lines empties the batch. -/
theorem flush_empties (h : Flowing stream base sender) (hpipe : sender.pipe = []) :
    Keeps stream base sender (fun next => next.batch = [] ∧ next.finalLoggers = sender.finalLoggers)
      (sender.flush deliveries) := by
  refine (flush_keeps h).imp fun next hnext hbeside hgood => ⟨?_, hgood.2.2⟩
  rcases hnext.batch_ends (hbeside.pipe.trans hpipe) with hempty | hends
  · exact hempty
  · exact absurd (List.mem_of_getLast? hends) hgood.2.1

/-- A record of a logger fits the batch, after a flush where need be. -/
theorem roomFor_keeps {slot : Log.Slot} (h : Flowing stream base sender) (hpipe : sender.pipe = [])
    (hbatch : sender.batch.length ≤ batchBytes) (hfits : slot.len ≤ Logger.slotBytes) :
    Keeps stream base sender (fun next => next.batch.length ≤ batchBytes ∧
      next.finalLoggers = sender.finalLoggers ∧ slot.len ≤ batchBytes - next.batch.length)
      (sender.flushIf deliveries (batchBytes - sender.batch.length < slot.len)) := by
  unfold flushIf
  split
  · refine (flush_empties h hpipe).imp fun next _ _ hgood => ?_
    obtain ⟨hempty, hloggers⟩ := hgood
    have hsize : Logger.slotBytes ≤ batchBytes := by decide
    refine ⟨?_, hloggers, ?_⟩
    · rw [hempty]
      exact Nat.zero_le _
    · rw [hempty, List.length_nil]
      omega
  · rename_i hroom
    exact ⟨h, .refl sender, hbatch, rfl, Nat.le_of_not_lt fun hlt => hroom (decide_eq_true hlt)⟩

theorem takeSlot_keeps {slot : Log.Slot} {after : Log.Ring} (h : Flowing stream base sender)
    (hpipe : sender.pipe = []) (hfinishing : sender.finishing = true) (hemptied : Emptied index sender)
    (hlogger : sender.finalLoggers[index]? = some logger) (hconsume : logger.consume = some after)
    (hvalid : after.Valid) (hlen : slot.len = slot.text.length)
    (hrecords : records logger = slot.text :: records after)
    (hmetrics : after.metrics.logDroppedTotal = logger.metrics.logDroppedTotal)
    (hroom : slot.len ≤ batchBytes - sender.batch.length) (hbatch : sender.batch.length ≤ batchBytes) :
    Keeps stream base sender (fun next => next.batch.length ≤ batchBytes ∧
      next.finalLoggers = sender.finalLoggers.set index after) (sender.takeSlot index logger slot) := by
  obtain ⟨rest, hwaiting, hset⟩ := waiting_split hemptied hlogger
  obtain ⟨taken, htaken, hwhole⟩ := h.whole
  have hline : Lib.Line Ascii.lf slot.text := by
    refine h.lines slot.text ?_
    rw [← htaken, hwaiting, hrecords]
    exact List.mem_append_right _ List.mem_cons_self
  have hone := Lib.count_line hline
  rw [takeSlot, if_neg (by omega), hconsume]
  have hbeside : sender.finishing = false →
      sender.finalLoggers.set index after = sender.finalLoggers := fun hopen => by
    rw [hfinishing] at hopen
    cases hopen
  refine ⟨⟨⟨h.lines, ?_, h.ends, h.ordered, ?_⟩, ⟨taken ++ [slot.text], ?_, ?_⟩, ?_⟩,
    ⟨rfl, rfl, rfl, hbeside⟩, ?_, rfl⟩
  · intro other hother
    rcases List.mem_or_eq_of_mem_set hother with hold | rfl
    · exact h.loggers other hold
    · exact hvalid
  · have htotal := h.total
    rw [droppedTotal, hwaiting, hrecords, List.cons_append, List.length_cons] at htotal
    rw [droppedTotal, waiting, hset after, dropped_set hlogger hmetrics]
    show sender.logDroppedTotal + _ + sender.delivered + (sender.batchRecords + 1) +
      sender.pipe.count Ascii.lf + _ = _
    omega
  · rw [waiting, hset after, ← htaken, hwaiting, hrecords, List.append_assoc]
    rfl
  · rw [hpipe, List.append_nil] at hwhole
    rw [List.flatten_append, ← hwhole, List.flatten_singleton, hpipe, List.append_nil,
      ← List.append_assoc]
    rfl
  · rw [List.count_append, hone, h.counted]
  · rw [List.length_append]
    omega

/-- The sender is left with the logger at the index empty, and the ones before. -/
theorem drainSlots_keeps {fuel : Nat} (h : Flowing stream base sender) (hpipe : sender.pipe = [])
    (hfinishing : sender.finishing = true) (hbatch : sender.batch.length ≤ batchBytes)
    (hemptied : Emptied index sender)
    (hfuel : ∀ logger, sender.finalLoggers[index]? = some logger → logger.count ≤ fuel) :
    Keeps stream base sender (fun next => next.batch.length ≤ batchBytes ∧ Emptied (index + 1) next)
      (sender.drainSlots deliveries index fuel) := by
  induction fuel generalizing sender with
  | zero =>
      refine ⟨h, .refl sender, hbatch, fun i hi logger hlogger => ?_⟩
      rcases Nat.lt_succ_iff_lt_or_eq.mp hi with hlt | rfl
      · exact hemptied i hlt logger hlogger
      · have hcount := length_records (h.loggers logger (List.mem_of_getElem? hlogger))
        have hnone := hfuel logger hlogger
        exact List.eq_nil_of_length_eq_zero (by omega)
  | succ fuel ih =>
      rw [drainSlots]
      cases hlogger : sender.finalLoggers[index]? with
      | none =>
          refine ⟨h, .refl sender, hbatch, fun i hi logger hsome => ?_⟩
          rcases Nat.lt_succ_iff_lt_or_eq.mp hi with hlt | rfl
          · exact hemptied i hlt logger hsome
          · rw [hlogger] at hsome
            cases hsome
      | some logger =>
          have hvalid := h.loggers logger (List.mem_of_getElem? hlogger)
          dsimp only
          rcases read_records hvalid with ⟨hread, hrecords, -⟩ | ⟨slot, after, hread, hconsume, hafter,
              hlen, hfits, hrecords, hcount, hmetrics⟩
          · rw [hread]
            refine ⟨h, .refl sender, hbatch, fun i hi other hsome => ?_⟩
            rcases Nat.lt_succ_iff_lt_or_eq.mp hi with hlt | rfl
            · exact hemptied i hlt other hsome
            · rw [hlogger] at hsome
              obtain rfl := Option.some.inj hsome
              exact hrecords
          · rw [hread]
            dsimp only
            refine Keeps.bind (roomFor_keeps h hpipe hbatch hfits) fun room hroom hbeside hgood => ?_
            obtain ⟨hbatch', hloggers, hslot⟩ := hgood
            rw [← hloggers] at hlogger
            have hearly : Emptied index room := by rwa [Emptied, hloggers]
            have hpipe' := hbeside.pipe.trans hpipe
            have hfinishing' := hbeside.finishing.trans hfinishing
            refine Keeps.bind (takeSlot_keeps hroom hpipe' hfinishing' hearly hlogger hconsume hafter hlen
              hrecords hmetrics hslot hbatch') fun next hnext hbeside' hgood => ?_
            obtain ⟨hbatch'', hset⟩ := hgood
            obtain ⟨hlt, -⟩ := List.getElem?_eq_some_iff.mp hlogger
            refine ih hnext (hbeside'.pipe.trans hpipe') (hbeside'.finishing.trans hfinishing') hbatch''
              ?_ ?_
            · intro i hi other hother
              rw [hset, List.getElem?_set_ne (Nat.ne_of_gt hi)] at hother
              exact hearly i hi other hother
            · intro other hother
              rw [hset, List.getElem?_set_self hlt] at hother
              obtain rfl := Option.some.inj hother
              have hle := hfuel logger (hloggers ▸ hlogger)
              omega

theorem drainLoggers_keeps {count : Nat} (h : Flowing stream base sender) (hpipe : sender.pipe = [])
    (hfinishing : sender.finishing = true) (hbatch : sender.batch.length ≤ batchBytes)
    (hemptied : Emptied index sender) :
    Keeps stream base sender (fun _ => True)
      (sender.drainLoggers deliveries (List.range' index count)) := by
  induction count generalizing sender index with
  | zero => exact ⟨h, .refl sender, trivial⟩
  | succ count ih =>
      rw [List.range'_succ, drainLoggers]
      refine Keeps.bind (drainSlots_keeps h hpipe hfinishing hbatch hemptied ?_)
        fun next hnext hbeside hgood => ?_
      · intro logger hlogger
        rw [hlogger, Option.map_some, Option.getD_some]
      · exact ih hnext (hbeside.pipe.trans hpipe) (hbeside.finishing.trans hfinishing) hgood.1 hgood.2

/-- Once the pipe is read to its end, the task comes to its end. -/
theorem drainRest_keeps (h : Flowing stream base sender) (hpipe : sender.pipe = [])
    (hfinishing : sender.finishing = true) (hbatch : sender.batch.length ≤ batchBytes) :
    Keeps stream base sender (fun _ => False) (sender.drainRest deliveries) := by
  rw [drainRest, hfinishing, Bool.not_true, if_neg Bool.false_ne_true, List.range_eq_range']
  refine Keeps.bind (drainLoggers_keeps h hpipe hfinishing hbatch nofun) fun next hnext hbeside hgood => ?_
  have hflush : Keeps stream base next (fun _ => True) (next.flushIf deliveries (next.batch.length != 0)) := by
    unfold flushIf
    split
    · exact (flush_keeps hnext).imp fun _ _ _ _ => trivial
    · exact ⟨hnext, .refl next, trivial⟩
  exact hflush.bind fun last hlast _ _ => ⟨hlast.toCounted, .refl last, nofun⟩

/-! ### Turns -/

/-- A full batch has a line in it. -/
theorem Flowing.full_batch (h : Flowing stream base sender)
    (hshort : ∀ record ∈ stream, record.length < batchBytes) (hfull : batchBytes ≤ sender.batch.length) :
    Ascii.lf ∈ sender.batch := by
  have hbefore : sender.sent = [] ∨ Lib.Ends Ascii.lf sender.sent := by
    refine Lib.ends_flatten fun body hbody => ?_
    obtain ⟨post, hpost, rfl⟩ := List.mem_map.mp hbody
    exact h.ends post hpost
  refine Lib.mem_of_long h.lines ?_ ?_ hbefore h.ordered_batch
  · exact fun record hrecord => Nat.le_trans (Nat.le_of_lt (hshort record hrecord)) hfull
  · intro hnone
    rw [hnone] at hfull
    exact absurd hfull (by decide)

/-- What a read takes from the pipe. -/
def taken : PipeRead → Nat
  | .bytes n => n
  | _ => 0

/-- The sender once the read has taken its bytes. -/
def rest (sender : VictoriaLogs) (read : PipeRead) : VictoriaLogs :=
  { sender with pipe := sender.pipe.drop (taken read) }

/-- A turn goes on with less than a full batch, and not at the end of the pipe, or the task ends without
a trap. -/
def Turned (stream : List Bytes) (base : Nat) (sender : VictoriaLogs) (read : PipeRead) : Call → Prop
  | .ok next =>
      Flowing stream base next ∧ Beside (sender.rest read) next ∧
        next.batch.length < batchBytes ∧ read ≠ .bytes 0
  | .error (ending, next) => Counted stream base next ∧ Beside (sender.rest read) next ∧ ending ≠ .trap

theorem Keeps.turned {call : Call} {read : PipeRead} {good : VictoriaLogs → Prop}
    (h : Keeps stream base (sender.rest read) good call)
    (hgood : ∀ next, good next → next.batch.length < batchBytes ∧ read ≠ .bytes 0) :
    Turned stream base sender read call := by
  cases call with
  | error ended => exact h
  | ok next => exact ⟨h.1, h.2.1, hgood next h.2.2⟩

/-- The bytes that are read come behind the batch, with their records. -/
theorem Flowing.batched (h : Flowing stream base sender) (count : Nat) :
    Flowing stream base (sender.batched count) := by
  have hsplit : sender.pipe.take count ++ sender.pipe.drop count = sender.pipe :=
    List.take_append_drop count sender.pipe
  refine ⟨⟨h.lines, h.loggers, h.ends, h.ordered, ?_⟩, ?_, ?_⟩
  · have htotal := h.total
    rw [← hsplit, List.count_append] at htotal
    show sender.droppedTotal + sender.delivered +
      (sender.batchRecords + (sender.pipe.take count).count Ascii.lf) +
      (sender.pipe.drop count).count Ascii.lf + sender.waiting.length = _
    omega
  · obtain ⟨taken, htaken, hwhole⟩ := h.whole
    refine ⟨taken, htaken, ?_⟩
    show sender.sent ++ (sender.batch ++ sender.pipe.take count) ++ sender.pipe.drop count = _
    rw [← hwhole, List.append_assoc, List.append_assoc sender.batch, hsplit, List.append_assoc]
  · show sender.batchRecords + _ = (sender.batch ++ sender.pipe.take count).count Ascii.lf
    rw [List.count_append, h.counted]

theorem turn_keeps {read : PipeRead} (h : Flowing stream base sender)
    (hshort : ∀ record ∈ stream, record.length < batchBytes) (hbatch : sender.batch.length < batchBytes)
    (hanswers : sender.Answers (batchBytes - sender.batch.length) read) :
    Turned stream base sender read (sender.turn deliveries read) := by
  cases read with
  | canceled => exact ⟨h.toCounted, .refl sender, nofun⟩
  | interrupted => exact ⟨h, .refl sender, hbatch, nofun⟩
  | failed =>
      refine ⟨⟨h.lines, h.loggers, h.ends, h.ordered, h.total⟩, ⟨rfl, rfl, rfl, fun _ => rfl⟩, nofun⟩
  | again pauseCanceled =>
      rw [turn]
      split
      · cases pauseCanceled
        · exact ⟨h, .refl sender, hbatch, nofun⟩
        · exact ⟨h.toCounted, .refl sender, nofun⟩
      · refine (flush_keeps h).turned fun next hgood => ⟨?_, nofun⟩
        exact Nat.lt_of_le_of_lt hgood.1.length_le hbatch
  | bytes n =>
      obtain ⟨hroom, hle, hzero⟩ := hanswers
      cases n with
      | zero =>
          rcases hzero rfl with hfull | ⟨hpipe, hfinishing⟩
          · omega
          · exact (drainRest_keeps h hpipe hfinishing (Nat.le_of_lt hbatch)).turned nofun
      | succ n =>
          have hread := h.batched (n + 1)
          rw [turn]
          split
          · rename_i hless
            exact ⟨hread, ⟨rfl, rfl, rfl, fun _ => rfl⟩, hless, nofun⟩
          · rename_i hfull
            have hlf := hread.full_batch hshort (Nat.le_of_not_lt hfull)
            have hlength : (sender.batched (n + 1)).batch.length ≤ batchBytes := by
              show (sender.batch ++ sender.pipe.take (n + 1)).length ≤ batchBytes
              rw [List.length_append, List.length_take]
              omega
            have hbeside : Beside (sender.rest (.bytes (n + 1))) (sender.batched (n + 1)) :=
              ⟨rfl, rfl, rfl, fun _ => rfl⟩
            refine ((flush_keeps hread).of_beside hbeside).turned fun next hgood => ⟨?_, nofun⟩
            obtain ⟨hsuffix, hnone, -⟩ := hgood
            -- The line feed of the full batch is gone, so something is.
            refine Nat.lt_of_le_of_ne (Nat.le_trans hsuffix.length_le hlength) fun hsame => hnone ?_
            rw [hsuffix.eq_of_length_le (by omega)]
            exact hlf

end VictoriaLogs

end Zhtps
