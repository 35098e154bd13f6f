import Zhtps.Logger.Push

/-!
The runs of the sender: every record is posted in a delivery that succeeded or counted as dropped, and
the final drain comes to its end.
-/

namespace Zhtps

namespace VictoriaLogs

variable {sender next : VictoriaLogs} {deliveries : Nat → Delivery} {stream : List Bytes} {base : Nat}
variable {logger : Log.Ring}

/-! ### The end -/

theorem consumeAll_spec {fuel : Nat} (h : logger.Valid) (hfuel : logger.count ≤ fuel) :
    ∃ next, consumeAll fuel logger = some next ∧ next.Valid ∧ records next = [] ∧
      next.metrics.logDroppedTotal = logger.metrics.logDroppedTotal := by
  induction fuel generalizing logger with
  | zero =>
      have hlength := length_records h
      exact ⟨logger, rfl, h, List.eq_nil_of_length_eq_zero (by omega), rfl⟩
  | succ fuel ih =>
      rw [consumeAll]
      rcases read_records h with ⟨hread, hnone, -⟩ | ⟨slot, after, hread, hconsume, hafter, -, -, -, hcount,
          hmetrics⟩
      · rw [hread]
        exact ⟨logger, rfl, h, hnone, rfl⟩
      · rw [hread]
        dsimp only
        rw [hconsume]
        obtain ⟨next, hnext, hvalid, hnone, hsame⟩ := ih hafter (by omega)
        exact ⟨next, hnext, hvalid, hnone, hsame.trans hmetrics⟩

/-- What is left in the loggers is counted, once. -/
theorem dropLoggers_spec {loggers : List Log.Ring} (h : ∀ logger ∈ loggers, logger.Valid) :
    ∃ next, loggers.mapM dropLogger = some next ∧ (∀ logger ∈ next, logger.Valid) ∧
      next.flatMap records = [] ∧
      (next.map fun logger => logger.metrics.logDroppedTotal).sum =
        (loggers.map fun logger => logger.metrics.logDroppedTotal).sum +
          (loggers.flatMap records).length := by
  induction loggers with
  | nil => exact ⟨[], rfl, nofun, rfl, rfl⟩
  | cons logger loggers ih =>
      have hlogger := h logger List.mem_cons_self
      obtain ⟨rest, hrest, hvalid, hnone, hsum⟩ := ih fun other hother =>
        h other (List.mem_cons_of_mem _ hother)
      have hcounted : Log.Ring.Valid { logger with
          metrics := { logger.metrics with
            logDroppedTotal := logger.metrics.logDroppedTotal + logger.count } } :=
        hlogger.congr rfl rfl rfl
      obtain ⟨next, hnext, hvalid', hnone', hdropped⟩ := consumeAll_spec hcounted (Nat.le_refl _)
      have hdrop : dropLogger logger = some next := hnext
      have hmetrics : next.metrics.logDroppedTotal = logger.metrics.logDroppedTotal + logger.count :=
        hdropped
      refine ⟨next :: rest, ?_, ?_, ?_, ?_⟩
      · rw [List.mapM_cons, hdrop, hrest]
        rfl
      · intro other hother
        rcases List.mem_cons.mp hother with rfl | hother
        · exact hvalid'
        · exact hvalid other hother
      · rw [List.flatMap_cons, hnone', hnone, List.nil_append]
      · have hcount := length_records hlogger
        rw [List.map_cons, List.sum_cons, hsum, hmetrics, List.map_cons, List.sum_cons, List.flatMap_cons,
          List.length_append, hcount]
        omega

theorem Counted.ended {ending : DrainEnd} (h : Counted stream base sender) (hending : ending ≠ .trap) :
    Counted stream base (sender.endTask ending) ∧ (sender.endTask ending).task = .ended ∧
      (sender.endTask ending).batchRecords = 0 ∧ (sender.endTask ending).pipe = sender.pipe ∧
      (sender.endTask ending).finishing = sender.finishing ∧
      (sender.endTask ending).finalLoggers = sender.finalLoggers := by
  have hdrop : Counted stream base sender.dropBatch := by
    refine ⟨h.lines, h.loggers, h.ends, h.ordered, ?_⟩
    have htotal := h.total
    rw [droppedTotal] at htotal
    show sender.logDroppedTotal + sender.batchRecords +
      (sender.finalLoggers.map fun logger => logger.metrics.logDroppedTotal).sum + sender.delivered + 0 +
      sender.pipe.count Ascii.lf + sender.waiting.length = _
    omega
  cases ending with
  | trap => exact absurd rfl hending
  | returned =>
      exact ⟨⟨h.lines, h.loggers, h.ends, h.ordered, hdrop.total⟩, rfl, rfl, rfl, rfl, rfl⟩
  | canceled =>
      exact ⟨⟨h.lines, h.loggers, h.ends, h.ordered, hdrop.total⟩, rfl, rfl, rfl, rfl, rfl⟩
  | unavailable =>
      exact ⟨⟨h.lines, h.loggers, h.ends, h.ordered, hdrop.total⟩, rfl, rfl, rfl, rfl, rfl⟩

/-- The records that an action brings. -/
def Action.records : Action → List Bytes
  | .write record => [record]
  | .finish loggers => loggers.flatMap VictoriaLogs.records
  | _ => []

def Action.loggers : Action → List Log.Ring
  | .finish loggers => loggers
  | _ => []

/-- What the loggers of an action dropped before. -/
def Action.dropped (action : Action) : Nat :=
  (action.loggers.map fun logger => logger.metrics.logDroppedTotal).sum

/-- What holds of the sender between two actions. -/
structure Kept (stream : List Bytes) (base : Nat) (sender : VictoriaLogs) : Prop
    extends Counted stream base sender where
  short : ∀ record ∈ stream, record.length < batchBytes
  flowing : sender.task = .idle ∨ sender.task = .draining →
    Flowing stream base sender ∧ sender.batch.length < batchBytes
  cleared : sender.task ≠ .draining → sender.batchRecords = 0
  early : sender.finishing = false → sender.finalLoggers = []
  settled : sender.task = .finished →
    sender.pipe = [] ∧ sender.waiting = [] ∧ sender.finishing = true
  sound : sender.task ≠ .trapped
  waits : sender.task = .idle → sender.finishing = false

/-- More records come. -/
theorem Counted.write {record : Bytes} (h : Counted stream base sender) (hline : Lib.Line Ascii.lf record) :
    Counted (stream ++ [record]) base { sender with pipe := sender.pipe ++ record } := by
  refine ⟨?_, h.loggers, h.ends, ?_, ?_⟩
  · intro other hother
    rcases List.mem_append.mp hother with hold | hnew
    · exact h.lines other hold
    · exact List.mem_singleton.mp hnew ▸ hline
  · rw [List.flatten_append]
    exact h.ordered.trans (List.prefix_append _ _)
  · have htotal := h.total
    rw [List.length_append, List.length_singleton]
    show sender.droppedTotal + sender.delivered + sender.batchRecords +
      (sender.pipe ++ record).count Ascii.lf + sender.waiting.length = _
    rw [List.count_append, Lib.count_line hline]
    omega

/-- Nothing is in the way of the new records, so they come behind the pipe. -/
theorem Flowing.write {record : Bytes} (h : Flowing stream base sender)
    (hwaiting : sender.waiting = []) (hline : Lib.Line Ascii.lf record) :
    Flowing (stream ++ [record]) base { sender with pipe := sender.pipe ++ record } := by
  obtain ⟨taken, htaken, hwhole⟩ := h.whole
  rw [hwaiting, List.append_nil] at htaken
  refine ⟨h.toCounted.write hline, ⟨taken ++ [record], ?_, ?_⟩, h.counted⟩
  · show taken ++ [record] ++ sender.waiting = _
    rw [hwaiting, List.append_nil, htaken]
  · show sender.sent ++ sender.batch ++ (sender.pipe ++ record) = _
    rw [List.flatten_append, List.flatten_singleton, ← hwhole, List.append_assoc _ sender.pipe]

theorem waiting_of_early (h : sender.finalLoggers = []) : sender.waiting = [] := by
  rw [waiting, h, List.flatMap_nil]

/-- The records of the final loggers come last. -/
theorem Counted.finish {loggers : List Log.Ring} {task : SenderTask} (h : Counted stream base sender)
    (hearly : sender.finalLoggers = []) (hvalid : ∀ logger ∈ loggers, logger.Valid)
    (hlines : ∀ record ∈ loggers.flatMap records, Lib.Line Ascii.lf record) :
    Counted (stream ++ loggers.flatMap records) (base + (Action.finish loggers).dropped)
      { sender with finalLoggers := loggers, finishing := true, task := task } := by
  refine ⟨?_, hvalid, h.ends, ?_, ?_⟩
  · intro record hrecord
    rcases List.mem_append.mp hrecord with hold | hnew
    · exact h.lines record hold
    · exact hlines record hnew
  · rw [List.flatten_append]
    exact h.ordered.trans (List.prefix_append _ _)
  · have htotal := h.total
    rw [droppedTotal, hearly, waiting_of_early hearly, List.map_nil, List.sum_nil, List.length_nil]
      at htotal
    rw [List.length_append]
    show sender.logDroppedTotal + (Action.finish loggers).dropped + sender.delivered +
      sender.batchRecords + sender.pipe.count Ascii.lf + (loggers.flatMap records).length = _
    omega

theorem Flowing.finish {loggers : List Log.Ring} {task : SenderTask} (h : Flowing stream base sender)
    (hearly : sender.finalLoggers = []) (hvalid : ∀ logger ∈ loggers, logger.Valid)
    (hlines : ∀ record ∈ loggers.flatMap records, Lib.Line Ascii.lf record) :
    Flowing (stream ++ loggers.flatMap records) (base + (Action.finish loggers).dropped)
      { sender with finalLoggers := loggers, finishing := true, task := task } := by
  obtain ⟨taken, htaken, hwhole⟩ := h.whole
  rw [waiting_of_early hearly, List.append_nil] at htaken
  exact ⟨h.toCounted.finish hearly hvalid hlines, ⟨taken, by rw [htaken]; rfl, hwhole⟩, h.counted⟩

/-- Bytes that are thrown away are counted by their records. -/
theorem Counted.discard {count : Nat} (h : Counted stream base sender) :
    Counted stream base (sender.discard (count + 1)) := by
  refine ⟨h.lines, h.loggers, h.ends, h.ordered, ?_⟩
  have htotal := h.total
  have hsplit := congrArg (List.count Ascii.lf) (List.take_append_drop (count + 1) sender.pipe)
  rw [List.count_append] at hsplit
  rw [droppedTotal] at htotal
  show sender.logDroppedTotal + (sender.pipe.take (count + 1)).count Ascii.lf +
    (sender.finalLoggers.map fun logger => logger.metrics.logDroppedTotal).sum + sender.delivered +
    sender.batchRecords + (sender.pipe.drop (count + 1)).count Ascii.lf + sender.waiting.length = _
  omega

/-- In the end nothing is left. -/
theorem Counted.settle (h : Counted stream base sender) :
    Counted stream base sender.dropLoggers ∧ sender.dropLoggers.task = .finished ∧
      sender.dropLoggers.waiting = [] ∧ sender.dropLoggers.pipe = sender.pipe ∧
      sender.dropLoggers.finishing = sender.finishing ∧
      sender.dropLoggers.batchRecords = sender.batchRecords := by
  obtain ⟨next, hnext, hvalid, hnone, hsum⟩ := dropLoggers_spec h.loggers
  have hdrop : sender.dropLoggers = { sender with finalLoggers := next, task := .finished } := by
    rw [dropLoggers, hnext]
  rw [hdrop]
  refine ⟨⟨h.lines, hvalid, h.ends, h.ordered, ?_⟩, rfl, hnone, rfl, rfl, rfl⟩
  have htotal := h.total
  rw [droppedTotal, waiting] at htotal
  show sender.logDroppedTotal + (next.map fun logger => logger.metrics.logDroppedTotal).sum +
    sender.delivered + sender.batchRecords + sender.pipe.count Ascii.lf + (next.flatMap records).length = _
  rw [hsum, hnone, List.length_nil]
  omega

theorem start_kept (h : Kept stream base sender) (hstep : sender.step .start = some next) :
    Kept stream base next := by
  obtain ⟨⟨hidle, -⟩, hnext⟩ := Option.ite_none_right_eq_some.mp hstep
  obtain rfl := Option.some.inj hnext
  obtain ⟨hflowing, hbatch⟩ := h.flowing (Or.inl hidle)
  have hsame : Flowing stream base { sender with task := .draining } :=
    ⟨⟨h.lines, h.loggers, h.ends, h.ordered, h.total⟩, hflowing.whole, hflowing.counted⟩
  exact ⟨hsame.toCounted, h.short, fun _ => ⟨hsame, hbatch⟩, fun hnot => absurd rfl hnot, h.early, nofun,
    nofun, nofun⟩

theorem turn_kept {read : PipeRead} (h : Kept stream base sender)
    (hstep : sender.step (.turn read deliveries) = some next) : Kept stream base next := by
  obtain ⟨⟨hdraining, hanswers⟩, hnext⟩ := Option.ite_none_right_eq_some.mp hstep
  obtain ⟨hflowing, hbatch⟩ := h.flowing (Or.inr hdraining)
  have hturn := @turn_keeps _ deliveries _ _ _ hflowing h.short hbatch hanswers
  cases hcall : sender.turn deliveries read with
  | ok after =>
      rw [hcall] at hturn hnext
      obtain rfl := Option.some.inj hnext
      obtain ⟨hafter, hbeside, hless, -⟩ := hturn
      have htask : after.task = .draining := hbeside.task.trans hdraining
      refine ⟨hafter.toCounted, h.short, fun _ => ⟨hafter, hless⟩, fun hnot => absurd htask hnot,
        fun hopen => ?_, fun hfinished => ?_, fun htrapped => ?_, fun hidle => ?_⟩
      · have hbefore : sender.finishing = false := hbeside.finishing.symm.trans hopen
        exact (hbeside.loggers hbefore).trans (h.early hbefore)
      · exact absurd (htask.symm.trans hfinished) (by decide)
      · exact absurd (htask.symm.trans htrapped) (by decide)
      · exact absurd (htask.symm.trans hidle) (by decide)
  | error ended =>
      rw [hcall] at hturn hnext
      obtain rfl := Option.some.inj hnext
      obtain ⟨hafter, hbeside, hending⟩ := hturn
      obtain ⟨hended, htask, hrecords, hpipe, hfinishing, hloggers⟩ := hafter.ended hending
      refine ⟨hended, h.short, fun hrunning => ?_, fun _ => hrecords, fun hopen => ?_,
        fun hfinished => ?_, fun htrapped => ?_, fun hidle => ?_⟩
      · exact absurd (htask ▸ hrunning) (by decide)
      · rw [hfinishing] at hopen
        have hbefore : sender.finishing = false := hbeside.finishing.symm.trans hopen
        rw [hloggers, hbeside.loggers hbefore]
        exact h.early hbefore
      · exact absurd (htask.symm.trans hfinished) (by decide)
      · exact absurd (htask.symm.trans htrapped) (by decide)
      · exact absurd (htask.symm.trans hidle) (by decide)

theorem write_kept {record : Bytes} (h : Kept stream base sender) (hline : Lib.Line Ascii.lf record)
    (hshort : record.length < batchBytes) (hstep : sender.step (.write record) = some next) :
    Kept (stream ++ [record]) base next := by
  obtain ⟨hclosed, hnext⟩ := Option.ite_none_left_eq_some.mp hstep
  obtain rfl := Option.some.inj hnext
  have hopen : sender.finishing = false := Bool.eq_false_iff.mpr hclosed
  refine ⟨h.toCounted.write hline, ?_, fun htask => ?_, h.cleared, h.early, fun htask => ?_, h.sound,
    h.waits⟩
  · intro other hother
    rcases List.mem_append.mp hother with hold | hnew
    · exact h.short other hold
    · exact List.mem_singleton.mp hnew ▸ hshort
  · obtain ⟨hflowing, hbatch⟩ := h.flowing htask
    exact ⟨hflowing.write (waiting_of_early (h.early hopen)) hline, hbatch⟩
  · exact absurd (h.settled htask).2.2 hclosed

theorem finish_kept {loggers : List Log.Ring} (h : Kept stream base sender)
    (hvalid : ∀ logger ∈ loggers, logger.Valid)
    (hlines : ∀ record ∈ loggers.flatMap records, Lib.Line Ascii.lf record)
    (hshort : ∀ record ∈ loggers.flatMap records, record.length < batchBytes)
    (hstep : sender.step (.finish loggers) = some next) :
    Kept (stream ++ loggers.flatMap records) (base + (Action.finish loggers).dropped) next := by
  obtain ⟨hclosed, hnext⟩ := Option.ite_none_left_eq_some.mp hstep
  obtain rfl := Option.some.inj hnext
  have hearly := h.early (Bool.eq_false_iff.mpr hclosed)
  have hunsettled : sender.task ≠ .finished := fun htask => hclosed (h.settled htask).2.2
  refine ⟨h.toCounted.finish hearly hvalid hlines, ?_, fun htask => ?_, fun hnot => ?_, nofun,
    fun htask => ?_, fun htask => ?_, fun htask => ?_⟩
  · intro other hother
    rcases List.mem_append.mp hother with hold | hnew
    · exact h.short other hold
    · exact hshort other hnew
  all_goals dsimp only at *
  · split at htask
    · exact absurd htask (by decide)
    · obtain ⟨hflowing, hbatch⟩ := h.flowing htask
      exact ⟨hflowing.finish hearly hvalid hlines, hbatch⟩
  · split at hnot
    · rename_i hidle
      exact h.cleared fun hdraining => absurd (hidle.symm.trans hdraining) (by decide)
    · exact h.cleared hnot
  · split at htask
    · cases htask
    · exact absurd htask hunsettled
  · split at htask
    · cases htask
    · exact h.sound htask
  · split at htask
    · cases htask
    · rename_i hnot
      exact absurd htask hnot

theorem discard_kept {read : Option Nat} (h : Kept stream base sender)
    (hstep : sender.step (.discard read) = some next) : Kept stream base next := by
  obtain ⟨⟨hfinishing, hended⟩, hnext⟩ := Option.ite_none_right_eq_some.mp hstep
  have hrecords : sender.batchRecords = 0 :=
    h.cleared fun hdraining => absurd (hended.symm.trans hdraining) (by decide)
  cases read with
  | none => exact Option.some.inj hnext ▸ h
  | some n =>
      obtain ⟨⟨-, hle, hzero⟩, hdiscard⟩ := Option.ite_none_right_eq_some.mp hnext
      obtain rfl := Option.some.inj hdiscard
      cases n with
      | zero =>
          obtain ⟨hsettled, htask, hwaiting, hpipe, hsame, hbatched⟩ := h.toCounted.settle
          have hempty : sender.pipe = [] := by
            rcases hzero rfl with hroom | hempty
            · cases hroom
            · exact hempty.1
          refine ⟨hsettled, h.short, fun hrunning => ?_, fun _ => hbatched.trans hrecords, fun hopen => ?_,
            fun _ => ⟨hpipe.trans hempty, hwaiting, hsame.trans hfinishing⟩, fun htrapped => ?_,
            fun hidle => ?_⟩
          · exact absurd (htask ▸ hrunning) (by decide)
          · cases (hsame.trans hfinishing).symm.trans hopen
          · exact absurd (htask.symm.trans htrapped) (by decide)
          · exact absurd (htask.symm.trans hidle) (by decide)
      | succ n =>
          refine ⟨h.toCounted.discard, h.short, fun hrunning => ?_, fun _ => hrecords, h.early,
            fun hfinished => ?_, h.sound, h.waits⟩
          · exact absurd (hended ▸ hrunning) (by decide)
          · exact absurd (hended.symm.trans hfinished) (by decide)

theorem step_kept {action : Action} (h : Kept stream base sender)
    (hlines : ∀ record ∈ action.records, Lib.Line Ascii.lf record ∧ record.length < batchBytes)
    (hvalid : ∀ logger ∈ action.loggers, logger.Valid) (hstep : sender.step action = some next) :
    Kept (stream ++ action.records) (base + action.dropped) next := by
  have hquiet : Kept stream base next → Kept (stream ++ []) (base + 0) next := fun hnext => by
    rwa [List.append_nil]
  cases action with
  | start => exact hquiet (start_kept h hstep)
  | turn read deliveries => exact hquiet (turn_kept h hstep)
  | discard read => exact hquiet (discard_kept h hstep)
  | write record =>
      obtain ⟨hline, hshort⟩ := hlines record (List.mem_singleton_self _)
      exact write_kept h hline hshort hstep
  | finish loggers =>
      exact finish_kept h hvalid (fun record hrecord => (hlines record hrecord).1)
        (fun record hrecord => (hlines record hrecord).2) hstep

/-! ### Termination -/

def weight : SenderTask → Nat
  | .draining => 2
  | .idle | .ended => 1
  | .finished | .trapped => 0

/-- What is left to do once the pipe is closed. -/
def left (sender : VictoriaLogs) : Nat := sender.pipe.length + weight sender.task

/-- A read that is interrupted is made again. -/
def Action.interrupted : Action → Bool
  | .turn .interrupted _ => true
  | .discard none => true
  | _ => false

/-- A read is answered. -/
def Action.answered : Action → Bool
  | .turn (.bytes _) _ => true
  | .discard (some _) => true
  | _ => false

theorem turn_left {read : PipeRead} (h : Kept stream base sender) (hfinishing : sender.finishing = true)
    (hstep : sender.step (.turn read deliveries) = some next) :
    next.finishing = true ∧
      left next + (if (Action.turn read deliveries).interrupted then 0 else 1) ≤ left sender := by
  obtain ⟨⟨hdraining, hanswers⟩, hnext⟩ := Option.ite_none_right_eq_some.mp hstep
  obtain ⟨hflowing, hbatch⟩ := h.flowing (Or.inr hdraining)
  have hturn := @turn_keeps _ deliveries _ _ _ hflowing h.short hbatch hanswers
  have hrest : (sender.rest read).pipe.length ≤ sender.pipe.length :=
    (List.drop_sublist _ _).length_le
  cases hcall : sender.turn deliveries read with
  | error ended =>
      rw [hcall] at hturn hnext
      obtain rfl := Option.some.inj hnext
      obtain ⟨hafter, hbeside, hending⟩ := hturn
      obtain ⟨-, htask, -, hpipe, hsame, -⟩ := hafter.ended hending
      refine ⟨hsame.trans (hbeside.finishing.trans hfinishing), ?_⟩
      rw [left, left, htask, hpipe, hbeside.pipe, hdraining, weight, weight]
      split <;> omega
  | ok after =>
      rw [hcall] at hturn hnext
      obtain rfl := Option.some.inj hnext
      obtain ⟨-, hbeside, -, hsome⟩ := hturn
      refine ⟨hbeside.finishing.trans hfinishing, ?_⟩
      have htask : after.task = sender.task := hbeside.task
      rw [left, left, htask, hbeside.pipe]
      cases read with
      | interrupted => exact Nat.add_le_add_right hrest _
      | bytes n =>
          -- Only a read of some bytes lets the task go on.
          obtain ⟨-, hle, -⟩ := hanswers
          have hpos : n ≠ 0 := fun hzero => hsome (hzero ▸ rfl)
          show (sender.pipe.drop n).length + _ + 1 ≤ _
          rw [List.length_drop]
          omega
      | canceled => cases hcall
      | failed => cases hcall
      | again pauseCanceled =>
          cases hfinishing.symm.trans hanswers.2

theorem discard_left {read : Option Nat} (h : Kept stream base sender)
    (hstep : sender.step (.discard read) = some next) :
    next.finishing = true ∧
      left next + (if (Action.discard read).interrupted then 0 else 1) ≤ left sender := by
  obtain ⟨⟨hfinishing, hended⟩, hnext⟩ := Option.ite_none_right_eq_some.mp hstep
  cases read with
  | none =>
      obtain rfl := Option.some.inj hnext
      exact ⟨hfinishing, Nat.le_refl _⟩
  | some n =>
      obtain ⟨⟨-, hle, -⟩, hdiscard⟩ := Option.ite_none_right_eq_some.mp hnext
      obtain rfl := Option.some.inj hdiscard
      cases n with
      | zero =>
          obtain ⟨-, htask, -, hpipe, hsame, -⟩ := h.toCounted.settle
          refine ⟨hsame.trans hfinishing, ?_⟩
          show left sender.dropLoggers + 1 ≤ _
          rw [left, left, htask, hpipe, hended, weight, weight]
      | succ n =>
          refine ⟨hfinishing, ?_⟩
          show (sender.pipe.drop (n + 1)).length + weight sender.task + 1 ≤
            sender.pipe.length + weight sender.task
          rw [List.length_drop]
          omega

/-- Every action after the pipe is closed brings the sender nearer to its end, or is made again. -/
theorem final_step {action : Action} (h : Kept stream base sender) (hfinishing : sender.finishing = true)
    (hstep : sender.step action = some next) :
    Kept stream base next ∧ next.finishing = true ∧
      left next + (if action.interrupted then 0 else 1) ≤ left sender := by
  cases action with
  | turn read deliveries => exact ⟨turn_kept h hstep, turn_left h hfinishing hstep⟩
  | discard read => exact ⟨discard_kept h hstep, discard_left h hstep⟩
  | start =>
      obtain ⟨⟨-, hopen⟩, -⟩ := Option.ite_none_right_eq_some.mp hstep
      rw [hfinishing] at hopen
      cases hopen
  | write record => exact absurd hfinishing (Option.ite_none_left_eq_some.mp hstep).1
  | finish loggers => exact absurd hfinishing (Option.ite_none_left_eq_some.mp hstep).1

theorem final_run {actions : List Action} (h : Kept stream base sender)
    (hfinishing : sender.finishing = true) (hrun : Lib.run step sender actions = some next) :
    actions.countP (fun action => !action.interrupted) + left next ≤ left sender := by
  induction actions generalizing sender with
  | nil =>
      obtain rfl := Option.some.inj hrun
      rw [List.countP_nil, Nat.zero_add]
  | cons action actions ih =>
      obtain ⟨after, hstep, hrest⟩ := Lib.run_cons.mp hrun
      obtain ⟨hkept, hfinal, hless⟩ := final_step h hfinishing hstep
      have hcount := ih hkept hfinal hrest
      rw [List.countP_cons]
      cases hinterrupted : action.interrupted
      · rw [hinterrupted, if_neg Bool.false_ne_true] at hless
        rw [Bool.not_false, if_pos rfl]
        omega
      · rw [hinterrupted, if_pos rfl] at hless
        rw [Bool.not_true, if_neg Bool.false_ne_true]
        omega

/-- The pipe has an answer for a read with room. -/
theorem answers_all {room : Nat} (hroom : 0 < room) (hfinishing : sender.finishing = true) :
    sender.Answers room (.bytes (min room sender.pipe.length)) := by
  refine ⟨Nat.min_le_left _ _, Nat.min_le_right _ _, fun hzero => Or.inr ⟨?_, hfinishing⟩⟩
  exact List.eq_nil_of_length_eq_zero (by omega)

/-- Until the end, the pipe can answer a read. -/
theorem Kept.final_progress (h : Kept stream base sender) (hfinishing : sender.finishing = true) :
    sender.task = .finished ∨ ∃ action next, action.answered = true ∧ sender.step action = some next := by
  cases htask : sender.task with
  | idle => cases hfinishing.symm.trans (h.waits htask)
  | trapped => exact absurd htask h.sound
  | finished => exact Or.inl rfl
  | draining =>
      obtain ⟨-, hbatch⟩ := h.flowing (Or.inr htask)
      have hanswers := @answers_all sender (batchBytes - sender.batch.length) (by omega) hfinishing
      refine Or.inr ⟨.turn (.bytes (min (batchBytes - sender.batch.length) sender.pipe.length))
        fun _ => .succeeded, ?_⟩
      rw [step, if_pos ⟨htask, hanswers⟩]
      split
      · exact ⟨_, rfl, rfl⟩
      · exact ⟨_, rfl, rfl⟩
  | ended =>
      have hanswers := @answers_all sender discardBytes (by decide) hfinishing
      refine Or.inr ⟨.discard (some (min discardBytes sender.pipe.length)), ?_⟩
      rw [step, if_pos ⟨hfinishing, htask⟩]
      exact ⟨_, rfl, if_pos hanswers⟩

/-! ### Groups of records -/

/-- The bodies are groups of records, in the order of the records. -/
theorem Counted.groups (h : Counted stream base sender) :
    ∃ (groups : List (List Bytes × Bool)) (rest : List Bytes),
      (groups.map Prod.fst).flatten ++ rest = stream ∧ (∀ group ∈ groups, group.1 ≠ []) ∧
        sender.posts = groups.map fun group => (group.1.flatten, group.2) := by
  have hends : ∀ body ∈ sender.posts.map Prod.fst, Lib.Ends Ascii.lf body := by
    intro body hbody
    obtain ⟨post, hpost, rfl⟩ := List.mem_map.mp hbody
    exact h.ends post hpost
  obtain ⟨groups, rest, hstream, hnonempty, hbodies⟩ := Lib.groups_of_prefix h.lines h.ordered hends
  have hlength : groups.length = (sender.posts.map Prod.snd).length := by
    have hboth := congrArg List.length hbodies
    rw [List.length_map, List.length_map] at hboth
    rw [List.length_map, hboth]
  refine ⟨groups.zip (sender.posts.map Prod.snd), rest, ?_, ?_, ?_⟩
  · rw [List.map_fst_zip (Nat.le_of_eq hlength), hstream]
  · intro group hgroup
    exact hnonempty group.1 (List.of_mem_zip hgroup).1
  · have hzip : sender.posts = (sender.posts.map Prod.fst).zip (sender.posts.map Prod.snd) := by
      rw [List.zip_map', List.map_id']
    rw [hbodies, List.zip_map_left] at hzip
    exact hzip

/-- The records in the groups that were not delivered. -/
def lost (groups : List (List Bytes × Bool)) : Nat :=
  ((groups.filter fun group => !group.2).map fun group => group.1.length).sum

theorem delivered_lost {groups : List (List Bytes × Bool)}
    (hlines : ∀ record ∈ (groups.map Prod.fst).flatten, Lib.Line Ascii.lf record)
    (hposts : sender.posts = groups.map fun group => (group.1.flatten, group.2)) :
    sender.delivered + lost groups = (groups.map Prod.fst).flatten.length := by
  rw [delivered, hposts, List.map_map]
  clear hposts
  induction groups with
  | nil => rfl
  | cons group groups ih =>
      rw [List.map_cons, List.flatten_cons] at hlines
      have hrest := ih fun record hrecord => hlines record (List.mem_append_right _ hrecord)
      obtain ⟨records, success⟩ := group
      have hcount : records.flatten.count Ascii.lf = records.length :=
        Lib.count_lines fun record hrecord => hlines record (List.mem_append_left _ hrecord)
      rw [List.map_cons, List.sum_cons, List.map_cons, List.flatten_cons, List.length_append, ← hrest]
      cases success
      · show 0 + _ + (records.length + lost groups) = records.length + _
        omega
      · show records.flatten.count Ascii.lf + _ + lost groups = records.length + _
        rw [hcount]
        omega

theorem run_kept {actions : List Action} (h : Kept stream base sender)
    (hlines : ∀ record ∈ actions.flatMap Action.records,
      Lib.Line Ascii.lf record ∧ record.length < batchBytes)
    (hvalid : ∀ logger ∈ actions.flatMap Action.loggers, logger.Valid)
    (hrun : Lib.run step sender actions = some next) :
    Kept (stream ++ actions.flatMap Action.records) (base + (actions.map Action.dropped).sum) next := by
  induction actions generalizing sender stream base with
  | nil =>
      obtain rfl := Option.some.inj hrun
      rwa [List.flatMap_nil, List.append_nil]
  | cons action actions ih =>
      obtain ⟨after, hstep, hrest⟩ := Lib.run_cons.mp hrun
      rw [List.flatMap_cons] at hlines hvalid
      have hafter := step_kept h (fun record hrecord => hlines record (List.mem_append_left _ hrecord))
        (fun logger hlogger => hvalid logger (List.mem_append_left _ hlogger)) hstep
      have hlast := ih hafter (fun record hrecord => hlines record (List.mem_append_right _ hrecord))
        (fun logger hlogger => hvalid logger (List.mem_append_right _ hlogger)) hrest
      rwa [List.flatMap_cons, List.map_cons, List.sum_cons, ← List.append_assoc, ← Nat.add_assoc]

theorem kept_start : Kept [] 0 {} := by
  have hnone : Flowing [] 0 {} :=
    ⟨⟨nofun, nofun, nofun, List.nil_prefix, rfl⟩, ⟨[], rfl, rfl⟩, rfl⟩
  exact ⟨hnone.toCounted, nofun, fun _ => ⟨hnone, by decide⟩, fun _ => rfl, fun _ => rfl, nofun, nofun,
    fun _ => rfl⟩

/-- At any time the bodies that were posted are groups of whole records, in the order of the pipe and
then the loggers and none of them twice, and no assertion of the sender fails.  When `finish` has
returned, the records that were not delivered are what was added to the dropped ones.  Once the pipe is
closed only so many actions are possible that are no interrupted reads, and until `finish` returns there
is one. -/
theorem log_push_accounts {actions : List Action} {sender : VictoriaLogs}
    (hlines : ∀ record ∈ actions.flatMap Action.records,
      Lib.Line Ascii.lf record ∧ record.length < batchBytes)
    (hvalid : ∀ logger ∈ actions.flatMap Action.loggers, logger.Valid)
    (hrun : Lib.run step {} actions = some sender) :
    sender.task ≠ .trapped ∧
      (∃ (groups : List (List Bytes × Bool)) (rest : List Bytes),
        (groups.map Prod.fst).flatten ++ rest = actions.flatMap Action.records ∧
          (∀ group ∈ groups, group.1 ≠ []) ∧
          sender.posts = groups.map (fun group => (group.1.flatten, group.2)) ∧
          (sender.task = .finished →
            sender.droppedTotal = (actions.map Action.dropped).sum + lost groups + rest.length)) ∧
      (sender.finishing = true →
        (∀ after next, Lib.run step sender after = some next →
          after.countP (fun action => !action.interrupted) ≤ sender.pipe.length + 2) ∧
        (sender.task = .finished ∨
          ∃ action next, action.answered = true ∧ sender.step action = some next)) := by
  have hkept := run_kept kept_start hlines hvalid hrun
  rw [List.nil_append, Nat.zero_add] at hkept
  obtain ⟨groups, rest, hstream, hnonempty, hposts⟩ := hkept.toCounted.groups
  refine ⟨hkept.sound, ⟨groups, rest, hstream, hnonempty, hposts, fun hfinished => ?_⟩,
    fun hfinishing => ⟨fun after next hafter => ?_, hkept.final_progress hfinishing⟩⟩
  · have hcount := delivered_lost (fun record hrecord => hkept.lines record
      (hstream ▸ List.mem_append_left _ hrecord)) hposts
    have htotal := hkept.total
    have hrecords := hkept.cleared (by rw [hfinished]; decide)
    obtain ⟨hpipe, hwaiting, -⟩ := hkept.settled hfinished
    rw [hrecords, hpipe, hwaiting, List.count_nil, List.length_nil, ← hstream, List.length_append] at htotal
    omega
  · have hbound := final_run hkept hfinishing hafter
    have hweight : weight sender.task ≤ 2 := by cases sender.task <;> decide
    rw [left, left] at hbound
    omega

/-- A logger with one record. -/
def oneRecord : Log.Ring where
  slots := [⟨ascii "c\n" ++ List.replicate 2046 0, 2, 0⟩]
  count := 1

theorem oneRecord_valid : oneRecord.Valid := by
  have hview : oneRecord.view = oneRecord.slots := rfl
  refine Log.Ring.valid_of_view (Nat.le_refl _) (fun _ => Nat.zero_lt_one) ?_ ?_ ?_
  · rw [hview]
    refine ⟨fun slot hslot => ?_, nofun⟩
    obtain rfl := List.mem_singleton.mp hslot
    decide +kernel
  · intro slot hslot
    obtain rfl := List.mem_singleton.mp hslot
    show List.length _ = Logger.slotBytes
    decide +kernel
  · rw [hview]
    intro slot hslot
    obtain rfl := List.mem_singleton.mp hslot
    decide

/-- One record is delivered, one is in the batch and the pipe when the sender is canceled, and one is left in
a logger. -/
def pushActions : List Action :=
  [.start, .write (ascii "a\n"), .turn (.bytes 1) fun _ => .succeeded, .turn .interrupted fun _ => .succeeded,
    .turn (.bytes 1) fun _ => .succeeded, .turn (.again false) fun _ => .succeeded, .write (ascii "bb\n"),
    .turn (.bytes 1) fun _ => .succeeded, .finish [oneRecord], .turn .canceled fun _ => .succeeded,
    .discard none, .discard (some 2), .discard (some 0)]

theorem log_push_accounts_canceled :
    ∃ sender groups rest, Lib.run step {} pushActions = some sender ∧
      (groups.map Prod.fst).flatten ++ rest = [ascii "a\n", ascii "bb\n", ascii "c\n"] ∧
      sender.posts = groups.map (fun group => (group.1.flatten, group.2)) ∧
      sender.droppedTotal = lost groups + rest.length := by
  have hrecords : pushActions.flatMap Action.records = [ascii "a\n", ascii "bb\n", ascii "c\n"] := by
    decide +kernel
  have hloggers : pushActions.flatMap Action.loggers = [oneRecord] := rfl
  have hlines : ∀ record ∈ pushActions.flatMap Action.records,
      Lib.Line Ascii.lf record ∧ record.length < batchBytes := by
    rw [hrecords]
    intro record hrecord
    refine ⟨⟨record.dropLast, ?_⟩, ?_⟩
    · revert record
      decide +kernel
    · revert record
      decide +kernel
  have hvalid : ∀ logger ∈ pushActions.flatMap Action.loggers, logger.Valid := by
    rw [hloggers]
    exact fun logger hlogger => List.mem_singleton.mp hlogger ▸ oneRecord_valid
  obtain ⟨sender, hrun, hfinished⟩ :
      ∃ sender, Lib.run step {} pushActions = some sender ∧ sender.task = .finished :=
    ⟨_, (Option.some_get (by decide +kernel)).symm, by decide +kernel⟩
  obtain ⟨-, ⟨groups, rest, hstream, -, hposts, hdropped⟩, -⟩ := log_push_accounts hlines hvalid hrun
  rw [hrecords] at hstream
  have hbase : (pushActions.map Action.dropped).sum = 0 := rfl
  refine ⟨sender, groups, rest, hrun, hstream, hposts, ?_⟩
  rw [hdropped hfinished, hbase, Nat.zero_add]

end VictoriaLogs

end Zhtps
