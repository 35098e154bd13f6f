import Zhtps.Lib.Fifo
import Zhtps.Lib.Transition
import Zhtps.Logger.Record

/-!
The slots of the logger with the whole of their buffers, after `emit`, `peekAt`, `consumeBytes` and
`consume` in `src/Logger.zig`: a record is written into the next slot before it is known to fit, and
the slots are a bounded queue of the records that did.
-/

namespace Zhtps.Log

open Logger (slotBytes)

structure Slot where
  bytes : Bytes
  len : Nat := 0
  sent : Nat := 0

structure Metrics where
  logEventsTotal : Nat := 0
  logDroppedTotal : Nat := 0
  logPending : Nat := 0

/-- The `Logger` of the source. -/
structure Ring where
  slots : List Slot
  metrics : Metrics := {}
  verbose : Bool := false
  enabled : Bool := true
  worker : UInt32 := 0
  readIndex : Nat := 0
  count : Nat := 0
  source : Option Source := none

namespace Ring

/-- The event is dropped. -/
def dropped (ring : Ring) : Ring :=
  { ring with metrics := { ring.metrics with logDroppedTotal := ring.metrics.logDroppedTotal + 1 } }

/-- The record and its line feed. -/
def writeLine (shortest : UInt64 → FloatDecimal) (ring : Ring) (event : Event) : Write := fun w =>
  writeRecord shortest { event with worker := ring.worker } ring.source w >>= writeAll [Ascii.lf]

/-- `none` would be an index past the slots. -/
def emit (shortest : UInt64 → FloatDecimal) (ring : Ring) (event : Event) : Option Ring :=
  if !ring.enabled then some ring
  else if event.level = .debug ∧ !ring.verbose then some ring
  else if ring.count = ring.slots.length then some ring.dropped
  else
    let index := Lib.Ring.wrap ring.slots.length (ring.readIndex + ring.count)
    match ring.slots[index]? with
    | none => none
    | some slot =>
        match ring.writeLine shortest event (.ofStorage slot.bytes) with
        | .error writer =>
            some { ring.dropped with slots := ring.slots.set index { slot with bytes := writer.storage } }
        | .ok writer =>
            some { ring with
              slots := ring.slots.set index { bytes := writer.storage, len := writer.len, sent := 0 }
              count := ring.count + 1
              metrics := { ring.metrics with
                logEventsTotal := ring.metrics.logEventsTotal + 1
                logPending := ring.count + 1 } }

/-- The index of a queued slot, by its offset from the oldest. -/
def peekAt (ring : Ring) (offset : Nat) : Option Nat :=
  if ring.count ≤ offset then none
  else some (Lib.Ring.wrap ring.slots.length (ring.readIndex + offset))

/-- The loop of `consumeBytes` over its variables; `none` is the failed assertion.  A turn ends the
loop or a record, so the number of records and one more is enough fuel. -/
def consumeLoop (count : Nat) : Nat → List Slot → Nat → Nat → Nat → Option (List Slot × Nat × Nat)
  | _, slots, 0, records, index => some (slots, records, index)
  | 0, _, _ + 1, _, _ => none
  | fuel + 1, slots, remaining + 1, records, index =>
      if count ≤ records then none
      else match slots[index]? with
        | none => none
        | some slot =>
            let written := min (remaining + 1) (slot.len - slot.sent)
            let slot := { slot with sent := slot.sent + written }
            let slots := slots.set index slot
            let remaining := remaining + 1 - written
            if slot.sent = slot.len then
              consumeLoop count fuel slots remaining (records + 1) (Lib.Ring.next slots.length index)
            else consumeLoop count fuel slots remaining records index

/-- Accounts for a completed write: the number of records that it finished. -/
def consumeBytes (ring : Ring) (written : Nat) : Option (Nat × Ring) :=
  (consumeLoop ring.count (ring.count + 1) ring.slots written 0 ring.readIndex).map
    fun (slots, records, index) =>
      (records,
        { ring with
          slots := slots
          readIndex := index
          count := ring.count - records
          metrics := { ring.metrics with logPending := ring.count - records } })

/-- Drops the oldest record; `none` is the failed assertion. -/
def consume (ring : Ring) : Option Ring :=
  if ring.count = 0 then none
  else some { ring with
    readIndex := Lib.Ring.next ring.slots.length ring.readIndex
    count := ring.count - 1
    metrics := { ring.metrics with logPending := ring.count - 1 } }

/-- The queued slot at an offset, as a transport reads it. -/
def readAt (ring : Ring) (offset : Nat) : Option Slot :=
  (ring.peekAt offset).bind fun index => ring.slots[index]?

end Ring

/-- The record of a slot. -/
def Slot.text (slot : Slot) : Bytes := slot.bytes.take slot.len

/-- What a write of the slot hands out. -/
def Slot.unsent (slot : Slot) : Bytes := slot.text.drop slot.sent

/-- All bytes that the queued slots hand out, the oldest first. -/
def Ring.unsent (ring : Ring) : Bytes :=
  (List.range ring.count).flatMap fun offset => ((ring.readAt offset).map Slot.unsent).getD []

/-! ### The queue of records -/

inductive Action
  | emit (event : Event)
  | peekAt (offset : Nat)
  | consume
  | consumeBytes (written : Nat)

/-- What an operation does, as seen from outside: the record that was queued, the record and how much
of it is sent, the number of finished records and the bytes that were taken, or what was left of a
dropped record. -/
inductive Answer
  | emitted (record : Option Bytes)
  | peeked (record : Option (Bytes × Nat))
  | written (records : Nat) (bytes : Bytes)
  | consumed (left : Bytes)

def Answer.taken : Answer → Bytes
  | .written _ bytes => bytes
  | .consumed left => left
  | _ => []

def Answer.queued : Answer → Bytes
  | .emitted record => record.getD []
  | _ => []

def Ring.step (shortest : UInt64 → FloatDecimal) (ring : Ring) : Action → Option (Ring × Answer)
  | .emit event =>
      (ring.emit shortest event).map fun next =>
        (next, .emitted ((next.readAt ring.count).map Slot.text))
  | .peekAt offset =>
      some (ring, .peeked ((ring.readAt offset).map fun slot => (slot.text, slot.sent)))
  | .consume =>
      ring.consume.map fun next => (next, .consumed (((ring.readAt 0).map Slot.unsent).getD []))
  | .consumeBytes written =>
      (ring.consumeBytes written).map fun (records, next) =>
        (next, .written records (ring.unsent.take written))

/-- The record of an event, unless the event is filtered or the record is too long. -/
def Ring.line (shortest : UInt64 → FloatDecimal) (ring : Ring) (event : Event) : Option Bytes :=
  let record := recordText shortest { event with worker := ring.worker } ring.source ++ [Ascii.lf]
  if ring.enabled = true ∧ (event.level = .debug → ring.verbose = true) ∧ record.length ≤ slotBytes then
    some record
  else none

/-- The operations on a bounded queue of records.  A record cannot be dropped from an empty queue, and
no more bytes can be written than are queued. -/
def fifoStep (line : Event → Option Bytes) (fifo : Lib.Fifo UInt8) :
    Action → Option (Lib.Fifo UInt8 × Answer)
  | .emit event =>
      match line event with
      | none => some (fifo, .emitted none)
      | some record =>
          if fifo.records.length < fifo.capacity then some (fifo.push record, .emitted (some record))
          else some (fifo, .emitted none)
  | .peekAt offset => some (fifo, .peeked (fifo.peekAt offset))
  | .consume =>
      match fifo.records with
      | [] => none
      | first :: _ => some (fifo.drop, .consumed (first.drop fifo.sent))
  | .consumeBytes written =>
      if written ≤ fifo.unsent.length then
        some (fifo.advance written,
          .written (Lib.Fifo.finished fifo.records (fifo.sent + written)) (fifo.unsent.take written))
      else none

/-! ### The records of the slots -/

variable {shortest : UInt64 → FloatDecimal} {ring next : Ring} {event : Event}

/-- A slot without what stands behind its record.  A slot that was never written may have any length,
so the record is made as long as it says. -/
def Slot.record (slot : Slot) : Logger.Slot :=
  ⟨slot.text ++ List.replicate (slot.len - slot.bytes.length) 0, slot.sent⟩

/-- The buffer has its size. -/
def Slot.Sized (slot : Slot) : Prop := slot.bytes.length = slotBytes

/-- The record is in the buffer. -/
def Slot.Holds (slot : Slot) : Prop := slot.Sized ∧ slot.len ≤ slotBytes

theorem Slot.length_record (slot : Slot) : slot.record.bytes.length = slot.len := by
  rw [record, List.length_append, List.length_replicate, text, List.length_take]
  omega

theorem Slot.Holds.record_eq {slot : Slot} (h : slot.Holds) : slot.record = ⟨slot.text, slot.sent⟩ := by
  have hnone : slot.len - slot.bytes.length = 0 := by
    rw [h.1]
    exact Nat.sub_eq_zero_of_le h.2
  rw [Slot.record, hnone, List.replicate_zero, List.append_nil]

/-- The queue without the unused parts of its buffers. -/
def Ring.toLogger (ring : Ring) : Logger where
  slots := ring.slots.map Slot.record
  verbose := ring.verbose
  enabled := ring.enabled
  readIndex := ring.readIndex
  count := ring.count

theorem sized_set {slots : List Slot} (hsized : ∀ slot ∈ slots, slot.Sized) {slot : Slot}
    (h : slot.Sized) {index : Nat} : ∀ other ∈ slots.set index slot, other.Sized := by
  intro other hother
  rcases List.mem_or_eq_of_mem_set hother with hold | rfl
  · exact hsized other hold
  · exact h

theorem consumeLoop_record {count fuel : Nat} {slots : List Slot} {remaining records index : Nat} :
    Logger.consumeLoop count fuel (slots.map Slot.record) remaining records index =
      (Ring.consumeLoop count fuel slots remaining records index).map
        fun read => (read.1.map Slot.record, read.2) := by
  induction fuel generalizing slots remaining records index with
  | zero => cases remaining <;> rfl
  | succ fuel ih =>
      cases remaining with
      | zero => rfl
      | succ remaining =>
          rw [Logger.consumeLoop, Ring.consumeLoop, List.getElem?_map]
          split
          · rfl
          · cases hslot : slots[index]? with
            | none => rfl
            | some slot =>
                have hlength := slot.length_record
                have hmap (sent : Nat) : (slots.map Slot.record).set index
                    { slot.record with sent := sent } =
                      (slots.set index { slot with sent := sent }).map Slot.record := by
                  rw [List.map_set]
                  rfl
                have hrecord : slot.record.sent = slot.sent := rfl
                simp only [Option.map_some, hlength, hmap, hrecord, List.length_map]
                split
                · exact ih
                · exact ih

theorem consumeLoop_sized {count fuel : Nat} {slots : List Slot} {remaining records index : Nat}
    (hsized : ∀ slot ∈ slots, slot.Sized) {read : List Slot × Nat × Nat}
    (h : Ring.consumeLoop count fuel slots remaining records index = some read) :
    ∀ slot ∈ read.1, slot.Sized := by
  induction fuel generalizing slots remaining records index with
  | zero =>
      cases remaining with
      | zero => exact Option.some.inj h ▸ hsized
      | succ remaining => cases h
  | succ fuel ih =>
      cases remaining with
      | zero => exact Option.some.inj h ▸ hsized
      | succ remaining =>
          rw [Ring.consumeLoop] at h
          split at h
          · cases h
          · cases hslot : slots[index]? with
            | none =>
                rw [hslot] at h
                cases h
            | some slot =>
                have hmem := hsized slot (List.mem_of_getElem? hslot)
                have hsent (sent : Nat) : Slot.Sized { slot with sent := sent } := hmem
                have hset (sent : Nat) : ∀ other ∈ slots.set index { slot with sent := sent },
                    other.Sized := sized_set hsized (hsent sent)
                rw [hslot] at h
                dsimp only at h
                split at h
                · exact ih (hset _) h
                · exact ih (hset _) h

/-! ### A queue of records -/

/-- How much of the oldest slot is sent. -/
def headSent (queue : List Logger.Slot) : Nat := (queue.head?.map Logger.Slot.sent).getD 0

/-- The queue of records that some slots are. -/
def fifoOf (capacity : Nat) (queue : List Logger.Slot) : Lib.Fifo UInt8 where
  capacity := capacity
  records := queue.map Logger.Slot.bytes
  sent := headSent queue

variable {queue : List Logger.Slot} {capacity written : Nat}

theorem Orderly.unsent_tail {slot : Logger.Slot} (h : Logger.Orderly (slot :: queue)) :
    Logger.unsent queue = (queue.map Logger.Slot.bytes).flatten := by
  have hfresh : ∀ other ∈ queue, other.unsent = other.bytes := fun other hother => by
    rw [Logger.Slot.unsent, h.2 other hother, List.drop_zero]
  rw [Logger.unsent, List.flatMap_def, List.map_congr_left hfresh]

theorem fifoOf_unsent (h : Logger.Orderly queue) :
    (fifoOf capacity queue).unsent = Logger.unsent queue := by
  cases queue with
  | nil => rfl
  | cons slot rest =>
      have hopen := h.1 slot List.mem_cons_self
      have hle : slot.sent ≤ slot.bytes.length := Nat.le_of_lt hopen
      show (List.flatten (slot.bytes :: rest.map Logger.Slot.bytes)).drop slot.sent = _
      rw [List.flatten_cons, List.drop_append_of_le_length hle, ← Orderly.unsent_tail h]
      rfl

theorem fifoOf_open (h : Logger.Orderly queue) : (fifoOf capacity queue).Open := by
  refine ⟨?_, ?_⟩
  · intro record hrecord
    obtain ⟨slot, hslot, rfl⟩ := List.mem_map.mp hrecord
    exact List.ne_nil_of_length_pos (Nat.zero_lt_of_lt (h.1 slot hslot))
  · cases queue with
    | nil => exact nofun
    | cons slot rest =>
        intro record hrecord
        obtain rfl := Option.some.inj hrecord
        exact h.1 slot List.mem_cons_self

theorem fifoOf_push (record : Bytes) (hroom : queue.length < capacity) :
    fifoOf capacity (queue ++ [⟨record, 0⟩]) = (fifoOf capacity queue).push record := by
  have hlength : (fifoOf capacity queue).records.length < (fifoOf capacity queue).capacity := by
    show (queue.map _).length < capacity
    rwa [List.length_map]
  rw [Lib.Fifo.push, if_pos hlength, fifoOf, List.map_append]
  cases queue with
  | nil => rfl
  | cons slot rest => rfl

theorem Orderly.headSent_tail {slot : Logger.Slot} (h : Logger.Orderly (slot :: queue)) :
    headSent queue = 0 := by
  cases queue with
  | nil => rfl
  | cons next rest => exact h.2 next List.mem_cons_self

theorem fifoOf_drop (h : Logger.Orderly queue) :
    fifoOf capacity queue.tail = (fifoOf capacity queue).drop := by
  cases queue with
  | nil => rfl
  | cons slot rest =>
      rw [List.tail_cons, fifoOf, Orderly.headSent_tail h]
      rfl

/-- A completed write advances the queue of records. -/
theorem consumeQueue_advance (h : Logger.Orderly queue)
    (hwritten : written ≤ (Logger.unsent queue).length) :
    (Logger.consumeQueue queue written).1 =
        Lib.Fifo.finished (queue.map Logger.Slot.bytes) (headSent queue + written) ∧
      fifoOf capacity (Logger.consumeQueue queue written).2 = (fifoOf capacity queue).advance written := by
  induction queue generalizing written with
  | nil =>
      obtain rfl : written = 0 := Nat.le_zero.mp hwritten
      exact ⟨rfl, rfl⟩
  | cons slot rest ih =>
      have hopen := h.1 slot List.mem_cons_self
      have hlength := Logger.length_unsent slot
      rw [Logger.unsent, List.flatMap_cons, List.length_append] at hwritten
      have hfinished := Lib.Fifo.finished_cons slot.bytes (rest.map Logger.Slot.bytes)
        (slot.sent + written)
      rw [Logger.consumeQueue]
      by_cases hdone : slot.unsent.length ≤ written
      · obtain ⟨hcount, hrest⟩ := @ih (written - slot.unsent.length) h.tail
          (by rw [Logger.unsent]; omega)
        have hbytes : 0 + (written - slot.unsent.length) =
            slot.sent + written - slot.bytes.length := by omega
        rw [Orderly.headSent_tail h, hbytes] at hcount
        rw [if_pos (by omega), ← hcount] at hfinished
        rw [if_pos hdone]
        refine ⟨hfinished.symm, hrest.trans ?_⟩
        have hstep := Lib.Fifo.advance_cons capacity slot.sent slot.bytes
          (rest.map Logger.Slot.bytes) written
        rw [if_pos (by omega)] at hstep
        rw [← hbytes, Nat.zero_add] at hstep
        rw [fifoOf, Orderly.headSent_tail h]
        exact hstep.symm
      · have hstep := Lib.Fifo.advance_cons capacity slot.sent slot.bytes
          (rest.map Logger.Slot.bytes) written
        rw [if_neg (by omega)] at hfinished hstep
        rw [if_neg hdone]
        exact ⟨hfinished.symm, hstep.symm⟩

/-! ### The ring -/

namespace Ring

/-- The queued slots, the oldest first. -/
def view (ring : Ring) : List Slot := Lib.Ring.view ring.slots ring.readIndex ring.count

structure Valid (ring : Ring) : Prop where
  logger : ring.toLogger.Valid
  sized : ∀ slot ∈ ring.slots, slot.Sized
  fits : ∀ slot ∈ ring.view, slot.len ≤ slotBytes

/-- The records of a ring, and how much of the oldest is sent. -/
def fifo (ring : Ring) : Lib.Fifo UInt8 := fifoOf ring.slots.length ring.toLogger.queue

theorem toLogger_queue (ring : Ring) : ring.toLogger.queue = ring.view.map Slot.record :=
  Lib.Ring.view_map Slot.record ring.slots ring.readIndex ring.count

theorem Valid.count_le (h : ring.Valid) : ring.count ≤ ring.slots.length := by
  have hle := h.logger.count_le
  rwa [toLogger, List.length_map] at hle

theorem Valid.readIndex_lt (h : ring.Valid) (hpos : 0 < ring.slots.length) :
    ring.readIndex < ring.slots.length := by
  have hlt := h.logger.readIndex_lt (by rwa [toLogger, List.length_map])
  rwa [toLogger, List.length_map] at hlt

theorem Valid.holds (h : ring.Valid) : ∀ slot ∈ ring.view, slot.Holds :=
  fun slot hslot =>
    ⟨h.sized slot (List.mem_rotate.mp (List.mem_of_mem_take hslot)), h.fits slot hslot⟩

theorem Valid.length_view (h : ring.Valid) : ring.view.length = ring.count :=
  Lib.Ring.length_view h.count_le

theorem Valid.length_queue (h : ring.Valid) : ring.toLogger.queue.length = ring.count :=
  h.logger.length_queue

/-- A queued slot is where the view has it. -/
theorem Valid.readAt (h : ring.Valid) (offset : Nat) : ring.readAt offset = ring.view[offset]? := by
  unfold Ring.readAt peekAt
  split
  · rename_i hle
    rw [Option.bind_none, List.getElem?_eq_none (by rwa [h.length_view])]
  · rename_i hlt
    have hcount := h.count_le
    have hget := @Lib.Ring.getElem?_view _ _ _ _ (h.readIndex_lt (by omega)) offset (by omega) hcount
    rw [Option.bind_some, view, hget]

theorem Valid.unsent (h : ring.Valid) : ring.unsent = Logger.unsent ring.toLogger.queue := by
  have hview : (List.range ring.count).map (fun offset => ring.readAt offset) = ring.view.map some := by
    refine List.ext_getElem? fun i => ?_
    rw [List.getElem?_map, List.getElem?_map]
    by_cases hi : i < ring.count
    · have hlt : i < ring.view.length := by rwa [h.length_view]
      rw [List.getElem?_range hi, List.getElem?_eq_getElem hlt, Option.map_some, Option.map_some,
        h.readAt, List.getElem?_eq_getElem hlt]
    · rw [List.getElem?_eq_none (by rw [List.length_range]; omega),
        List.getElem?_eq_none (by rw [h.length_view]; omega)]
      rfl
  have hmap := congrArg (List.map fun slot => (Option.map Slot.unsent slot).getD []) hview
  rw [List.map_map, List.map_map] at hmap
  have hrecords : ring.view.map (fun slot => slot.record.unsent) = ring.view.map Slot.unsent := by
    refine List.map_congr_left fun slot hslot => ?_
    rw [(h.holds slot hslot).record_eq]
    rfl
  rw [Ring.unsent, toLogger_queue, Logger.unsent, List.flatMap_map, List.flatMap_def, List.flatMap_def,
    hrecords]
  exact congrArg List.flatten hmap

/-- The peeked records are those of the queue. -/
theorem Valid.peekAt (h : ring.Valid) (offset : Nat) :
    ((ring.readAt offset).map fun slot => (slot.text, slot.sent)) = ring.fifo.peekAt offset := by
  have hqueue := toLogger_queue ring
  have horderly := h.logger.orderly
  have hholds := h.holds
  rw [h.readAt, Lib.Fifo.peekAt, fifo, fifoOf]
  rw [hqueue] at horderly ⊢
  cases hview : ring.view with
  | nil => rfl
  | cons first rest =>
      rw [hview] at horderly hholds
      cases offset with
      | zero =>
          have hfirst := (hholds first List.mem_cons_self).record_eq
          simp only [List.map_cons, List.getElem?_cons_zero, Option.map_some, if_true, headSent,
            List.head?_cons, hfirst, Option.getD_some]
      | succ offset =>
          simp only [List.map_cons, List.getElem?_cons_succ, List.getElem?_map]
          cases hslot : rest[offset]? with
          | none => rfl
          | some slot =>
              have hmem := List.mem_of_getElem? hslot
              have hsent := horderly.2 slot.record (List.mem_map_of_mem hmem)
              have hzero : slot.sent = 0 := hsent
              have hrecord := (hholds slot (List.mem_cons_of_mem _ hmem)).record_eq
              simp only [Option.map_some, hrecord, hzero, Nat.succ_ne_zero, if_false]

/-- The whole record of an event. -/
def record (shortest : UInt64 → FloatDecimal) (ring : Ring) (event : Event) : Bytes :=
  recordText shortest { event with worker := ring.worker } ring.source ++ [Ascii.lf]

theorem writeLine_writes (shortest : UInt64 → FloatDecimal) (ring : Ring) (event : Event) :
    Writes (ring.writeLine shortest event) (ring.record shortest event) :=
  (writeRecord_writes shortest _ ring.source).bind (writeAll_writes [Ascii.lf])

/-- What an event does to the queue: its record goes to the end, or nothing happens. -/
structure Emits (shortest : UInt64 → FloatDecimal) (ring : Ring) (event : Event) (next : Ring) :
    Prop where
  valid : next.Valid
  line : next.line shortest = ring.line shortest
  slots : next.slots.length = ring.slots.length
  grows : (∃ slot : Slot, slot.Holds ∧ slot.sent = 0 ∧ ring.line shortest event = some slot.text ∧
      ring.count < ring.slots.length ∧ next.count = ring.count + 1 ∧
        next.view = ring.view ++ [slot]) ∨
    ((ring.line shortest event = none ∨ ring.count = ring.slots.length) ∧
      next.count = ring.count ∧ next.view = ring.view)
  readIndex : next.readIndex = ring.readIndex

theorem Valid.orderly_view (h : ring.Valid) : Logger.Orderly (ring.view.map Slot.record) :=
  toLogger_queue ring ▸ h.logger.orderly

/-- A ring is valid when its counters, its buffers and its view are. -/
theorem valid_of_view (hcount : ring.count ≤ ring.slots.length)
    (hindex : 0 < ring.slots.length → ring.readIndex < ring.slots.length)
    (horderly : Logger.Orderly (ring.view.map Slot.record))
    (hsized : ∀ slot ∈ ring.slots, slot.Sized) (hfits : ∀ slot ∈ ring.view, slot.len ≤ slotBytes) :
    ring.Valid := by
  refine ⟨⟨?_, ?_, ?_⟩, hsized, hfits⟩
  · rwa [toLogger, List.length_map]
  · intro hne
    rw [toLogger, List.length_map]
    refine hindex ?_
    have hpos := List.length_pos_iff.mpr hne
    rwa [toLogger, List.length_map] at hpos
  · rwa [toLogger_queue]

theorem Valid.congr (h : ring.Valid) (hslots : next.slots = ring.slots)
    (hindex : next.readIndex = ring.readIndex) (hcount : next.count = ring.count) : next.Valid := by
  have hview : next.view = ring.view := by rw [view, view, hslots, hindex, hcount]
  refine valid_of_view ?_ ?_ ?_ ?_ ?_
  · rw [hcount, hslots]
    exact h.count_le
  · rw [hindex, hslots]
    exact h.readIndex_lt
  · rw [hview]
    exact h.orderly_view
  · rw [hslots]
    exact h.sized
  · rw [hview]
    exact h.fits

theorem Emits.skip (h : ring.Valid)
    (hskip : ring.line shortest event = none ∨ ring.count = ring.slots.length)
    (hline : next.line shortest = ring.line shortest) (hslots : next.slots = ring.slots)
    (hindex : next.readIndex = ring.readIndex) (hcount : next.count = ring.count) :
    Emits shortest ring event next where
  valid := h.congr hslots hindex hcount
  line := hline
  slots := by rw [hslots]
  grows := Or.inr ⟨hskip, hcount, by rw [view, view, hslots, hindex, hcount]⟩
  readIndex := hindex

theorem record_ne_nil (shortest : UInt64 → FloatDecimal) (ring : Ring) (event : Event) :
    ring.record shortest event ≠ [] := by
  rw [record]
  exact List.append_ne_nil_of_right_ne_nil _ (List.cons_ne_nil _ _)

theorem line_some (hfilter : ring.enabled = true ∧ (event.level = .debug → ring.verbose = true))
    (hfits : (ring.record shortest event).length ≤ slotBytes) :
    ring.line shortest event = some (ring.record shortest event) :=
  if_pos ⟨hfilter.1, hfilter.2, hfits⟩

theorem line_none (h : ¬(ring.enabled = true ∧ (event.level = .debug → ring.verbose = true) ∧
    (ring.record shortest event).length ≤ slotBytes)) : ring.line shortest event = none :=
  if_neg h

/-- A slot behind the queue may hold what it likes. -/
theorem Valid.set_free (h : ring.Valid) (hroom : ring.count < ring.slots.length) (slot : Slot) :
    Lib.Ring.view (ring.slots.set (Lib.Ring.wrap ring.slots.length (ring.readIndex + ring.count)) slot)
      ring.readIndex ring.count = ring.view :=
  Lib.Ring.view_set_free (h.readIndex_lt (Nat.zero_lt_of_lt hroom)) hroom slot

theorem Valid.set_push (h : ring.Valid) (hroom : ring.count < ring.slots.length) (slot : Slot) :
    Lib.Ring.view (ring.slots.set (Lib.Ring.wrap ring.slots.length (ring.readIndex + ring.count)) slot)
      ring.readIndex (ring.count + 1) = ring.view ++ [slot] :=
  Lib.Ring.view_push (h.readIndex_lt (Nat.zero_lt_of_lt hroom)) hroom slot

theorem emits_failed (h : ring.Valid) (hroom : ring.count < ring.slots.length)
    (hline : ring.line shortest event = none) {slot : Slot} (hslot : slot.Sized) :
    Emits shortest ring event { ring.dropped with
      slots := ring.slots.set (Lib.Ring.wrap ring.slots.length (ring.readIndex + ring.count)) slot } where
  valid := by
    refine valid_of_view ?_ ?_ ?_ ?_ ?_
    · exact Nat.le_trans h.count_le (Nat.le_of_eq List.length_set.symm)
    · intro hpos
      dsimp only at hpos ⊢
      rw [List.length_set] at hpos ⊢
      exact h.readIndex_lt hpos
    · have horderly := h.orderly_view
      rw [← h.set_free hroom slot] at horderly
      exact horderly
    · exact sized_set h.sized hslot
    · have hfits := h.fits
      rw [← h.set_free hroom slot] at hfits
      exact hfits
  line := rfl
  slots := List.length_set
  grows := Or.inr ⟨Or.inl hline, rfl, h.set_free hroom slot⟩
  readIndex := rfl

theorem emits_written (h : ring.Valid) (hroom : ring.count < ring.slots.length) {slot : Slot}
    (hslot : slot.Holds) (hsent : slot.sent = 0) (hne : slot.text ≠ [])
    (hline : ring.line shortest event = some slot.text) (metrics : Metrics) :
    Emits shortest ring event { ring with
      slots := ring.slots.set (Lib.Ring.wrap ring.slots.length (ring.readIndex + ring.count)) slot
      count := ring.count + 1
      metrics := metrics } where
  valid := by
    refine valid_of_view ?_ ?_ ?_ ?_ ?_
    · exact Nat.le_trans hroom (Nat.le_of_eq List.length_set.symm)
    · intro hpos
      dsimp only at hpos ⊢
      rw [List.length_set] at hpos ⊢
      exact h.readIndex_lt hpos
    · have hview := h.set_push hroom slot
      have hrecord : slot.record = ⟨slot.text, 0⟩ := by rw [hslot.record_eq, hsent]
      show Logger.Orderly (List.map Slot.record (Lib.Ring.view _ _ _))
      rw [hview, List.map_append, List.map_singleton, hrecord]
      exact h.orderly_view.append_fresh hne
    · exact sized_set h.sized hslot.1
    · have hfits : ∀ other ∈ ring.view ++ [slot], other.len ≤ slotBytes := by
        intro other hother
        rcases List.mem_append.mp hother with hold | hnew
        · exact h.fits other hold
        · exact List.mem_singleton.mp hnew ▸ hslot.2
      rw [← h.set_push hroom slot] at hfits
      exact hfits
  line := rfl
  slots := List.length_set
  grows := Or.inl ⟨slot, hslot, hsent, hline, hroom, rfl, h.set_push hroom slot⟩
  readIndex := rfl

theorem emit_spec (h : ring.Valid) (event : Event) :
    ∃ next, ring.emit shortest event = some next ∧ Emits shortest ring event next := by
  unfold emit
  split
  · rename_i hdisabled
    refine ⟨ring, rfl, Emits.skip h (Or.inl (line_none fun hline => ?_)) rfl rfl rfl rfl⟩
    rw [hline.1] at hdisabled
    cases hdisabled
  split
  · rename_i hquiet
    refine ⟨ring, rfl, Emits.skip h (Or.inl (line_none fun hline => ?_)) rfl rfl rfl rfl⟩
    have hverbose := hline.2.1 hquiet.1
    have hnot := hquiet.2
    rw [hverbose] at hnot
    cases hnot
  split
  · rename_i hfull
    exact ⟨ring.dropped, rfl, Emits.skip h (Or.inr hfull) rfl rfl rfl rfl⟩
  rename_i henabled hloud hfull
  have hroom : ring.count < ring.slots.length := Nat.lt_of_le_of_ne h.count_le hfull
  have hindex := Lib.Ring.wrap_lt (h.readIndex_lt (Nat.zero_lt_of_lt hroom)) hroom
  have hfilter : ring.enabled = true ∧ (event.level = .debug → ring.verbose = true) := by
    refine ⟨?_, fun hdebug => ?_⟩
    · simpa using henabled
    · simpa [hdebug] using hloud
  have hget := List.getElem?_eq_getElem hindex
  generalize ring.slots[Lib.Ring.wrap ring.slots.length (ring.readIndex + ring.count)] = slot at hget
  have hsized := h.sized slot (List.mem_of_getElem? hget)
  have hbuffer : (Lib.Buffer.ofStorage slot.bytes).room = slotBytes := hsized
  obtain ⟨hfits, hfails⟩ := writeLine_writes shortest ring event (.ofStorage slot.bytes)
  rw [hbuffer] at hfits hfails
  dsimp only
  rw [hget]
  dsimp only
  by_cases hlength : (ring.record shortest event).length ≤ slotBytes
  · -- the record ends within the buffer of the slot
    have hbound : (Lib.Buffer.ofStorage slot.bytes).len + (ring.record shortest event).length ≤
        (Lib.Buffer.ofStorage slot.bytes).capacity := by
      show 0 + _ ≤ slot.bytes.length
      rw [hsized]
      omega
    have hlen := Lib.Buffer.len_append (.ofStorage slot.bytes) (ring.record shortest event)
    have hused := Lib.Buffer.used_append (.ofStorage slot.bytes) (ring.record shortest event)
    have hcapacity := Lib.Buffer.capacity_append hbound
    rw [Lib.Buffer.used_ofStorage, List.nil_append] at hused
    have hline : ring.line shortest event = some (ring.record shortest event) :=
      line_some hfilter hlength
    have hne := record_ne_nil shortest ring event
    rw [hfits hlength]
    rw [Lib.Buffer.len_ofStorage, Nat.zero_add] at hlen
    generalize ring.record shortest event = record at *
    generalize Lib.Buffer.append (.ofStorage slot.bytes) record = writer at *
    have hwritten : Slot.Holds ⟨writer.storage, writer.len, 0⟩ :=
      ⟨hcapacity.trans hsized, hlen ▸ hlength⟩
    have htext : Slot.text ⟨writer.storage, writer.len, 0⟩ = record := hused
    rw [← htext] at hline hne
    exact ⟨_, rfl, emits_written h hroom hwritten rfl hne hline _⟩
  · obtain ⟨left, hleft, hcapacity⟩ := hfails (Nat.lt_of_not_le hlength)
    have hline : ring.line shortest event = none := line_none fun hline => hlength hline.2.2
    have hleftover : Slot.Sized { slot with bytes := left.storage } := hcapacity.trans hsized
    rw [hleft]
    exact ⟨_, rfl, emits_failed h hroom hline hleftover⟩

/-! ### The operations -/

/-- The ring is the queue of records, and filters events as it did. -/
structure Refines (shortest : UInt64 → FloatDecimal) (line : Event → Option Bytes) (ring : Ring)
    (fifo : Lib.Fifo UInt8) : Prop where
  valid : ring.Valid
  fifo : ring.fifo = fifo
  line : ring.line shortest = line

variable {line : Event → Option Bytes} {fifo after : Lib.Fifo UInt8} {answer : Answer}

theorem length_records (h : ring.Valid) : ring.fifo.records.length = ring.count := by
  show (ring.toLogger.queue.map _).length = _
  rw [List.length_map, h.length_queue]

theorem emit_refines (h : Refines shortest line ring fifo)
    (hstep : fifoStep line fifo (.emit event) = some (after, answer)) :
    ∃ next, ring.step shortest (.emit event) = some (next, answer) ∧
      Refines shortest line next after := by
  obtain ⟨hvalid, rfl, rfl⟩ := h
  obtain ⟨next, hemit, hnext⟩ := @emit_spec shortest ring hvalid event
  have hrun : ring.step shortest (.emit event) =
      some (next, .emitted ((next.readAt ring.count).map Slot.text)) := by
    rw [step, hemit]
    rfl
  have hlength := length_records hvalid
  have hcapacity : ring.fifo.capacity = ring.slots.length := rfl
  rcases hnext.grows with ⟨slot, hholds, hsent, hline, hroom, hcount, hview⟩ | ⟨hskip, hcount, hview⟩
  · have hread : (next.readAt ring.count).map Slot.text = some slot.text := by
      rw [hnext.valid.readAt, hview, List.getElem?_append_right (Nat.le_of_eq hvalid.length_view),
        hvalid.length_view, Nat.sub_self]
      rfl
    have hqueue : next.toLogger.queue = ring.toLogger.queue ++ [⟨slot.text, 0⟩] := by
      rw [toLogger_queue, toLogger_queue, hview, List.map_append, List.map_singleton,
        hholds.record_eq, hsent]
    have hpush : next.fifo = ring.fifo.push slot.text := by
      rw [Ring.fifo, hqueue, hnext.slots]
      exact fifoOf_push slot.text (by rwa [hvalid.length_queue])
    rw [fifoStep, hline] at hstep
    dsimp only at hstep
    rw [if_pos (by rw [hlength, hcapacity]; exact hroom)] at hstep
    obtain ⟨rfl, rfl⟩ := Prod.mk.inj (Option.some.inj hstep)
    rw [hread] at hrun
    exact ⟨next, hrun, hnext.valid, hpush, hnext.line⟩
  · have hread : (next.readAt ring.count).map Slot.text = none := by
      rw [hnext.valid.readAt, List.getElem?_eq_none (by rw [hnext.valid.length_view, hcount])]
      rfl
    have hsame : next.fifo = ring.fifo := by
      rw [Ring.fifo, Ring.fifo, toLogger_queue, toLogger_queue, hview, hnext.slots]
    have hnothing : fifoStep (ring.line shortest) ring.fifo (.emit event) =
        some (ring.fifo, .emitted none) := by
      rw [fifoStep]
      rcases hskip with hnone | hfull
      · rw [hnone]
      · split
        · rfl
        · exact if_neg (by rw [hlength, hcapacity]; omega)
    rw [hnothing] at hstep
    obtain ⟨rfl, rfl⟩ := Prod.mk.inj (Option.some.inj hstep)
    rw [hread] at hrun
    exact ⟨next, hrun, hnext.valid, hsame, hnext.line⟩

theorem consume_spec (h : ring.Valid) (hpos : 0 < ring.count) :
    ∃ next, ring.consume = some next ∧ next.Valid ∧
      next.toLogger.queue = ring.toLogger.queue.tail ∧ next.slots = ring.slots ∧
      next.line shortest = ring.line shortest := by
  have hcount := h.count_le
  have hstart := h.readIndex_lt (by omega)
  have hsplit := @Lib.Ring.view_succ _ _ _ (ring.count - 1) hstart (by omega)
  rw [Nat.sub_add_cancel hpos] at hsplit
  have hview : Lib.Ring.view ring.slots (Lib.Ring.next ring.slots.length ring.readIndex)
      (ring.count - 1) = ring.view.tail := by
    rw [view, hsplit, List.tail_cons]
  have horderly : Logger.Orderly (ring.view.tail.map Slot.record) := by
    have hall := h.orderly_view
    rw [List.map_tail]
    cases hqueue : ring.view.map Slot.record with
    | nil =>
        rw [hqueue] at hall
        exact hall
    | cons slot queue =>
        rw [hqueue] at hall
        exact hall.tail
  rw [consume, if_neg (by omega)]
  have hfits : ∀ slot ∈ ring.view.tail, slot.len ≤ slotBytes :=
    fun slot hslot => h.fits slot (List.mem_of_mem_tail hslot)
  refine ⟨_, rfl, valid_of_view ?_ ?_ ?_ h.sized ?_, ?_, rfl, rfl⟩
  · exact Nat.le_trans (Nat.sub_le _ _) hcount
  · exact fun _ => Lib.Ring.next_lt hstart
  · rw [← hview] at horderly
    exact horderly
  · rw [← hview] at hfits
    exact hfits
  · rw [toLogger_queue ring, ← List.map_tail, ← hview]
    exact toLogger_queue _

theorem consume_refines (h : Refines shortest line ring fifo)
    (hstep : fifoStep line fifo .consume = some (after, answer)) :
    ∃ next, ring.step shortest .consume = some (next, answer) ∧ Refines shortest line next after := by
  obtain ⟨hvalid, rfl, rfl⟩ := h
  cases hrecords : ring.fifo.records with
  | nil =>
      rw [fifoStep, hrecords] at hstep
      cases hstep
  | cons first rest =>
      rw [fifoStep, hrecords] at hstep
      obtain ⟨rfl, rfl⟩ := Prod.mk.inj (Option.some.inj hstep)
      have hpos : 0 < ring.count := by
        rw [← length_records hvalid, hrecords]
        exact Nat.succ_pos _
      have hpeek := hvalid.peekAt 0
      have hleft : ((ring.readAt 0).map Slot.unsent).getD [] = first.drop ring.fifo.sent := by
        rw [Lib.Fifo.peekAt, hrecords] at hpeek
        cases hread : ring.readAt 0 with
        | none =>
            rw [hread] at hpeek
            cases hpeek
        | some slot =>
            rw [hread] at hpeek
            obtain ⟨htext, hsent⟩ := Prod.mk.inj (Option.some.inj hpeek)
            show slot.text.drop slot.sent = _
            rw [htext, hsent, if_pos rfl]
      obtain ⟨next, hconsume, hnext, hqueue, hslots, hline⟩ :=
        @consume_spec shortest ring hvalid hpos
      refine ⟨next, ?_, hnext, ?_, hline⟩
      · rw [step, hconsume, Option.map_some, hleft]
      · rw [Ring.fifo, hqueue, hslots]
        exact fifoOf_drop hvalid.logger.orderly

theorem consumeBytes_spec (h : ring.Valid) {written : Nat} (hwritten : written ≤ ring.unsent.length) :
    ∃ next, ring.consumeBytes written =
        some ((Logger.consumeQueue ring.toLogger.queue written).1, next) ∧ next.Valid ∧
      next.toLogger.queue = (Logger.consumeQueue ring.toLogger.queue written).2 ∧
      next.slots.length = ring.slots.length ∧ next.line shortest = ring.line shortest := by
  rw [h.unsent] at hwritten
  obtain ⟨slots, index, hloop, hlength, hindex, hview⟩ :=
    @Logger.consumeLoop_queue ring.count ring.toLogger.queue ring.toLogger.slots written 0
      ring.readIndex (ring.count + 1) rfl h.logger.index_lt h.logger.count_le (Nat.zero_le _)
      (Nat.lt_succ_self _) h.logger.orderly.1 hwritten
  rw [Nat.zero_add] at hloop hview
  have hmap := (@consumeLoop_record ring.count (ring.count + 1) ring.slots written 0
    ring.readIndex).symm.trans hloop
  obtain ⟨⟨slots, records, index⟩, hread, hsame⟩ := Option.map_eq_some_iff.mp hmap
  obtain ⟨rfl, hrest⟩ := Prod.mk.inj hsame
  obtain ⟨rfl, rfl⟩ := Prod.mk.inj hrest
  have hsized := consumeLoop_sized h.sized hread
  have hslots : slots.length = ring.slots.length := by
    rwa [List.length_map, toLogger, List.length_map] at hlength
  rw [Lib.Ring.view_map] at hview
  have horderly := Logger.consumeQueue_orderly h.logger.orderly written
  have hrecords := Logger.consumeQueue_records ring.toLogger.queue written
  rw [← hview] at horderly hrecords
  rw [consumeBytes, hread, Option.map_some]
  refine ⟨_, rfl, valid_of_view ?_ ?_ horderly hsized ?_, ?_, hslots, rfl⟩
  · exact Nat.le_trans (Nat.sub_le _ _) (Nat.le_trans h.count_le (Nat.le_of_eq hslots.symm))
  · intro hpos
    have hlt := hindex (List.ne_nil_of_length_pos (by rwa [List.length_map]))
    rwa [List.length_map] at hlt
  · -- the records that are left were queued before
    intro slot hslot
    have hmem : slot.record.bytes ∈ (List.map Slot.record (Lib.Ring.view slots index
        (ring.count - (Logger.consumeQueue ring.toLogger.queue written).1))).map Logger.Slot.bytes :=
      List.mem_map_of_mem (List.mem_map_of_mem hslot)
    rw [hrecords, toLogger_queue, List.map_map] at hmem
    obtain ⟨old, hold, hsame⟩ := List.mem_map.mp (List.mem_of_mem_drop hmem)
    have hlength := congrArg List.length hsame
    rw [Slot.length_record, Function.comp_apply, Slot.length_record] at hlength
    exact hlength ▸ h.fits old hold
  · rw [← hview]
    exact toLogger_queue _

theorem consumeBytes_refines (h : Refines shortest line ring fifo) {written : Nat}
    (hstep : fifoStep line fifo (.consumeBytes written) = some (after, answer)) :
    ∃ next, ring.step shortest (.consumeBytes written) = some (next, answer) ∧
      Refines shortest line next after := by
  obtain ⟨hvalid, rfl, rfl⟩ := h
  have hunsent : ring.fifo.unsent = ring.unsent :=
    (fifoOf_unsent hvalid.logger.orderly).trans hvalid.unsent.symm
  rw [fifoStep] at hstep
  split at hstep
  · rename_i hle
    obtain ⟨rfl, rfl⟩ := Prod.mk.inj (Option.some.inj hstep)
    rw [hunsent] at hle ⊢
    obtain ⟨next, hconsume, hnext, hqueue, hslots, hline⟩ :=
      @consumeBytes_spec shortest ring hvalid written hle
    rw [hvalid.unsent] at hle
    obtain ⟨hfinished, hadvance⟩ :=
      @consumeQueue_advance _ ring.slots.length _ hvalid.logger.orderly hle
    refine ⟨next, ?_, hnext, ?_, hline⟩
    · rw [step, hconsume, hfinished]
      rfl
    · rw [Ring.fifo, hqueue, hslots]
      exact hadvance
  · cases hstep

/-- Every operation is the operation on the queue of records. -/
theorem step_refines {action : Action} (h : Refines shortest line ring fifo)
    (hstep : fifoStep line fifo action = some (after, answer)) :
    ∃ next, ring.step shortest action = some (next, answer) ∧ Refines shortest line next after := by
  cases action with
  | emit event => exact emit_refines h hstep
  | peekAt offset =>
      rw [fifoStep] at hstep
      obtain ⟨rfl, rfl⟩ := Prod.mk.inj (Option.some.inj hstep)
      refine ⟨ring, ?_, h⟩
      rw [step, h.valid.peekAt, h.fifo]
  | consume => exact consume_refines h hstep
  | consumeBytes written => exact consumeBytes_refines h hstep

/-- A new logger: `init`, and what the worker sets then. -/
def start (slots : List Slot) (verbose enabled : Bool) (worker : UInt32) (source : Option Source) :
    Ring where
  slots := slots
  verbose := verbose
  enabled := enabled
  worker := worker
  source := source

theorem start_refines {slots : List Slot} (hslots : ∀ slot ∈ slots, slot.Sized)
    (verbose enabled : Bool) (worker : UInt32) (source : Option Source) :
    Refines shortest ((start slots verbose enabled worker source).line shortest)
      (start slots verbose enabled worker source) { capacity := slots.length } := by
  have hview : (start slots verbose enabled worker source).view = [] := by
    rw [view, Lib.Ring.view]
    exact List.take_zero
  refine ⟨valid_of_view (Nat.zero_le _) id ?_ hslots ?_, ?_, rfl⟩
  · rw [hview]
    exact ⟨by rintro _ ⟨⟩, by rintro _ ⟨⟩⟩
  · rw [hview]
    rintro _ ⟨⟩
  · rw [Ring.fifo, toLogger_queue, hview]
    rfl

/-- What is taken and what is left are what was queued. -/
theorem step_stream {action : Action} (h : Refines shortest line ring fifo)
    (hstep : fifoStep line fifo action = some (after, answer)) :
    answer.taken ++ after.unsent = fifo.unsent ++ answer.queued := by
  have hopen : fifo.Open := h.fifo ▸ fifoOf_open h.valid.logger.orderly
  have hempty : fifo.records = [] → fifo.sent = 0 := by
    obtain rfl := h.fifo
    intro hnil
    have hqueue : ring.toLogger.queue = [] := List.map_eq_nil_iff.mp hnil
    show headSent ring.toLogger.queue = 0
    rw [hqueue]
    rfl
  cases action with
  | emit event =>
      rw [fifoStep] at hstep
      split at hstep
      · obtain ⟨rfl, rfl⟩ := Prod.mk.inj (Option.some.inj hstep)
        exact (List.append_nil _).symm
      · split at hstep
        · rename_i hroom
          obtain ⟨rfl, rfl⟩ := Prod.mk.inj (Option.some.inj hstep)
          exact Lib.Fifo.push_unsent hopen hempty hroom _
        · obtain ⟨rfl, rfl⟩ := Prod.mk.inj (Option.some.inj hstep)
          exact (List.append_nil _).symm
  | peekAt offset =>
      obtain ⟨rfl, rfl⟩ := Prod.mk.inj (Option.some.inj hstep)
      exact (List.append_nil _).symm
  | consume =>
      rw [fifoStep] at hstep
      split at hstep
      · cases hstep
      · rename_i first rest hrecords
        obtain ⟨rfl, rfl⟩ := Prod.mk.inj (Option.some.inj hstep)
        have hdrop := Lib.Fifo.drop_unsent hopen
        rw [hrecords] at hdrop
        exact hdrop.trans (List.append_nil _).symm
  | consumeBytes written =>
      rw [fifoStep] at hstep
      split at hstep
      · obtain ⟨rfl, rfl⟩ := Prod.mk.inj (Option.some.inj hstep)
        exact (Lib.Fifo.advance_unsent fifo written).trans (List.append_nil _).symm
      · cases hstep

theorem trace_stream : ∀ (actions : List Action) (ring : Ring) (fifo after : Lib.Fifo UInt8)
    (answers : List Answer), Refines shortest line ring fifo →
      Lib.trace (fifoStep line) fifo actions = some (after, answers) →
        answers.flatMap Answer.taken ++ after.unsent = fifo.unsent ++ answers.flatMap Answer.queued
  | [], ring, fifo, after, answers, _, htrace => by
      obtain ⟨rfl, rfl⟩ := Prod.mk.inj (Option.some.inj htrace)
      exact (List.append_nil _).symm
  | action :: actions, ring, fifo, after, answers, h, htrace => by
      obtain ⟨⟨middle, answer⟩, hstep, hrest⟩ := Option.bind_eq_some_iff.mp htrace
      obtain ⟨⟨last, answers⟩, hrun, hlast⟩ := Option.map_eq_some_iff.mp hrest
      obtain ⟨rfl, rfl⟩ := Prod.mk.inj hlast
      obtain ⟨next, -, hnext⟩ := step_refines h hstep
      have hstream := step_stream h hstep
      have hlater := trace_stream actions next middle last answers hnext hrun
      rw [List.flatMap_cons, List.flatMap_cons, List.append_assoc, hlater, ← List.append_assoc,
        hstream, List.append_assoc]

/-- Every trace of the queue is one of the ring. -/
theorem trace_ring (actions : List Action) {answers : List Answer} (h : Refines shortest line ring fifo)
    (hrun : Lib.trace (fifoStep line) fifo actions = some (after, answers)) :
    ∃ next, Lib.trace (Ring.step shortest) ring actions = some (next, answers) ∧
      Refines shortest line next after := by
  have hsteps (ring : Ring) (fifo : Lib.Fifo UInt8) (action : Action) (after : Lib.Fifo UInt8)
      (answer : Answer) (h : Refines shortest line ring fifo)
      (hstep : fifoStep line fifo action = some (after, answer)) :
      ∃ next, Ring.step shortest ring action = some (next, answer) ∧
        Refines shortest line next after :=
    step_refines h hstep
  exact Lib.trace_refines hsteps actions ring fifo after answers h hrun

/-- No event touches a queued slot, whether its record is queued or not. -/
theorem emit_keeps (h : ring.Valid) (event : Event) :
    ∃ next, ring.emit shortest event = some next ∧ ∀ offset < ring.count,
      next.peekAt offset = ring.peekAt offset ∧ next.readAt offset = ring.readAt offset := by
  obtain ⟨next, hemit, hnext⟩ := @emit_spec shortest ring h event
  refine ⟨next, hemit, fun offset hoffset => ?_⟩
  have hcount : ring.count ≤ next.count := by
    rcases hnext.grows with ⟨slot, -, -, -, -, hcount, -⟩ | ⟨-, hcount, -⟩ <;> omega
  constructor
  · rw [peekAt, peekAt, if_neg (by omega), if_neg (by omega), hnext.slots, hnext.readIndex]
  · rw [hnext.valid.readAt, h.readAt]
    rcases hnext.grows with ⟨slot, -, -, -, -, -, hview⟩ | ⟨-, -, hview⟩
    · rw [hview, List.getElem?_append_left (by rwa [h.length_view])]
    · rw [hview]

end Ring

open Log.Ring in
/-- The slots are a bounded queue of records: every operation answers as the operation on the queue
does, what is taken and what is left are the queued records in their order, and no event touches a
queued slot. -/
theorem log_ring_is_fifo (shortest : UInt64 → FloatDecimal) {slots : List Slot}
    (hslots : ∀ slot ∈ slots, slot.Sized) (verbose enabled : Bool) (worker : UInt32)
    (source : Option Source) (actions : List Action) {fifo : Lib.Fifo UInt8} {answers : List Answer}
    (hrun : Lib.trace (fifoStep ((start slots verbose enabled worker source).line shortest))
      { capacity := slots.length } actions = some (fifo, answers)) :
    ∃ ring, Lib.trace (Ring.step shortest) (start slots verbose enabled worker source) actions =
        some (ring, answers) ∧
      ring.fifo = fifo ∧ ring.unsent = fifo.unsent ∧
      answers.flatMap Answer.taken ++ ring.unsent = answers.flatMap Answer.queued ∧
      ∀ event, ∃ next, ring.emit shortest event = some next ∧ ∀ offset < ring.count,
        next.peekAt offset = ring.peekAt offset ∧ next.readAt offset = ring.readAt offset := by
  have hstart := @start_refines shortest slots hslots verbose enabled worker source
  obtain ⟨ring, htrace, hring⟩ := trace_ring actions hstart hrun
  have hstream := trace_stream actions _ _ _ _ hstart hrun
  have hunsent : ring.unsent = fifo.unsent := by
    rw [← hring.fifo, hring.valid.unsent]
    exact (fifoOf_unsent hring.valid.logger.orderly).symm
  refine ⟨ring, htrace, hring.fifo, hunsent, ?_, emit_keeps hring.valid⟩
  rw [hunsent, hstream]
  rfl

/-- Floats do not occur. -/
def noDecimal (_ : UInt64) : FloatDecimal := ⟨0, 0, false, fun _ => rfl⟩

/-- Two records, the second one behind the end of the slots, and writes that end within records. -/
def wrappingActions : List Action :=
  [.emit { timestampNs := 0, event := ascii "a" }, .consume,
    .emit { timestampNs := 1, event := ascii "b" }, .consumeBytes 5,
    .emit { timestampNs := 2, event := ascii "c" }, .emit { timestampNs := 3, event := ascii "d" },
    .consumeBytes 60, .peekAt 0]

theorem log_ring_is_fifo_wrapped :
    ∃ ring answers, Lib.trace (Ring.step noDecimal)
        (Ring.start (List.replicate 2 ⟨List.replicate 2048 0, 0, 0⟩) false true 7 none)
        wrappingActions = some (ring, answers) ∧
      answers.flatMap Answer.taken ++ ring.unsent = answers.flatMap Answer.queued := by
  have hslots : ∀ slot ∈ List.replicate 2 (Slot.mk (List.replicate 2048 0) 0 0), slot.Sized := by
    intro slot hslot
    obtain ⟨-, rfl⟩ := List.mem_replicate.mp hslot
    exact List.length_replicate
  obtain ⟨ring, htrace, -, -, hstream, -⟩ := log_ring_is_fifo noDecimal hslots false true 7 none
    wrappingActions (Option.some_get (by decide +kernel)).symm
  exact ⟨ring, _, htrace, hstream⟩

end Zhtps.Log
