import Zhtps.Http.Syntax
import Zhtps.Lib.Ring

/-!
The bounded queue of log records, after `src/Logger.zig`.  A record is the text that `writeRecord`
makes of an event, and a line feed.
-/

namespace Zhtps

namespace Logger

inductive Level | debug | info | warn | error
  deriving DecidableEq, Repr

/-- An event, by its level and the JSON text of its record. -/
structure Event where
  level : Level := .info
  text : Bytes
  deriving DecidableEq, Repr

/-- The text of a slot is the part of its buffer below `len`. -/
structure Slot where
  bytes : Bytes := []
  sent : Nat := 0
  deriving DecidableEq, Repr

/-- The size of a slot's buffer. -/
def slotBytes : Nat := 2048

end Logger

structure Logger where
  slots : List Logger.Slot := []
  verbose : Bool := false
  enabled : Bool := true
  readIndex : Nat := 0
  count : Nat := 0
  deriving DecidableEq, Repr

namespace Logger

def record (event : Event) : Bytes := event.text ++ [Ascii.lf]

/-- The event is neither disabled nor dropped: a slot is free and the record fits its buffer. -/
def accepts (logger : Logger) (event : Event) : Bool :=
  logger.enabled && (event.level != .debug || logger.verbose) &&
    logger.count != logger.slots.length && (record event).length ≤ slotBytes

/-- Copies an event into the queue.  A record that does not fit leaves a free slot behind, whose
bytes nothing reads. -/
def emit (logger : Logger) (event : Event) : Logger :=
  if logger.accepts event then
    { logger with
      slots := logger.slots.set (Lib.Ring.wrap logger.slots.length
        (logger.readIndex + logger.count)) ⟨record event, 0⟩
      count := logger.count + 1 }
  else logger

/-- The index of a queued slot, by its offset from the oldest. -/
def peekAt (logger : Logger) (offset : Nat) : Option Nat :=
  if logger.count ≤ offset then none
  else some (Lib.Ring.wrap logger.slots.length (logger.readIndex + offset))

def peek (logger : Logger) : Option Nat := logger.peekAt 0

/-- The loop of `consumeBytes` over its variables.  `none` is the failed assertion: the written bytes
reach past the queued records.  A turn ends the loop or a record, so the number of records and one
more is enough fuel. -/
def consumeLoop (count : Nat) : Nat → List Slot → Nat → Nat → Nat → Option (List Slot × Nat × Nat)
  | _, slots, 0, records, index => some (slots, records, index)
  | 0, _, _ + 1, _, _ => none
  | fuel + 1, slots, remaining + 1, records, index =>
      if count ≤ records then none
      else match slots[index]? with
        | none => none
        | some slot =>
            let written := min (remaining + 1) (slot.bytes.length - slot.sent)
            let slot := { slot with sent := slot.sent + written }
            let slots := slots.set index slot
            let remaining := remaining + 1 - written
            if slot.sent = slot.bytes.length then
              consumeLoop count fuel slots remaining (records + 1) (Lib.Ring.next slots.length index)
            else consumeLoop count fuel slots remaining records index

/-- Accounts for a completed write: the number of records that it finished. -/
def consumeBytes (logger : Logger) (written : Nat) : Option (Nat × Logger) :=
  (consumeLoop logger.count (logger.count + 1) logger.slots written 0 logger.readIndex).map
    fun (slots, records, index) =>
      (records,
        { logger with
          slots := slots
          readIndex := index
          count := logger.count - records })

/-- Drops the oldest record. -/
def consume (logger : Logger) : Logger :=
  { logger with
    readIndex := Lib.Ring.next logger.slots.length logger.readIndex
    count := logger.count - 1 }

/-! ### The queue -/

/-- The queued slots, the oldest first. -/
def queue (logger : Logger) : List Slot :=
  Lib.Ring.view logger.slots logger.readIndex logger.count

def Slot.unsent (slot : Slot) : Bytes := slot.bytes.drop slot.sent

/-- What is still to be written of some slots. -/
def unsent (slots : List Slot) : Bytes := slots.flatMap Slot.unsent

/-- What was already written of the oldest slot. -/
def begun (slots : List Slot) : Bytes :=
  match slots with
  | [] => []
  | slot :: _ => slot.bytes.take slot.sent

/-- No slot is written to its end, and only the oldest is begun. -/
def Orderly (slots : List Slot) : Prop :=
  (∀ slot ∈ slots, slot.sent < slot.bytes.length) ∧ ∀ slot ∈ slots.tail, slot.sent = 0

/-- The queue lies in the array. -/
structure Valid (logger : Logger) : Prop where
  count_le : logger.count ≤ logger.slots.length
  index_lt : logger.slots ≠ [] → logger.readIndex < logger.slots.length
  orderly : Orderly logger.queue

theorem Orderly.tail {slot : Slot} {slots : List Slot} (h : Orderly (slot :: slots)) :
    Orderly slots :=
  ⟨fun s hs => h.1 s (List.mem_cons_of_mem _ hs), fun s hs => h.2 s (List.mem_of_mem_tail hs)⟩

theorem Orderly.append_fresh {slots : List Slot} (h : Orderly slots) {bytes : Bytes}
    (hbytes : bytes ≠ []) : Orderly (slots ++ [⟨bytes, 0⟩]) := by
  refine ⟨?_, ?_⟩
  · intro slot hslot
    rcases List.mem_append.mp hslot with hold | hnew
    · exact h.1 slot hold
    · obtain rfl := List.mem_singleton.mp hnew
      exact List.length_pos_iff.mpr hbytes
  · intro slot hslot
    cases slots with
    | nil => exact absurd hslot List.not_mem_nil
    | cons first rest =>
        rw [List.cons_append, List.tail_cons] at hslot
        rcases List.mem_append.mp hslot with hold | hnew
        · exact h.2 slot hold
        · obtain rfl := List.mem_singleton.mp hnew
          rfl

/-- The slots behind the oldest have not been begun. -/
theorem Orderly.begun_tail {slot : Slot} {slots : List Slot} (h : Orderly (slot :: slots)) :
    begun slots = [] := by
  cases slots with
  | nil => rfl
  | cons next rest =>
      have hzero := h.2 next List.mem_cons_self
      rw [begun, hzero, List.take_zero]

variable {logger : Logger}

theorem Valid.length_queue (h : logger.Valid) : logger.queue.length = logger.count :=
  Lib.Ring.length_view h.count_le

/-- An array that is not full is not empty. -/
theorem Valid.readIndex_lt (h : logger.Valid) (hpos : 0 < logger.slots.length) :
    logger.readIndex < logger.slots.length :=
  h.index_lt (List.length_pos_iff.mp hpos)

theorem accepts_room (h : logger.Valid) {event : Event} (haccepts : logger.accepts event = true) :
    logger.count < logger.slots.length := by
  simp only [accepts, Bool.and_eq_true, bne_iff_ne] at haccepts
  exact Nat.lt_of_le_of_ne h.count_le haccepts.1.2

/-- An event goes to the end of the queue, or nowhere. -/
theorem queue_emit (h : logger.Valid) (event : Event) :
    (logger.emit event).queue =
      logger.queue ++ if logger.accepts event then [⟨record event, 0⟩] else [] := by
  unfold emit
  split
  · rename_i haccepts
    have hroom := accepts_room h haccepts
    exact Lib.Ring.view_push (h.readIndex_lt (Nat.zero_lt_of_lt hroom)) hroom _
  · rw [List.append_nil]

theorem Valid.emit (h : logger.Valid) (event : Event) : (logger.emit event).Valid := by
  have hqueue := queue_emit h event
  by_cases haccepts : logger.accepts event = true
  · rw [if_pos haccepts] at hqueue
    have hroom := accepts_room h haccepts
    have hlength : (logger.emit event).slots.length = logger.slots.length := by
      rw [Logger.emit, if_pos haccepts, List.length_set]
    have hindex : (logger.emit event).readIndex = logger.readIndex := by
      rw [Logger.emit, if_pos haccepts]
    have hcount : (logger.emit event).count = logger.count + 1 := by
      rw [Logger.emit, if_pos haccepts]
    refine ⟨?_, ?_, ?_⟩
    · rw [hcount, hlength]
      exact hroom
    · intro _
      rw [hindex, hlength]
      exact h.readIndex_lt (Nat.zero_lt_of_lt hroom)
    · rw [hqueue]
      exact h.orderly.append_fresh (by simp [record])
  · have hsame : logger.emit event = logger := if_neg haccepts
    rwa [hsame]

/-! ### A completed write -/

/-- What a write of some bytes leaves of the queue, and how many records it finishes. -/
def consumeQueue : List Slot → Nat → Nat × List Slot
  | [], _ => (0, [])
  | slot :: rest, written =>
      if slot.unsent.length ≤ written then
        ((consumeQueue rest (written - slot.unsent.length)).1 + 1,
          (consumeQueue rest (written - slot.unsent.length)).2)
      else (0, { slot with sent := slot.sent + written } :: rest)

theorem length_unsent (slot : Slot) : slot.unsent.length = slot.bytes.length - slot.sent :=
  List.length_drop

theorem consumeLoop_queue {count : Nat} {queue slots : List Slot} {remaining records index : Nat}
    {fuel : Nat} (hqueue : Lib.Ring.view slots index (count - records) = queue)
    (hindex : slots ≠ [] → index < slots.length) (hcount : count ≤ slots.length)
    (hrecords : records ≤ count) (hfuel : count - records < fuel)
    (hunfinished : ∀ slot ∈ queue, slot.sent < slot.bytes.length)
    (hremaining : remaining ≤ (unsent queue).length) :
    ∃ slots' index', consumeLoop count fuel slots remaining records index =
        some (slots', records + (consumeQueue queue remaining).1, index') ∧
      slots'.length = slots.length ∧ (slots' ≠ [] → index' < slots'.length) ∧
      Lib.Ring.view slots' index' (count - (records + (consumeQueue queue remaining).1)) =
        (consumeQueue queue remaining).2 := by
  induction queue generalizing slots remaining records index fuel with
  | nil =>
      obtain rfl : remaining = 0 := Nat.le_zero.mp hremaining
      cases fuel <;> exact ⟨slots, index, rfl, rfl, hindex, hqueue⟩
  | cons slot rest ih =>
      have hlength := congrArg List.length hqueue
      rw [Lib.Ring.length_view (by omega), List.length_cons] at hlength
      have hstart : index < slots.length := hindex (List.ne_nil_of_length_pos (by omega))
      obtain ⟨n, hn⟩ : ∃ n, count - records = n + 1 := ⟨rest.length, hlength⟩
      have hsucc := @Lib.Ring.view_succ _ _ _ n hstart (by omega)
      rw [← hn, hqueue] at hsucc
      obtain ⟨hslot, hrest⟩ := List.cons.inj hsucc
      have hopen := hunfinished slot List.mem_cons_self
      have hlen := length_unsent slot
      obtain ⟨fuel, rfl⟩ : ∃ f, fuel = f + 1 := ⟨fuel - 1, by omega⟩
      cases remaining with
      | zero =>
          have hsame : consumeQueue (slot :: rest) 0 = (0, slot :: rest) := by
            rw [consumeQueue, if_neg (by omega)]
            rfl
          rw [hsame]
          exact ⟨slots, index, rfl, rfl, hindex, hqueue⟩
      | succ remaining =>
          have hget : slots[index]? = some slot := by
            rw [List.getElem?_eq_getElem hstart, hslot]
          rw [consumeLoop, if_neg (by omega)]
          simp only [hget]
          by_cases hdone : slot.unsent.length ≤ remaining + 1
          · -- the record is finished, and the loop goes on with the next one
            have hmin : min (remaining + 1) (slot.bytes.length - slot.sent) =
                slot.unsent.length := by omega
            have hstep := @ih (slots.set index { slot with sent := slot.sent + slot.unsent.length })
              (remaining + 1 - slot.unsent.length) (records + 1) (Lib.Ring.next slots.length index)
              fuel
            rw [List.length_set] at hstep
            rw [hmin, if_pos (by omega), List.length_set, consumeQueue, if_pos hdone,
              ← Nat.add_assoc, Nat.add_right_comm]
            refine hstep ?_ ?_ hcount (by omega) (by omega) ?_ ?_
            · rw [show count - (records + 1) = n by omega, Lib.Ring.view_set_behind hstart (by omega)]
              exact hrest.symm
            · exact fun _ => Lib.Ring.next_lt hstart
            · exact fun slot hslot => hunfinished slot (List.mem_cons_of_mem _ hslot)
            · rw [unsent, List.flatMap_cons, List.length_append] at hremaining
              rw [unsent]
              omega
          · have hmin : min (remaining + 1) (slot.bytes.length - slot.sent) = remaining + 1 := by
              omega
            rw [hmin, if_neg (by omega), Nat.sub_self, consumeQueue, if_neg hdone]
            refine ⟨slots.set index { slot with sent := slot.sent + (remaining + 1) }, index, ?_,
              List.length_set, ?_, ?_⟩
            · cases fuel <;> rfl
            · rw [List.length_set]
              exact fun _ => hstart
            · show Lib.Ring.view _ index (count - records) = _
              rw [hn, Lib.Ring.view_set_head hstart (by omega), ← hrest]

theorem consumeQueue_orderly {queue : List Slot} (h : Orderly queue) (written : Nat) :
    Orderly (consumeQueue queue written).2 := by
  induction queue generalizing written with
  | nil => exact h
  | cons slot rest ih =>
      rw [consumeQueue]
      split
      · exact ih h.tail _
      · rename_i hopen
        rw [length_unsent] at hopen
        refine ⟨?_, h.2⟩
        intro s hs
        rcases List.mem_cons.mp hs with rfl | hs
        · dsimp only
          omega
        · exact h.1 s (List.mem_cons_of_mem _ hs)

/-- The records that are left are the last ones. -/
theorem consumeQueue_records (queue : List Slot) (written : Nat) :
    (consumeQueue queue written).2.map Slot.bytes =
      (queue.map Slot.bytes).drop (consumeQueue queue written).1 := by
  induction queue generalizing written with
  | nil => rfl
  | cons slot rest ih =>
      rw [consumeQueue]
      split
      · exact ih _
      · rfl

/-- The bytes of a write are those of the records that it finishes, and a part of the next one. -/
theorem consumeQueue_bytes {queue : List Slot} (h : Orderly queue) {written : Nat}
    (hwritten : written ≤ (unsent queue).length) :
    begun queue ++ (unsent queue).take written =
      ((queue.take (consumeQueue queue written).1).map Slot.bytes).flatten ++
        begun (consumeQueue queue written).2 := by
  induction queue generalizing written with
  | nil => rw [show unsent [] = [] from rfl, List.take_nil, List.take_nil]; rfl
  | cons slot rest ih =>
      have hcover : slot.bytes.take slot.sent ++ slot.unsent = slot.bytes :=
        List.take_append_drop _ _
      rw [unsent, List.flatMap_cons] at hwritten ⊢
      rw [List.length_append] at hwritten
      rw [consumeQueue]
      split
      · rename_i hdone
        have hrest := @ih h.tail (written - slot.unsent.length) (by rw [unsent]; omega)
        rw [h.begun_tail, List.nil_append] at hrest
        rw [List.take_append, List.take_of_length_le hdone, List.take_succ_cons, List.map_cons,
          List.flatten_cons, List.append_assoc, ← hrest, begun, ← List.append_assoc, hcover, unsent]
      · rename_i hopen
        rw [List.take_append_of_le_length (by omega), List.take_zero, List.map_nil,
          List.flatten_nil, List.nil_append, begun, begun, List.take_add, Slot.unsent]

/-- A write within the first records finishes these at most. -/
theorem consumeQueue_le {queue : List Slot} (h : Orderly queue) {batch written : Nat}
    (hwritten : written ≤ (unsent (queue.take batch)).length) :
    (consumeQueue queue written).1 ≤ batch := by
  induction queue generalizing batch written with
  | nil => exact Nat.zero_le _
  | cons slot rest ih =>
      have hpos := h.1 slot List.mem_cons_self
      have hlen := length_unsent slot
      rw [consumeQueue]
      split
      · cases batch with
        | zero =>
            rw [List.take_zero] at hwritten
            have hzero : written ≤ 0 := hwritten
            omega
        | succ batch =>
            rw [List.take_succ_cons, unsent, List.flatMap_cons, List.length_append] at hwritten
            exact Nat.succ_le_succ (ih h.tail (by rw [unsent]; omega))
      · exact Nat.zero_le _

/-- A write that finishes as many records as it may leaves the next one untouched. -/
theorem consumeQueue_exact {queue : List Slot} (h : Orderly queue) {batch written : Nat}
    (hwritten : written ≤ (unsent (queue.take batch)).length)
    (hbegun : batch = 0 → begun queue = []) (hexact : (consumeQueue queue written).1 = batch) :
    begun (consumeQueue queue written).2 = [] := by
  induction queue generalizing batch written with
  | nil => rfl
  | cons slot rest ih =>
      rw [consumeQueue] at hexact ⊢
      split at hexact
      · rename_i hdone
        rw [if_pos hdone]
        obtain rfl := hexact
        rw [List.take_succ_cons, unsent, List.flatMap_cons, List.length_append] at hwritten
        exact ih h.tail (by rw [unsent]; omega) (fun _ => h.begun_tail) rfl
      · rename_i hopen
        rw [if_neg hopen]
        obtain rfl := hexact
        have hzero : written = 0 := Nat.le_zero.mp hwritten
        rw [hzero]
        exact hbegun rfl

theorem consumeBytes_queue (h : logger.Valid) {written : Nat}
    (hwritten : written ≤ (unsent logger.queue).length) :
    ∃ next : Logger,
      logger.consumeBytes written = some ((consumeQueue logger.queue written).1, next) ∧
        next.queue = (consumeQueue logger.queue written).2 ∧ next.Valid := by
  obtain ⟨slots, index, hloop, hlength, hindex, hview⟩ :=
    @consumeLoop_queue logger.count logger.queue logger.slots written 0 logger.readIndex
      (logger.count + 1) rfl h.index_lt h.count_le (Nat.zero_le _) (Nat.lt_succ_self _)
      h.orderly.1 hwritten
  rw [Nat.zero_add] at hloop hview
  refine ⟨{ logger with
    slots := slots
    readIndex := index
    count := logger.count - (consumeQueue logger.queue written).1 }, ?_, hview, ?_⟩
  · rw [consumeBytes, hloop]
    rfl
  · refine ⟨?_, hindex, ?_⟩
    · show logger.count - _ ≤ slots.length
      rw [hlength]
      exact Nat.le_trans (Nat.sub_le _ _) h.count_le
    · have horderly := consumeQueue_orderly h.orderly written
      rwa [← hview] at horderly

end Logger

end Zhtps
