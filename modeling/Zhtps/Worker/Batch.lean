import Zhtps.Lib.Memory
import Zhtps.Lib.Transition
import Zhtps.Worker.State
import Mathlib.Tactic.SplitIfs

/-!
A response batch in its 4096 bytes, after `src/server/ResponseBatch.zig`, with the sends that empty
it, after `sentBatch` and `abortBatch` of `src/server/worker.zig`.

What the metrics, the log and admission see is a list of events.  The place of a response in its
batch, which the source does not record, names it there.
-/

namespace Zhtps.ResponseBatch

open Lib

/-! ### The model -/

/-- `ResponseBatch.Response`. -/
structure Stored where
  startedNs : Nat
  method : Bytes := []
  userAgent : Option Slice := none
  stop : Nat := 0
  bodyBytes : Nat
  status : Nat
  methodLen : Nat := 0

/-- `ResponseBatch`; `connection.batch` while it is sent. -/
structure Storage where
  bytes : Memory UInt8
  responses : List Stored := []
  len : Nat := 0
  metadataStart : Nat := capacity
  sent : Nat := 0
  completed : Nat := 0
  sending : Bool := false
  resumeResponse : Bool := false

/-- The arguments of `append`. -/
structure Appended where
  bytes : Bytes
  response : Stored
  userAgent : Option Bytes

/-- The log record of a completed response, without what the connection adds. -/
structure Record where
  userAgent : Option Bytes
  status : Nat
  method : Bytes
  durationNs : Nat
  bytes : Nat
  deriving DecidableEq, Repr

inductive Event
  | ioError
  | bytesSent (count : Nat)
  | firstByte (place ns : Nat)
  /-- `requests_completed_total` and the two durations. -/
  | completed (place ns : Nat)
  | emit (place : Nat) (record : Record)
  | release (place : Nat)
  /-- `requests_aborted_total` and `aborted_duration_seconds`. -/
  | aborted (place ns : Nat)
  /-- A send that `queueBatch` submits. -/
  | submit (bytes : Bytes)
  | free
  deriving DecidableEq, Repr

namespace Storage

def count (batch : Storage) : Nat := batch.responses.length

def remainingCapacity (batch : Storage) : Nat := batch.metadataStart - batch.len

/-- `none` is a failed assertion. -/
def append (batch : Storage) (a : Appended) : Option Storage :=
  let userAgentLen := (a.userAgent.map List.length).getD 0
  if batch.sending ∨ maxResponses ≤ batch.count then none
  else if a.bytes.length = 0 ∨ batch.remainingCapacity < a.bytes.length then none
  else if batch.remainingCapacity - a.bytes.length < userAgentLen then none
  else
    let memory := batch.bytes.write batch.len a.bytes
    let len := batch.len + a.bytes.length
    let entry := { a.response with stop := len, userAgent := none }
    match a.userAgent with
    | none => some { batch with bytes := memory, len, responses := batch.responses ++ [entry] }
    | some header =>
        let start := batch.metadataStart - header.length
        some { batch with
          bytes := memory.write start header
          len
          metadataStart := start
          responses := batch.responses ++
            [{ entry with userAgent := some ⟨start, header.length⟩ }] }

def appendAll : Storage → List Appended → Option Storage
  | batch, [] => some batch
  | batch, a :: rest => (batch.append a).bind fun batch => batch.appendAll rest

/-- `queueBatch`: a batch that is being sent takes no more responses. -/
def queueBatch (batch : Storage) : Option (Storage × Event) :=
  if batch.len ≤ batch.sent then none
  else some ({ batch with sending := true },
    .submit (batch.bytes.read ⟨batch.sent, batch.len - batch.sent⟩))

/-- Where the response at a place begins. -/
def start (batch : Storage) (place : Nat) : Nat :=
  if place = 0 then 0 else (batch.responses[place - 1]?.map Stored.stop).getD 0

def record (batch : Storage) (now : Nat) (response : Stored) : Record where
  userAgent := response.userAgent.map batch.bytes.read
  status := response.status
  method := response.method.take response.methodLen
  durationNs := now - response.startedNs
  bytes := response.bodyBytes

def complete (batch : Storage) (accessLog : Bool) (now place : Nat) (response : Stored) :
    List Event :=
  .completed place (now - response.startedNs) ::
    (if accessLog then [.emit place (batch.record now response)] else []) ++ [.release place]

/-- The loop of `sentBatch`, over the responses that are not completed. -/
def completeLoop (batch : Storage) (accessLog : Bool) (previous now : Nat) :
    List Stored → Nat → Nat × List Event
  | [], completed => (completed, [])
  | response :: rest, completed =>
      let begin := batch.start completed
      let first :=
        if previous ≤ begin ∧ begin < batch.sent then
          [Event.firstByte completed (now - response.startedNs)]
        else []
      if batch.sent < response.stop then (completed, first)
      else
        let (final, events) := batch.completeLoop accessLog previous now rest (completed + 1)
        (final, first ++ batch.complete accessLog now completed response ++ events)

/-- The assertion of `releaseBatch`, after which the connection has no batch. -/
def releaseBatch (batch : Storage) : Option Event :=
  if batch.completed = batch.count then some .free else none

def sentBatch (batch : Storage) (accessLog : Bool) (result : Int) (now : Nat) :
    Option (Option Storage × List Event) :=
  if result ≤ 0 then some (some batch, [.ioError])
  else
    let count := result.toNat
    if batch.len - batch.sent < count then none
    else
      let previous := batch.sent
      let batch := { batch with sent := batch.sent + count }
      let (completed, events) := batch.completeLoop accessLog previous now
        (batch.responses.drop batch.completed) batch.completed
      let batch := { batch with completed }
      if batch.sent < batch.len then
        batch.queueBatch.map fun next => (some next.1, .bytesSent count :: events ++ [next.2])
      else batch.releaseBatch.map fun freed => (none, .bytesSent count :: events ++ [freed])

/-- The loop of `abortBatch`. -/
def abortLoop (now : Nat) : List Stored → Nat → List Event
  | [], _ => []
  | response :: rest, place =>
      .release place :: .aborted place (now - response.startedNs) :: abortLoop now rest (place + 1)

def abortBatch (batch : Storage) (now : Nat) : Option (List Event) :=
  let events := abortLoop now (batch.responses.drop batch.completed) batch.completed
  { batch with completed := batch.count }.releaseBatch.map fun freed => events ++ [freed]

end Storage

/-- A connection's batch, and what its sends have done so far. -/
structure Outgoing where
  batch : Option Storage
  history : List Event := []

inductive Action
  | sent (result : Int) (now : Nat)
  | abort (now : Nat)

/-- A completed send needs a batch; an abort may find none. -/
def Outgoing.step (accessLog : Bool) (s : Outgoing) : Action → Option Outgoing
  | .sent result now =>
      s.batch.bind fun batch =>
        (batch.sentBatch accessLog result now).map fun r => ⟨r.1, s.history ++ r.2⟩
  | .abort now =>
      match s.batch with
      | none => some s
      | some batch => (batch.abortBatch now).map fun events => ⟨none, s.history ++ events⟩

/-! ### What the responses are owed -/

/-- A send that the kernel completed, of so many bytes, at a time. -/
structure Send where
  count : Nat
  now : Nat

/-- The bytes of the responses in order. -/
def wire (responses : List Appended) : Bytes := responses.flatMap Appended.bytes

namespace Appended

def record (a : Appended) (now : Nat) : Record where
  userAgent := a.userAgent
  status := a.response.status
  method := a.response.method.take a.response.methodLen
  durationNs := now - a.response.startedNs
  bytes := a.response.bodyBytes

def completion (a : Appended) (accessLog : Bool) (place now : Nat) : List Event :=
  .completed place (now - a.response.startedNs) ::
    (if accessLog then [.emit place (a.record now)] else []) ++ [.release place]

/-- What a send after `previous` bytes owes a response whose first byte is at `begin`. -/
def due (a : Appended) (accessLog : Bool) (previous : Nat) (send : Send) (place begin : Nat) :
    List Event :=
  let last := begin + a.bytes.length - 1
  (if previous ≤ begin ∧ begin < previous + send.count then
    [.firstByte place (send.now - a.response.startedNs)] else []) ++
  (if previous ≤ last ∧ last < previous + send.count then
    a.completion accessLog place send.now else [])

/-- What an abort owes a response, unless all its bytes are among the `sent` ones. -/
def abortion (a : Appended) (now sent place begin : Nat) : List Event :=
  if sent < begin + a.bytes.length then
    [.release place, .aborted place (now - a.response.startedNs)]
  else []

end Appended

/-- What each response is owed, by its place and its first byte. -/
def dues (f : Appended → Nat → Nat → List Event) : Nat → Nat → List Appended → List Event
  | _, _, [] => []
  | place, begin, a :: rest => f a place begin ++ dues f (place + 1) (begin + a.bytes.length) rest

def sendEvents (accessLog : Bool) (responses : List Appended) (previous : Nat) (send : Send) :
    List Event :=
  .bytesSent send.count :: dues (·.due accessLog previous send) 0 0 responses ++
    [if previous + send.count < (wire responses).length then
      .submit ((wire responses).drop (previous + send.count)) else .free]

def allEvents (accessLog : Bool) (responses : List Appended) : Nat → List Send → List Event
  | _, [] => []
  | previous, send :: rest =>
      sendEvents accessLog responses previous send ++
        allEvents accessLog responses (previous + send.count) rest

/-- The send that covers a byte, of those after `previous` bytes. -/
def covering (position : Nat) : Nat → List Send → Option Send
  | _, [] => none
  | previous, send :: rest =>
      if previous ≤ position ∧ position < previous + send.count then some send
      else covering position (previous + send.count) rest

/-- The place of the response that an event is about. -/
def Event.place? : Event → Option Nat
  | .firstByte place _ => some place
  | .completed place _ => some place
  | .emit place _ => some place
  | .release place => some place
  | .aborted place _ => some place
  | _ => none

def about (place : Nat) (events : List Event) : List Event :=
  events.filter (·.place? == some place)

/-! ### Places -/

/-- Where the response at a place begins. -/
def offset (responses : List Appended) (place : Nat) : Nat := (wire (responses.take place)).length

@[simp] theorem wire_cons (a : Appended) (rest : List Appended) :
    wire (a :: rest) = a.bytes ++ wire rest := rfl

@[simp] theorem wire_append (xs ys : List Appended) : wire (xs ++ ys) = wire xs ++ wire ys :=
  List.flatMap_append

@[simp] theorem offset_zero (responses : List Appended) : offset responses 0 = 0 := rfl

theorem offset_succ {responses : List Appended} {place : Nat} {a : Appended}
    (h : responses[place]? = some a) :
    offset responses (place + 1) = offset responses place + a.bytes.length := by
  rw [offset, offset, List.take_add_one, h, wire_append, List.length_append]
  simp [wire]

theorem offset_le (responses : List Appended) (place : Nat) :
    offset responses place ≤ (wire responses).length := by
  conv => rhs; rw [← List.take_append_drop place responses, wire_append, List.length_append]
  exact Nat.le_add_right _ _

theorem dues_append (f : Appended → Nat → Nat → List Event) (xs ys : List Appended) :
    ∀ place begin, dues f place begin (xs ++ ys) =
      dues f place begin xs ++ dues f (place + xs.length) (begin + (wire xs).length) ys := by
  induction xs with
  | nil => exact fun place begin => rfl
  | cons x xs ih =>
      intro place begin
      rw [List.cons_append, dues, dues, ih, List.append_assoc, List.length_cons, wire_cons,
        List.length_append, Nat.add_assoc place 1, Nat.add_comm 1, Nat.add_assoc begin]

theorem dues_split (f : Appended → Nat → Nat → List Event) (responses : List Appended)
    {place : Nat} (h : place ≤ responses.length) :
    dues f 0 0 responses = dues f 0 0 (responses.take place) ++
      dues f place (offset responses place) (responses.drop place) := by
  conv => lhs; rw [← List.take_append_drop place responses, dues_append]
  rw [List.length_take, Nat.min_eq_left h, Nat.zero_add, Nat.zero_add, offset]

namespace Appended

variable {a : Appended} {accessLog : Bool} {previous place begin : Nat} {send : Send}

theorem due_outside (h : begin + a.bytes.length ≤ previous ∨ previous + send.count ≤ begin)
    (hfilled : 0 < a.bytes.length) : a.due accessLog previous send place begin = [] := by
  unfold due
  simp only
  rw [if_neg (by omega), if_neg (by omega)]
  rfl

/-- A send that ends before the last byte. -/
theorem due_short (h : previous + send.count < begin + a.bytes.length) :
    a.due accessLog previous send place begin =
      if previous ≤ begin ∧ begin < previous + send.count then
        [.firstByte place (send.now - a.response.startedNs)] else [] := by
  unfold due
  simp only
  rw [if_neg (c := _ ∧ begin + a.bytes.length - 1 < _) (by omega), List.append_nil]

/-- A send that reaches the last byte. -/
theorem due_through (h : previous < begin + a.bytes.length)
    (hsent : begin + a.bytes.length ≤ previous + send.count) (hfilled : 0 < a.bytes.length) :
    a.due accessLog previous send place begin =
      (if previous ≤ begin ∧ begin < previous + send.count then
        [.firstByte place (send.now - a.response.startedNs)] else []) ++
      a.completion accessLog place send.now := by
  unfold due
  simp only
  rw [if_pos (c := _ ∧ begin + a.bytes.length - 1 < _) (by omega)]

end Appended

/-- Responses that a send does not reach are owed nothing. -/
theorem dues_outside {accessLog : Bool} {previous : Nat} {send : Send} (xs : List Appended) :
    ∀ place begin, begin + (wire xs).length ≤ previous ∨ previous + send.count ≤ begin →
      (∀ a ∈ xs, 0 < a.bytes.length) →
      dues (·.due accessLog previous send) place begin xs = [] := by
  induction xs with
  | nil => exact fun _ _ _ _ => rfl
  | cons x xs ih =>
      intro place begin hout hfilled
      rw [wire_cons, List.length_append] at hout
      rw [dues, Appended.due_outside (by omega) (hfilled x List.mem_cons_self),
        ih _ _ (by omega) fun a ha => hfilled a (List.mem_cons_of_mem _ ha)]
      rfl

/-! ### What a batch holds -/

/-- An entry that owns the metadata of a response, above `metadataStart`. -/
structure Stored.Keeps (stored : Stored) (memory : Memory UInt8) (metadataStart : Nat)
    (a : Appended) (stop : Nat) : Prop where
  response : stored = { a.response with stop, userAgent := stored.userAgent }
  userAgent : stored.userAgent.map memory.read = a.userAgent
  above : ∀ header, stored.userAgent = some header → metadataStart ≤ header.ptr

def Matches (memory : Memory UInt8) (metadataStart : Nat) :
    Nat → List Stored → List Appended → Prop
  | _, [], [] => True
  | begin, stored :: rest, a :: as =>
      stored.Keeps memory metadataStart a (begin + a.bytes.length) ∧
        Matches memory metadataStart (begin + a.bytes.length) rest as
  | _, _, _ => False

structure Storage.Holds (batch : Storage) (as : List Appended) : Prop where
  room : batch.len ≤ batch.metadataStart
  inside : batch.metadataStart ≤ capacity
  len : batch.len = (wire as).length
  wire : batch.bytes.read ⟨0, batch.len⟩ = wire as
  responses : Matches batch.bytes batch.metadataStart 0 batch.responses as
  filled : ∀ a ∈ as, 0 < a.bytes.length

section Matches

variable {memory : Memory UInt8} {metadataStart : Nat}

theorem Stored.Keeps.mono {memory' : Memory UInt8} {metadataStart' : Nat} {stored : Stored}
    {a : Appended} {stop : Nat} (h : stored.Keeps memory metadataStart a stop)
    (hle : metadataStart' ≤ metadataStart)
    (hread : ∀ header : Slice, metadataStart ≤ header.ptr →
      memory'.read header = memory.read header) :
    stored.Keeps memory' metadataStart' a stop where
  response := h.response
  userAgent := by
    rw [← h.userAgent]
    cases hagent : stored.userAgent with
    | none => rfl
    | some header => exact congrArg some (hread header (h.above header hagent))
  above := fun header hheader => hle.trans (h.above header hheader)

theorem Matches.mono {memory' : Memory UInt8} {metadataStart' : Nat}
    (hle : metadataStart' ≤ metadataStart)
    (hread : ∀ header : Slice, metadataStart ≤ header.ptr →
      memory'.read header = memory.read header) :
    ∀ (begin : Nat) (stored : List Stored) (as : List Appended),
      Matches memory metadataStart begin stored as → Matches memory' metadataStart' begin stored as
  | _, [], [], _ => trivial
  | _, _ :: rest, _ :: as, h => ⟨h.1.mono hle hread, Matches.mono hle hread _ rest as h.2⟩
  | _, [], _ :: _, h => h.elim
  | _, _ :: _, [], h => h.elim

theorem Matches.snoc {last : Stored} {a : Appended} :
    ∀ (begin : Nat) (stored : List Stored) (as : List Appended),
      Matches memory metadataStart begin stored as →
      last.Keeps memory metadataStart a (begin + (wire as).length + a.bytes.length) →
      Matches memory metadataStart begin (stored ++ [last]) (as ++ [a])
  | _, [], [], _, hlast => ⟨hlast, trivial⟩
  | begin, _ :: rest, x :: as, h, hlast => by
      refine ⟨h.1, Matches.snoc _ rest as h.2 ?_⟩
      rw [wire_cons, List.length_append, ← Nat.add_assoc begin] at hlast
      exact hlast
  | _, [], _ :: _, h, _ => h.elim
  | _, _ :: _, [], h, _ => h.elim

theorem Matches.length : ∀ {begin : Nat} {stored : List Stored} {as : List Appended},
    Matches memory metadataStart begin stored as → stored.length = as.length
  | _, [], [], _ => rfl
  | _, _ :: _, _ :: _, h => congrArg (· + 1) h.2.length
  | _, [], _ :: _, h => h.elim
  | _, _ :: _, [], h => h.elim

theorem Matches.drop : ∀ {begin : Nat} {stored : List Stored} {as : List Appended} (place : Nat),
    Matches memory metadataStart begin stored as →
    Matches memory metadataStart (begin + offset as place) (stored.drop place) (as.drop place)
  | _, _, _, 0, h => h
  | _, [], [], _ + 1, _ => trivial
  | begin, _ :: _, x :: as, place + 1, h => by
      have hbegin : begin + offset (x :: as) (place + 1) =
          begin + x.bytes.length + offset as place := by
        simp [offset, Nat.add_assoc]
      rw [hbegin]
      exact h.2.drop place
  | _, [], _ :: _, _ + 1, h => h.elim
  | _, _ :: _, [], _ + 1, h => h.elim

/-- The entry at each place. -/
theorem Matches.get : ∀ {begin : Nat} {stored : List Stored} {as : List Appended},
    Matches memory metadataStart begin stored as → ∀ {place : Nat} {a : Appended},
      as[place]? = some a → ∃ entry, stored[place]? = some entry ∧
        entry.Keeps memory metadataStart a (begin + offset as (place + 1))
  | _, [], [], _, _, _, ha => by cases ha
  | begin, entry :: rest, x :: as, h, 0, a, ha => by
      obtain rfl : x = a := Option.some.inj ha
      refine ⟨entry, rfl, ?_⟩
      have hstop : offset (x :: as) 1 = x.bytes.length := by simp [offset, wire]
      rw [Nat.zero_add, hstop]
      exact h.1
  | begin, _ :: rest, x :: as, h, place + 1, a, ha => by
      have hplace : as[place]? = some a := ha
      obtain ⟨entry, hentry, hkeeps⟩ := h.2.get hplace
      refine ⟨entry, hentry, ?_⟩
      have hstop : offset (x :: as) (place + 1 + 1) =
          x.bytes.length + offset as (place + 1) := by
        simp [offset]
      rw [hstop, ← Nat.add_assoc]
      exact hkeeps
  | _, [], _ :: _, h, _, _, _ => h.elim
  | _, _ :: _, [], h, _, _, _ => h.elim

end Matches

namespace Storage

variable {batch batch' : Storage} {as : List Appended}

theorem holds_empty (memory : Memory UInt8) : ({ bytes := memory } : Storage).Holds [] where
  room := Nat.zero_le _
  inside := Nat.le_refl _
  len := rfl
  wire := rfl
  responses := trivial
  filled := nofun

/-- What `append` asserts. -/
structure Fits (batch : Storage) (a : Appended) : Prop where
  open' : batch.sending = false
  count : batch.count < maxResponses
  filled : 0 < a.bytes.length
  room : a.bytes.length + (a.userAgent.map List.length).getD 0 ≤ batch.remainingCapacity

/-- What an append leaves, with or without a header. -/
structure Appends (batch : Storage) (a : Appended) (batch' : Storage) : Prop where
  len : batch'.len = batch.len + a.bytes.length
  metadataStart : batch'.metadataStart =
    batch.metadataStart - (a.userAgent.map List.length).getD 0
  memory : ∀ header : Slice,
    header.ptr + header.len ≤ batch.len ∨ batch.metadataStart ≤ header.ptr →
    batch'.bytes.read header = batch.bytes.read header
  wire : batch'.bytes.read ⟨batch.len, a.bytes.length⟩ = a.bytes
  responses : ∃ entry, batch'.responses = batch.responses ++ [entry] ∧
    entry.Keeps batch'.bytes batch'.metadataStart a batch'.len
  sent : batch'.sent = batch.sent
  completed : batch'.completed = batch.completed
  sending : batch'.sending = batch.sending
  resumeResponse : batch'.resumeResponse = batch.resumeResponse

theorem append_eq_some {a : Appended} (h : batch.append a = some batch') :
    batch.Fits a ∧ batch.Appends a batch' := by
  unfold append at h
  simp only at h
  split_ifs at h with hsending hbytes hagent
  rw [not_or, Bool.not_eq_true, Nat.not_le] at hsending
  rw [not_or, Nat.not_lt] at hbytes
  have hfits : batch.Fits a := ⟨hsending.1, hsending.2, by omega, by omega⟩
  have hroom := hfits.room
  unfold remainingCapacity at hroom
  refine ⟨hfits, ?_⟩
  cases hheader : a.userAgent with
  | none =>
      rw [hheader] at h
      obtain rfl := Option.some.inj h
      exact {
        len := rfl
        metadataStart := by rw [hheader]; rfl
        memory := fun header hout =>
          Memory.read_write_apart _ (Or.inr (by unfold Slice.Apart; simp only; omega))
        wire := Memory.read_write_self _ _ _
        responses := ⟨_, rfl, rfl, by rw [hheader]; rfl, nofun⟩
        sent := rfl
        completed := rfl
        sending := rfl
        resumeResponse := rfl }
  | some text =>
      rw [hheader] at h
      rw [hheader, Option.map_some, Option.getD_some] at hroom
      obtain rfl := Option.some.inj h
      have hapart : ∀ header : Slice, header.ptr + header.len ≤ batch.len + a.bytes.length ∨
          batch.metadataStart ≤ header.ptr →
          header.Apart ⟨batch.metadataStart - text.length, text.length⟩ := by
        intro header hout
        unfold Slice.Apart
        simp only
        omega
      exact {
        len := rfl
        metadataStart := by rw [hheader]; rfl
        memory := fun header hout => by
          rw [Memory.read_write_apart _ (Or.inr (hapart header (by omega)))]
          exact Memory.read_write_apart _ (Or.inr (by unfold Slice.Apart; simp only; omega))
        wire := by
          rw [Memory.read_write_apart _ (Or.inr (hapart _ (Or.inl (Nat.le_refl _))))]
          exact Memory.read_write_self _ _ _
        responses := by
          refine ⟨_, rfl, rfl, ?_, ?_⟩
          · rw [hheader]
            exact congrArg some (Memory.read_write_self _ _ _)
          · rintro header ⟨⟩
            exact Nat.le_refl _
        sent := rfl
        completed := rfl
        sending := rfl
        resumeResponse := rfl }

theorem append_holds {a : Appended} (h : batch.Holds as) (happend : batch.append a = some batch') :
    batch'.Holds (as ++ [a]) := by
  obtain ⟨hfits, hafter⟩ := append_eq_some happend
  have hroom := hfits.room
  unfold remainingCapacity at hroom
  obtain ⟨entry, hresponses, hkeeps⟩ := hafter.responses
  have hhead := h.room
  exact {
    room := by rw [hafter.len, hafter.metadataStart]; omega
    inside := by rw [hafter.metadataStart]; exact (Nat.sub_le _ _).trans h.inside
    len := by
      rw [hafter.len, wire_append, List.length_append, h.len]
      simp [ResponseBatch.wire]
    wire := by
      have hzero : batch'.bytes.read ⟨0, batch.len⟩ = batch.bytes.read ⟨0, batch.len⟩ :=
        hafter.memory _ (Or.inl (by simp only; omega))
      rw [hafter.len, Memory.read_append, hzero, h.wire, Nat.zero_add, hafter.wire, wire_append]
      simp [ResponseBatch.wire]
    responses := by
      rw [hresponses]
      refine Matches.snoc _ _ _ ?_ ?_
      · refine h.responses.mono ?_ fun header habove => hafter.memory header (Or.inr habove)
        rw [hafter.metadataStart]
        exact Nat.sub_le _ _
      · rw [Nat.zero_add, ← h.len, ← hafter.len]
        exact hkeeps
    filled := by
      intro x hx
      rcases List.mem_append.mp hx with hx | hx
      · exact h.filled x hx
      · rw [List.mem_singleton.mp hx]
        exact hfits.filled }

/-- A batch that was filled from a fresh one holds what was appended, and has sent none of it. -/
theorem appendAll_holds : ∀ (more : List Appended) {batch batch' : Storage} {as : List Appended},
    batch.Holds as → batch.sent = 0 → batch.completed = 0 →
    batch.appendAll more = some batch' →
    batch'.Holds (as ++ more) ∧ batch'.sent = 0 ∧ batch'.completed = 0
  | [], batch, batch', as, h, hsent, hcompleted, hall => by
      obtain rfl := Option.some.inj hall
      rw [List.append_nil]
      exact ⟨h, hsent, hcompleted⟩
  | a :: rest, batch, batch', as, h, hsent, hcompleted, hall => by
      obtain ⟨mid, hmid, hrest⟩ := Option.bind_eq_some_iff.mp hall
      have hafter := (append_eq_some hmid).2
      have ih := appendAll_holds rest (append_holds h hmid) (hafter.sent.trans hsent)
        (hafter.completed.trans hcompleted) hrest
      rw [List.append_assoc] at ih
      exact ih

end Storage

end Zhtps.ResponseBatch
