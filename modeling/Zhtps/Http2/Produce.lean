import Zhtps.Http.Response
import Zhtps.Lib.Memory
import Zhtps.ResponseStream.Publication

/-!
The body of an HTTP/2 response, after `produce` and `producedEnd` of `src/server/http2.zig`, the data
source callback of `src/http2.zig` around them, and the resumption in `drive`.

A callback over a publication shares `ResponseStream` with the producer's task, so that it takes the
steps of `ResponseStream.step`; over other bodies it is one step.  nghttp2 offers a destination with
room, and makes no callback after an end of file or an error, and none between a deferral and
`resumeBody`.  While a fragment is pending nothing but the application writes to its memory.
-/

namespace Zhtps.Produce

open Lib
open ResponseStream (goal stepTransport)

/-! ### What a callback finds and answers -/

inductive Answer
  /-- `NGHTTP2_ERR_DEFERRED`. -/
  | deferred
  /-- Bytes, and `NGHTTP2_DATA_FLAG_EOF`. -/
  | data (bytes : Bytes) (eof : Bool)
  /-- The stream is reset. -/
  | error
  deriving DecidableEq, Repr

def Answer.bytes : Answer → Bytes
  | .data bytes _ => bytes
  | _ => []

/-- nghttp2 makes no more callbacks. -/
def Answer.isFinal : Answer → Bool
  | .data _ eof => eof
  | .error => true
  | .deferred => false

/-- What there is of a body when a callback looks at it. -/
structure View where
  /-- The length of a stream, where the response declares one. -/
  declared : Option Nat := none
  delivered : Nat := 0
  /-- The bytes at hand: the rest of a buffered body, of a publication or of a fragment. -/
  rest : Bytes := []
  /-- Nothing comes behind them. -/
  ended : Bool := false
  broken : Bool := false
  buffered : Bool := false
  deriving DecidableEq, Repr

/-- What a body that is found so is owed. -/
def View.answer (v : View) (room : Nat) : Answer :=
  if v.broken then .error
  else if v.rest = [] then
    if !v.ended then .deferred
    else if v.declared.all (· == v.delivered) then .data [] true
    else .error
  else if v.declared.any (· < v.delivered + (v.rest.take room).length) then .error
  else .data (v.rest.take room) (v.buffered && v.rest.length ≤ room)

structure Call where
  view : View
  room : Nat
  answer : Answer

/-- The DATA payload of some callbacks. -/
def delivered (calls : List Call) : Bytes := calls.flatMap (·.answer.bytes)

/-! ### The model -/

/-- An application: with response streams its producers are tasks, and without them `produce` is
called for one fragment after another. -/
structure App (σ : Type) where
  hasResponseStreams : Bool
  produce : σ → Memory UInt8 → Slice → σ × Memory UInt8 × Option Slice

/-- The fields of `Stream` that its response body uses; `publication_offset`, `busy` and `closed` are
fields of `source`. -/
structure Stream (σ : Type) where
  body : Body
  exchange : σ
  memory : Memory UInt8
  outputBytes : Slice
  source : ResponseStream.State
  responseOffset : Nat := 0
  produced : Nat := 0
  fragment : Slice := ⟨0, 0⟩
  producerDone : Bool := false
  responseDeferred : Bool := false
  /-- The callback that runs over a publication: its room, what it found and the bytes in its
  destination. -/
  calling : Bool := false
  room : Nat := 0
  view : View := {}
  destination : Bytes := []
  /-- History: the text of all fragments, and the callbacks that have returned. -/
  fragments : Bytes := []
  calls : List Call := []

inductive Result
  | failed
  | deferred
  | copied (bytes : Bytes)

namespace Stream

variable {σ : Type} (app : App σ) (s : Stream σ)

/-- Reports whether the last produced fragment also completes this stream body. -/
def producedEnd : Bool :=
  match s.body with
  | .bytes bytes => s.responseOffset == bytes.length
  | .stream _ => false

def reply : Result → Answer
  | .failed => .error
  | .deferred => .deferred
  | .copied bytes => .data bytes (bytes.length == 0 || s.producedEnd)

/-- The data source callback, once `produce` has returned. -/
def answer (view : View) (room : Nat) (result : Result) : Stream σ :=
  { s with
    calling := false
    produced := s.produced + (s.reply result).bytes.length
    calls := s.calls ++ [⟨view, room, s.reply result⟩] }

/-- nghttp2 makes another callback. -/
def isOpen : Bool :=
  !s.calling && !s.responseDeferred && !(s.calls.getLast?.any (·.answer.isFinal))

def bytesView (bytes : Bytes) : View where
  delivered := s.produced
  rest := bytes.drop s.responseOffset
  ended := true
  buffered := true

def callBytes (bytes : Bytes) (room : Nat) : Stream σ :=
  let count := min room (bytes.length - s.responseOffset)
  let payload := (bytes.drop s.responseOffset).take count
  { s with responseOffset := s.responseOffset + count }.answer (s.bytesView bytes) room
    (.copied payload)

/-- The next fragment, when the last one is exhausted.  An empty one is an error. -/
def pull : Stream σ × Bool :=
  if s.fragment.len = 0 ∧ !s.producerDone then
    match app.produce s.exchange s.memory s.outputBytes with
    | (exchange, memory, none) => ({ s with exchange, memory, producerDone := true }, false)
    | (exchange, memory, some fragment) =>
        if fragment.len = 0 then ({ s with exchange, memory }, true)
        else ({ s with
          exchange, memory, fragment
          fragments := s.fragments ++ memory.read fragment }, false)
  else (s, false)

def fragmentView (length : Option Nat) (broken : Bool) : View where
  declared := length
  delivered := s.produced
  rest := s.memory.read s.fragment
  ended := s.producerDone
  broken := broken

def callFragment (length : Option Nat) (room : Nat) : Stream σ :=
  let (s, broken) := s.pull app
  let view := s.fragmentView length broken
  if broken then s.answer view room .failed
  else
    let count := min room s.fragment.len
    if length.any fun len => len - s.produced < count || (count == 0 && s.produced != len) then
      s.answer view room .failed
    else
      { s with fragment := ⟨s.fragment.ptr + count, s.fragment.len - count⟩ }.answer view room
        (.copied (s.memory.read ⟨s.fragment.ptr, count⟩))

/-- What a load of `publication` shows. -/
def publicationView (length : Option Nat) : View where
  declared := length
  delivered := s.produced
  rest :=
    if s.source.publication = .ready then
      (s.source.buffer.take s.source.publishedLen).drop s.source.offset
    else []
  ended := s.source.publication = .finished ∧ !s.source.busy
  broken := s.source.publication = .failed

/-- A callback for a destination with this much room. -/
def call (room : Nat) : Option (Stream σ) :=
  if room = 0 ∨ !s.isOpen ∨ s.source.transport ≠ .idle then none
  else if s.source.closed then
    some (s.answer { delivered := s.produced, broken := true } room .failed)
  else
    match s.body with
    | .bytes bytes => some (s.callBytes bytes room)
    | .stream length =>
        if app.hasResponseStreams then
          (ResponseStream.step .http2 s.source (.produceInto room)).map fun source =>
            { s with source, room, calling := true, destination := [] }
        else some (s.callFragment app length room)

/-- The callback that runs over a publication returns. -/
def finish (result : Result) : Stream σ := s.answer s.view s.room result

/-- The step that follows a load of `publication`. -/
def loaded (length : Option Nat) (seen : ResponseStream.Publication) (room : Option Nat) :
    Option (Stream σ) :=
  match seen with
  | .writing =>
      (stepTransport .http2 s.source true 0).map fun source =>
        { s with source, responseDeferred := true }.finish .deferred
  | .ready =>
      let count := goal s.source room - s.source.offset
      if length.any fun len => len - s.produced < count then
        (stepTransport .http2 s.source false 0).map fun source => { s with source }.finish .failed
      else (stepTransport .http2 s.source true 0).map fun source => { s with source }
  | .finished =>
      if s.source.busy then
        (stepTransport .http2 s.source true 0).map fun source =>
          { s with source, responseDeferred := true }.finish .deferred
      else if length.any (s.produced != ·) then
        some ({ s with source := { s.source with transport := .idle } }.finish .failed)
      else
        (stepTransport .http2 s.source true 0).map fun source =>
          { s with source }.finish (.copied [])
  | .failed =>
      (stepTransport .http2 s.source true 0).map fun source => { s with source }.finish .failed

/-- One step of the worker in a callback over a publication, or in `cancel`; a piece of `@memcpy` is
`count` bytes at most. -/
def transport (count : Nat) : Option (Stream σ) :=
  match s.body, s.source.transport with
  | .stream length, .load _ =>
      (stepTransport .http2 s.source true count).map fun source =>
        { s with source, view := s.publicationView length }
  | .stream length, .loaded seen room => s.loaded length seen room
  | _, .copying done goal len =>
      (stepTransport .http2 s.source true count).map fun source =>
        if done < goal then
          { s with
            source
            destination := s.destination ++
              (s.source.buffer.drop done).take (min count (goal - done)) }
        else if goal = len then { s with source }
        else { s with source }.finish (.copied s.destination)
  | _, .consumeUnlock =>
      (stepTransport .http2 s.source true count).map fun source =>
        { s with source }.finish (.copied s.destination)
  | _, _ => (stepTransport .http2 s.source true count).map fun source => { s with source }

/-- `drive` resumes a deferred body. -/
def resume : Option (Stream σ) :=
  if s.responseDeferred ∧ s.source.transport = .idle ∧ !s.source.closed ∧
      (s.source.publication = .ready ∨ s.source.publication = .finished ∧ !s.source.busy) then
    some { s with responseDeferred := false }
  else none

end Stream

inductive Action
  | call (room : Nat)
  | transport (count : Nat)
  | resume
  /-- The producer's task, its completion, and the end of the stream. -/
  | outside (action : ResponseStream.Action)

variable {σ : Type}

def step (app : App σ) (s : Stream σ) : Action → Option (Stream σ)
  | .call room => s.call app room
  | .transport count => s.transport count
  | .resume => s.resume
  | .outside action =>
      if action.outside then
        (ResponseStream.step .http2 s.source action).map fun source => { s with source }
      else none

/-- A stream whose response is submitted. -/
def init (body : Body) (exchange : σ) (memory : Memory UInt8) (outputBytes : Slice)
    (buffer : Bytes) : Stream σ :=
  { body, exchange, memory, outputBytes, source := ResponseStream.init buffer }

/-- The text that a body has shown so far: all of a buffered one, what the producer's task has
written, or the fragments. -/
def Stream.text (app : App σ) (s : Stream σ) : Bytes :=
  match s.body with
  | .bytes bytes => bytes
  | .stream _ => if app.hasResponseStreams then s.source.written else s.fragments

end Zhtps.Produce
