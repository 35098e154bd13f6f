import Zhtps.Http.Syntax
import Zhtps.Lib.Transition

/-!
The rendezvous between one application producer and its transport, after
`src/endpoint/ResponseStream.zig`, with the producer task of `runStream` in `src/endpoint.zig` and
the two transports that read it: `pumpResponseStream` and `sent` in `src/server/worker.zig` for
HTTP/1, and `produce` in `src/server/http2.zig` for HTTP/2.

Two threads share the record, so every access to a shared field is a step of its own and a program
counter says where each thread stands.  The producer's `@memcpy` advances one byte at a time and the
transport's in pieces of any size.  The model starts where the executor has accepted the producer's
task.  `written`, `copied`, `acked` and `seenFinished` are history: no step reads them.
-/

namespace Zhtps.ResponseStream

open Zhtps

inductive Publication
  | writing
  | ready
  | finished
  | failed
  deriving DecidableEq, Repr

inductive Thread
  | producer
  | transport
  deriving DecidableEq, Repr

inductive Path
  | http1
  | http2
  deriving DecidableEq, Repr

/-- Who called `flush`, and so what runs after it returns without an error. -/
inductive Resume
  | flush
  /-- `drain`, which then copies from this slice. -/
  | drain (bytes : Bytes)
  | finish
  deriving DecidableEq, Repr

/-- Where the producer task stands; the states with a `Resume` are inside `flush`. -/
inductive Producer
  | queued
  | running
  | copying (rest : Bytes) (pos : Nat)
  | lock (next : Resume)
  | checkCanceled (next : Resume)
  | checkEmpty (next : Resume)
  | setLength (next : Resume)
  | publish (next : Resume)
  | notify (next : Resume)
  | testReady (next : Resume)
  | testCanceled (next : Resume)
  | wait (next : Resume)
  | relock (next : Resume)
  | lastCanceled (next : Resume)
  | clear (next : Resume)
  | unlock (next : Resume) (ok : Bool)
  | finish
  | notifyFinished
  | fail
  | notifyFailed
  | returned
  deriving DecidableEq, Repr

/-- Where the transport stands; `room` is the destination's length on the HTTP/2 path and absent on
the HTTP/1 path, which encodes a publication whole. -/
inductive Transport
  | idle
  | load (room : Option Nat)
  | loaded (seen : Publication) (room : Option Nat)
  | copying (done goal len : Nat)
  | consumeLock
  | consumeAssert
  | consumeStore
  | consumeSignal
  | consumeUnlock
  | cancelLock (close : Bool)
  | cancelSignal (close : Bool)
  | cancelUnlock (close : Bool)
  | ended
  /-- The assertion in `consume` fired. -/
  | panicked
  deriving DecidableEq, Repr

structure State where
  /-- `writer.buffer` and `writer.end`. -/
  buffer : Bytes
  stop : Nat := 0
  publication : Publication := .writing
  publishedLen : Nat := 0
  /-- The borrowed cancellation flag. -/
  canceled : Bool := false
  mutex : Option Thread := none
  producer : Producer := .queued
  transport : Transport := .idle
  /-- `publication_offset` of an HTTP/2 stream. -/
  offset : Nat := 0
  /-- `response_stream_chunk` of an HTTP/1 connection. -/
  chunk : Bool := false
  /-- Output of an HTTP/1 connection is not sent yet. -/
  sending : Bool := false
  /-- The HTTP/1 connection is canceling, or the HTTP/2 stream is closed. -/
  closed : Bool := false
  busy : Bool := true
  written : Bytes := []
  copied : Bytes := []
  acked : Bytes := []
  seenFinished : Bool := false
  deriving DecidableEq, Repr

def init (buffer : Bytes) : State := { buffer := buffer }

inductive Action
  /-- The executor starts the task, or drops it after its deadline. -/
  | start
  | expire
  /-- Calls of the producer callback: a vectored write, a flush, and its return. -/
  | write (data : List Bytes) (splat : Nat)
  | flush
  | succeed
  | error
  /-- The producer takes its next step; `wake` answers an eventfd write. -/
  | produce (wake : Bool)
  | spurious
  /-- The transport takes its next step; `ok` answers encoder and length checks, `count` is the
  size of a copied piece. -/
  | transport (ok : Bool) (count : Nat)
  | pump
  | produceInto (room : Nat)
  | sent
  | timeout
  | close
  | complete
  deriving DecidableEq, Repr

/-- The bytes of a vectored write: the last slice is repeated `splat` times. -/
def splatBytes (data : List Bytes) (splat : Nat) : Bytes :=
  data.dropLast.flatten ++ (List.replicate splat (data.getLastD [])).flatten

/-- The slice `drain` copies from: the first nonempty one, and not the last one when it is
repeated zero times. -/
def drainSlice (data : List Bytes) (splat : Nat) : Bytes :=
  ((if splat = 0 then data.dropLast else data).find? fun bytes => !bytes.isEmpty).getD []

/-- `std.Io.Writer.writeSplat`: copies into the buffer when everything fits, and drains otherwise. -/
def write (s : State) (data : List Bytes) (splat : Nat) : Producer :=
  if s.stop + (splatBytes data splat).length ≤ s.buffer.length then
    .copying (splatBytes data splat) s.stop
  else .lock (.drain (drainSlice data splat))

/-- What the producer does after `flush` returned without an error. -/
def resume (s : State) : Resume → Producer
  | .flush => .running
  | .drain bytes => .copying (bytes.take s.buffer.length) 0
  | .finish => .finish

/-- One step of `flush`, `drain`, `finish`, `fail` or `notify` on the producer's thread. -/
def stepProducer (s : State) (wake : Bool) : Option State :=
  match s.producer with
  | .queued | .running | .wait _ | .returned => none
  | .copying [] pos => some { s with stop := pos, producer := .running }
  | .copying (byte :: rest) pos =>
      some { s with
        buffer := s.buffer.set pos byte
        written := s.written ++ [byte]
        producer := .copying rest (pos + 1) }
  | .lock next =>
      if s.mutex = none then
        some { s with mutex := some .producer, producer := .checkCanceled next }
      else none
  | .checkCanceled next =>
      if s.canceled then some { s with producer := .unlock next false }
      else some { s with producer := .checkEmpty next }
  | .checkEmpty next =>
      if s.stop = 0 then some { s with producer := .unlock next true }
      else some { s with producer := .setLength next }
  | .setLength next => some { s with publishedLen := s.stop, producer := .publish next }
  | .publish next => some { s with publication := .ready, producer := .notify next }
  | .notify next =>
      if wake then some { s with producer := .testReady next }
      else some { s with producer := .unlock next false }
  | .testReady next =>
      if s.publication = .ready then some { s with producer := .testCanceled next }
      else some { s with producer := .lastCanceled next }
  | .testCanceled next =>
      if s.canceled then some { s with producer := .unlock next false }
      else some { s with mutex := none, producer := .wait next }
  | .relock next =>
      if s.mutex = none then
        some { s with mutex := some .producer, producer := .testReady next }
      else none
  | .lastCanceled next =>
      if s.canceled then some { s with producer := .unlock next false }
      else some { s with producer := .clear next }
  | .clear next => some { s with stop := 0, producer := .unlock next true }
  | .unlock next true => some { s with mutex := none, producer := resume s next }
  | .unlock _ false => some { s with mutex := none, producer := .fail }
  | .finish => some { s with publication := .finished, producer := .notifyFinished }
  | .notifyFinished =>
      if wake then some { s with producer := .returned }
      else some { s with producer := .fail }
  | .fail => some { s with publication := .failed, producer := .notifyFailed }
  | .notifyFailed => some { s with producer := .returned }

/-- `ready.signal`: a producer that waits goes on to take the mutex again. -/
def signal : Producer → Producer
  | .wait next => .relock next
  | other => other

/-- The prefix of the publication that one call copies up to. -/
def goal (s : State) : Option Nat → Nat
  | none => s.publishedLen
  | some room => min (s.offset + room) s.publishedLen

/-- What the transport does once a piece is copied: an HTTP/1 connection sends it and consumes when
it is sent, an HTTP/2 stream consumes as soon as the publication is exhausted. -/
def copiedAll (path : Path) (s : State) (goal len : Nat) : State :=
  match path with
  | .http1 => { s with chunk := true, sending := true, transport := .idle }
  | .http2 =>
      if goal = len then { s with offset := 0, transport := .consumeLock }
      else { s with offset := goal, transport := .idle }

/-- `forceClose` of a connection, or `reset` of a stream, and `timeoutApplication` when the
connection stays open: the flag is stored first, then `cancel` runs. -/
def cancel (s : State) (close : Bool) : State :=
  { s with canceled := true, transport := .cancelLock close }

/-- Once `consume` has returned: `sent` pumps again, `produce` returns to its caller. -/
def afterConsume : Path → Transport
  | .http1 => .load none
  | .http2 => .idle

/-- One step of `pumpResponseStream`, `produce`, `consume` or `cancel` on the transport's thread. -/
def stepTransport (path : Path) (s : State) (ok : Bool) (count : Nat) : Option State :=
  match s.transport with
  | .idle | .ended | .panicked => none
  | .load room =>
      some { s with
        seenFinished := s.seenFinished || s.publication = .finished
        transport := .loaded s.publication room }
  | .loaded .writing _ => some { s with transport := .idle }
  | .loaded .ready room =>
      if ok then
        some { s with transport := .copying s.offset (goal s room) s.publishedLen }
      else if path = .http1 then some (cancel s true)
      else some { s with transport := .idle }
  | .loaded .finished _ =>
      if s.busy then some { s with transport := .idle }
      else some { s with transport := .ended }
  | .loaded .failed _ =>
      if path = .http1 then some (cancel s true) else some { s with transport := .idle }
  | .copying done goal len =>
      if done < goal then
        some { s with
          copied := s.copied ++ (s.buffer.drop done).take (min count (goal - done))
          transport := .copying (done + min count (goal - done)) goal len }
      else some (copiedAll path s goal len)
  | .consumeLock =>
      if s.mutex = none then
        some { s with mutex := some .transport, transport := .consumeAssert }
      else none
  | .consumeAssert =>
      if s.publication = .ready then some { s with transport := .consumeStore }
      else some { s with transport := .panicked }
  | .consumeStore =>
      some { s with publication := .writing, acked := s.copied, transport := .consumeSignal }
  | .consumeSignal =>
      some { s with producer := signal s.producer, transport := .consumeUnlock }
  | .consumeUnlock => some { s with mutex := none, transport := afterConsume path }
  | .cancelLock close =>
      if s.mutex = none then
        some { s with mutex := some .transport, transport := .cancelSignal close }
      else none
  | .cancelSignal close =>
      some { s with producer := signal s.producer, transport := .cancelUnlock close }
  | .cancelUnlock close =>
      some { s with mutex := none, closed := s.closed || close, transport := .idle }

/-- `sent` once all queued output of an HTTP/1 connection is written. -/
def sent (s : State) : State :=
  if s.closed then { s with sending := false }
  else if s.canceled then cancel { s with sending := false } true
  else if s.chunk then { s with sending := false, chunk := false, transport := .consumeLock }
  else { s with sending := false, transport := .load none }

/-- One step of the two threads together.  Everything the worker does for this response starts
with the transport `idle`. -/
def step (path : Path) (s : State) : Action → Option State
  | .start => if s.producer = .queued then some { s with producer := .running } else none
  | .expire => if s.producer = .queued then some { s with producer := .returned } else none
  | .write data splat =>
      if s.producer = .running then some { s with producer := write s data splat } else none
  | .flush => if s.producer = .running then some { s with producer := .lock .flush } else none
  | .succeed => if s.producer = .running then some { s with producer := .lock .finish } else none
  | .error => if s.producer = .running then some { s with producer := .fail } else none
  | .produce wake => stepProducer s wake
  | .spurious => some { s with producer := signal s.producer }
  | .transport ok count => stepTransport path s ok count
  | .pump =>
      if path = .http1 ∧ s.transport = .idle ∧ !s.closed ∧ !s.sending ∧ !s.chunk then
        some { s with transport := .load none }
      else none
  | .produceInto room =>
      if path = .http2 ∧ s.transport = .idle ∧ !s.closed then
        some { s with transport := .load (some room) }
      else none
  | .sent =>
      if path = .http1 ∧ s.transport = .idle ∧ s.sending then some (sent s) else none
  | .timeout =>
      if path = .http1 ∧ s.transport = .idle ∧ !s.closed then some (cancel s false) else none
  | .close => if s.transport = .idle then some (cancel s true) else none
  | .complete =>
      if s.transport = .idle ∧ s.producer = .returned then some { s with busy := false }
      else none

end Zhtps.ResponseStream
