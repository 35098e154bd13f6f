import Zhtps.Admission
import Zhtps.BufferPool
import Zhtps.Http.Parser
import Zhtps.Http.Response
import Zhtps.Lib.Linked

/-!
The state of one worker of `src/server/worker.zig`: the connection slots, what they share, the
operations the kernel holds for them and the tasks the executor holds for them.

The clock is not modelled.  Where the source compares a deadline with the current time the answer is
a choice of the environment, and so are allocation failures, application hooks, TLS and the
callbacks of the HTTP/2 engine.  Timestamps that `Admission` keeps are numbers the environment
supplies.
-/

namespace Zhtps

/-- `ResponseBatch.Response`: one response whose bytes the batch owns. -/
structure ResponseBatch.Entry where
  status : Nat
  bodyBytes : Nat
  method : Bytes
  userAgent : Option Bytes
  /-- `end`, the offset after its last byte. -/
  stop : Nat
  deriving DecidableEq, Repr

/-- `src/server/ResponseBatch.zig`: wire bytes grow from the front of 4096 bytes and copied
User-Agent values from the back. -/
structure ResponseBatch where
  bytes : Bytes := []
  metadata : Nat := 0
  responses : List ResponseBatch.Entry := []
  sent : Nat := 0
  completed : Nat := 0
  sending : Bool := false
  resumeResponse : Bool := false
  deriving DecidableEq, Repr

namespace ResponseBatch

def capacity : Nat := 4096

def maxResponses : Nat := 16

def count (batch : ResponseBatch) : Nat := batch.responses.length

/-- Space available for both response bytes and copied log metadata. -/
def remainingCapacity (batch : ResponseBatch) : Nat :=
  capacity - batch.metadata - batch.bytes.length

def append (batch : ResponseBatch) (bytes : Bytes) (status bodyBytes : Nat) (method : Bytes)
    (userAgent : Option Bytes) : ResponseBatch :=
  { batch with
    bytes := batch.bytes ++ bytes
    metadata := batch.metadata + (userAgent.map List.length).getD 0
    responses := batch.responses ++
      [{ status, bodyBytes, method, userAgent, stop := (batch.bytes ++ bytes).length }] }

end ResponseBatch

namespace Worker

/-- What the compile-time parameter `App` decides: the built-in application may batch, and an
isolated one runs its hooks on executor threads, with or without response streams. -/
inductive App
  | builtin
  | direct
  | isolated (streams : Bool)
  deriving DecidableEq, Repr

def App.canBatch : App → Bool
  | .builtin => true
  | _ => false

def App.isIsolated : App → Bool
  | .isolated _ => true
  | _ => false

def App.hasResponseStreams : App → Bool
  | .isolated streams => streams
  | _ => false

inductive Buffer
  | head
  | trailers
  | path
  | receive
  | output
  | application
  deriving DecidableEq, Repr

structure Config where
  app : App := .builtin
  limits : Limits
  /-- `fullCapacities` and `small_capacities`. -/
  full : Buffer → Nat
  small : Buffer → Nat
  largeBufferBytes : Nat
  maxBodyBytes : Nat
  maxRequestsPerConnection : Nat
  /-- `batches.len`. -/
  batches : Nat
  idleReclaim : Bool := false
  accessLog : Bool := false
  tls : Bool := false
  maxStreams : Nat := 0
  maxStreamsPerWorker : Nat := 0

/-- `std.meta.tags(Buffer)`. -/
def Buffer.all : List Buffer := [.head, .trailers, .path, .receive, .output, .application]

/-- `storageSize` of a public slot: its own buffers and the gaps between them. -/
def Config.publicStride (config : Config) : Nat :=
  7 * 64 + (Buffer.all.map fun kind => min (config.full kind) (config.small kind)).sum

inductive Phase
  | handshake
  | http2
  | reading
  | application
  | inspecting
  | writing
  | tlsShutdown
  | drain
  | canceling
  deriving DecidableEq, Repr

inductive Kind
  | receive
  | send
  | cancelReceive
  | cancelSend
  deriving DecidableEq, Repr

/-- An operation submitted for a slot whose completion the kernel still owes; a send carries the
bytes it offers.  `occupant` is history: which use of the slot submitted it. -/
structure Operation where
  kind : Kind
  generation : UInt32
  occupant : Nat
  bytes : Bytes := []
  deriving DecidableEq, Repr

inductive Stage
  | head
  | body
  | bodyResponse
  | response
  | produce
  deriving DecidableEq, Repr

/-- `ticket` numbers the accepted tasks and `occupant` the uses of the slot; no step reads them. -/
structure Task where
  index : Nat
  generation : UInt32
  occupant : Nat
  stage : Stage
  /-- The HTTP/2 stream the task borrows, by the address of its storage. -/
  stream : Option Nat := none
  lane : Nat := 0
  ticket : Nat := 0
  deriving DecidableEq, Repr

structure Completion where
  task : Task
  response : Option Response
  expired : Bool
  deriving DecidableEq, Repr

/-- `ApplicationExecutor` as one worker sees it: its own tasks in the lanes, those that a thread is
running, and the completion ring.  `submitted` and `applied` are history. -/
structure Executor where
  queued : List Task := []
  running : List Task := []
  completions : List Completion := []
  submitted : Nat := 0
  applied : List Nat := []
  deriving DecidableEq, Repr

/-- The tasks that were accepted and whose completion was not taken yet. -/
def Executor.outstanding (executor : Executor) : List Task :=
  executor.queued ++ executor.running ++ executor.completions.map fun c => c.task

/-- A lane that is stopping or full refuses the task. -/
def Executor.submit (executor : Executor) (refused : Bool) (task : Task) : Option Executor :=
  if refused then none
  else some
    { executor with
      queued := executor.queued ++ [{ task with ticket := executor.submitted }]
      submitted := executor.submitted + 1 }

inductive TlsOperation
  | idle
  | handshake
  | read
  | write (bytes : Bytes)
  | shutdown
  deriving DecidableEq, Repr

structure Stream where
  address : Nat
  id : Nat
  /-- How many streams the worker began before; no step reads it. -/
  serial : Nat := 0
  /-- The decoded head and trailer fields that `request` is made of. -/
  fields : List Header := []
  trailerFields : List Header := []
  /-- `request.trailers`, empty until the request ended. -/
  requestTrailers : List Header := []
  trailers : Bool := false
  headReady : Bool := false
  initialized : Bool := false
  headDone : Bool := false
  ended : Bool := false
  closed : Bool := false
  closeCode : Nat := 0
  busy : Bool := false
  /-- The stage of the task that borrows the stream; no step reads it. -/
  lentFor : Option Stage := none
  canceled : Bool := false
  /-- `storage.body[0..body_len]`. -/
  body : Bytes := []
  taskBodyLen : Nat := 0
  bodyReceived : Nat := 0
  response : Option Response := none
  responseStreamStarted : Bool := false
  permit : Option Decision := none
  /-- History: how often a permit was assigned, the DATA payload, how many of its bytes were taken
  and how many credited to the stream's window, and the chunks handed to the application. -/
  assigned : Nat := 0
  received : Bytes := []
  taken : Nat := 0
  credited : Nat := 0
  delivered : Bytes := []
  /-- The engine delivered more than its window of 65535 bytes without credit. -/
  overrun : Bool := false
  deriving DecidableEq, Repr

structure Session where
  streams : List Stream := []
  count : Nat := 0
  accepted : Nat := 0
  draining : Bool := false
  closing : Bool := false
  deriving DecidableEq, Repr

/-- One connection slot.  `fd` is absent when the slot is free.  `kernel` holds the operations
submitted under the slot's index; `occupant` and the fields from `wire` on are history that no step
reads. -/
structure Connection where
  fd : Option Nat := none
  tls : Option TlsOperation := none
  http2 : Option Session := none
  generation : UInt32 := 0
  /-- How often the slot was taken, without the wraparound of `generation`. -/
  occupant : Nat := 0
  admin : Bool := false
  redirect : Bool := false
  phase : Phase := .reading
  /-- `request_lease`: the parser and exchange below are usable. -/
  lease : Bool := false
  parser : Parser
  applicationInitialized : Bool := false
  applicationBody : Bytes := []
  /-- The buffers replaced by a leased large one, with the address of its block. -/
  largeBuffers : List (Buffer × Nat) := []
  /-- The block that holds the slot's own buffers. -/
  smallBlock : Option Nat := none
  batch : Option ResponseBatch := none
  /-- `receive_buffer[receive_start..receive_end]`. -/
  input : Bytes := []
  /-- `output_buffer[0..output_len]`. -/
  output : Bytes := []
  outputSent : Nat := 0
  body : Bytes := []
  bodySent : Nat := 0
  responseBodyBytes : Nat := 0
  encoder : Response.Encoder := ⟨.finished, false⟩
  streaming : Bool := false
  streamFragment : Option Bytes := none
  receivePending : Bool := false
  sendPending : Bool := false
  cancelReceivePending : Bool := false
  cancelSendPending : Bool := false
  pending : Nat := 0
  morePending : Bool := false
  moreCount : Nat := 0
  interim : Bool := false
  closeAfterResponse : Bool := false
  requestStarted : Bool := false
  requestCompleted : Bool := false
  firstByteRecorded : Bool := false
  requests : Nat := 0
  responseStatus : Nat := 0
  drainedBytes : Nat := 0
  permit : Option Decision := none
  applicationTimedOut : Bool := false
  canceled : Bool := false
  /-- `response_stream_buffer.len`. -/
  responseStreamBuffer : Nat := 0
  responseStreamStarted : Bool := false
  responseStreamBusy : Bool := false
  responseStreamChunk : Bool := false
  kernel : List Operation := []
  /-- All bytes received for the parser, the messages among them that ended, and the bytes the
  parser consumed of the current one. -/
  wire : Bytes := []
  messages : List Bytes := []
  message : Bytes := []
  /-- The bytes a send accepted, and all bytes made ready for sending. -/
  socket : Bytes := []
  serialized : Bytes := []
  /-- A final response was started before its request ended. -/
  early : Bool := false

/-- The assertions whose failure a run can show. -/
inductive Fault
  /-- `Admission.release` with a zero count. -/
  | release
  /-- The slot assertions of `complete`. -/
  | complete
  /-- A stream is destroyed, or an exchange released, while a task borrows it. -/
  | busy
  /-- A completion without the response its stage must have. -/
  | response
  /-- An operation is submitted while one of its kind is pending. -/
  | pending
  deriving DecidableEq, Repr

/-- The pools of large buffers and of the slots' own ones, and the bytes lent of the former. -/
structure Buffers where
  active : Nat := 0
  pools : Buffer → BufferPool := fun _ => {}
  connections : BufferPool := {}

/-- What the slots of a worker share.  `http2Heap` are the addresses of the stream objects that are
allocated; the last two fields about streams are history. -/
structure Shared where
  admission : Admission
  requestsTotal : Nat := 0
  requestsCompletedTotal : Nat := 0
  requestsAbortedTotal : Nat := 0
  /-- The length of the list of free batches. -/
  freeBatches : Nat := 0
  draining : Bool := false
  stopping : Bool := false
  date : Bytes := []
  http2Streams : Nat := 0
  /-- The list that `free_http2_stream` starts. -/
  http2Free : List Nat := []
  http2Cached : Nat := 0
  http2Heap : List Nat := []
  http2Begun : Nat := 0
  http2Destroyed : List Nat := []
  buffers : Buffers := {}
  publicFree : List Nat := []
  adminFree : List Nat := []
  /-- `active_slots[0..active_connections]`. -/
  activeSlots : List Nat := []
  activePosition : Nat → Nat := fun _ => 0
  /-- `idle_first`, `idle_last` and the links in the slots. -/
  idle : Lib.Linked Nat := {}
  executor : Executor := {}
  /-- The assertions that failed so far; the source stops at the first one. -/
  faults : List Fault := []

/-- A slot together with what it shares: the state one call of a worker function works on. -/
structure Cell where
  shared : Shared
  connection : Connection

namespace Cell

/-- Records a failed assertion. -/
def check (cell : Cell) (condition : Bool) (fault : Fault) : Cell :=
  if condition then cell
  else { cell with shared := { cell.shared with faults := fault :: cell.shared.faults } }

end Cell

end Worker

end Zhtps
