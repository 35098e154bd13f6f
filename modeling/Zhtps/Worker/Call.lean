import Zhtps.Worker.Connection

/-!
The functions of `src/server/worker.zig` that call one another.  Every such call is the last thing
its caller does for the connection, so a function is a step on a `Cell` that ends with the call to
make next, and a chain of them runs until one ends with `done`.

A `Choice` answers what the function asks of its environment; each function reads the fields that
concern it.
-/

namespace Zhtps.Worker

/-- The result of a receive: input, an orderly end, or a failure. -/
inductive Received
  | bytes (bytes : Bytes)
  | eof
  | canceled
  | failed
  deriving DecidableEq, Repr

inductive Call
  | processInput
  | parseInput
  | receiveHead
  | dispatchHead
  | receiveBody (bytes : Bytes)
  | finishRequest
  | continueAfterHead
  | reject (status : Nat)
  | respondStatus (status : Nat) (close : Bool)
  | startResponse (response : Response)
  | queueSend
  | aggregate
  | transmit
  | queueBatch
  | queueReceive
  | received (result : Received)
  | receivedTls (result : Received)
  | sentTls (ok : Bool)
  | sent (count : Option Nat)
  | pumpResponseStream
  | finishResponse
  | drainConnection
  | beginTcpDrain
  | advanceTls
  | pumpHttp2
  deriving DecidableEq, Repr

inductive Next
  | done
  | call (call : Call)
  deriving DecidableEq, Repr

inductive TlsStep
  | receive
  | send
  /-- The operation completed, with this plaintext for a read and this count for a write. -/
  | complete (bytes : Bytes) (count : Nat) (http2 : Bool)
  | failed
  deriving DecidableEq, Repr

/-- What `writeHttpsLocation` makes of the target; the buffer may be too small for it. -/
inductive Location
  | written (value : Bytes)
  | invalid
  | full
  deriving DecidableEq, Repr

/-- What the response stream's publication shows; `flush` publishes at least one byte. -/
inductive Published
  | writing
  | ready (first : UInt8) (rest : Bytes)
  | finished
  | failed
  deriving DecidableEq, Repr

/-- The error of an HTTP/2 function, if any: one that concerns its stream, or exhausted memory. -/
inductive Engine
  | ok
  | protocol
  | memory
  deriving DecidableEq, Repr

/-- What the engine and the application do for one HTTP/2 stream. -/
structure StreamChoice where
  /-- The stream's deadline is past. -/
  late : Bool := false
  now : Nat := 0
  /-- A status that answers an invalid head. -/
  invalid : Option Nat := none
  granted : Bool := true
  early : Option Response := none
  inlineHead : Bool := false
  answer : Option Response := none
  response : Response := {}
  streamsBody : Bool := false
  accepted : Bool := true
  lane : Nat := 0
  refused : Bool := false
  /-- The response has no valid framing or its fields exceed the budget. -/
  unsendable : Bool := false
  suppressed : Bool := false
  /-- What the engine answers to the response, and to the other calls made for the stream. -/
  submitted : Engine := .ok
  engine : Engine := .ok
  /-- The engine has memory for a reset. -/
  resets : Bool := true
  producer : Bool := true
  publicationFailed : Bool := false
  deriving Repr

/-- What one round of `pumpHttp2` does: a callback of the engine, `drive`, or the end of its loop. -/
inductive Http2Step
  | begin (id address : Nat) (granted : Bool)
  | beginTrailers (id : Nat)
  | header (id : Nat) (field : Header)
  | headComplete (id : Nat) (trailers ended : Bool)
  | body (id : Nat) (bytes : Bytes) (choice : StreamChoice)
  | ended (id : Nat)
  | closed (id code : Nat)
  | drive (choices : List StreamChoice)
  | shutdown
  /-- The engine reads no more: live streams are canceled and TLS is shut down. -/
  | stop
  | failed
  /-- The loop ends; `send` says that ciphertext waits to be sent. -/
  | finish (send receive : Bool)
  deriving Repr

structure Choice where
  now : Nat := 0
  /-- The deadline the function compares with the clock is past. -/
  late : Bool := false
  /-- The request was first seen after the keep-alive window of a shutdown. -/
  final : Bool := false
  /-- `shouldStop`. -/
  stop : Bool := false
  /-- Allocations succeed, and a block that has to be allocated gets this address. -/
  granted : Bool := true
  block : Nat := 0
  /-- The executor's lane is full or stopping. -/
  refused : Bool := false
  lane : Nat := 0
  date : Bytes := []
  normalized : Option Bytes := none
  /-- What the head hook, or the administrative head check, answers at once. -/
  early : Option Response := none
  inlineHead : Bool := false
  answer : Option Response := none
  response : Response := {}
  streamsBody : Bool := false
  accepted : Bool := true
  inspect : Bool := false
  allowed : Bytes := []
  location : Location := .invalid
  /-- What is written into a full-size buffer instead. -/
  relocation : Option Bytes := none
  authority : Bytes := []
  producer : Bool := true
  published : Published := .writing
  /-- What the producer answers, one call after the other. -/
  fragments : List (Option Bytes) := []
  nodelay : Bool := true
  tls : TlsStep := .failed
  http2 : Http2Step := .failed
  deriving Repr

/-! ### Reading a request -/

namespace Cell

def startRequest (index : Nat) (cell : Cell) : Cell :=
  { shared :=
      { cell.shared.removeIdle index with requestsTotal := cell.shared.requestsTotal + 1 }
    connection := { cell.connection with requestStarted := true } }

/-- The first half of `processInput`'s loop: decide whether a request starts. -/
def processInput (config : Config) (choice : Choice) (index : Nat) (cell : Cell) : Cell × Next :=
  if cell.connection.phase ≠ .reading then (cell, .done)
  else if !cell.connection.requestStarted ∧ cell.connection.input = [] then
    (cell, .call .queueReceive)
  else
    match cell.connection.acquireRequest config choice.granted with
    | none => (cell.forceClose index, .done)
    | some c =>
        if c.requestStarted then (cell.setConnection c, .call .parseInput)
        else if cell.shared.draining ∧ choice.late then
          (cell.setConnection c,
            .call (if c.batch.isSome then .queueBatch else .drainConnection))
        else ((cell.setConnection c).startRequest index, .call .parseInput)

/-- The call that handles a parser event. -/
def afterEvent (input : Bytes) : Event → Call
  | .needInput => if input = [] then .queueReceive else .processInput
  | .head _ => .receiveHead
  | .body bytes => .receiveBody bytes
  | .trailer _ => .processInput
  | .end => .finishRequest

/-- Feeds the parser, never more of an incomplete head than its storage holds. -/
def feedInput (cell : Cell) : Cell × Next :=
  let c := cell.connection
  let input :=
    if c.parser.phase = .head then c.input.take c.parser.headStorage.room else c.input
  match c.parser.feed input with
  | (parser, .error err) => (cell.setConnection { c with parser := parser },
      .call (.reject (Parser.status err)))
  | (parser, .ok step) =>
      (cell.setConnection
        { c with
          parser := parser
          input := c.input.drop step.consumed
          message := c.message ++ c.input.take step.consumed },
        .call (afterEvent (c.input.drop step.consumed) step.event))

/-- `ensureBuffer` with what the environment chooses. -/
def lease (config : Config) (choice : Choice) (kind : Buffer) (cell : Cell) : Cell × Bool :=
  cell.ensureBuffer config choice.granted choice.block kind

/-- A full head storage grows once; beyond the configured size the head is too large. -/
def growHead (config : Config) (choice : Choice) (cell : Cell) : Cell × Next :=
  let c := cell.connection
  if c.parser.phase = .head ∧ c.input ≠ [] ∧ c.parser.headStorage.room = 0 then
    if c.parser.headStorage.capacity = config.full .head then (cell, .call (.reject 431))
    else
      match cell.lease config choice .head with
      | (cell, false) => (cell, .call (.reject 503))
      | (cell, true) => cell.feedInput
  else cell.feedInput

/-- The second half of the loop: without budget to admit or reject, an incomplete head is not
parsed any further. -/
def parseInput (config : Config) (choice : Choice) (index : Nat) (cell : Cell) : Cell × Next :=
  let draining := cell.shared.draining && choice.final
  if !cell.connection.admin ∧ cell.connection.parser.phase = .head ∧
      cell.shared.admission.exhausted draining then
    let cell : Cell :=
      { cell with
        shared :=
          { cell.shared with admission := cell.shared.admission.refill choice.now } }
    if cell.shared.admission.exhausted draining then
      if cell.connection.batch.isSome then (cell, .call .queueBatch)
      else
        ((cell.setConnection { cell.connection with permit := some .close }).forceClose index,
          .done)
    else cell.growHead config choice
  else cell.growHead config choice

/-- The routing view of the target, and the scheme and authority a target leaves out. -/
def completeTarget (c : Connection) (path authority : Bytes) : Connection :=
  let request := c.parser.request
  let request :=
    if request.scheme.isNone ∧ request.method ≠ ascii "CONNECT" then
      { request with
        path := path
        scheme := some (ascii (if c.tls.isSome then "https" else "http"))
        authority := if request.authority = [] then authority else request.authority }
    else { request with path := path }
  { c with parser := { c.parser with request := request } }

/-- The leases for input that does not fit the slot's own receive buffer. -/
def leaseReceive (config : Config) (choice : Choice) (cell : Cell) : Cell × Bool :=
  let request := cell.connection.parser.request
  if request.chunked then
    match cell.lease config choice .trailers with
    | (cell, true) => cell.lease config choice .receive
    | (cell, false) => (cell, false)
  else if request.contentLength.getD 0 > cell.connection.capacity config .receive then
    cell.lease config choice .receive
  else (cell, true)

/-- The leases an admitted request needs before its exchange starts; those that it got stay when
another one fails. -/
def leaseBody (config : Config) (choice : Choice) (cell : Cell) : Cell × Bool :=
  match leaseReceive config choice cell with
  | (cell, false) => (cell, false)
  | (cell, true) =>
      let request := cell.connection.parser.request
      if config.app ≠ .builtin ∨ request.chunked ∨
          request.contentLength.getD 0 > cell.connection.capacity config .application then
        cell.lease config choice .application
      else (cell, true)

/-- `redirectHttp`: the plain listener answers every admitted request with its HTTPS target, which
is written into the buffer of the exchange. -/
def redirectHttp (config : Config) (choice : Choice) (cell : Cell) : Cell × Next :=
  let redirect (value : Bytes) : Call :=
    .startResponse { status := 308, headers := [⟨ascii "Location", value⟩] }
  match choice.location with
  | .written value => (cell, .call (redirect value))
  | .invalid => (cell, .call (.reject 400))
  | .full =>
      match cell.lease config choice .application with
      | (cell, false) => (cell, .call (.reject 503))
      | (cell, true) =>
          match choice.relocation with
          | some value => (cell, .call (redirect value))
          | none => (cell, .call (.reject 414))

/-- Admission of a public request whose target is complete. -/
def admitRequest (config : Config) (choice : Choice) (index : Nat) (cell : Cell) : Cell × Next :=
  let (admission, decision) :=
    cell.shared.admission.acquire choice.now (cell.shared.draining && choice.final)
  let cell : Cell :=
    { shared := { cell.shared with admission := admission }
      connection := { cell.connection with permit := some decision } }
  match decision with
  | .reject => (cell, .call (.respondStatus 503 false))
  | .close => (cell.forceClose index, .done)
  | .admitted =>
      if cell.connection.redirect then cell.redirectHttp config choice
      else
        match cell.leaseBody config choice with
        | (cell, false) => (cell, .call (.reject 503))
        | (cell, true) =>
            (cell.setConnection { cell.connection with applicationInitialized := true },
              .call .dispatchHead)

/-- An absolute target names a scheme the listener does not serve. -/
def misdirected (c : Connection) : Bool :=
  c.parser.request.scheme.any fun scheme =>
    !Syntax.eql scheme (ascii (if c.tls.isSome then "https" else "http"))

/-- A target that does not fit the slot's own path buffer needs a lease. -/
def leasePath (config : Config) (choice : Choice) (cell : Cell) : Cell × Bool :=
  if cell.connection.parser.request.path.length > cell.connection.capacity config .path then
    cell.lease config choice .path
  else (cell, true)

/-- The `.head` event up to admission. -/
def receiveHead (config : Config) (choice : Choice) (index : Nat) (cell : Cell) : Cell × Next :=
  if misdirected cell.connection then (cell, .call (.reject 421))
  else
    match leasePath config choice cell with
    | (cell, false) => (cell, .call (.reject 503))
    | (cell, true) =>
        match choice.normalized with
        | none => (cell, .call (.reject 400))
        | some path =>
            let cell := cell.setConnection (completeTarget cell.connection path choice.authority)
            if cell.connection.admin then
              match choice.early with
              | some response => (cell, .call (.startResponse response))
              | none => (cell, .call .continueAfterHead)
            else cell.admitRequest config choice index

/-- `submitApplication`: the slot leaves `reading` unless the lane refuses the task. -/
def submitApplication (choice : Choice) (index : Nat) (stage : Stage) (cell : Cell) :
    Option Cell :=
  (cell.setConnection
    { cell.connection with phase := .application, applicationTimedOut := false }).submit index
      choice.refused choice.lane stage none

/-- A refused task leaves `application_timed_out` cleared and the phase as it was. -/
def refuseApplication (cell : Cell) : Cell :=
  cell.setConnection { cell.connection with phase := .reading, applicationTimedOut := false }

/-- The head hook of an admitted request. -/
def dispatchHead (config : Config) (choice : Choice) (index : Nat) (cell : Cell) : Cell × Next :=
  match choice.early with
  | some response => (cell, .call (.startResponse response))
  | none =>
      if config.app.isIsolated then
        if choice.inlineHead then
          match choice.answer with
          | some response => (cell, .call (.startResponse response))
          | none => (cell, .call .continueAfterHead)
        else
          match cell.submitApplication choice index .head with
          | some cell => (cell, .done)
          | none => (cell.refuseApplication, .call (.respondStatus 503 false))
      else (cell, .call .continueAfterHead)

/-- Fixed-length framing is complete: the final consumer and the handler share one task. -/
def bodyStage (c : Connection) : Connection × Stage :=
  if c.parser.phase = .ending then ({ c with parser := (c.parser.feed []).1 }, .bodyResponse)
  else (c, .body)

def receiveBody (config : Config) (choice : Choice) (index : Nat) (bytes : Bytes) (cell : Cell) :
    Cell × Next :=
  if cell.connection.admin then (cell, .call .processInput)
  else if config.app.isIsolated ∧ choice.streamsBody then
    let (c, stage) := bodyStage { cell.connection with applicationBody := bytes }
    match (cell.setConnection c).submitApplication choice index stage with
    | some cell => (cell, .done)
    | none =>
        ((cell.setConnection { c with applicationBody := [] }).refuseApplication,
          .call (.respondStatus 503 true))
  else if choice.accepted then (cell, .call .processInput)
  else (cell, .call (.reject 413))

/-- The `.end` event. -/
def finishRequest (config : Config) (choice : Choice) (index : Nat) (cell : Cell) : Cell × Next :=
  if cell.connection.admin then
    if choice.inspect then
      (cell.setConnection { cell.connection with phase := .inspecting }, .done)
    else (cell, .call (.startResponse choice.response))
  else if config.app.isIsolated then
    match cell.submitApplication choice index .response with
    | some cell => (cell, .done)
    | none => (cell.refuseApplication, .call (.respondStatus 503 false))
  else (cell, .call (.startResponse choice.response))

def interimResponse : Bytes := ascii "HTTP/1.1 100 Continue\r\n\r\n"

def continueAfterHead (cell : Cell) : Cell × Next :=
  let request := cell.connection.parser.request
  if !request.expectContinue ∨ (!request.chunked ∧ request.contentLength.getD 0 = 0) then
    (cell, .call .processInput)
  else
    (cell.setConnection
      { cell.connection with
        output := interimResponse
        outputSent := 0
        interim := true
        phase := .writing
        serialized := cell.connection.serialized ++ interimResponse },
      .call .queueSend)

end Cell

end Zhtps.Worker
