import Zhtps.Lib.Transition
import Zhtps.Worker.Http2

/-!
The worker as a transition system.  A step continues the call under way, or, when there is none,
starts one from an event: a completion of the kernel, a completion of the executor, a visit of the
clock tick, a new connection, or a phase of the shutdown.  Executor threads step at any time.

`finishApplications`, `tick` and `beginShutdown` visit slots one after another.  Every visit is an
event here, so runs of the model may also visit them in other orders.  Ring failures end a run.
-/

namespace Zhtps.Worker

/-- Runs the body of a call. -/
def Cell.dispatch (config : Config) (choice : Choice) (index : Nat) (cell : Cell) :
    Call → Cell × Next
  | .processInput => cell.processInput config choice index
  | .parseInput => cell.parseInput config choice index
  | .receiveHead => cell.receiveHead config choice index
  | .dispatchHead => cell.dispatchHead config choice index
  | .receiveBody bytes => cell.receiveBody config choice index bytes
  | .finishRequest => cell.finishRequest config choice index
  | .continueAfterHead => cell.continueAfterHead
  | .reject status => cell.reject choice index status
  | .respondStatus status close => cell.respondStatus choice status close
  | .startResponse response => cell.startResponse config choice index response
  | .queueSend => cell.queueSend config
  | .aggregate => cell.aggregate config
  | .transmit => cell.transmit
  | .queueBatch => cell.queueBatch
  | .queueReceive => cell.queueReceive config choice index
  | .received result => cell.received index result
  | .receivedTls result => cell.receivedTls index result
  | .sentTls ok => cell.sentTls index ok
  | .sent count => cell.sent config choice index count
  | .pumpResponseStream => cell.pumpResponseStream config choice index
  | .finishResponse => cell.finishResponse config
  | .drainConnection => cell.drainConnection index
  | .beginTcpDrain => cell.beginTcpDrain
  | .advanceTls => cell.advanceTls choice index
  | .pumpHttp2 => cell.pumpHttp2 config choice index

/-! ### Events -/

/-- The result of a kernel operation: a receive's input, or what a send took of its bytes. -/
inductive Result
  | received (result : Received)
  | sent (count : Option Nat)
  deriving DecidableEq, Repr

/-- The clock and the socket as `tick` finds them for one slot. -/
structure Clock where
  /-- The connection's deadline, its application's and the shutdown's are past. -/
  late : Bool := false
  applicationLate : Bool := false
  shutdownLate : Bool := false
  /-- The poll of the socket reports an error or a hangup. -/
  hangup : Bool := false
  deriving Repr

/-- One slot's part of an event. -/
inductive Visit
  | accept (fd : Nat) (redirect secured : Bool) (choice : Choice)
  | complete (position : Nat) (result : Result)
  | finishApplication (choice : StreamChoice)
  | pumpApplication
  | tick (clock : Clock)
  | inspected (status : Option Nat) (response : Response)
  | reclaim
  | shutdown (keepalive : Bool)
  deriving Repr

namespace Cell

/-- The fields that `acceptConnection` sets before `prepareRequest`. -/
def openFields (fd : Nat) (redirect : Bool) (c : Connection) : Connection :=
  { c with
    fd := some fd
    redirect := redirect
    generation := c.generation + 1
    occupant := c.occupant + 1
    phase := .reading
    requests := 0
    input := []
    pending := 0
    receivePending := false
    sendPending := false
    morePending := false
    moreCount := 0
    cancelReceivePending := false
    cancelSendPending := false
    permit := none
    drainedBytes := 0 }

/-- A new connection and its history. -/
def openSlot (config : Config) (fd : Nat) (redirect : Bool) (cell : Cell) : Cell :=
  let cell := (cell.setConnection (openFields fd redirect cell.connection)).prepareRequest config
  cell.setConnection
    { cell.connection with
      wire := []
      messages := []
      message := []
      socket := []
      serialized := []
      early := false }

/-- Takes the first free slot off its list and appends it to the active ones. -/
def activate (index : Nat) (cell : Cell) : Cell :=
  { cell with
    shared :=
      { cell.shared with
        publicFree :=
          if cell.connection.admin then cell.shared.publicFree else cell.shared.publicFree.tail
        adminFree :=
          if cell.connection.admin then cell.shared.adminFree.tail else cell.shared.adminFree
        activeSlots := cell.shared.activeSlots ++ [index]
        activePosition := fun j =>
          if j = index then cell.shared.activeSlots.length else cell.shared.activePosition j } }

/-- The list a slot is free on. -/
def freeList (cell : Cell) : List Nat :=
  if cell.connection.admin then cell.shared.adminFree else cell.shared.publicFree

/-- `acceptConnection`, for the slot at the head of its free list; `secured` says that a TLS session
could be created.  A connection that gets no buffers is refused and leaves no trace. -/
def acceptConnection (config : Config) (choice : Choice) (index fd : Nat) (redirect secured : Bool)
    (cell : Cell) : Option (Cell × Next) :=
  if cell.shared.draining ∨ cell.freeList.head? ≠ some index then none
  else
    (cell.acquireConnectionBuffers choice.granted choice.block).map fun cell =>
      let cell := (cell.activate index).openSlot config fd redirect
      if config.tls ∧ !cell.connection.admin ∧ !redirect then
        if secured then
          (cell.setConnection { cell.connection with tls := some .handshake, phase := .handshake },
            .call .advanceTls)
        else (cell.forceClose index, .done)
      else (cell, .call .queueReceive)

/-- The kernel takes nothing or a positive number of the bytes offered. -/
def validResult (operation : Operation) : Result → Bool
  | .received (.bytes bytes) => operation.kind = .receive ∧ bytes ≠ []
  | .received _ => operation.kind ≠ .send
  | .sent (some count) => operation.kind = .send ∧ 0 < count
  | .sent none => operation.kind = .send

/-- A plain send offers the response's own bytes; TLS offers ciphertext. -/
def takesAtMost (operation : Operation) (c : Connection) : Result → Bool
  | .sent (some count) => c.tls.isSome ∨ count ≤ operation.bytes.length
  | _ => true

def recordSent (operation : Operation) (result : Result) (c : Connection) : Connection :=
  match result with
  | .sent (some count) =>
      if c.tls.isSome then c else { c with socket := c.socket ++ operation.bytes.take count }
  | _ => c

/-- Removes the completed operation and clears its flag. -/
def retire (position : Nat) (operation : Operation) (c : Connection) : Connection :=
  let c : Connection :=
    { c with kernel := c.kernel.eraseIdx position, pending := c.pending - 1 }
  match operation.kind with
  | .receive => { c with receivePending := false }
  | .send => { c with sendPending := false }
  | .cancelReceive => { c with cancelReceivePending := false }
  | .cancelSend => { c with cancelSendPending := false }

/-- `completedHttp2`. -/
def completedHttp2 (index : Nat) (result : Result) (cell : Cell) : Cell × Next :=
  match result with
  | .received (.bytes _) | .sent (some _) => (cell, .call .pumpHttp2)
  | _ => (cell.forceClose index, .done)

/-- The call `complete` makes for an operation that is not on a closing connection. -/
def completed (index : Nat) (result : Result) (cell : Cell) : Cell × Next :=
  if cell.connection.http2.isSome then cell.completedHttp2 index result
  else
    match result with
    | .received result =>
        (cell, .call
          (if cell.connection.tls.isSome ∧ cell.connection.phase ≠ .drain then .receivedTls result
          else .received result))
    | .sent count =>
        (cell, .call (if cell.connection.tls.isSome then .sentTls count.isSome else .sent count))

/-- `complete` for the operations of a connection. -/
def complete (index : Nat) (position : Nat) (result : Result) (cell : Cell) :
    Option (Cell × Next) :=
  match cell.connection.kernel[position]? with
  | none => none
  | some operation =>
      if !validResult operation result ∨ !takesAtMost operation cell.connection result then none
      else
        let cell := cell.check
          (cell.connection.fd.isSome && cell.connection.generation == operation.generation &&
            decide (0 < cell.connection.pending)) .complete
        let cell := cell.setConnection
          (retire position operation (recordSent operation result cell.connection))
        if cell.connection.phase = .canceling then some (cell.finishClose index, .done)
        else if operation.kind = .receive ∨ operation.kind = .send then
          some (cell.completed index result)
        else some (cell, .done)

/-! ### The executor's completions -/

def takeCompletion (cell : Cell) (ticket : Nat) (rest : List Completion) : Cell :=
  { cell with
    shared :=
      { cell.shared with
        executor :=
          { cell.shared.executor with
            completions := rest
            applied := cell.shared.executor.applied ++ [ticket] } } }

/-- A completion that is dropped counts as not applied. -/
def dropCompletion (cell : Cell) (rest : List Completion) : Cell :=
  { cell with
    shared := { cell.shared with executor := { cell.shared.executor with completions := rest } } }

def completeStream (config : Config) (choice : StreamChoice) (index : Nat) (address : Nat)
    (completion : Completion) (cell : Cell) : Cell × Next :=
  let cell := cell.check (cell.connection.generation == completion.task.generation) .complete
  let cell := cell.setConnection { cell.connection with pending := cell.connection.pending - 1 }
  match cell.connection.http2 with
  | none => (cell.check false .complete, .done)
  | some session =>
      let (cell, streams, result) :=
        onStream (fun stream => stream.address == address)
          (StreamCell.complete config choice index completion.task.stage completion.response
            completion.expired) session.streams cell
      let cell := cell.setStreams streams
      if result ≠ .ok then (cell.forceClose index, .done)
      else if cell.connection.phase = .canceling then (cell.finishClose index, .done)
      else (cell, .call .pumpHttp2)

def completeProducer (index : Nat) (completion : Completion) (cell : Cell) : Cell × Next :=
  let cell := cell.check (cell.connection.generation == completion.task.generation) .complete
  let cell := cell.setConnection
    { cell.connection with
      responseStreamBusy := false
      pending := cell.connection.pending - 1 }
  let cell := if completion.expired then cell.timeoutApplication else cell
  if cell.connection.phase = .canceling ∨ cell.connection.applicationTimedOut then
    (cell.forceClose index, .done)
  else (cell, .call .pumpResponseStream)

/-- A hook has answered, or passed the request on. -/
def completeApplication (index : Nat) (completion : Completion) (cell : Cell) : Cell × Next :=
  let cell := if completion.expired then cell.timeoutApplication else cell
  if cell.connection.applicationTimedOut then (cell.forceClose index, .done)
  else
    match completion.task.stage, completion.response with
    | .head, some response => (cell, .call (.startResponse response))
    | .head, none =>
        (cell.setConnection { cell.connection with phase := .reading }, .call .continueAfterHead)
    | .body, some response =>
        (cell.setConnection { cell.connection with applicationBody := [] },
          .call (.startResponse response))
    | .body, none =>
        (cell.setConnection { cell.connection with applicationBody := [], phase := .reading },
          .call .processInput)
    | .bodyResponse, some response =>
        (cell.setConnection { cell.connection with applicationBody := [] },
          .call (.startResponse response))
    | .response, some response => (cell, .call (.startResponse response))
    | _, _ => (cell.check false .response, .done)

/-- One round of the loop of `finishApplications`. -/
def finishApplication (config : Config) (choice : StreamChoice) (index : Nat) (cell : Cell) :
    Option (Cell × Next) :=
  match cell.shared.executor.completions with
  | [] => none
  | completion :: rest =>
      if completion.task.index ≠ index then none
      else
        let taken := cell.takeCompletion completion.task.ticket rest
        match completion.task.stream with
        | some address => some (taken.completeStream config choice index address completion)
        | none =>
            if completion.task.stage = .produce then some (taken.completeProducer index completion)
            else if cell.connection.generation ≠ completion.task.generation ∨
                cell.connection.phase ≠ .application then some (cell.dropCompletion rest, .done)
            else some (taken.completeApplication index completion)

/-- A publication wakes the worker: one round of the second loop of `finishApplications`. -/
def pumpApplication (config : Config) (cell : Cell) : Cell × Next :=
  if cell.connection.phase = .http2 then (cell, .call .pumpHttp2)
  else if config.app.hasResponseStreams ∧ cell.connection.phase = .writing ∧
      cell.connection.responseStreamStarted then (cell, .call .pumpResponseStream)
  else (cell, .done)

/-! ### The clock and the shutdown -/

/-- What `tick` does once a connection's deadline is past. -/
def timeout (config : Config) (clock : Clock) (index : Nat) (cell : Cell) : Cell × Next :=
  let c := cell.connection
  if c.phase = .handshake ∨ c.phase = .drain ∨ c.phase = .tlsShutdown then
    (cell.forceClose index, .done)
  else if !c.requestStarted ∧ c.batch.isNone then
    if cell.shared.draining ∧ !c.admin ∧ 0 < c.requests then (cell, .call .drainConnection)
    else (cell.forceClose index, .done)
  else if c.phase = .application then (cell.timeoutApplication, .done)
  else if (config.app.hasResponseStreams ∧ c.streaming ∨ c.phase = .reading) ∧
      clock.applicationLate then
    (cell.timeoutApplication.forceClose index, .done)
  else if c.phase = .reading ∧ c.requestStarted then (cell.cancelReceive, .call (.reject 408))
  else (cell.forceClose index, .done)

/-- One round of the loop of `tick`. -/
def tick (config : Config) (clock : Clock) (index : Nat) (cell : Cell) : Cell × Next :=
  let c := cell.connection
  if c.phase = .http2 then (cell, .call .pumpHttp2)
  else if c.responseStreamStarted ∧ cell.shared.draining ∧ clock.shutdownLate then
    (cell.forceClose index, .done)
  else if c.responseStreamStarted ∧ c.phase ≠ .canceling ∧ clock.hangup then
    (cell.forceClose index, .done)
  else if c.phase = .canceling ∨ !clock.late then (cell, .done)
  else cell.timeout config clock index

/-- One round of the loop of `beginShutdown`. -/
def shutdownSlot (keepalive : Bool) (index : Nat) (cell : Cell) : Cell × Next :=
  match cell.connection.http2 with
  | some _ => (cell.drainSession, .call .pumpHttp2)
  | none =>
      let cell := cell.setConnection { cell.connection with closeAfterResponse := true }
      let c := cell.connection
      if c.phase ≠ .reading ∨ c.requestStarted ∨ c.batch.isSome then (cell, .done)
      else if !c.admin ∧ 0 < c.requests ∧ keepalive then (cell, .done)
      else (cell.forceClose index, .done)

def isActive (index : Nat) (cell : Cell) : Bool := cell.shared.activeSlots.contains index

/-- The visit, when it is enabled. -/
def visit (config : Config) (index : Nat) (cell : Cell) : Visit → Option (Cell × Next)
  | .accept fd redirect secured choice =>
      cell.acceptConnection config choice index fd redirect secured
  | .complete position result => cell.complete index position result
  | .finishApplication choice =>
      if cell.shared.stopping then none else cell.finishApplication config choice index
  | .pumpApplication =>
      if cell.shared.stopping ∨ !cell.isActive index then none
      else some (cell.pumpApplication config)
  | .tick clock =>
      if cell.shared.stopping ∨ !cell.isActive index then none
      else some (cell.tick config clock index)
  | .inspected status response =>
      if cell.shared.stopping ∨ cell.connection.fd.isNone ∨ cell.connection.phase ≠ .inspecting then
        none
      else
        match status with
        | some status => some (cell, .call (.respondStatus status true))
        | none => some (cell, .call (.startResponse response))
  | .reclaim =>
      if cell.shared.idle.first ≠ some index then none else some (cell.forceClose index, .done)
  | .shutdown keepalive =>
      if !cell.shared.draining ∨ cell.connection.fd.isNone then none
      else some (cell.shutdownSlot keepalive index)

end Cell

/-! ### The worker -/

end Worker

/-- A worker with its slots and the call it is executing. -/
structure Worker (n : Nat) where
  shared : Worker.Shared
  slots : Fin n → Worker.Connection
  current : Option (Fin n × Worker.Call) := none

namespace Worker

variable {n : Nat}

inductive Event (n : Nat)
  /-- Continues the call under way. -/
  | call (choice : Choice)
  | visit (index : Fin n) (visit : Visit)
  | refill (now : Nat)
  | beginShutdown
  | stopOperations (late : Bool)
  /-- A thread takes the first task of its lane. -/
  | takeTask (lane : Nat)
  /-- A thread finishes a task and pushes its completion. -/
  | pushCompletion (index : Fin n) (position : Nat) (response : Option Response) (expired : Bool)
  deriving Repr

def cell (w : Worker n) (index : Fin n) : Cell := ⟨w.shared, w.slots index⟩

def put (w : Worker n) (index : Fin n) (cell : Cell) : Worker n :=
  { w with shared := cell.shared, slots := Function.update w.slots index cell.connection }

/-- Writes a slot back and remembers the call it ends with. -/
def resume (w : Worker n) (index : Fin n) (result : Cell × Next) : Worker n :=
  { w.put index result.1 with
    current :=
      match result.2 with
      | .done => none
      | .call call => some (index, call) }

def working (c : Connection) : Bool :=
  (c.http2.any fun session => session.streams.any fun stream => stream.busy) ||
    c.phase == .application || c.responseStreamBusy

def hasApplicationWork (config : Config) (w : Worker n) : Bool :=
  config.app.isIsolated &&
    decide (∃ index : Fin n, w.shared.activeSlots.contains index.val = true ∧
      working (w.slots index) = true)

/-- `stopOperations` closes every open slot. -/
def closeAll (w : Worker n) (slots : List (Fin n)) : Worker n :=
  slots.foldl (fun w index =>
    if (w.slots index).fd.isSome then w.put index ((w.cell index).forceClose index.val) else w) w

/-- Whether the slot or stream of a task was canceled, which a thread reads before it runs it. -/
def canceled (c : Connection) (task : Task) : Bool :=
  match task.stream with
  | none => c.canceled
  | some address =>
      c.http2.any fun session =>
        session.streams.any fun stream => stream.address == address && stream.canceled

/-- A task that ran answers as its stage requires. -/
def answers (c : Connection) (task : Task) (response : Option Response) (expired : Bool) : Bool :=
  match task.stage with
  | .head | .body => true
  | .produce => response.isNone
  | .bodyResponse | .response => response.isSome || expired || canceled c task

def Executor.takeTask (executor : Executor) (lane : Nat) : Option Executor :=
  (executor.queued.find? fun task => task.lane == lane).map fun task =>
    { executor with
      queued := executor.queued.eraseP fun task => task.lane == lane
      running := executor.running ++ [task] }

def Executor.pushCompletion (executor : Executor) (position : Nat) (task : Task)
    (response : Option Response) (expired : Bool) : Executor :=
  { executor with
    running := executor.running.eraseIdx position
    completions := executor.completions ++ [⟨task, response, expired⟩] }

def step (config : Config) (w : Worker n) : Event n → Option (Worker n)
  | .call choice => w.current.map fun (index, call) =>
      w.resume index ((w.cell index).dispatch config choice index.val call)
  | .visit index visit =>
      if w.current.isSome then none
      else ((w.cell index).visit config index.val visit).map fun result => w.resume index result
  | .refill now =>
      if w.current.isSome then none
      else some
        { w with shared := { w.shared with admission := w.shared.admission.refill now } }
  | .beginShutdown =>
      if w.current.isSome then none
      else some { w with shared := { w.shared with draining := true } }
  | .stopOperations late =>
      if w.current.isSome ∨ !w.shared.draining ∨ w.shared.stopping ∨
          !(w.shared.activeSlots.isEmpty || late && !w.hasApplicationWork config) then none
      else some
        (closeAll { w with shared := { w.shared with stopping := true } } (List.finRange n))
  | .takeTask lane => (w.shared.executor.takeTask lane).map fun executor =>
      { w with shared := { w.shared with executor := executor } }
  | .pushCompletion index position response expired =>
      match w.shared.executor.running[position]? with
      | none => none
      | some task =>
          if task.index ≠ index.val ∨ !answers (w.slots index) task response expired then none
          else some
            { w with
              shared :=
                { w.shared with
                  executor := w.shared.executor.pushCompletion position task response expired } }

def run (config : Config) : Worker n → List (Event n) → Option (Worker n) := Lib.run (step config)

/-- A worker as `init` leaves it: the first `public` slots serve the public listeners and the
others, which keep their request storage, the administrative one. -/
def init (n : Nat) (config : Config) (publicSlots : Nat) (options : Admission.Options)
    (now : Nat) : Worker n :=
  { shared :=
      { admission := .init options now
        freeBatches := config.batches
        buffers :=
          { pools := fun kind => { size := config.full kind }
            connections := { size := config.publicStride } }
        publicFree := (List.finRange n).filterMap fun i =>
          if i.val < publicSlots then some i.val else none
        adminFree := (List.finRange n).filterMap fun i =>
          if i.val < publicSlots then none else some i.val }
    slots := fun i =>
      Connection.initParser config
        { admin := decide (publicSlots ≤ i.val)
          lease := decide (publicSlots ≤ i.val)
          parser := .init [] [] config.limits } }

end Worker

end Zhtps
