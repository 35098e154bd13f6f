import Zhtps.Worker.State

/-!
The functions of `src/server/worker.zig` that work on one slot and return to their caller: leases,
the reset between requests, permits, batches, and the way from `forceClose` to a free slot.
-/

namespace Zhtps.Worker

namespace Connection

/-! ### Operations given to the kernel -/

def submitReceive (c : Connection) : Connection :=
  { c with
    kernel := c.kernel ++ [⟨.receive, c.generation, c.occupant, []⟩]
    receivePending := true
    pending := c.pending + 1 }

def submitSend (c : Connection) (bytes : Bytes) : Connection :=
  { c with
    kernel := c.kernel ++ [⟨.send, c.generation, c.occupant, bytes⟩]
    sendPending := true
    pending := c.pending + 1 }

def submitCancelReceive (c : Connection) : Connection :=
  { c with
    kernel := c.kernel ++ [⟨.cancelReceive, c.generation, c.occupant, []⟩]
    cancelReceivePending := true
    pending := c.pending + 1 }

def submitCancelSend (c : Connection) : Connection :=
  { c with
    kernel := c.kernel ++ [⟨.cancelSend, c.generation, c.occupant, []⟩]
    cancelSendPending := true
    pending := c.pending + 1 }

/-! ### Buffers and the request lease -/

/-- The buffer of this kind is a leased one. -/
def leases (c : Connection) (kind : Worker.Buffer) : Bool :=
  c.largeBuffers.any fun lease => lease.1 == kind

/-- The length of the buffer that `bufferSlice` gives for a kind. -/
def capacity (config : Config) (c : Connection) (kind : Worker.Buffer) : Nat :=
  if c.admin ∨ c.leases kind then config.full kind
  else min (config.full kind) (config.small kind)

/-- The size of the slot's own buffer of a kind. -/
def smallBuffer (config : Config) (c : Connection) (kind : Worker.Buffer) : Bytes :=
  List.replicate (if c.admin then config.full kind else min (config.full kind) (config.small kind)) 0

def initParser (config : Config) (c : Connection) : Connection :=
  { c with
    parser := .init (smallBuffer config c .head) (smallBuffer config c .trailers) config.limits }

/-- Moves what a replaced buffer holds: an incomplete head is copied, trailers have not begun. -/
def moveBuffer (config : Config) (kind : Worker.Buffer) (parser : Parser) : Parser :=
  match kind with
  | .head => { parser with headStorage := parser.headStorage.grow (config.full .head) 0 }
  | .trailers =>
      { parser with trailerStorage := parser.trailerStorage.grow (config.full .trailers) 0 }
  | _ => parser

/-- A leased block takes the place of the slot's own buffer. -/
def useBlock (config : Config) (kind : Worker.Buffer) (block : Nat) (c : Connection) : Connection :=
  { c with
    largeBuffers := (kind, block) :: c.largeBuffers
    parser := moveBuffer config kind c.parser }

/-- The leases that stay between two requests: a receive buffer that holds or expects input. -/
def keptBuffers (c : Connection) (closing : Bool) : List (Worker.Buffer × Nat) :=
  if !closing ∧ (c.receivePending ∨ c.input ≠ []) then
    c.largeBuffers.filter fun lease => lease.1 == .receive
  else []

/-- The other ones. -/
def returnedBuffers (c : Connection) (closing : Bool) : List (Worker.Buffer × Nat) :=
  if !closing ∧ (c.receivePending ∨ c.input ≠ []) then
    c.largeBuffers.filter fun lease => lease.1 != .receive
  else c.largeBuffers

def releaseRequest (c : Connection) : Connection :=
  if c.admin then c else { c with lease := false }

/-- Takes a parser and an exchange from the worker's cache. -/
def acquireRequest (config : Config) (granted : Bool) (c : Connection) : Option Connection :=
  if c.lease then some c
  else if granted then some (initParser config { c with lease := true })
  else none

/-- The lease half of `prepareRequest`. -/
def renewLease (config : Config) (c : Connection) : Connection :=
  if c.input = [] ∧ !c.admin then { c with lease := false }
  else if c.lease then initParser config c
  else c

/-- The fields that `prepareRequest` sets. -/
def resetRequest (config : Config) (c : Connection) : Connection :=
  { renewLease config c with
    applicationInitialized := false
    requestStarted := false
    requestCompleted := false
    firstByteRecorded := false
    output := []
    outputSent := 0
    body := []
    bodySent := 0
    responseBodyBytes := 0
    streaming := false
    streamFragment := none
    applicationBody := []
    closeAfterResponse := false
    interim := false
    applicationTimedOut := false
    canceled := false
    responseStreamStarted := false
    responseStreamBusy := false
    responseStreamChunk := false
    messages := c.messages ++ [c.message]
    message := [] }

end Connection

namespace Session

/-- Cancels every live stream; running tasks keep their storage. -/
def abort (session : Session) : Session :=
  { session with
    streams := session.streams.map fun stream =>
      { stream with closed := true, closeCode := 8, canceled := true } }

end Session

namespace Shared

def removeIdle (shared : Shared) (index : Nat) : Shared :=
  { shared with idle := shared.idle.remove index }

/-- The last active slot takes the place of the one that leaves. -/
def removeActive (shared : Shared) (index : Nat) : Shared :=
  { shared with
    activeSlots := (shared.activeSlots.set (shared.activePosition index)
      (shared.activeSlots.getLastD 0)).dropLast
    activePosition := fun j =>
      if j = shared.activeSlots.getLastD 0 then shared.activePosition index
      else shared.activePosition j }

/-- Gives a permit back, or records that its count was zero. -/
def release (shared : Shared) (decision : Decision) : Shared :=
  match shared.admission.release decision with
  | some admission => { shared with admission := admission }
  | none => { shared with faults := .release :: shared.faults }

def releaseAll (shared : Shared) : Option Decision → Shared
  | some decision => shared.release decision
  | none => shared

/-- Storage for a new stream: cached, or allocated where it is not in use. -/
def acquireStream (shared : Shared) (granted : Bool) (address : Nat) : Option (Shared × Nat) :=
  match shared.http2Free with
  | cached :: rest =>
      some ({ shared with http2Free := rest, http2Cached := shared.http2Cached - 1 }, cached)
  | [] =>
      if granted ∧ address ∉ shared.http2Heap then
        some ({ shared with http2Heap := address :: shared.http2Heap }, address)
      else none

/-- A stream's storage is cached for the next one, 64 times at most. -/
def recycle (shared : Shared) (address : Nat) : Shared :=
  if shared.http2Cached < 64 then
    { shared with
      http2Free := address :: shared.http2Free
      http2Cached := shared.http2Cached + 1 }
  else { shared with http2Heap := shared.http2Heap.erase address }

/-- `destroy` of an HTTP/2 stream, which counts it once as completed or aborted. -/
def destroy (shared : Shared) (stream : Stream) : Shared :=
  let completed := stream.closed && stream.closeCode == 0 && stream.response.isSome
  recycle
    (releaseAll
      { shared with
        requestsCompletedTotal := shared.requestsCompletedTotal + (if completed then 1 else 0)
        requestsAbortedTotal := shared.requestsAbortedTotal + (if completed then 0 else 1)
        http2Streams := shared.http2Streams - 1
        http2Destroyed := shared.http2Destroyed ++ [stream.serial]
        faults := if stream.busy then .busy :: shared.faults else shared.faults }
      stream.permit)
    stream.address

def destroyAll (shared : Shared) (streams : List Stream) : Shared :=
  streams.foldl destroy shared

def setPool (kind : Buffer) (pool : BufferPool) (shared : Shared) : Shared :=
  { shared with
    buffers :=
      { shared.buffers with pools := Function.update shared.buffers.pools kind pool } }

def charge (size : Nat) (shared : Shared) : Shared :=
  { shared with buffers := { shared.buffers with active := shared.buffers.active + size } }

/-- Gives blocks back to their pools. -/
def returnBlocks (buffers : Buffers) : List (Buffer × Nat) → Buffers
  | [] => buffers
  | (kind, block) :: rest =>
      returnBlocks
        { buffers with
          active := buffers.active - (buffers.pools kind).size
          pools := Function.update buffers.pools kind ((buffers.pools kind).put block) } rest

end Shared

namespace Cell

def setConnection (cell : Cell) (c : Connection) : Cell := { cell with connection := c }

/-- Leases a full-size buffer unless the slot has one: the slot, and whether it has the buffer.  The
budget is asked first, then the pool, then the allocator. -/
def ensureBuffer (config : Config) (granted : Bool) (address : Nat) (kind : Buffer) (cell : Cell) :
    Cell × Bool :=
  let pool := cell.shared.buffers.pools kind
  if cell.connection.capacity config kind ≥ config.full kind then (cell, true)
  else if pool.size > config.largeBufferBytes - cell.shared.buffers.active then (cell, false)
  else
    match pool.lend granted address with
    | (pool, none) => ({ cell with shared := cell.shared.setPool kind pool }, false)
    | (pool, some block) =>
        ({ shared := (cell.shared.setPool kind pool).charge pool.size
           connection := cell.connection.useBlock config kind block }, true)

theorem setPool_self (kind : Buffer) (shared : Shared) :
    shared.setPool kind (shared.buffers.pools kind) = shared := by
  rw [Shared.setPool, Function.update_eq_self]

/-- A buffer that cannot be leased leaves everything as it was. -/
theorem ensureBuffer_fails {config : Config} {granted : Bool} {address : Nat} {kind : Buffer}
    {cell next : Cell} (h : cell.ensureBuffer config granted address kind = (next, false)) :
    next = cell := by
  unfold ensureBuffer at h
  dsimp only at h
  split at h
  · cases h
  · split at h
    · cases h
      rfl
    · split at h
      · rename_i pool hlend
        cases h
        rw [BufferPool.lend_none hlend, setPool_self]
      · cases h

/-- A lease either changes nothing or takes a block that the budget admits from its pool. -/
theorem ensureBuffer_cases {config : Config} {granted : Bool} {address : Nat} {kind : Buffer}
    {cell next : Cell} {leased : Bool}
    (h : cell.ensureBuffer config granted address kind = (next, leased)) :
    next = cell ∨ ∃ pool block,
      (cell.shared.buffers.pools kind).size ≤
        config.largeBufferBytes - cell.shared.buffers.active ∧
      (cell.shared.buffers.pools kind).lend granted address = (pool, some block) ∧
      next = { shared := (cell.shared.setPool kind pool).charge pool.size
               connection := cell.connection.useBlock config kind block } := by
  cases leased with
  | false => exact .inl (ensureBuffer_fails h)
  | true =>
      unfold ensureBuffer at h
      dsimp only at h
      split at h
      · cases h
        exact .inl rfl
      · split at h
        · cases h
        · rename_i hbudget
          split at h
          · cases h
          · rename_i pool block hlend
            cases h
            exact .inr ⟨pool, block, Nat.le_of_not_lt hbudget, hlend, rfl⟩

/-- Returns leased buffers; the receive buffer stays while it holds or expects input. -/
def releaseBuffers (closing : Bool) (cell : Cell) : Cell :=
  { shared :=
      { cell.shared with
        buffers := Shared.returnBlocks cell.shared.buffers
          (cell.connection.returnedBuffers closing) }
    connection :=
      { cell.connection with
        largeBuffers := cell.connection.keptBuffers closing
        input := if closing then [] else cell.connection.input } }

def prepareRequest (config : Config) (cell : Cell) : Cell :=
  let cell := cell.releaseBuffers false
  cell.setConnection (cell.connection.resetRequest config)

/-- The block of a public slot's own buffers goes back to its pool. -/
def releaseConnectionBuffers (cell : Cell) : Cell :=
  match cell.connection.smallBlock with
  | none => cell
  | some block =>
      { shared :=
          { cell.shared with
            buffers :=
              { cell.shared.buffers with
                connections := cell.shared.buffers.connections.put block } }
        connection := { cell.connection with smallBlock := none } }

/-- A public slot needs a block for its own buffers. -/
def acquireConnectionBuffers (granted : Bool) (address : Nat) (cell : Cell) : Option Cell :=
  let set (pool : BufferPool) (block : Nat) : Cell :=
    { shared :=
        { cell.shared with buffers := { cell.shared.buffers with connections := pool } }
      connection := { cell.connection with smallBlock := some block } }
  if cell.connection.admin then some cell
  else
    match cell.shared.buffers.connections.lend granted address with
    | (pool, some block) => some (set pool block)
    | (_, none) => none

/-- A buffer for a response stream, within the budget: the slot, and whether it has the buffer. -/
def allocateResponseStream (config : Config) (granted : Bool) (size : Nat) (cell : Cell) :
    Cell × Bool :=
  if size > config.largeBufferBytes - cell.shared.buffers.active then (cell, false)
  else if !granted then (cell, false)
  else
    ({ shared := cell.shared.charge size
       connection := { cell.connection with responseStreamBuffer := size } }, true)

theorem allocateResponseStream_fails {config : Config} {granted : Bool} {size : Nat}
    {cell next : Cell} (h : cell.allocateResponseStream config granted size = (next, false)) :
    next = cell := by
  unfold allocateResponseStream at h
  split_ifs at h
  · cases h
    rfl
  · cases h
    rfl
  · cases h

/-- A stream's buffer that is granted fits the budget. -/
theorem allocateResponseStream_takes {config : Config} {granted : Bool} {size : Nat}
    {cell next : Cell} (h : cell.allocateResponseStream config granted size = (next, true)) :
    size ≤ config.largeBufferBytes - cell.shared.buffers.active ∧
      next = { shared := cell.shared.charge size
               connection := { cell.connection with responseStreamBuffer := size } } := by
  unfold allocateResponseStream at h
  split_ifs at h with hbudget
  · cases h
  · cases h
  · cases h
    exact ⟨Nat.le_of_not_lt hbudget, rfl⟩

def freeResponseStream (cell : Cell) : Cell :=
  { shared :=
      { cell.shared with
        buffers :=
          { cell.shared.buffers with
            active := cell.shared.buffers.active - cell.connection.responseStreamBuffer } }
    connection := { cell.connection with responseStreamBuffer := 0 } }

def releasePermit (cell : Cell) : Cell :=
  { shared := cell.shared.releaseAll cell.connection.permit
    connection := { cell.connection with permit := none } }

/-- Frees the exchange; the executor must not be producing its response any more. -/
def releaseApplication (cell : Cell) : Cell :=
  if cell.connection.admin ∨ !cell.connection.applicationInitialized then cell
  else
    let cell := (cell.check (!cell.connection.responseStreamBusy) .busy).freeResponseStream
    cell.setConnection { cell.connection with applicationInitialized := false }

def releaseHttp2 (cell : Cell) : Cell :=
  match cell.connection.http2 with
  | none => cell
  | some session =>
      { shared := cell.shared.destroyAll session.streams
        connection := { cell.connection with http2 := none } }

/-- Completes the entries a send has covered: `sentBatch`'s loop runs until one is incomplete. -/
def completeEntries (shared : Shared) (sent : Nat) :
    List ResponseBatch.Entry → Nat → Shared × Nat
  | [], completed => (shared, completed)
  | entry :: rest, completed =>
      if sent < entry.stop then (shared, completed)
      else completeEntries
        ({ shared with requestsCompletedTotal := shared.requestsCompletedTotal + 1 }.release
          .admitted) sent rest (completed + 1)

/-- Aborts the entries that remain. -/
def abortEntries (shared : Shared) : List ResponseBatch.Entry → Shared
  | [] => shared
  | _ :: rest =>
      abortEntries
        { shared.release .admitted with requestsAbortedTotal := shared.requestsAbortedTotal + 1 } rest

def releaseBatch (cell : Cell) : Cell :=
  { shared := { cell.shared with freeBatches := cell.shared.freeBatches + 1 }
    connection := { cell.connection with batch := none } }

def abortBatch (cell : Cell) : Cell :=
  match cell.connection.batch with
  | none => cell
  | some batch =>
      releaseBatch
        { cell with shared := abortEntries cell.shared (batch.responses.drop batch.completed) }

/-- Counts a request that started and did not complete. -/
def countAborted (cell : Cell) : Cell :=
  if cell.connection.requestStarted && !cell.connection.requestCompleted then
    { cell with
      shared :=
        { cell.shared with requestsAbortedTotal := cell.shared.requestsAbortedTotal + 1 } }
  else cell

/-- Returns the slot to its free list. -/
def freeSlot (index : Nat) (cell : Cell) : Cell :=
  { shared :=
      if cell.connection.admin then
        { cell.shared with adminFree := index :: cell.shared.adminFree }
      else { cell.shared with publicFree := index :: cell.shared.publicFree }
    connection := { cell.connection with fd := none, tls := none } }

def leaveActive (index : Nat) (cell : Cell) : Cell :=
  { cell with shared := cell.shared.removeActive index }

def finishClose (index : Nat) (cell : Cell) : Cell :=
  if cell.connection.pending ≠ 0 ∨ cell.connection.fd = none then cell
  else
    let closed := (cell.releaseHttp2.abortBatch.releaseApplication.countAborted).releaseBuffers true
    let released := (closed.setConnection closed.connection.releaseRequest).releaseConnectionBuffers
    ((released.freeSlot index).releasePermit).leaveActive index

/-- Asks the kernel to give back a pending receive. -/
def cancelReceive (cell : Cell) : Cell :=
  if cell.connection.receivePending ∧ !cell.connection.cancelReceivePending then
    cell.setConnection cell.connection.submitCancelReceive
  else cell

def cancelSend (cell : Cell) : Cell :=
  if cell.connection.sendPending ∧ !cell.connection.cancelSendPending then
    cell.setConnection cell.connection.submitCancelSend
  else cell

def forceClose (index : Nat) (cell : Cell) : Cell :=
  let canceled : Cell :=
    { shared := cell.shared.removeIdle index
      connection :=
        { cell.connection with
          canceled := true
          http2 := cell.connection.http2.map Session.abort
          phase := .canceling } }
  canceled.cancelReceive.cancelSend.finishClose index

def queueIdle (config : Config) (index : Nat) (cell : Cell) : Cell :=
  if config.idleReclaim ∧ !cell.connection.admin ∧ !cell.shared.idle.queued index ∧
      cell.connection.phase = .reading ∧ !cell.connection.requestStarted ∧
      cell.connection.requests ≠ 0 then
    { cell with shared := { cell.shared with idle := cell.shared.idle.push index } }
  else cell

def timeoutApplication (cell : Cell) : Cell :=
  if cell.connection.applicationTimedOut then cell
  else cell.setConnection
    { cell.connection with canceled := true, applicationTimedOut := true }

/-- Hands a task that borrows this slot to the executor. -/
def submit (index : Nat) (refused : Bool) (lane : Nat) (stage : Stage) (stream : Option Nat)
    (cell : Cell) : Option Cell :=
  (cell.shared.executor.submit refused
    { index, generation := cell.connection.generation, occupant := cell.connection.occupant, stage,
      stream, lane }).map fun executor =>
      { cell with shared := { cell.shared with executor := executor } }

end Cell

end Zhtps.Worker
