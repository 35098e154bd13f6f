import Zhtps.Worker.Contract.Sending
import Zhtps.Worker.Ledger

/-!
What a call leaves alone.  The calls of HTTP/1 keep the list of active slots, the running tasks and
the live streams, and none of them misses an answer; one that closes its slot does so as the last
thing.
-/

namespace Zhtps.Worker

/-- The active slots, and where each of them stands. -/
def Shared.roster (shared : Shared) : List Nat × (Nat → Nat) :=
  (shared.activeSlots, shared.activePosition)

/-- The answers that were missed. -/
def Shared.missed (shared : Shared) : List Fault := shared.faults.filter (· == .response)

def Shared.frame (shared : Shared) := (shared.roster, shared.executor.running, shared.missed)

namespace Shared

@[simp] theorem removeIdle_frame (shared : Shared) (index : Nat) :
    (shared.removeIdle index).frame = shared.frame := rfl

@[simp] theorem release_frame (shared : Shared) (decision : Decision) :
    (shared.release decision).frame = shared.frame := by
  unfold release
  split <;> rfl

@[simp] theorem releaseAll_frame (shared : Shared) (permit : Option Decision) :
    (shared.releaseAll permit).frame = shared.frame := by
  cases permit with
  | none => rfl
  | some decision => exact release_frame shared decision

@[simp] theorem recycle_frame (shared : Shared) (address : Nat) :
    (shared.recycle address).frame = shared.frame := by
  unfold recycle
  split <;> rfl

@[simp] theorem destroy_frame (shared : Shared) (stream : Stream) :
    (shared.destroy stream).frame = shared.frame := by
  rw [destroy, recycle_frame, releaseAll_frame]
  cases hbusy : stream.busy <;> rfl

@[simp] theorem destroyAll_frame (shared : Shared) (streams : List Stream) :
    (shared.destroyAll streams).frame = shared.frame := by
  induction streams generalizing shared with
  | nil => rfl
  | cons stream rest ih =>
      exact (ih (shared.destroy stream)).trans (destroy_frame shared stream)

theorem acquireStream_frame {shared next : Shared} {granted : Bool} {address stored : Nat}
    (h : shared.acquireStream granted address = some (next, stored)) : next.frame = shared.frame := by
  unfold acquireStream at h
  split at h
  · obtain ⟨rfl, -⟩ := Prod.mk.inj (Option.some.inj h)
    rfl
  · split_ifs at h
    obtain ⟨rfl, -⟩ := Prod.mk.inj (Option.some.inj h)
    rfl

end Shared

/-- A stream of a session that is aborted. -/
def Stream.abort (stream : Stream) : Stream :=
  { stream with closed := true, closeCode := 8, canceled := true }

namespace Cell

open Connection

variable {config : Config} {choice : Choice} {index : Nat} {cell : Cell}

/-- What only the functions of HTTP/2 and those that close the slot change. -/
def frame (cell : Cell) := (cell.shared.frame, cell.connection.streams)

theorem frame_of {next : Cell} (hshared : next.shared.frame = cell.shared.frame)
    (hstreams : next.connection.streams = cell.connection.streams) : next.frame = cell.frame := by
  rw [frame, frame, hshared, hstreams]

theorem check_frame (cell : Cell) (condition : Bool) {fault : Fault} (h : fault ≠ .response) :
    (cell.check condition fault).frame = cell.frame := by
  unfold check
  split
  · rfl
  · cases fault with
    | response => exact absurd rfl h
    | release => rfl
    | complete => rfl
    | busy => rfl
    | pending => rfl

theorem ensureBuffer_frame {granted : Bool} {address : Nat} {kind : Buffer} {next : Cell}
    {leased : Bool} (h : cell.ensureBuffer config granted address kind = (next, leased)) :
    next.frame = cell.frame := by
  rcases ensureBuffer_cases h with rfl | ⟨pool, block, -, -, rfl⟩
  · rfl
  · rfl

@[simp] theorem prepareRequest_frame (cell : Cell) :
    (cell.prepareRequest config).frame = cell.frame := by
  obtain ⟨buffers, large, lease, parser, heq⟩ := prepareRequest_eq config cell
  rw [heq]
  rfl

@[simp] theorem releaseConnectionBuffers_frame (cell : Cell) :
    cell.releaseConnectionBuffers.frame = cell.frame := by
  unfold releaseConnectionBuffers
  split <;> rfl

@[simp] theorem releasePermit_frame (cell : Cell) : cell.releasePermit.frame = cell.frame :=
  frame_of (Shared.releaseAll_frame cell.shared cell.connection.permit) rfl

@[simp] theorem releaseApplication_frame (cell : Cell) :
    cell.releaseApplication.frame = cell.frame := by
  unfold releaseApplication
  split_ifs
  · rfl
  · exact check_frame cell _ nofun

theorem completeEntries_frame (shared : Shared) (sent : Nat) (entries : List ResponseBatch.Entry)
    (completed : Nat) : (completeEntries shared sent entries completed).1.frame = shared.frame := by
  induction entries generalizing shared completed with
  | nil => rfl
  | cons entry rest ih =>
      unfold completeEntries
      split_ifs
      · rfl
      · exact (ih _ _).trans (Shared.release_frame _ _)

theorem abortEntries_frame (shared : Shared) (entries : List ResponseBatch.Entry) :
    (abortEntries shared entries).frame = shared.frame := by
  induction entries generalizing shared with
  | nil => rfl
  | cons entry rest ih => exact (ih _).trans (Shared.release_frame shared .admitted)

@[simp] theorem releaseBatch_frame (cell : Cell) : cell.releaseBatch.frame = cell.frame := rfl

@[simp] theorem abortBatch_frame (cell : Cell) : cell.abortBatch.frame = cell.frame := by
  unfold abortBatch
  split
  · rfl
  · exact frame_of (abortEntries_frame cell.shared _) rfl

@[simp] theorem countAborted_frame (cell : Cell) : cell.countAborted.frame = cell.frame := by
  unfold countAborted
  split <;> rfl

@[simp] theorem freeSlot_frame (cell : Cell) : (cell.freeSlot index).frame = cell.frame := by
  unfold freeSlot frame
  dsimp only
  split_ifs <;> rfl

theorem releaseRequest_frame (cell : Cell) :
    (cell.setConnection cell.connection.releaseRequest).frame = cell.frame := by
  obtain ⟨lease, heq⟩ := releaseRequest_eq cell.connection
  rw [heq]
  rfl

theorem releaseBuffers_frame (closing : Bool) (cell : Cell) :
    (cell.releaseBuffers closing).frame = cell.frame := rfl

@[simp] theorem cancelReceive_frame (cell : Cell) : cell.cancelReceive.frame = cell.frame := by
  unfold cancelReceive
  split <;> rfl

@[simp] theorem cancelSend_frame (cell : Cell) : cell.cancelSend.frame = cell.frame := by
  unfold cancelSend
  split <;> rfl

@[simp] theorem queueIdle_frame (cell : Cell) : (cell.queueIdle config index).frame = cell.frame := by
  unfold queueIdle
  split <;> rfl

@[simp] theorem timeoutApplication_frame (cell : Cell) :
    cell.timeoutApplication.frame = cell.frame := by
  unfold timeoutApplication
  split <;> rfl

theorem submit_frame {refused : Bool} {lane : Nat} {stage : Stage} {stream : Option Nat}
    {next : Cell} (h : cell.submit index refused lane stage stream = some next) :
    next.frame = cell.frame := by
  obtain ⟨executor, hexecutor, rfl⟩ := Option.map_eq_some_iff.mp h
  unfold Executor.submit at hexecutor
  split at hexecutor
  · cases hexecutor
  · obtain rfl := Option.some.inj hexecutor
    rfl

/-! ### Closing -/

/-- What `finishClose` has given back before the slot leaves the active ones. -/
theorem finishClose_leaves (index : Nat) (cell : Cell) : cell.finishClose index = cell ∨
    ∃ released : Cell, released.shared.frame = cell.shared.frame ∧
      released.connection.streams = [] ∧ cell.finishClose index = released.leaveActive index := by
  unfold finishClose
  split
  · exact Or.inl rfl
  · have hhttp2 : cell.releaseHttp2.shared.frame = cell.shared.frame := by
      unfold releaseHttp2
      split
      · rfl
      · exact Shared.destroyAll_frame cell.shared _
    have hreleased : ∀ cell : Cell, ((((((cell.abortBatch.releaseApplication.countAborted).releaseBuffers
        true).setConnection ((cell.abortBatch.releaseApplication.countAborted).releaseBuffers
          true).connection.releaseRequest).releaseConnectionBuffers).freeSlot index).releasePermit).frame =
        cell.frame := by
      intro cell
      rw [releasePermit_frame, freeSlot_frame, releaseConnectionBuffers_frame, releaseRequest_frame,
        releaseBuffers_frame, countAborted_frame, releaseApplication_frame, abortBatch_frame]
    obtain ⟨hshared, hstreams⟩ := Prod.mk.inj (hreleased cell.releaseHttp2)
    refine Or.inr ⟨_, hshared.trans hhttp2, hstreams.trans ?_, rfl⟩
    rw [releaseHttp2_connection]
    rfl

/-- The slot as `forceClose` hands it to `finishClose`. -/
theorem forceClose_finishes (index : Nat) (cell : Cell) :
    ∃ canceled : Cell, canceled.shared.frame = cell.shared.frame ∧
      canceled.connection.streams = cell.connection.streams.map Stream.abort ∧
        cell.forceClose index = canceled.finishClose index := by
  obtain ⟨hshared, hstreams⟩ := Prod.mk.inj
    ((cancelSend_frame (cell.abandon index).cancelReceive).trans
      (cancelReceive_frame (cell.abandon index)))
  refine ⟨(cell.abandon index).cancelReceive.cancelSend, hshared, hstreams.trans ?_, rfl⟩
  unfold Connection.streams abandon
  cases cell.connection.http2 <;> rfl

/-- A call keeps the frame, or closes the slot as the last thing it does.  A new session has no
streams. -/
def Closes (index : Nat) (cell : Cell) (result : Cell × Next) : Prop :=
  result.1.shared.frame = cell.shared.frame ∧
      (result.1.connection.streams = cell.connection.streams ∨ result.1.connection.streams = []) ∨
    ∃ middle : Cell, middle.frame = cell.frame ∧ result = (middle.forceClose index, .done)

theorem Closes.same {result : Cell × Next} (h : result.1.frame = cell.frame) :
    Closes index cell result := by
  obtain ⟨hshared, hstreams⟩ := Prod.mk.inj h
  exact Or.inl ⟨hshared, Or.inl hstreams⟩

theorem Closes.of {middle : Cell} {result : Cell × Next} (hcloses : Closes index middle result)
    (h : middle.frame = cell.frame) : Closes index cell result := by
  unfold Closes at hcloses ⊢
  obtain ⟨hshared, hstreams⟩ := Prod.mk.inj h
  rw [← h, ← hshared, ← hstreams]
  exact hcloses

/-- After changes that do not concern the frame. -/
theorem forceClose_closes_of {middle : Cell} (h : middle.frame = cell.frame) :
    Closes index cell (middle.forceClose index, .done) := Or.inr ⟨middle, h, rfl⟩

theorem forceClose_closes (index : Nat) (cell : Cell) :
    Closes index cell (cell.forceClose index, .done) := forceClose_closes_of rfl

/-! ### Reading -/

theorem processInput_closes : Closes index cell (cell.processInput config choice index) := by
  unfold processInput
  split
  · exact .same rfl
  · split
    · exact .same rfl
    · split
      · exact forceClose_closes index cell
      · rename_i c hc
        obtain ⟨parser, rfl, -⟩ := acquireRequest_eq hc
        split_ifs <;> exact .same rfl

theorem feedInput_closes : Closes index cell cell.feedInput := by
  unfold feedInput
  dsimp only
  split <;> exact .same rfl

theorem growHead_closes : Closes index cell (cell.growHead config choice) := by
  unfold growHead
  dsimp only
  split_ifs
  · exact .same rfl
  · split
    · rename_i next hlease
      exact .same (ensureBuffer_frame hlease)
    · rename_i next hlease
      exact feedInput_closes.of (ensureBuffer_frame hlease)
  · exact feedInput_closes

theorem parseInput_closes : Closes index cell (cell.parseInput config choice index) := by
  unfold parseInput
  dsimp only
  split_ifs
  · exact .same rfl
  · exact forceClose_closes_of rfl
  · exact growHead_closes.of rfl
  · exact growHead_closes

theorem lease_frame (kind : Buffer) : (cell.lease config choice kind).1.frame = cell.frame :=
  ensureBuffer_frame rfl

theorem leaseReceive_frame : (leaseReceive config choice cell).1.frame = cell.frame := by
  unfold leaseReceive
  dsimp only
  have htrailers := @lease_frame config choice cell .trailers
  split_ifs
  · generalize cell.lease config choice .trailers = pair at htrailers ⊢
    obtain ⟨next, ok⟩ := pair
    cases ok with
    | true => exact (lease_frame .receive).trans htrailers
    | false => exact htrailers
  · exact lease_frame .receive
  · rfl

theorem leaseBody_frame : (leaseBody config choice cell).1.frame = cell.frame := by
  unfold leaseBody
  have hreceive := @leaseReceive_frame config choice cell
  generalize leaseReceive config choice cell = pair at hreceive ⊢
  obtain ⟨next, ok⟩ := pair
  cases ok with
  | false => exact hreceive
  | true =>
      dsimp only
      split_ifs
      · exact (lease_frame .application).trans hreceive
      · exact hreceive

theorem redirectHttp_closes : Closes index cell (cell.redirectHttp config choice) := by
  unfold redirectHttp
  dsimp only
  split
  · exact .same rfl
  · exact .same rfl
  · have hlease := @lease_frame config choice cell .application
    generalize cell.lease config choice .application = pair at hlease ⊢
    obtain ⟨next, ok⟩ := pair
    cases ok with
    | false => exact .same hlease
    | true =>
        dsimp only
        split <;> exact .same hlease

theorem admitRequest_closes : Closes index cell (cell.admitRequest config choice index) := by
  unfold admitRequest
  dsimp only
  generalize cell.shared.admission.acquire choice.now (cell.shared.draining && choice.final) = pair
  obtain ⟨admission, decision⟩ := pair
  dsimp only
  cases decision with
  | reject => exact .same rfl
  | close => exact forceClose_closes_of rfl
  | admitted =>
      dsimp only
      split_ifs
      · exact redirectHttp_closes.of rfl
      · split
        · rename_i next hlease
          have hkept := congrArg (fun pair => frame pair.1) hlease
          exact .same (hkept.symm.trans leaseBody_frame)
        · rename_i next hlease
          have hkept := congrArg (fun pair => frame pair.1) hlease
          exact .same (hkept.symm.trans leaseBody_frame)

theorem receiveHead_closes : Closes index cell (cell.receiveHead config choice index) := by
  unfold receiveHead
  split
  · exact .same rfl
  · have hkept : (leasePath config choice cell).1.frame = cell.frame := by
      unfold leasePath
      split
      · exact lease_frame .path
      · rfl
    generalize leasePath config choice cell = pair at hkept ⊢
    obtain ⟨next, leased⟩ := pair
    cases leased with
    | false => exact .same hkept
    | true =>
        dsimp only at hkept ⊢
        split
        · exact .same hkept
        · split
          · split <;> exact .same hkept
          · exact admitRequest_closes.of hkept

theorem submitApplication_frame {stage : Stage} {next : Cell}
    (h : cell.submitApplication choice index stage = some next) : next.frame = cell.frame := by
  unfold submitApplication at h
  have hkept := submit_frame h
  exact hkept

theorem dispatchHead_closes : Closes index cell (cell.dispatchHead config choice index) := by
  unfold dispatchHead
  split
  · exact .same rfl
  · split_ifs
    · split <;> exact .same rfl
    · split
      · rename_i next hsubmit
        have hkept := submitApplication_frame hsubmit
        exact .same hkept
      · exact .same rfl
    · exact .same rfl

theorem receiveBody_closes (bytes : Bytes) :
    Closes index cell (cell.receiveBody config choice index bytes) := by
  unfold receiveBody
  split_ifs
  · exact .same rfl
  · obtain ⟨parser, hparser, -⟩ := bodyStage_eq { cell.connection with applicationBody := bytes }
    generalize bodyStage { cell.connection with applicationBody := bytes } = pair at hparser
    obtain ⟨c, stage⟩ := pair
    obtain rfl := hparser
    dsimp only
    split
    · rename_i next hsubmit
      have hkept := submitApplication_frame hsubmit
      exact .same hkept
    · exact .same rfl
  · exact .same rfl
  · exact .same rfl

theorem finishRequest_closes : Closes index cell (cell.finishRequest config choice index) := by
  unfold finishRequest
  split_ifs
  · exact .same rfl
  · exact .same rfl
  · split
    · rename_i next hsubmit
      have hkept := submitApplication_frame hsubmit
      exact .same hkept
    · exact .same rfl
  · exact .same rfl

theorem continueAfterHead_closes : Closes index cell cell.continueAfterHead := by
  unfold continueAfterHead
  dsimp only
  split <;> exact .same rfl

/-! ### Responding -/

theorem reject_closes (status : Nat) : Closes index cell (cell.reject choice index status) := by
  unfold reject
  dsimp only
  split_ifs
  · exact .same rfl
  · exact forceClose_closes_of rfl
  · exact .same rfl
  · exact .same rfl

theorem sendResponse_closes (response : Response) (head : Bytes) (encoder : Response.Encoder) :
    Closes index cell (cell.sendResponse config choice index response head encoder) := by
  unfold sendResponse
  dsimp only
  have hbegun : (cell.setConnection (beginOutput response encoder cell.connection)).frame =
      cell.frame := rfl
  generalize cell.setConnection (beginOutput response encoder cell.connection) = begun at hbegun ⊢
  split
  · exact forceClose_closes_of hbegun
  · split
    · rename_i next hnext
      obtain ⟨rfl, -⟩ := allocateStream_fails hnext
      exact .same hbegun
    · rename_i next hnext
      rcases allocateStream_takes hnext with rfl | ⟨-, -, rfl⟩
      · exact .same hbegun
      · exact .same hbegun

theorem retryBegin_closes (response : Response) :
    Closes index cell (cell.retryBegin config choice index response) := by
  unfold retryBegin
  split
  · rename_i next hlease
    exact .same (ensureBuffer_frame hlease)
  · rename_i next hlease
    have hkept := ensureBuffer_frame hlease
    split
    · exact forceClose_closes_of hkept
    · exact (sendResponse_closes response _ _).of hkept

theorem startResponse_closes (response : Response) :
    Closes index cell (cell.startResponse config choice index response) := by
  unfold startResponse
  split
  · exact forceClose_closes index cell
  · dsimp only
    have hkept : (leaseOutput config choice (closingResponse config choice cell response)
        { cell with shared := { cell.shared with date := choice.date } }).1.frame =
          cell.frame := by
      unfold leaseOutput
      split
      · exact lease_frame .output
      · rfl
    generalize leaseOutput config choice (closingResponse config choice cell response)
      { cell with shared := { cell.shared with date := choice.date } } = pair at hkept ⊢
    obtain ⟨next, leased⟩ := pair
    cases leased with
    | false => exact .same hkept
    | true =>
        dsimp only at hkept ⊢
        split
        · exact (sendResponse_closes _ _ _).of hkept
        · split
          · exact (retryBegin_closes _).of hkept
          · exact forceClose_closes_of hkept

/-! ### Sending -/

theorem queueSend_closes : Closes index cell (cell.queueSend config) := by
  unfold queueSend
  split
  · exact .same rfl
  · exact .same (check_frame cell _ nofun)

theorem appendBatch_frame (batch : ResponseBatch) :
    (cell.appendBatch config batch).frame = cell.frame :=
  prepareRequest_frame (cell.setConnection { cell.connection with
    batch := some (batch.append cell.connection.output cell.connection.responseStatus
      cell.connection.responseBodyBytes
      (if config.accessLog then cell.connection.parser.request.method else [])
      (userAgent config cell.connection))
    permit := none
    requests := cell.connection.requests + 1 })

theorem aggregate_closes : Closes index cell (cell.aggregate config) := by
  unfold aggregate
  dsimp only
  split
  · exact .same rfl
  · split
    · exact .same rfl
    · split
      · exact .same rfl
      · split
        · exact .same (appendBatch_frame _)
        · split
          · exact .same rfl
          · exact .same (appendBatch_frame _)

theorem transmit_closes : Closes index cell cell.transmit := by
  unfold transmit
  dsimp only
  split <;> exact .same rfl

theorem queueBatch_closes : Closes index cell cell.queueBatch := by
  unfold queueBatch
  split
  · exact .same rfl
  · dsimp only
    split_ifs <;> exact .same (check_frame cell _ nofun)

theorem afterBatch_closes (resume : Bool) : Closes index cell (cell.afterBatch resume) := by
  unfold afterBatch
  split_ifs <;> exact .same rfl

theorem sentBatch_closes (batch : ResponseBatch) (count : Nat) :
    Closes index cell (cell.sentBatch batch count) := by
  unfold sentBatch
  dsimp only
  have hentries := completeEntries_frame cell.shared (batch.sent + count)
    (batch.responses.drop batch.completed) batch.completed
  split
  · exact .same (frame_of hentries rfl)
  · exact (afterBatch_closes batch.resumeResponse).of (frame_of hentries rfl)

theorem startResponseStream_closes : Closes index cell (cell.startResponseStream choice index) := by
  unfold startResponseStream
  split
  · exact forceClose_closes index cell
  · rename_i next hsubmit
    have hkept := submit_frame hsubmit
    exact .same hkept

theorem pumpResponseStream_closes :
    Closes index cell (cell.pumpResponseStream config choice index) := by
  unfold pumpResponseStream
  dsimp only
  split
  · exact .same rfl
  · split
    · exact .same rfl
    · exact forceClose_closes index cell
    · split
      · exact forceClose_closes index cell
      · split
        · exact forceClose_closes index cell
        · exact .same rfl
    · split
      · exact .same rfl
      · split
        · exact forceClose_closes index cell
        · exact .same rfl

theorem refill_closes : Closes index cell (cell.refill config choice index) := by
  unfold refill
  dsimp only
  split
  · exact forceClose_closes index cell
  · exact .same rfl

theorem outputDone_closes : Closes index cell (cell.outputDone config choice index) := by
  unfold outputDone consumeChunk
  dsimp only
  split_ifs
  · exact .same rfl
  · exact forceClose_closes index cell
  · exact startResponseStream_closes
  · exact .same rfl
  · exact refill_closes
  · exact .same rfl

theorem sentOutput_closes (count : Nat) :
    Closes index cell (cell.sentOutput config choice index count) := by
  unfold sentOutput
  dsimp only
  split
  · exact .same rfl
  · exact outputDone_closes.of rfl

theorem sent_closes (count : Option Nat) :
    Closes index cell (cell.sent config choice index count) := by
  unfold sent
  split
  · exact forceClose_closes index cell
  · split
    · split
      · exact sentBatch_closes _ _
      · exact sentOutput_closes _
    · exact sentOutput_closes _

theorem finishResponse_closes : Closes index cell (cell.finishResponse config) := by
  unfold finishResponse
  dsimp only
  split
  · exact .same (releaseApplication_frame _)
  · exact .same (((prepareRequest_frame _).trans (releasePermit_frame _)).trans
      (releaseApplication_frame _))

/-! ### Receiving and closing -/

theorem drainConnection_closes : Closes index cell (cell.drainConnection index) := by
  unfold drainConnection
  dsimp only
  split_ifs
  · exact .same rfl
  · exact .same (cancelReceive_frame _)
  · exact .same rfl
  · exact .same rfl

theorem submitRead_closes : Closes index cell (cell.submitRead config index) := by
  unfold submitRead
  dsimp only
  split_ifs
  · exact .same rfl
  · exact .same (queueIdle_frame cell)
  · exact .same (queueIdle_frame cell)

theorem queueReceive_closes : Closes index cell (cell.queueReceive config choice index) := by
  unfold queueReceive
  split_ifs
  · exact .same rfl
  · exact submitRead_closes.of rfl
  · exact forceClose_closes index cell
  · exact submitRead_closes

theorem receivedNothing_closes (result : Received) :
    Closes index cell (cell.receivedNothing index result) := by
  unfold receivedNothing
  dsimp only
  split_ifs
  · exact .same rfl
  · exact .same rfl
  · split
    · exact .same rfl
    · exact forceClose_closes index cell
  · exact forceClose_closes index cell

theorem received_closes (result : Received) : Closes index cell (cell.received index result) := by
  unfold received
  split
  · dsimp only
    split_ifs
    · exact forceClose_closes_of rfl
    · exact .same rfl
    · exact .same rfl
    · exact .same rfl
  · exact receivedNothing_closes _

theorem resumeTls_closes : Closes index cell cell.resumeTls := by
  unfold resumeTls
  dsimp only
  split_ifs <;> exact .same rfl

theorem receivedTls_closes (result : Received) :
    Closes index cell (cell.receivedTls index result) := by
  unfold receivedTls
  split
  · exact forceClose_closes index cell
  · exact resumeTls_closes

theorem sentTls_closes (ok : Bool) : Closes index cell (cell.sentTls index ok) := by
  unfold sentTls
  split
  · exact resumeTls_closes
  · exact forceClose_closes index cell

theorem completeTls_closes (operation : TlsOperation) (bytes : Bytes) (count : Nat) (http2 : Bool) :
    Closes index cell (cell.completeTls choice index operation bytes count http2) := by
  unfold completeTls
  dsimp only
  split
  · exact .same rfl
  · split_ifs
    · exact Or.inl ⟨rfl, Or.inr rfl⟩
    · exact forceClose_closes_of rfl
    · exact .same rfl
  · split_ifs <;> exact .same rfl
  · exact .same rfl
  · exact .same rfl

theorem advanceTls_closes : Closes index cell (cell.advanceTls choice index) := by
  unfold advanceTls
  split
  · exact .same rfl
  · have hcheck := @check_frame cell
      (!cell.connection.receivePending && !cell.connection.sendPending) .pending nofun
    dsimp only
    split
    · exact forceClose_closes_of hcheck
    · exact .same hcheck
    · exact .same hcheck
    · exact (completeTls_closes _ _ _ _).of hcheck

theorem submitHttp2Io_frame (send receive : Bool) :
    (cell.setConnection (submitHttp2Io send receive cell.connection)).frame = cell.frame := by
  unfold submitHttp2Io
  dsimp only
  split_ifs <;> rfl

/-- All calls but the one that pumps an HTTP/2 session. -/
theorem dispatch_closes (call : Call) (hpump : call ≠ .pumpHttp2) :
    Closes index cell (cell.dispatch config choice index call) := by
  cases call with
  | processInput => exact processInput_closes
  | parseInput => exact parseInput_closes
  | receiveHead => exact receiveHead_closes
  | dispatchHead => exact dispatchHead_closes
  | receiveBody bytes => exact receiveBody_closes bytes
  | finishRequest => exact finishRequest_closes
  | continueAfterHead => exact continueAfterHead_closes
  | reject status => exact reject_closes status
  | respondStatus status close => exact .same rfl
  | startResponse response => exact startResponse_closes response
  | queueSend => exact queueSend_closes
  | aggregate => exact aggregate_closes
  | transmit => exact transmit_closes
  | queueBatch => exact queueBatch_closes
  | queueReceive => exact queueReceive_closes
  | received result => exact received_closes result
  | receivedTls result => exact receivedTls_closes result
  | sentTls ok => exact sentTls_closes ok
  | sent count => exact sent_closes count
  | pumpResponseStream => exact pumpResponseStream_closes
  | finishResponse => exact finishResponse_closes
  | drainConnection => exact drainConnection_closes
  | beginTcpDrain => exact .same rfl
  | advanceTls => exact advanceTls_closes
  | pumpHttp2 => exact absurd rfl hpump

end Cell

end Zhtps.Worker
