import Zhtps.Http.Message
import Zhtps.Worker.Booked

/-!
What holds of a slot at the points where a call starts, and between calls.

`Pre` says for every call what its callers establish, `Rest` what a slot looks like while the worker
does something else.  A handler that starts in its `Pre` ends with `Kept`: the books balance, and
the next call's `Pre` or `Rest` holds.
-/

namespace Zhtps.Worker

namespace Connection

/-- An open connection that speaks HTTP/1. -/
def Http1 (c : Connection) : Prop := c.fd.isSome = true ∧ c.http2 = none

/-- No response stream is running. -/
def Quiet (c : Connection) : Prop :=
  c.responseStreamStarted = false ∧ c.responseStreamBusy = false

/-- No socket operation is pending. -/
def Fresh (c : Connection) : Prop := c.receivePending = false ∧ c.sendPending = false

/-- A started request owns the parser, and holds a permit only once its head is parsed. -/
def Permitted (c : Connection) : Prop :=
  (c.requestStarted = true → c.lease = true) ∧
    (c.permit ≠ none → c.requestStarted = true ∧ c.parser.phase ≠ .head)

/-- No response is under way, and an administrative request has no exchange. -/
def Unanswered (c : Connection) : Prop :=
  c.Quiet ∧ c.requestCompleted = false ∧ c.streaming = false ∧ c.responseStreamBuffer = 0 ∧
    (c.admin = true → c.applicationInitialized = false) ∧ c.canceled = false

/-- The request, if one is started, still has to be read or answered. -/
def Between (c : Connection) : Prop := c.Unanswered ∧ c.Permitted

/-- Nothing of a request has arrived. -/
def Blank (c : Connection) : Prop :=
  c.Between ∧ c.requestStarted = false ∧ c.batch = none

/-- Output waits to be sent. -/
def Unsent (c : Connection) : Prop :=
  c.outputSent < c.output.length ∨ c.bodySent < c.body.length

/-- Only the exchange of a public request charges a stream's buffer to the budget. -/
def Charged (config : Config) (c : Connection) : Prop :=
  c.responseStreamBuffer ≠ 0 → config.app.hasResponseStreams = true ∧
    c.applicationInitialized = true ∧ c.admin = false

/-- A response is being sent, by a producer only where the application has response streams. -/
def Answering (config : Config) (c : Connection) : Prop :=
  c.requestStarted = true ∧ c.requestCompleted = false ∧ c.lease = true ∧
    (c.interim = true → c.Between) ∧
    (c.responseStreamBusy = true → c.responseStreamStarted = true) ∧
    (c.responseStreamStarted = true →
      c.streaming = true ∧ config.app.hasResponseStreams = true) ∧
    (c.streaming = true →
      c.body = [] ∧ (config.app.hasResponseStreams = true →
        c.encoder.mode ≠ .suppressed ∧ c.admin = false)) ∧
    c.Charged config

/-- A batch that collects responses. -/
def Batched (config : Config) (c : Connection) : Prop :=
  ∀ batch, c.batch = some batch →
    config.app.canBatch = true ∧ config.batches ≠ 0 ∧ batch.responses ≠ [] ∧ batch.sending = false

/-- What continues behind a batch that is sent: a response that waits, or reading. -/
def Behind (config : Config) (resume : Bool) (c : Connection) : Prop :=
  if resume then c.Answering config ∧ c.Unsent
  else c.Unanswered ∧ (c.permit = some .close ∨ c.Permitted)

/-- A batch that is being sent. -/
def Flushing (config : Config) (c : Connection) : Prop :=
  ∃ batch, c.batch = some batch ∧ config.app.canBatch = true ∧ batch.responses ≠ [] ∧
    batch.sending = true ∧ c.Behind config batch.resumeResponse

/-- A TLS session does one socket operation at a time, and this one belongs to `allowed`. -/
def Session (c : Connection) (allowed : TlsOperation → Prop) : Prop :=
  ∀ operation, c.tls = some operation →
    ¬(c.receivePending = true ∧ c.sendPending = true) ∧ (¬c.Fresh → allowed operation)

/-- The worker reads the connection's input, or could do so. -/
def Reads (config : Config) (c : Connection) : Prop :=
  c.Http1 ∧ c.phase = .reading ∧ c.Between ∧ c.Fresh ∧ c.Batched config

/-- Reading is over. -/
def Done (c : Connection) : Prop := c.Http1 ∧ c.batch = none ∧ c.Quiet

/-- Without TLS no send is pending; with TLS only a read is. -/
def Unsending (c : Connection) : Prop :=
  (c.tls = none → c.sendPending = false) ∧ c.Session (· = .read)

/-- A response may be started; one that overtakes a pending receive closes the connection.  A stream
that got no buffer is still marked when the response that refuses it is started. -/
def Answerable (config : Config) (close : Bool) (c : Connection) : Prop :=
  c.Http1 ∧ (Unanswered { c with streaming := false } ∧ (c.streaming = true → c.batch = none)) ∧
    c.requestStarted = true ∧ c.lease = true ∧ c.Batched config ∧
    (c.phase = .reading ∨ c.phase = .application ∧ config.app.isIsolated = true ∨
      c.phase = .inspecting ∧ c.admin = true) ∧
    (¬c.Fresh → c.batch = none ∧ close = true) ∧ c.Unsending

theorem Unanswered.unmarked {c : Connection} (h : c.Unanswered) :
    Unanswered { c with streaming := false } ∧ (c.streaming = true → c.batch = none) := by
  obtain ⟨hquiet, hcompleted, hstreaming, hrest⟩ := h
  refine ⟨⟨hquiet, hcompleted, rfl, hrest⟩, fun hmarked => ?_⟩
  rw [hstreaming] at hmarked
  cases hmarked

/-- A response is ready to be sent. -/
def Sends (config : Config) (c : Connection) : Prop :=
  c.Http1 ∧ c.phase = .writing ∧ c.Answering config ∧ c.Unsent ∧ c.Batched config ∧
    (¬c.Fresh → c.batch = none ∧ c.closeAfterResponse = true ∧ c.interim = false ∧
      c.streaming = false) ∧ c.Unsending

/-- The socket is free for a send. -/
def Clear (c : Connection) : Prop :=
  c.sendPending = false ∧ (c.tls ≠ none → c.receivePending = false)

/-- A receive that is still pending belongs to a request that is given up, and the response that
overtakes it is not streamed. -/
def Overtaken (c : Connection) : Prop :=
  c.tls = none → c.receivePending = true →
    c.closeAfterResponse = true ∧ c.interim = false ∧ c.streaming = false

/-- What a TLS operation in this phase works for. -/
def Serves (config : Config) (c : Connection) : TlsOperation → Prop
  | .idle => False
  | .handshake => c.phase = .handshake ∧ c.Blank ∧ c.admin = false
  | .read => c.phase = .reading ∧ c.Between ∧ c.batch = none
  | .write _ =>
      c.phase = .writing ∧ (c.batch = none ∧ c.Answering config ∧ c.Unsent ∨ c.Flushing config)
  | .shutdown => c.phase = .tlsShutdown ∧ c.batch = none ∧ c.Quiet

/-- A read that a response or a shutdown has overtaken. -/
def Superseded (config : Config) (c : Connection) (operation : TlsOperation) : Prop :=
  operation = .read ∧ c.batch = none ∧
    (c.phase = .writing ∧ c.Answering config ∧ c.Unsent ∧ c.closeAfterResponse = true ∧
        c.interim = false ∨
      c.phase = .tlsShutdown ∧ c.Quiet)

/-- A closed slot. -/
def Closed (c : Connection) : Prop :=
  c.kernel = [] ∧ c.pending = 0 ∧ c.responseStreamBusy = false ∧ c.batch = none ∧ c.http2 = none ∧
    c.permit = none ∧ c.tls = none

/-- An open slot between calls. -/
def AtRest (config : Config) (c : Connection) : Prop :=
  match c.phase with
  | .handshake =>
      c.http2 = none ∧ c.tls ≠ none ∧ c.Blank ∧ c.admin = false ∧ c.Session (· = .handshake)
  | .http2 => c.http2 ≠ none ∧ c.tls ≠ none ∧ c.Blank
  | .reading => c.http2 = none ∧ c.Between ∧ c.batch = none ∧ c.Unsending
  | .application =>
      c.http2 = none ∧ Between { c with canceled := false } ∧ c.requestStarted = true ∧ c.Fresh ∧
        c.Batched config ∧ config.app.isIsolated = true ∧ c.admin = false ∧
        (c.canceled = true → c.applicationTimedOut = true)
  | .inspecting =>
      c.http2 = none ∧ c.Between ∧ c.requestStarted = true ∧ c.Fresh ∧ c.Batched config ∧
        c.admin = true
  | .writing =>
      c.http2 = none ∧
        (c.batch = none ∧ c.Answering config ∧ c.Overtaken ∧
            c.Session (fun operation => c.Serves config operation ∨ c.Superseded config operation) ∨
          c.Flushing config ∧ (c.tls = none → c.receivePending = false) ∧
            c.Session fun operation => c.Serves config operation)
  | .tlsShutdown =>
      c.http2 = none ∧ c.batch = none ∧ c.Quiet ∧ c.tls ≠ none ∧
        c.Session fun operation => operation = .read ∨ operation = .shutdown
  | .drain => c.http2 = none ∧ c.batch = none ∧ c.Quiet ∧ c.sendPending = false
  | .canceling => c.pending ≠ 0

def Rest (config : Config) (c : Connection) : Prop :=
  if c.fd.isSome then c.AtRest config else c.Closed

/-- What the callers of a call establish. -/
def Pre (config : Config) (c : Connection) : Call → Prop
  | .processInput => c.Reads config
  | .parseInput => c.Reads config ∧ c.requestStarted = true
  | .receiveHead =>
      c.Reads config ∧ c.requestStarted = true ∧ c.permit = none ∧ c.parser.phase ≠ .head
  | .dispatchHead => c.Reads config ∧ c.requestStarted = true ∧ c.admin = false
  | .receiveBody _ | .finishRequest | .continueAfterHead =>
      c.Reads config ∧ c.requestStarted = true
  | .reject _ => c.Answerable config true
  | .respondStatus _ close => c.Answerable config close
  | .startResponse response =>
      c.Answerable config response.close ∧ (¬c.Fresh → Cell.isStream response.body = false)
  | .queueSend => c.Sends config
  | .aggregate => c.Sends config ∧ c.Clear ∧ config.app.canBatch = true
  | .transmit => c.Sends config ∧ c.Clear ∧ c.batch = none
  | .queueBatch =>
      c.Http1 ∧ c.Fresh ∧
        (c.phase = .writing ∧ c.Flushing config ∨
          c.batch ≠ none ∧ c.Batched config ∧
            (c.phase = .reading ∧ c.Behind config false ∨ c.phase = .writing ∧ c.Behind config true))
  | .queueReceive => c.Reads config ∨ c.phase = .drain ∧ c.Done ∧ c.sendPending = false
  | .received _ =>
      c.Reads config ∧ c.batch = none ∨
        c.phase = .writing ∧ c.fd.isSome = true ∧ c.AtRest config ∧ c.tls = none ∨
        c.phase = .drain ∧ c.Done ∧ c.sendPending = false
  | .receivedTls _ | .sentTls _ =>
      c.Http1 ∧ c.Fresh ∧ ∃ operation, c.tls = some operation ∧
        (c.Serves config operation ∨ c.Superseded config operation)
  | .sent _ =>
      c.Http1 ∧ c.phase = .writing ∧ c.Clear ∧
        (c.batch = none ∧ c.Answering config ∧ c.Overtaken ∨
          c.Flushing config ∧ (c.tls = none → c.receivePending = false))
  | .pumpResponseStream =>
      c.Http1 ∧ c.phase = .writing ∧ c.AtRest config ∧ c.responseStreamStarted = true
  | .finishResponse =>
      c.Done ∧ c.phase = .writing ∧ c.requestStarted = true ∧ c.requestCompleted = false ∧
        c.Clear ∧ (c.tls = none → c.receivePending = true → c.closeAfterResponse = true) ∧
        c.Charged config
  | .drainConnection => c.Done ∧ c.Unsending
  | .beginTcpDrain => c.phase ≠ .reading ∧ c.Done ∧ c.sendPending = false
  | .advanceTls =>
      c.Http1 ∧ c.Fresh ∧ ∃ operation, c.tls = some operation ∧ c.Serves config operation
  | .pumpHttp2 =>
      c.fd.isSome = true ∧ c.http2 ≠ none ∧ (c.phase = .http2 ∨ c.phase = .canceling) ∧
        c.AtRest config

attribute [grind =] Pre Reads Between Permitted Http1 Fresh Unanswered Batched Quiet Done
  Answerable Sends Answering Unsent Unsending Clear Overtaken Behind Flushing Blank AtRest Rest Charged

end Connection

namespace Cell

open Connection

attribute [grind =] setConnection

/-- The outcome of a handler keeps the books and the contract. -/
def Kept (config : Config) (result : Cell × Next) : Prop :=
  Booked result.1.connection ∧
    match result.2 with
    | .done => result.1.connection.Rest config
    | .call call => result.1.connection.Pre config call

/-! ### Closing -/

theorem finishClose_of_pending {index : Nat} {cell : Cell}
    (h : cell.connection.pending ≠ 0 ∨ cell.connection.fd = none) :
    cell.finishClose index = cell := by
  simp [finishClose, h]

@[simp]
theorem releaseHttp2_connection (cell : Cell) :
    cell.releaseHttp2.connection = { cell.connection with http2 := none } := by
  unfold releaseHttp2
  split
  · rename_i h
    rw [← h]
  · rfl

@[simp]
theorem abortBatch_connection (cell : Cell) :
    cell.abortBatch.connection = { cell.connection with batch := none } := by
  unfold abortBatch
  split
  · rename_i h
    rw [← h]
  · rfl

theorem check_connection (cell : Cell) (condition : Bool) (fault : Fault) :
    (cell.check condition fault).connection = cell.connection := by
  unfold check
  split <;> rfl

/-- Only the exchange's own storage is given back. -/
theorem releaseApplication_connection (cell : Cell) :
    ∃ buffer initialized, cell.releaseApplication.connection =
      { cell.connection with
        responseStreamBuffer := buffer
        applicationInitialized := initialized } := by
  unfold releaseApplication
  split
  · exact ⟨_, _, rfl⟩
  · refine ⟨0, false, ?_⟩
    simp only [freeResponseStream, setConnection, check_connection]

@[simp]
theorem countAborted_connection (cell : Cell) : cell.countAborted.connection = cell.connection := by
  unfold countAborted
  split <;> rfl

theorem releaseRequest_eq (c : Connection) : ∃ lease, c.releaseRequest = { c with lease := lease } := by
  unfold Connection.releaseRequest
  split
  · exact ⟨_, rfl⟩
  · exact ⟨_, rfl⟩

@[simp]
theorem releaseConnectionBuffers_connection (cell : Cell) :
    cell.releaseConnectionBuffers.connection = { cell.connection with smallBlock := none } := by
  unfold releaseConnectionBuffers
  split
  · rename_i h
    rw [← h]
  · rfl

/-- What `finishClose` leaves of a slot nothing is pending for. -/
theorem finishClose_connection (index : Nat) {cell : Cell} (hp : cell.connection.pending = 0)
    (hfd : cell.connection.fd ≠ none) :
    ∃ buffer initialized lease, (cell.finishClose index).connection =
      { cell.connection with
        http2 := none
        batch := none
        responseStreamBuffer := buffer
        applicationInitialized := initialized
        largeBuffers := []
        input := []
        lease := lease
        smallBlock := none
        fd := none
        tls := none
        permit := none } := by
  obtain ⟨buffer, initialized, happ⟩ :=
    releaseApplication_connection cell.releaseHttp2.abortBatch
  rw [abortBatch_connection, releaseHttp2_connection] at happ
  obtain ⟨lease, hlease⟩ := releaseRequest_eq
    ((cell.releaseHttp2.abortBatch.releaseApplication.countAborted).releaseBuffers true).connection
  refine ⟨buffer, initialized, lease, ?_⟩
  rw [finishClose, if_neg (by simp [hp, hfd])]
  dsimp only [leaveActive, releasePermit, freeSlot]
  rw [releaseConnectionBuffers_connection]
  dsimp only [setConnection]
  rw [hlease]
  dsimp only [releaseBuffers]
  rw [countAborted_connection, happ]
  rfl

theorem finishClose_kept (config : Config) {index : Nat} {cell : Cell}
    (hb : Booked cell.connection) (hfd : cell.connection.fd.isSome = true)
    (hphase : cell.connection.phase = .canceling) :
    Kept config (cell.finishClose index, .done) := by
  by_cases hp : cell.connection.pending = 0
  · obtain ⟨hkernel, hbusy, hstreams, hflag⟩ := hb.empty hp
    obtain ⟨buffer, initialized, lease, heq⟩ :=
      finishClose_connection index hp (by intro h; simp [h] at hfd)
    have hnew : Booked (cell.finishClose index).connection := by
      rw [heq]
      refine ⟨?_, fun kind => ?_, by simp [hkernel]⟩
      · simp [hp, hkernel, hbusy, busyStreams]
      · have := hflag kind
        cases kind <;> simp_all [flag]
    refine ⟨hnew, ?_⟩
    simp only [Rest, heq, Option.isSome_none, Bool.false_eq_true, if_false, Closed]
    exact ⟨hkernel, hp, hbusy, trivial, trivial, trivial, trivial⟩
  · rw [finishClose_of_pending (Or.inl hp)]
    refine ⟨hb, ?_⟩
    simp only [Rest, hfd, if_true, AtRest, hphase]
    exact hp

/-- The slot as `forceClose` hands it to `finishClose`. -/
def abandon (index : Nat) (cell : Cell) : Cell :=
  { shared := cell.shared.removeIdle index
    connection :=
      { cell.connection with
        canceled := true
        http2 := cell.connection.http2.map Session.abort
        phase := .canceling } }

theorem forceClose_eq (index : Nat) (cell : Cell) :
    cell.forceClose index = (cell.abandon index).cancelReceive.cancelSend.finishClose index := rfl

@[simp]
theorem busyStreams_abort (c : Connection) (phase : Phase) (canceled : Bool) :
    Connection.busyStreams
      { c with canceled := canceled, http2 := c.http2.map Session.abort, phase := phase } =
      c.busyStreams := by
  unfold busyStreams
  cases c.http2 with
  | none => rfl
  | some session =>
      simp only [Option.map_some, Session.abort, List.countP_map]
      rfl

theorem abandon_booked {index : Nat} {cell : Cell} (hb : Booked cell.connection) :
    Booked (cell.abandon index).connection :=
  hb.of_ledger (by simp [ledger, abandon])

/-- Canceling socket operations touches the slot's books only. -/
theorem cancelReceive_connection (cell : Cell) :
    ∃ kernel pending flag, cell.cancelReceive.connection =
      { cell.connection with
        kernel := kernel, pending := pending, cancelReceivePending := flag } := by
  unfold cancelReceive
  split
  · exact ⟨_, _, _, rfl⟩
  · exact ⟨_, _, _, rfl⟩

theorem cancelSend_connection (cell : Cell) :
    ∃ kernel pending flag, cell.cancelSend.connection =
      { cell.connection with
        kernel := kernel, pending := pending, cancelSendPending := flag } := by
  unfold cancelSend
  split
  · exact ⟨_, _, _, rfl⟩
  · exact ⟨_, _, _, rfl⟩

theorem forceClose_kept (config : Config) {index : Nat} {cell : Cell}
    (hb : Booked cell.connection) (hfd : cell.connection.fd.isSome = true) :
    Kept config (cell.forceClose index, .done) := by
  rw [forceClose_eq]
  refine finishClose_kept config (cancelSend_booked (cancelReceive_booked (abandon_booked hb))) ?_ ?_
  · obtain ⟨_, _, _, hs⟩ := cancelSend_connection (cell.abandon index).cancelReceive
    obtain ⟨_, _, _, hr⟩ := cancelReceive_connection (cell.abandon index)
    rw [hs, hr]
    exact hfd
  · obtain ⟨_, _, _, hs⟩ := cancelSend_connection (cell.abandon index).cancelReceive
    obtain ⟨_, _, _, hr⟩ := cancelReceive_connection (cell.abandon index)
    rw [hs, hr]
    rfl

/-! ### Frames -/

theorem submit_connection {index : Nat} {refused : Bool} {lane : Nat} {stage : Stage}
    {stream : Option Nat} {cell next : Cell}
    (h : cell.submit index refused lane stage stream = some next) :
    next.connection = cell.connection := by
  obtain ⟨executor, -, rfl⟩ := Option.map_eq_some_iff.mp h
  rfl

/-- Without a pending operation there is nothing to wait for. -/
theorem session_of_fresh {c : Connection} (h : c.tls ≠ none → c.Fresh)
    (allowed : TlsOperation → Prop) : c.Session allowed := by
  intro operation hop
  have hf := h (by simp [hop])
  refine ⟨fun hboth => ?_, fun hne => absurd hf hne⟩
  rw [hf.1] at hboth
  exact Bool.noConfusion hboth.1

theorem Fresh.unsending {c : Connection} (h : c.Fresh) : c.Unsending :=
  ⟨fun _ => h.2, session_of_fresh (fun _ => h) _⟩

end Cell

end Zhtps.Worker
