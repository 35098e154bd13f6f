import Zhtps.Worker.Respond

/-!
Streams of one HTTP/2 connection, after `src/server/http2.zig`, and `pumpHttp2` of
`src/server/worker.zig`.

The engine is outside the model: which callbacks it makes, in which order and with which data, are
choices of the environment.  So are the checks of a decoded head (`invalid`), of a response's fields
(`unsendable`) and of the flow-control windows.  What the callbacks and `drive` do with admission,
the executor and the stream list is modelled in full.
-/

namespace Zhtps.Worker

/-- One stream taken out of its session's list, with the worker's state around it. -/
structure StreamCell where
  cell : Cell
  stream : Stream

/-- The flow-control window of a stream, and the capacity of its body buffer. -/
def window : Nat := 65535

namespace StreamCell

/-- Suppresses the result of a running task; only exhausted memory keeps the stream open. -/
def reset (choice : StreamChoice) (s : StreamCell) : StreamCell × Engine :=
  if choice.resets then
    ({ s with stream := { s.stream with canceled := true, closed := true, closeCode := 8 } }, .ok)
  else ({ s with stream := { s.stream with canceled := true } }, .memory)

/-- Hands a task that borrows the stream to the executor; `none` when its lane refuses it.  A body
task is given the prefix of the body that is recorded for it. -/
def submitHttp2 (choice : StreamChoice) (index : Nat) (stage : Stage) (s : StreamCell) :
    Option StreamCell :=
  (s.cell.submit index choice.refused choice.lane stage (some s.stream.address)).map fun cell =>
    { cell := cell.setConnection { cell.connection with pending := cell.connection.pending + 1 }
      stream :=
        { s.stream with
          busy := true
          lentFor := some stage
          delivered :=
            if stage = .body then
              s.stream.delivered ++ s.stream.body.take s.stream.taskBodyLen
            else s.stream.delivered } }

/-- The producer task of a streamed response. -/
def startStream (choice : StreamChoice) (index : Nat) (s : StreamCell) : StreamCell × Engine :=
  if !choice.producer then s.reset choice
  else
    match s.submitHttp2 choice index .produce with
    | none => s.reset choice
    | some s => ({ s with stream := { s.stream with responseStreamStarted := true } }, .ok)

/-- Credits the window for the body that is buffered, and drops it. -/
def credit (s : StreamCell) : StreamCell :=
  { s with
    stream :=
      { s.stream with body := [], credited := s.stream.credited + s.stream.body.length } }

def respond (config : Config) (choice : StreamChoice) (index : Nat) (response : Response)
    (s : StreamCell) : StreamCell × Engine :=
  if response.status < 200 ∨ choice.unsendable then s.reset choice
  else if !choice.granted then (s, .memory)
  else
    let s : StreamCell := { s with stream := { s.stream with response := some response } }
    if choice.submitted ≠ .ok then (s, choice.submitted)
    else
      let s := s.credit
      if config.app.hasResponseStreams ∧ !choice.suppressed ∧ Cell.isStream response.body then
        s.startStream choice index
      else (s, .ok)

/-- The stream's permit, given by admission. -/
def assign (admission : Admission) (decision : Decision) (s : StreamCell) : StreamCell :=
  { cell := { s.cell with shared := { s.cell.shared with admission := admission } }
    stream := { s.stream with permit := some decision, assigned := s.stream.assigned + 1 } }

/-- Answers with a status, under the stream's permit or a new one to reject. -/
def status (config : Config) (choice : StreamChoice) (index : Nat) (code : Nat) (s : StreamCell) :
    StreamCell × Engine :=
  let response : Response :=
    { status := code
      headers := [⟨ascii "content-type", ascii "text/plain; charset=utf-8"⟩]
      body := .bytes (Response.errorBody code) }
  if s.stream.permit.isNone then
    let (admission, decision) := (s.cell.shared.admission.refill choice.now).acquireRejection
    let s := s.assign admission decision
    if decision = .close then s.reset choice else s.respond config choice index response
  else s.respond config choice index response

def submitStage (config : Config) (choice : StreamChoice) (index : Nat) (stage : Stage)
    (s : StreamCell) : StreamCell × Engine :=
  match s.submitHttp2 choice index stage with
  | some s => (s, .ok)
  | none => s.status config choice index 503

/-- The end of `advance`, once the body received so far is consumed. -/
def advanceEnd (config : Config) (choice : StreamChoice) (index : Nat) (s : StreamCell) :
    StreamCell × Engine :=
  if !s.stream.ended then (s, .ok)
  else
    let s : StreamCell :=
      { s with stream := { s.stream with requestTrailers := s.stream.trailerFields } }
    if config.app.isIsolated then s.submitStage config choice index .response
    else s.respond config choice index choice.response

def advanceBody (config : Config) (choice : StreamChoice) (index : Nat) (s : StreamCell) :
    StreamCell × Engine :=
  if !s.stream.headDone then (s, .ok)
  else if s.stream.body = [] then s.advanceEnd config choice index
  else if config.app.isIsolated ∧ choice.streamsBody then
    { s with stream := { s.stream with taskBodyLen := s.stream.body.length } }.submitStage config
      choice index .body
  else
    let s : StreamCell :=
      { s with stream := { s.stream with delivered := s.stream.delivered ++ s.stream.body } }
    if !choice.accepted then s.status config choice index 413
    else if choice.engine ≠ .ok then (s, choice.engine)
    else s.credit.advanceEnd config choice index

/-- The head hook has passed the request. -/
def headDone (config : Config) (choice : StreamChoice) (index : Nat) (s : StreamCell) :
    StreamCell × Engine :=
  let s : StreamCell := { s with stream := { s.stream with headDone := true } }
  if choice.engine ≠ .ok then (s, choice.engine) else s.advanceBody config choice index

/-- The head of an admitted request. -/
def advanceHead (config : Config) (choice : StreamChoice) (index : Nat) (s : StreamCell) :
    StreamCell × Engine :=
  let s : StreamCell := { s with stream := { s.stream with initialized := true } }
  match choice.early with
  | some response => s.respond config choice index response
  | none =>
      if !config.app.isIsolated then s.headDone config choice index
      else if !choice.inlineHead then s.submitStage config choice index .head
      else
        match choice.answer with
        | some response => s.respond config choice index response
        | none => s.headDone config choice index

def advance (config : Config) (choice : StreamChoice) (index : Nat) (s : StreamCell) :
    StreamCell × Engine :=
  if s.stream.initialized then s.advanceBody config choice index
  else
    match choice.invalid with
    | some code => s.status config choice index code
    | none =>
        let (admission, decision) := s.cell.shared.admission.acquire choice.now false
        let s := s.assign admission decision
        match decision with
        | .reject => s.status config choice index 503
        | .close => s.reset choice
        | .admitted => if choice.granted then s.advanceHead config choice index else (s, .memory)

/-- What a completed stage leaves to do when it has no response. -/
def completeStage (choice : StreamChoice) (stage : Stage) (s : StreamCell) : StreamCell × Engine :=
  match stage with
  | .head => ({ s with stream := { s.stream with headDone := true } }, choice.engine)
  | .body =>
      ({ s with
        stream :=
          { s.stream with
            body := s.stream.body.drop s.stream.taskBodyLen
            taskBodyLen := 0
            credited := s.stream.credited +
              (if choice.engine = .ok then s.stream.taskBodyLen else 0) } }, choice.engine)
  | .response => ({ s with cell := s.cell.check false .response }, .ok)
  | .bodyResponse | .produce => (s, .ok)

/-- Completes the sole task borrowing the stream. -/
def complete (config : Config) (choice : StreamChoice) (index : Nat) (stage : Stage)
    (response : Option Response) (expired : Bool) (s : StreamCell) : StreamCell × Engine :=
  let s : StreamCell :=
    { cell := s.cell.check s.stream.busy .busy
      stream := { s.stream with busy := false, lentFor := none } }
  if s.stream.closed then (s, .ok)
  else if expired then s.reset choice
  else
    match response with
    | some response => s.respond config choice index response
    | none => s.completeStage choice stage

/-- The first half of one round of `drive`: a late stream is reset. -/
def expire (choice : StreamChoice) (s : StreamCell) : StreamCell × Engine :=
  if !s.stream.closed ∧ choice.late then s.reset choice else (s, .ok)

/-- The second half for a stream that stays. -/
def driveOpen (config : Config) (choice : StreamChoice) (index : Nat) (s : StreamCell) :
    StreamCell × Engine :=
  if s.stream.closed then (s, .ok)
  else if !s.stream.busy ∧ s.stream.response.isNone ∧ s.stream.headReady then
    s.advance config choice index
  else if config.app.hasResponseStreams ∧ s.stream.responseStreamStarted then
    if choice.publicationFailed then s.reset choice else (s, choice.engine)
  else (s, .ok)

/-- Input that nobody will read is credited when it arrives. -/
def creditAtOnce (choice : StreamChoice) (bytes : Bytes) (s : StreamCell) : StreamCell :=
  if choice.engine = .ok then
    { s with
      stream :=
        { s.stream with
          taken := s.stream.taken + bytes.length
          credited := s.stream.credited + bytes.length } }
  else s

/-- Input for a stream: without room for it the request is answered, or reset while a hook runs. -/
def acceptBody (config : Config) (choice : StreamChoice) (index : Nat) (bytes : Bytes)
    (s : StreamCell) : StreamCell × Engine :=
  if s.stream.closed ∨ s.stream.response.isSome then (s.creditAtOnce choice bytes, choice.engine)
  else if bytes.length > config.maxBodyBytes - s.stream.bodyReceived then
    if s.stream.busy then s.reset choice else s.status config choice index 413
  else
    let s : StreamCell :=
      { s with stream := { s.stream with bodyReceived := s.stream.bodyReceived + bytes.length } }
    if !choice.granted then (s, .memory)
    else if (s.stream.body ++ bytes).length > window then (s, .protocol)
    else
      ({ s with
        stream :=
          { s.stream with
            body := s.stream.body ++ bytes
            taken := s.stream.taken + bytes.length } }, .ok)

/-- Notes the payload of a DATA frame, and whether the engine has kept to the stream's window. -/
def record (bytes : Bytes) (s : StreamCell) : StreamCell :=
  { s with
    stream :=
      { s.stream with
        received := s.stream.received ++ bytes
        overrun := s.stream.overrun ||
          decide (s.stream.credited + window < s.stream.received.length + bytes.length) } }

def receiveBody (config : Config) (choice : StreamChoice) (index : Nat) (bytes : Bytes)
    (s : StreamCell) : StreamCell × Engine :=
  (s.record bytes).acceptBody config choice index bytes

end StreamCell

namespace Stream

def isCookie (field : Header) : Bool := field.name == ascii "cookie"

def joinedCookie (fields : List Header) : Bytes :=
  List.intercalate (ascii "; ") ((fields.filter isCookie).map fun field => field.value)

/-- Puts the joined value in place of the first Cookie field and drops the others. -/
def replaceCookies (joined : Bytes) : List Header → List Header
  | [] => []
  | field :: rest =>
      if isCookie field then { field with value := joined } :: rest.filter fun f => !isCookie f
      else field :: replaceCookies joined rest

def joinCookies (fields : List Header) : List Header :=
  if 1 < (fields.filter isCookie).length then replaceCookies (joinedCookie fields) fields
  else fields

/-- A decoded field belongs to the head until its block is complete, then to the trailers.  The
engine decodes none after the end of the stream. -/
def header (field : Header) (stream : Stream) : Stream :=
  if stream.closed ∨ stream.ended then stream
  else if stream.trailers then { stream with trailerFields := stream.trailerFields ++ [field] }
  else if stream.headReady then stream
  else { stream with fields := stream.fields ++ [field] }

def headComplete (trailers : Bool) (stream : Stream) : Stream :=
  if trailers ∨ stream.headReady then stream
  else { stream with fields := joinCookies stream.fields, headReady := true }

def close (code : Nat) (stream : Stream) : Stream :=
  { stream with closed := true, closeCode := code, canceled := true }

end Stream

namespace Session

/-- Changes the first stream that `find` finds. -/
def modify (f : Stream → Stream) (id : Nat) : List Stream → List Stream
  | [] => []
  | stream :: rest => if stream.id = id then f stream :: rest else stream :: modify f id rest

end Session

namespace Cell

def setStreams (cell : Cell) (streams : List Stream) : Cell :=
  cell.setConnection
    { cell.connection with
      http2 := cell.connection.http2.map fun session => { session with streams := streams } }

/-- `destroy`, for a stream that was taken out of the list. -/
def destroyStream (stream : Stream) (cell : Cell) : Cell :=
  { shared := cell.shared.destroy stream
    connection :=
      { cell.connection with
        http2 := cell.connection.http2.map fun session =>
          { session with count := session.count - 1 } } }

/-- `shutdown` of a session, and the end of `drive` once enough requests were accepted. -/
def drainSession (cell : Cell) : Cell :=
  cell.setConnection
    { cell.connection with
      http2 := cell.connection.http2.map fun session => { session with draining := true } }

/-- Runs `f` on the first stream with a property; the others are not touched. -/
def onStream (property : Stream → Bool) (f : StreamCell → StreamCell × Engine) :
    List Stream → Cell → Cell × List Stream × Engine
  | [], cell => (cell, [], .ok)
  | stream :: rest, cell =>
      if property stream then
        let (s, result) := f ⟨cell, stream⟩
        (s.cell, s.stream :: rest, result)
      else
        let (cell, streams, result) := onStream property f rest cell
        (cell, stream :: streams, result)

/-- One round of `drive`: a closed stream leaves the list once no task borrows it. -/
def driveStream (config : Config) (choice : StreamChoice) (index : Nat) (cell : Cell)
    (stream : Stream) : Cell × List Stream × Engine :=
  let (s, result) := StreamCell.expire choice ⟨cell, stream⟩
  if result ≠ .ok then (s.cell, [s.stream], result)
  else if s.stream.closed ∧ !s.stream.busy then
    (s.cell.destroyStream s.stream, [], .ok)
  else
    let (s, result) := s.driveOpen config choice index
    (s.cell, [s.stream], result)

def driveStreams (config : Config) (index : Nat) :
    List StreamChoice → List Stream → Cell → Cell × List Stream × Engine
  | _, [], cell => (cell, [], .ok)
  | choices, stream :: rest, cell =>
      let (cell, kept, result) := cell.driveStream config (choices.headD {}) index stream
      if result ≠ .ok then (cell, kept ++ rest, result)
      else
        let (cell, streams, result) := driveStreams config index choices.tail rest cell
        (cell, kept ++ streams, result)

/-- A new stream, unless the connection or the worker has enough of them, or no memory is left. -/
def beginStream (config : Config) (session : Session) (id address : Nat) (granted : Bool)
    (cell : Cell) : Cell × Bool :=
  if session.draining ∨ session.accepted ≥ config.maxRequestsPerConnection ∨
      session.count ≥ config.maxStreams ∨
      cell.shared.http2Streams ≥ config.maxStreamsPerWorker then (cell, true)
  else
    match cell.shared.acquireStream granted address with
    | none => (cell, false)
    | some (shared, address) =>
        ({ shared :=
            { shared with
              http2Streams := shared.http2Streams + 1
              http2Begun := shared.http2Begun + 1
              requestsTotal := shared.requestsTotal + 1 }
           connection :=
            { cell.connection with
              http2 := some
                { session with
                  streams :=
                    { address := address, id := id, serial := shared.http2Begun } ::
                      session.streams
                  count := session.count + 1
                  accepted := session.accepted + 1 } } }, true)

/-- One callback or drive; `memory`, or any error of `drive`, ends the connection. -/
def http2Step (config : Config) (index : Nat) (session : Session) (step : Http2Step) (cell : Cell) :
    Cell × Bool :=
  match step with
  | .begin id address granted => cell.beginStream config session id address granted
  | .beginTrailers id =>
      (cell.setStreams
        (Session.modify (fun stream => { stream with trailers := true }) id session.streams), true)
  | .header id field =>
      (cell.setStreams (Session.modify (Stream.header field) id session.streams), true)
  | .headComplete id trailers _ =>
      (cell.setStreams (Session.modify (Stream.headComplete trailers) id session.streams), true)
  | .body id bytes choice =>
      let (cell, streams, result) :=
        onStream (fun stream => stream.id == id)
          (StreamCell.receiveBody config choice index bytes) session.streams cell
      (cell.setStreams streams, result != .memory)
  | .ended id =>
      (cell.setStreams
        (Session.modify (fun stream => { stream with ended := true }) id session.streams), true)
  | .closed id code =>
      (cell.setStreams (Session.modify (Stream.close code) id session.streams), true)
  | .drive choices =>
      let (cell, streams, result) := driveStreams config index choices session.streams cell
      let cell := cell.setStreams streams
      (if session.accepted ≥ config.maxRequestsPerConnection then cell.drainSession else cell,
        result == .ok)
  | .shutdown => (cell.drainSession, true)
  | .stop | .failed | .finish _ _ => (cell, true)

/-- The end of `pumpHttp2`: ciphertext is sent and more of it received, unless under way. -/
def submitHttp2Io (send receive : Bool) (c : Connection) : Connection :=
  let c := if send ∧ !c.sendPending then c.submitSend [] else c
  if receive ∧ !c.receivePending then c.submitReceive else c

def pumpHttp2 (config : Config) (choice : Choice) (index : Nat) (cell : Cell) : Cell × Next :=
  match cell.connection.http2 with
  | none => (cell, .done)
  | some session =>
      match choice.http2 with
      | .failed => (cell.forceClose index, .done)
      | .finish send receive =>
          (cell.setConnection (submitHttp2Io send receive cell.connection), .done)
      | .stop =>
          if session.closing ∨ cell.connection.sendPending then (cell, .call .pumpHttp2)
          else
            (cell.setConnection
              { cell.connection with http2 := some { session.abort with closing := true } },
              .call .pumpHttp2)
      | step =>
          if session.closing then (cell, .call .pumpHttp2)
          else
            let (cell, ok) := cell.http2Step config index session step
            if ok then (cell, .call .pumpHttp2) else (cell.forceClose index, .done)

end Cell

end Zhtps.Worker
