import Zhtps.Worker.Call

/-!
The second half of the call graph: starting a response, sending it alone or in a batch, and what
follows once it is sent.
-/

namespace Zhtps.Worker

namespace Cell

/-! ### Starting a response -/

def statusHeaders (c : Connection) (status : Nat) (allowed : Bytes) : List Header :=
  let allow :=
    if c.admin then ascii "GET, HEAD, OPTIONS"
    else if status = 405 ∧ c.applicationInitialized then allowed
    else []
  let contentType : Header := ⟨ascii "Content-Type", ascii "text/plain; charset=utf-8"⟩
  if status = 405 then [contentType, ⟨ascii "Allow", allow⟩]
  else if Response.errorBody status ≠ [] then [contentType]
  else []

def respondStatus (choice : Choice) (status : Nat) (close : Bool) (cell : Cell) : Cell × Next :=
  (cell, .call (.startResponse
    { status := status
      headers := statusHeaders cell.connection status choice.allowed
      body := .bytes (Response.errorBody status)
      close := close }))

/-- A request without a permit needs one to be answered; without budget the connection closes
after the responses it already batched. -/
def reject (choice : Choice) (index : Nat) (status : Nat) (cell : Cell) : Cell × Next :=
  if cell.connection.permit.isNone ∧ !cell.connection.admin then
    let (admission, decision) :=
      (cell.shared.admission.refill choice.now).acquireRejection
    let cell : Cell :=
      { shared := { cell.shared with admission := admission }
        connection := { cell.connection with permit := some decision } }
    if decision = .close then
      if cell.connection.batch.isSome then (cell, .call .queueBatch)
      else (cell.forceClose index, .done)
    else (cell, .call (.respondStatus status true))
  else (cell, .call (.respondStatus status true))

/-- No more input is needed for the request. -/
def requestComplete (parser : Parser) : Bool :=
  parser.phase = .ending || parser.phase = .complete

/-- The response as `startResponse` sends it: every incomplete boundary requires closure. -/
def closingResponse (config : Config) (choice : Choice) (cell : Cell) (response : Response) :
    Response :=
  { response with
    close := response.close || !requestComplete cell.connection.parser || cell.shared.draining ||
      choice.stop || decide (cell.connection.requests + 1 ≥ config.maxRequestsPerConnection) }

def isStream : Body → Bool
  | .stream _ => true
  | .bytes _ => false

/-- The bytes sent after the head. -/
def payload (response : Response) (encoder : Response.Encoder) : Bytes :=
  match response.body with
  | .bytes bytes => if encoder.mode = .suppressed then [] else bytes
  | .stream _ => []

/-- What is set before a producer gets its buffer. -/
def beginOutput (response : Response) (encoder : Response.Encoder) (c : Connection) : Connection :=
  { c with
    outputSent := 0
    bodySent := 0
    encoder := encoder
    streaming := isStream response.body && encoder.mode != .suppressed }

/-- The serialized response becomes the connection's output; a body that fits is copied behind the
head. -/
def setOutput (config : Config) (response : Response) (head : Bytes) (encoder : Response.Encoder)
    (c : Connection) : Connection :=
  let fits := (payload response encoder).length ≤ c.capacity config .output - head.length
  { c with
    output := if fits then head ++ payload response encoder else head
    body := if fits then [] else payload response encoder
    responseBodyBytes := (payload response encoder).length
    closeAfterResponse := encoder.close
    interim := false
    responseStatus := response.status
    phase := .writing
    serialized := c.serialized ++ head ++ payload response encoder
    early := c.early || !requestComplete c.parser }

/-- The response is written by a producer. -/
def isStreamed (config : Config) (response : Response) (encoder : Response.Encoder) : Bool :=
  config.app.hasResponseStreams && isStream response.body && encoder.mode != .suppressed

/-- Allocates the producer's buffer of a streamed response. -/
def allocateStream (config : Config) (choice : Choice) (response : Response)
    (encoder : Response.Encoder) (cell : Cell) : Cell × Bool :=
  if isStreamed config response encoder then
    cell.allocateResponseStream config choice.granted
      (cell.connection.capacity config .output - 32)
  else (cell, true)

theorem allocateStream_fails {config : Config} {choice : Choice} {response : Response}
    {encoder : Response.Encoder} {cell next : Cell}
    (h : allocateStream config choice response encoder cell = (next, false)) :
    next = cell ∧ isStreamed config response encoder = true := by
  unfold allocateStream at h
  split at h
  · rename_i hstreamed
    exact ⟨allocateResponseStream_fails h, hstreamed⟩
  · cases h

theorem allocateStream_takes {config : Config} {choice : Choice} {response : Response}
    {encoder : Response.Encoder} {cell next : Cell}
    (h : allocateStream config choice response encoder cell = (next, true)) :
    next = cell ∨ isStreamed config response encoder = true ∧
      cell.connection.capacity config .output - 32 ≤
        config.largeBufferBytes - cell.shared.buffers.active ∧
      next =
        { shared := cell.shared.charge (cell.connection.capacity config .output - 32)
          connection :=
            { cell.connection with
              responseStreamBuffer := cell.connection.capacity config .output - 32 } } := by
  unfold allocateStream at h
  split at h
  · rename_i hstreamed
    exact .inr ⟨hstreamed, allocateResponseStream_takes h⟩
  · cases h
    exact .inl rfl

/-- A serialized response is queued, unless its stream has no producer or no buffer.  Only an
exchange that was initialized can have a producer. -/
def sendResponse (config : Config) (choice : Choice) (index : Nat) (response : Response)
    (head : Bytes) (encoder : Response.Encoder) (cell : Cell) : Cell × Next :=
  let cell := cell.setConnection (beginOutput response encoder cell.connection)
  if isStreamed config response encoder ∧
      (!choice.producer ∨ !cell.connection.applicationInitialized) then
    (cell.forceClose index, .done)
  else
    match allocateStream config choice response encoder cell with
    | (cell, false) => (cell, .call (.reject 503))
    | (cell, true) =>
        (cell.setConnection (setOutput config response head encoder cell.connection),
          .call .queueSend)

/-- A head that does not fit gets one retry in a full-size output buffer. -/
def retryBegin (config : Config) (choice : Choice) (index : Nat) (response : Response)
    (cell : Cell) : Cell × Next :=
  match cell.lease config choice .output with
  | (cell, false) => (cell, .call (.reject 503))
  | (cell, true) =>
      match response.begin cell.connection.parser.request cell.shared.date
          (cell.connection.capacity config .output) with
      | .error _ => (cell.forceClose index, .done)
      | .ok (head, encoder) => cell.sendResponse config choice index response head encoder

/-- A stream is written through a full-size output buffer. -/
def leaseOutput (config : Config) (choice : Choice) (response : Response) (cell : Cell) :
    Cell × Bool :=
  if isStream response.body then cell.lease config choice .output else (cell, true)

def startResponse (config : Config) (choice : Choice) (index : Nat) (initial : Response)
    (cell : Cell) : Cell × Next :=
  if initial.status < 200 then (cell.forceClose index, .done)
  else
    let response := closingResponse config choice cell initial
    let cell : Cell := { cell with shared := { cell.shared with date := choice.date } }
    match leaseOutput config choice response cell with
    | (cell, false) => (cell, .call (.reject 503))
    | (cell, true) =>
        match response.begin cell.connection.parser.request cell.shared.date
            (cell.connection.capacity config .output) with
        | .ok (head, encoder) => cell.sendResponse config choice index response head encoder
        | .error failure =>
            if failure = .writeFailed ∧
                cell.connection.capacity config .output < config.full .output then
              cell.retryBegin config choice index response
            else (cell.forceClose index, .done)

/-! ### Sending -/

def headEnd : Bytes := ascii "\r\n\r\n"

/-- Another complete head waits in the receive buffer. -/
def moreInput (c : Connection) : Bool := (Mem.indexOf c.input headEnd).isSome

def queueSend (config : Config) (cell : Cell) : Cell × Next :=
  if cell.connection.tls.isSome ∧
      (cell.connection.receivePending ∨ cell.connection.sendPending) then (cell, .done)
  else
    (cell.check (!cell.connection.sendPending) .pending,
      .call (if config.app.canBatch then .aggregate else .transmit))

def userAgent (config : Config) (c : Connection) : Option Bytes :=
  if config.accessLog then c.parser.request.getHeader (ascii "user-agent") else none

/-- The response cannot join a batch with `count` responses and this much room. -/
def unbatchable (config : Config) (c : Connection) (count room : Nat) : Bool :=
  c.admin || c.interim || c.streaming || c.closeAfterResponse || c.firstByteRecorded ||
    c.permit != some .admitted || !c.body.isEmpty || c.outputSent != 0 ||
    decide (c.output.length + ((userAgent config c).map List.length).getD 0 > room) ||
    decide (c.responseBodyBytes > 4096) || decide (c.parser.request.method.length > 8) ||
    count == ResponseBatch.maxResponses || (!moreInput c && count == 0)

/-- Copies the response into the batch and resets the connection for its next request. -/
def appendBatch (config : Config) (batch : ResponseBatch) (cell : Cell) : Cell :=
  let c := cell.connection
  let appended := batch.append c.output c.responseStatus c.responseBodyBytes
    (if config.accessLog then c.parser.request.method else []) (userAgent config c)
  let cell := (cell.setConnection
    { c with
      batch := some appended
      permit := none
      requests := c.requests + 1 }).prepareRequest config
  cell.setConnection { cell.connection with phase := .reading }

/-- After an append: parse on while the batch has room and admission is not under pressure. -/
def afterAppend (more : Bool) (batch : ResponseBatch) (shared : Shared) : Call :=
  if more ∧ batch.count < ResponseBatch.maxResponses ∧ batch.remainingCapacity ≥ 256 ∧
      shared.admission.active + shared.activeSlots.length < shared.admission.options.maxActive then
    .processInput
  else .queueBatch

def aggregate (config : Config) (cell : Cell) : Cell × Next :=
  let c := cell.connection
  let count := (c.batch.map ResponseBatch.count).getD 0
  let room := (c.batch.map ResponseBatch.remainingCapacity).getD ResponseBatch.capacity
  if config.batches = 0 then (cell, .call .transmit)
  else if count = 0 ∧ cell.shared.admission.options.maxActive < 4 * cell.shared.activeSlots.length
  then (cell, .call .transmit)
  else if unbatchable config c count room then
    (cell, .call (if count = 0 then .transmit else .queueBatch))
  else
    match c.batch with
    | some batch =>
        let cell := cell.appendBatch config batch
        (cell, .call (afterAppend (moreInput c)
          ((cell.connection.batch).getD {}) cell.shared))
    | none =>
        if cell.shared.freeBatches = 0 then (cell, .call .transmit)
        else
          let cell : Cell :=
            { cell with
              shared := { cell.shared with freeBatches := cell.shared.freeBatches - 1 } }
          let cell := cell.appendBatch config {}
          (cell, .call (afterAppend (moreInput c)
            ((cell.connection.batch).getD {}) cell.shared))

/-- The bytes of the current response that no send has taken. -/
def unsent (c : Connection) : Bytes := c.output.drop c.outputSent ++ c.body.drop c.bodySent

/-- What one plaintext write of a TLS connection borrows: head and body are never joined. -/
def tlsSlice (c : Connection) : Bytes :=
  (if c.outputSent < c.output.length then c.output.drop c.outputSent
    else c.body.drop c.bodySent).take 16384

/-- `MSG_MORE` holds a small response back for the one that follows. -/
def holdsBack (c : Connection) : Bool :=
  !c.admin && !c.interim && !c.streaming && !c.closeAfterResponse &&
    c.bodySent == c.body.length && decide ((c.output.drop c.outputSent).length ≤ 4096) &&
    decide (c.moreCount < 15) && moreInput c

/-- The rest of `queueSend`, for a response that is not batched. -/
def transmit (cell : Cell) : Cell × Next :=
  let c := cell.connection
  if c.tls.isSome then
    (cell.setConnection { c with tls := some (.write (tlsSlice c)) }, .call .advanceTls)
  else
    (cell.setConnection
      ({ c with
        morePending := holdsBack c
        moreCount := if holdsBack c then c.moreCount + 1 else 0 }.submitSend (unsent c)), .done)

/-- The first time a batch is queued it remembers whether a response waits behind it. -/
def startBatch (batch : ResponseBatch) (draining : Bool) (c : Connection) : Connection :=
  let more := c.tls.isNone && c.phase != .writing && !draining && c.permit != some .close &&
    decide (batch.count + c.moreCount < 16) && moreInput c
  { c with
    batch := some { batch with sending := true, resumeResponse := decide (c.phase = .writing) }
    morePending := more
    moreCount := if more then c.moreCount + batch.count else 0
    phase := .writing }

def queueBatch (cell : Cell) : Cell × Next :=
  match cell.connection.batch with
  | none => (cell, .done)
  | some batch =>
      let cell := cell.check (!cell.connection.sendPending) .pending
      let c :=
        if batch.sending then cell.connection
        else startBatch batch cell.shared.draining cell.connection
      let bytes := batch.bytes.drop batch.sent
      if c.tls.isSome then
        (cell.setConnection { c with tls := some (.write bytes) }, .call .advanceTls)
      else (cell.setConnection (c.submitSend bytes), .done)

/-- What follows once a whole batch is sent. -/
def afterBatch (resumeResponse : Bool) (cell : Cell) : Cell × Next :=
  if resumeResponse then
    (cell.setConnection { cell.connection with phase := .writing }, .call .queueSend)
  else if cell.connection.permit = some .close ∨
      (cell.shared.draining ∧ !cell.connection.requestStarted) then
    (cell, .call .drainConnection)
  else (cell.setConnection { cell.connection with phase := .reading }, .call .processInput)

def sentBatch (batch : ResponseBatch) (count : Nat) (cell : Cell) : Cell × Next :=
  let sent := batch.sent + count
  let (shared, completed) :=
    completeEntries cell.shared sent (batch.responses.drop batch.completed) batch.completed
  let cell : Cell :=
    { shared := shared
      connection :=
        { cell.connection with batch := some { batch with sent := sent, completed := completed } } }
  if sent < batch.bytes.length then (cell, .call .queueBatch)
  else cell.releaseBatch.afterBatch batch.resumeResponse

/-! ### Streams -/

def startResponseStream (choice : Choice) (index : Nat) (cell : Cell) : Cell × Next :=
  match cell.submit index choice.refused choice.lane .produce none with
  | none => (cell.forceClose index, .done)
  | some cell =>
      (cell.setConnection
        { cell.connection with
          responseStreamStarted := true
          responseStreamBusy := true
          pending := cell.connection.pending + 1 }, .done)

/-- Bytes encoded for a stream are the connection's next output. -/
def setFragment (c : Connection) (encoder : Response.Encoder) (bytes : Bytes) : Connection :=
  { c with
    encoder := encoder
    output := bytes
    outputSent := 0
    serialized := c.serialized ++ bytes }

/-- An empty fragment has nothing to send. -/
def afterFragment (bytes : Bytes) : Call := if bytes = [] then .finishResponse else .queueSend

def pumpResponseStream (config : Config) (choice : Choice) (index : Nat) (cell : Cell) :
    Cell × Next :=
  let c := cell.connection
  if c.sendPending ∨ c.outputSent < c.output.length ∨ c.responseStreamChunk then (cell, .done)
  else
    match choice.published with
    | .writing => (cell, .done)
    | .failed => (cell.forceClose index, .done)
    | .ready first rest =>
        match c.encoder.write (first :: rest) with
        | .error _ => (cell.forceClose index, .done)
        | .ok (encoder, encoded) =>
            if encoded.length > c.capacity config .output then (cell.forceClose index, .done)
            else
              let c := setFragment c encoder encoded
              (cell.setConnection
                { c with
                  responseBodyBytes := c.responseBodyBytes + (first :: rest).length
                  responseStreamChunk := true },
                .call (afterFragment encoded))
    | .finished =>
        if c.responseStreamBusy then (cell, .done)
        else
          match c.encoder.finish with
          | .error _ => (cell.forceClose index, .done)
          | .ok (encoder, encoded) =>
              (cell.setConnection
                { setFragment c encoder encoded with
                  streaming := false
                  responseStreamStarted := false },
                .call (afterFragment encoded))

/-- The state of `fillStream`'s loop: the encoder, what is written so far, the bytes sent in total,
a fragment held back, and whether the stream goes on. -/
structure Fill where
  encoder : Response.Encoder
  written : Bytes := []
  payload : Nat := 0
  fragment : Option Bytes := none
  streaming : Bool := true

/-- Up to `fuel` producer calls into a buffer of `capacity` bytes; `none` is an error. -/
def fillStream (capacity : Nat) : Nat → List (Option Bytes) → Fill → Option Fill
  | 0, _, fill => some fill
  | fuel + 1, answers, fill =>
      if capacity - fill.written.length ≤ 32 then some fill
      else
        let (fragment, answers) :=
          match fill.fragment with
          | some bytes => (some bytes, answers)
          | none => (answers.headD none, answers.tail)
        match fragment with
        | some [] => none
        | some bytes =>
            if fill.written ≠ [] ∧ bytes.length > capacity - fill.written.length - 32 then
              some { fill with fragment := some bytes }
            else
              match fill.encoder.write bytes with
              | .error _ => none
              | .ok (encoder, encoded) =>
                  if (fill.written ++ encoded).length > capacity then none
                  else fillStream capacity fuel answers
                    { encoder := encoder
                      written := fill.written ++ encoded
                      payload := fill.payload + bytes.length }
        | none =>
            match fill.encoder.finish with
            | .error _ => none
            | .ok (encoder, encoded) =>
                if (fill.written ++ encoded).length > capacity then none
                else some
                  { encoder := encoder
                    written := fill.written ++ encoded
                    payload := fill.payload
                    streaming := false }

/-- The streaming branch of `sent` for applications without response streams. -/
def refill (config : Config) (choice : Choice) (index : Nat) (cell : Cell) : Cell × Next :=
  let c := cell.connection
  match fillStream (c.capacity config .output) 16 choice.fragments
      { encoder := c.encoder, fragment := c.streamFragment } with
  | none => (cell.forceClose index, .done)
  | some fill =>
      (cell.setConnection
        { setFragment c fill.encoder fill.written with
          streamFragment := fill.fragment
          streaming := fill.streaming
          responseBodyBytes := c.responseBodyBytes + fill.payload },
        .call (afterFragment fill.written))

/-- The streaming branch of `sent` for applications with response streams. -/
def consumeChunk (choice : Choice) (index : Nat) (cell : Cell) : Cell × Next :=
  if cell.connection.canceled then (cell.forceClose index, .done)
  else if !cell.connection.responseStreamStarted then cell.startResponseStream choice index
  else
    (cell.setConnection { cell.connection with responseStreamChunk := false },
      .call .pumpResponseStream)

/-- Everything of the current output is sent. -/
def outputDone (config : Config) (choice : Choice) (index : Nat) (cell : Cell) : Cell × Next :=
  let c := cell.connection
  if c.interim then
    (cell.setConnection { c with interim := false, phase := .reading }, .call .processInput)
  else if c.streaming then
    if config.app.hasResponseStreams then cell.consumeChunk choice index
    else cell.refill config choice index
  else (cell, .call .finishResponse)

/-- A send took `count` bytes of the current output. -/
def sentOutput (config : Config) (choice : Choice) (index : Nat) (count : Nat) (cell : Cell) :
    Cell × Next :=
  let c := cell.connection
  let headCount := min count (c.output.length - c.outputSent)
  let c : Connection :=
    { c with
      firstByteRecorded := c.firstByteRecorded || !c.interim
      outputSent := c.outputSent + headCount
      bodySent := c.bodySent + (count - headCount) }
  if c.outputSent < c.output.length ∨ c.bodySent < c.body.length then
    (cell.setConnection c, .call .queueSend)
  else (cell.setConnection c).outputDone config choice index

def sent (config : Config) (choice : Choice) (index : Nat) (count : Option Nat) (cell : Cell) :
    Cell × Next :=
  match count with
  | none => (cell.forceClose index, .done)
  | some count =>
      match cell.connection.batch with
      | some batch =>
          if config.app.canBatch ∧ batch.sending then cell.sentBatch batch count
          else cell.sentOutput config choice index count
      | none => cell.sentOutput config choice index count

def finishResponse (config : Config) (cell : Cell) : Cell × Next :=
  let cell : Cell :=
    { shared :=
        { cell.shared with requestsCompletedTotal := cell.shared.requestsCompletedTotal + 1 }
      connection :=
        { cell.connection with
          requestCompleted := true
          requests := cell.connection.requests + 1 } }
  let cell := cell.releaseApplication
  if cell.connection.closeAfterResponse then (cell, .call .drainConnection)
  else
    let cell := cell.releasePermit.prepareRequest config
    (cell.setConnection { cell.connection with phase := .reading }, .call .processInput)

/-! ### Receiving and closing -/

def drainConnection (index : Nat) (cell : Cell) : Cell × Next :=
  let cell : Cell := { cell with shared := cell.shared.removeIdle index }
  if cell.connection.tls.isSome then
    let cell := cell.setConnection { cell.connection with phase := .tlsShutdown }
    if cell.connection.sendPending then (cell, .done)
    else if cell.connection.receivePending then (cell.cancelReceive, .done)
    else
      (cell.setConnection { cell.connection with tls := some .shutdown }, .call .advanceTls)
  else (cell.setConnection { cell.connection with phase := .drain }, .call .beginTcpDrain)

def beginTcpDrain (cell : Cell) : Cell × Next :=
  (cell.setConnection { cell.connection with phase := .drain, input := [] }, .call .queueReceive)

/-- The part of `queueReceive` that submits: TLS reads through its session. -/
def submitRead (config : Config) (index : Nat) (cell : Cell) : Cell × Next :=
  if cell.connection.receivePending then (cell, .done)
  else
    let cell := cell.queueIdle config index
    let c : Connection := { cell.connection with input := [] }
    if c.tls.isSome ∧ c.phase ≠ .drain then
      (cell.setConnection { c with tls := some .read }, .call .advanceTls)
    else (cell.setConnection c.submitReceive, .done)

def queueReceive (config : Config) (choice : Choice) (index : Nat) (cell : Cell) : Cell × Next :=
  if config.app.canBatch ∧ cell.connection.batch.isSome then (cell, .call .queueBatch)
  else if cell.connection.morePending then
    if choice.nodelay then
      (cell.setConnection
        { cell.connection with morePending := false, moreCount := 0 }).submitRead config index
    else (cell.forceClose index, .done)
  else cell.submitRead config index

/-- A receive that ended without input. -/
def receivedNothing (index : Nat) (result : Received) (cell : Cell) : Cell × Next :=
  let c := cell.connection
  if result ≠ .eof ∧ c.phase = .writing then (cell, .done)
  else if c.phase = .drain ∧ result = .canceled then (cell, .call .queueReceive)
  else if c.phase = .reading ∧ c.requestStarted ∧ result = .eof then
    match c.parser.eof with
    | .error _ => (cell, .call (.reject 400))
    | .ok _ => (cell.forceClose index, .done)
  else (cell.forceClose index, .done)

def received (index : Nat) (result : Received) (cell : Cell) : Cell × Next :=
  match result with
  | .bytes bytes =>
      let c := cell.connection
      if c.phase = .drain then
        let cell := cell.setConnection { c with drainedBytes := c.drainedBytes + bytes.length }
        if cell.connection.drainedBytes ≥ 64 * 1024 then (cell.forceClose index, .done)
        else (cell, .call .queueReceive)
      else if c.phase ≠ .reading then (cell, .done)
      else
        (cell.setConnection { c with input := bytes, wire := c.wire ++ bytes },
          .call .processInput)
  | other => cell.receivedNothing index other

/-- What follows a socket operation of a TLS session: a read is abandoned for a shutdown or for a
response that waited for it. -/
def resumeTls (cell : Cell) : Cell × Next :=
  let c := cell.connection
  if c.phase = .tlsShutdown ∧ c.tls = some .read then
    (cell.setConnection { c with tls := some .shutdown }, .call .advanceTls)
  else if c.phase = .writing ∧ c.tls = some .read then (cell, .call .queueSend)
  else (cell, .call .advanceTls)

def receivedTls (index : Nat) (result : Received) (cell : Cell) : Cell × Next :=
  if result = .eof ∨ result = .failed then (cell.forceClose index, .done)
  else cell.resumeTls

def sentTls (index : Nat) (ok : Bool) (cell : Cell) : Cell × Next :=
  if ok then cell.resumeTls else (cell.forceClose index, .done)

/-- A TLS write takes at least one and at most all of the borrowed bytes. -/
def writeCount (bytes : Bytes) (count : Nat) : Nat := min (max count 1) bytes.length

/-- A TLS operation completed. -/
def completeTls (choice : Choice) (index : Nat) (operation : TlsOperation) (bytes : Bytes)
    (count : Nat) (http2 : Bool) (cell : Cell) : Cell × Next :=
  let c : Connection := { cell.connection with tls := some .idle }
  match operation with
  | .idle => (cell.setConnection c, .done)
  | .handshake =>
      if http2 then
        if choice.granted then
          (cell.setConnection { c with http2 := some {}, phase := .http2 }, .call .pumpHttp2)
        else ((cell.setConnection c).forceClose index, .done)
      else (cell.setConnection { c with phase := .reading }, .call .queueReceive)
  | .read =>
      if bytes = [] then
        (cell.setConnection c,
          .call (if c.requestStarted then .received .eof else .drainConnection))
      else (cell.setConnection c, .call (.received (.bytes bytes)))
  | .write borrowed =>
      (cell.setConnection
        { c with socket := c.socket ++ borrowed.take (writeCount borrowed count) },
        .call (.sent (some (writeCount borrowed count))))
  | .shutdown => (cell.setConnection c, .call .beginTcpDrain)

def advanceTls (choice : Choice) (index : Nat) (cell : Cell) : Cell × Next :=
  match cell.connection.tls with
  | none => (cell, .done)
  | some operation =>
      let cell := cell.check (!cell.connection.receivePending && !cell.connection.sendPending)
        .pending
      match choice.tls with
      | .failed => (cell.forceClose index, .done)
      | .receive => (cell.setConnection cell.connection.submitReceive, .done)
      | .send => (cell.setConnection (cell.connection.submitSend []), .done)
      | .complete bytes count http2 =>
          cell.completeTls choice index operation bytes count http2

end Cell

end Zhtps.Worker
