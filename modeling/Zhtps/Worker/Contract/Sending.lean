import Zhtps.Worker.Contract.Reading

/-!
The calls that answer a request, alone or in a batch, keep the contract.
-/

namespace Zhtps.Worker

namespace Cell

open Connection

/-! ### Answering -/

theorem respondStatus_kept {config : Config} {choice : Choice} {status : Nat} {close : Bool}
    {cell : Cell} (h : cell.connection.Pre config (.respondStatus status close))
    (hb : Booked cell.connection) : Kept config (cell.respondStatus choice status close) :=
  ⟨hb, h, fun _ => rfl⟩

theorem canBatch_not_isolated {app : App} (h : app.canBatch = true) : app.isIsolated = false := by
  cases app <;> simp_all [App.canBatch, App.isIsolated]

theorem canBatch_no_streams {app : App} (h : app.canBatch = true) :
    app.hasResponseStreams = false := by
  cases app <;> simp_all [App.canBatch, App.hasResponseStreams]

theorem reject_kept {config : Config} {choice : Choice} {index status : Nat} {cell : Cell}
    (h : cell.connection.Pre config (.reject status)) (hb : Booked cell.connection) :
    Kept config (cell.reject choice index status) := by
  unfold reject
  split
  · rename_i hnone
    generalize Admission.acquireRejection _ = outcome
    obtain ⟨admission, decision⟩ := outcome
    dsimp only
    split
    · rename_i hclose
      subst hclose
      split
      · rename_i hbatch
        obtain ⟨hopen, ⟨hun, hstream⟩, hs, hl, hbatched, hphase, hfresh, -⟩ := h
        obtain ⟨batch, hbatch⟩ := Option.isSome_iff_exists.mp hbatch
        have hsome : cell.connection.batch ≠ none := by simp [hbatch]
        have hstreaming : cell.connection.streaming = false := by
          by_contra hon
          exact hsome (hstream (by simpa using hon))
        have hisolated := canBatch_not_isolated (hbatched batch hbatch).1
        have hidle : cell.connection.Fresh := by
          by_contra hf
          exact hsome (hfresh hf).1
        have hreading : cell.connection.phase = .reading := by grind
        have hun' : cell.connection.Unanswered := ⟨hun.1, hun.2.1, hstreaming, hun.2.2.2⟩
        exact ⟨hb, hopen, hidle, Or.inr ⟨hsome, hbatched, Or.inl ⟨hreading, hun', Or.inl rfl⟩⟩⟩
      · exact forceClose_kept config hb h.1.1
    · refine ⟨hb, ?_⟩
      grind [Connection.Session]
  · exact ⟨hb, h⟩

/-- A serialized response is ready to be sent; `size` bytes are charged for its stream. -/
theorem setOutput_sends {config : Config} {close : Bool} {response : Response} {head : Bytes}
    {encoder : Response.Encoder} {c : Connection} {size : Nat} (h : c.Answerable config close)
    (hbytes : ¬c.Fresh → isStream response.body = false)
    (hclose : close = true → encoder.close = true) (hhead : head ≠ [])
    (hinit : isStreamed config response encoder = true → c.applicationInitialized = true)
    (hsize : size ≠ 0 → isStreamed config response encoder = true) :
    (setOutput config response head encoder
      { beginOutput response encoder c with responseStreamBuffer := size }).Sends config := by
  obtain ⟨hopen, ⟨hun, -⟩, hs, hl, hbatched, -, hfresh, hsend⟩ := h
  have hpublic : isStreamed config response encoder = true → c.admin = false := by
    intro hstreamed
    by_contra hadmin
    have hnone := hun.2.2.2.2.1 (by simpa using hadmin)
    rw [hinit hstreamed] at hnone
    cases hnone
  have hcharged : size ≠ 0 → config.app.hasResponseStreams = true ∧
      c.applicationInitialized = true ∧ c.admin = false := by
    intro hne
    have hstreamed := hsize hne
    refine ⟨?_, hinit hstreamed, hpublic hstreamed⟩
    simp only [isStreamed, Bool.and_eq_true] at hstreamed
    exact hstreamed.1.1
  have hlen : 0 < head.length := List.length_pos_of_ne_nil hhead
  have hout : 0 < (setOutput config response head encoder
      { beginOutput response encoder c with responseStreamBuffer := size }).output.length := by
    simp only [setOutput]
    split
    · simp only [List.length_append]
      omega
    · exact hlen
  have hstream : (setOutput config response head encoder
      { beginOutput response encoder c with responseStreamBuffer := size }).streaming = true →
      (setOutput config response head encoder
          { beginOutput response encoder c with responseStreamBuffer := size }).body = [] ∧
        (config.app.hasResponseStreams = true →
          encoder.mode ≠ .suppressed ∧ c.admin = false) := by
    intro hstreaming
    simp only [setOutput, beginOutput, Bool.and_eq_true, bne_iff_ne] at hstreaming
    refine ⟨?_, fun happ => ⟨hstreaming.2, hpublic ?_⟩⟩
    swap
    · simp [isStreamed, happ, hstreaming.1, hstreaming.2]
    cases hbody : response.body with
    | bytes bytes => simp [hbody, isStream] at hstreaming
    | stream length => simp [setOutput, payload, hbody]
  refine ⟨hopen, rfl, ⟨hs, hun.2.1, hl, nofun, ?_, ?_, hstream, hcharged⟩, Or.inl hout, hbatched, ?_, hsend⟩
  · intro (hbusy : c.responseStreamBusy = true)
    rw [hun.1.2] at hbusy
    cases hbusy
  · intro (hstarted : c.responseStreamStarted = true)
    rw [hun.1.1] at hstarted
    cases hstarted
  · intro hf
    refine ⟨(hfresh hf).1, hclose (hfresh hf).2, rfl, ?_⟩
    simp only [setOutput, beginOutput, hbytes hf, Bool.false_and]

/-- A stream's buffer is charged to the budget, for a streamed response only. -/
theorem allocateStream_eq {config : Config} {choice : Choice} {response : Response}
    {encoder : Response.Encoder} {cell next : Cell}
    (hbuffer : cell.connection.responseStreamBuffer = 0)
    (h : allocateStream config choice response encoder cell = (next, true)) :
    ∃ buffers size, next =
        { shared := { cell.shared with buffers := buffers }
          connection := { cell.connection with responseStreamBuffer := size } } ∧
      (size ≠ 0 → isStreamed config response encoder = true) := by
  rcases allocateStream_takes h with rfl | ⟨hstreamed, -, rfl⟩
  · exact ⟨_, 0, by rw [← hbuffer], fun hne => absurd rfl hne⟩
  · exact ⟨_, _, rfl, fun _ => hstreamed⟩

/-- A stream that gets no buffer leaves a connection that can still refuse the request: an
application with streams batches nothing. -/
theorem beginOutput_answerable {config : Config} {close : Bool} {response : Response}
    {encoder : Response.Encoder} {c : Connection} (h : c.Answerable config close)
    (hstreamed : isStreamed config response encoder = true) :
    (beginOutput response encoder c).Answerable config true := by
  obtain ⟨hopen, ⟨hun, -⟩, hs, hl, hbatched, hphase, hfresh, hsend⟩ := h
  have hstreams : config.app.hasResponseStreams = true := by
    simp only [isStreamed, Bool.and_eq_true] at hstreamed
    exact hstreamed.1.1
  have hnone : c.batch = none := by
    by_contra hsome
    obtain ⟨batch, hbatch⟩ := Option.ne_none_iff_exists'.mp hsome
    rw [canBatch_no_streams (hbatched batch hbatch).1] at hstreams
    cases hstreams
  exact ⟨hopen, ⟨hun, fun _ => hnone⟩, hs, hl, hbatched, hphase, fun _ => ⟨hnone, rfl⟩, hsend⟩

theorem sendResponse_kept {config : Config} {choice : Choice} {index : Nat} {response : Response}
    {head : Bytes} {encoder : Response.Encoder} {cell : Cell}
    (h : cell.connection.Answerable config response.close)
    (hbytes : ¬cell.connection.Fresh → isStream response.body = false)
    (hclose : response.close = true → encoder.close = true) (hhead : head ≠ [])
    (hb : Booked cell.connection) :
    Kept config (cell.sendResponse config choice index response head encoder) := by
  unfold sendResponse
  dsimp only
  split
  · exact forceClose_kept config hb h.1.1
  · rename_i hproducer
    split
    · rename_i next hnext
      obtain ⟨rfl, hstreamed⟩ := allocateStream_fails hnext
      exact ⟨hb, beginOutput_answerable h hstreamed⟩
    · rename_i next hnext
      have hbuffer : (cell.setConnection
          (beginOutput response encoder cell.connection)).connection.responseStreamBuffer = 0 :=
        h.2.1.1.2.2.2.1
      obtain ⟨buffers, size, rfl, hsize⟩ := allocateStream_eq hbuffer hnext
      refine ⟨hb, setOutput_sends h hbytes hclose hhead (fun hstreamed => ?_) hsize⟩
      by_contra hinit
      exact hproducer ⟨hstreamed, Or.inr (by simpa [setConnection, beginOutput] using hinit)⟩

/-- Leased buffers do not matter to the contract. -/
theorem Leased.answerable {config : Config} {close : Bool} {cell next : Cell}
    (h : Leased cell next) (hc : cell.connection.Answerable config close) :
    next.connection.Answerable config close := by
  obtain ⟨_, _, _, _, rfl⟩ := h
  exact hc

theorem Leased.fresh {cell next : Cell} (h : Leased cell next) :
    next.connection.Fresh ↔ cell.connection.Fresh := by
  obtain ⟨_, _, _, _, rfl⟩ := h
  exact Iff.rfl

theorem Leased.booked {cell next : Cell} (h : Leased cell next) (hc : Booked cell.connection) :
    Booked next.connection := by
  obtain ⟨_, _, _, _, rfl⟩ := h
  exact hc

theorem retryBegin_kept {config : Config} {choice : Choice} {index : Nat} {response : Response}
    {cell : Cell} (h : cell.connection.Answerable config response.close)
    (hbytes : ¬cell.connection.Fresh → isStream response.body = false)
    (hb : Booked cell.connection) :
    Kept config (cell.retryBegin config choice index response) := by
  have hreject : cell.connection.Answerable config true := by grind
  unfold retryBegin
  split
  · rename_i d hd
    have hleased := lease_eq hd
    exact ⟨hleased.booked hb, hleased.answerable hreject⟩
  · rename_i d hd
    have hleased := lease_eq hd
    split
    · exact forceClose_kept config (hleased.booked hb) (hleased.answerable h).1.1
    · rename_i head encoder hbegin
      exact sendResponse_kept (hleased.answerable h) (fun hf => hbytes (by rwa [← hleased.fresh]))
        (Response.begin_close hbegin) (Response.begin_ne_nil hbegin) (hleased.booked hb)

theorem leaseOutput_leased {config : Config} {choice : Choice} {response : Response}
    {cell next : Cell} {leased : Bool}
    (h : leaseOutput config choice response cell = (next, leased)) : Leased cell next := by
  unfold leaseOutput at h
  split at h
  · exact lease_eq h
  · cases h
    exact .refl _

theorem startResponse_kept {config : Config} {choice : Choice} {index : Nat} {response : Response}
    {cell : Cell} (h : cell.connection.Pre config (.startResponse response))
    (hb : Booked cell.connection) :
    Kept config (cell.startResponse config choice index response) := by
  obtain ⟨h, hbytes⟩ := h
  have hclosing : cell.connection.Answerable config
      (closingResponse config choice cell response).close := by
    have hc : response.close = true → (closingResponse config choice cell response).close = true := by
      intro hr
      simp [closingResponse, hr]
    grind
  have hreject : cell.connection.Answerable config true := by grind
  unfold startResponse
  dsimp only
  split
  · exact forceClose_kept config hb h.1.1
  · split
    · rename_i next hnext
      have hleased := leaseOutput_leased hnext
      exact ⟨hleased.booked hb, hleased.answerable hreject⟩
    · rename_i next hnext
      have hleased := leaseOutput_leased hnext
      have hanswer := hleased.answerable hclosing
      have hbooked := hleased.booked hb
      have hbytes : ¬next.connection.Fresh → isStream response.body = false := by
        rw [hleased.fresh]
        exact hbytes
      split
      · rename_i head encoder hbegin
        exact sendResponse_kept hanswer hbytes (Response.begin_close hbegin)
          (Response.begin_ne_nil hbegin) hbooked
      · split
        · exact retryBegin_kept hanswer hbytes hbooked
        · exact forceClose_kept config hbooked hanswer.1.1

/-! ### Sending -/

theorem queueSend_kept {config : Config} {cell : Cell} (h : cell.connection.Pre config .queueSend)
    (hb : Booked cell.connection) : Kept config (cell.queueSend config) := by
  unfold queueSend
  split
  · rename_i hbusy
    refine ⟨hb, ?_⟩
    obtain ⟨hopen, hphase, hans, hunsent, hbatched, hfresh, hsend⟩ := h
    have hnot : ¬cell.connection.Fresh := by grind
    obtain ⟨hnone, hclose, hinterim, -⟩ := hfresh hnot
    have hsession : cell.connection.Session fun operation =>
        cell.connection.Serves config operation ∨ cell.connection.Superseded config operation := by
      intro operation hop
      obtain ⟨hone, hread⟩ := hsend.2 operation hop
      exact ⟨hone, fun hf => Or.inr ⟨hread hf, hnone, Or.inl ⟨hphase, hans, hunsent, hclose, hinterim⟩⟩⟩
    grind
  · rename_i hclear
    have hnext : cell.connection.Clear := by
      cases htls : cell.connection.tls <;> grind
    have hnone : config.app.canBatch = false → cell.connection.batch = none := by
      intro hcan
      cases hbatch : cell.connection.batch with
      | none => rfl
      | some batch => simp [(h.2.2.2.2.1 batch hbatch).1] at hcan
    have hcheck : (cell.check (!cell.connection.sendPending) .pending).connection =
        cell.connection := by
      unfold check
      split <;> rfl
    refine ⟨by rw [hcheck]; exact hb, ?_⟩
    rw [hcheck]
    cases hcan : config.app.canBatch with
    | true => exact ⟨h, hnext, hcan⟩
    | false => exact ⟨h, hnext, hnone hcan⟩

/-- What `prepareRequest` resets; the parser belongs to the next request. -/
theorem prepareRequest_eq (config : Config) (cell : Cell) :
    ∃ buffers large lease parser, cell.prepareRequest config =
      { shared := { cell.shared with buffers := buffers }
        connection :=
          { cell.connection with
            largeBuffers := large
            lease := lease
            parser := parser
            applicationInitialized := false
            requestStarted := false
            requestCompleted := false
            firstByteRecorded := false
            output := []
            outputSent := 0
            body := []
            bodySent := 0
            responseBodyBytes := 0
            streaming := false
            streamFragment := none
            applicationBody := []
            closeAfterResponse := false
            interim := false
            applicationTimedOut := false
            canceled := false
            responseStreamStarted := false
            responseStreamBusy := false
            responseStreamChunk := false
            messages := cell.connection.messages ++ [cell.connection.message]
            message := [] } } := by
  have hrenew (c : Connection) : ∃ lease parser, Connection.renewLease config c =
      { c with lease := lease, parser := parser } := by
    unfold Connection.renewLease
    split
    · exact ⟨_, _, rfl⟩
    · split
      · exact ⟨_, _, rfl⟩
      · exact ⟨_, _, rfl⟩
  obtain ⟨lease, parser, hlease⟩ := hrenew (cell.releaseBuffers false).connection
  refine ⟨(cell.releaseBuffers false).shared.buffers,
    (cell.releaseBuffers false).connection.largeBuffers, lease, parser, ?_⟩
  unfold prepareRequest Connection.resetRequest
  dsimp only
  rw [hlease]
  rfl

/-- The next request starts from a slot without an answer. -/
theorem prepareRequest_reads {config : Config} {cell : Cell} (h : cell.connection.Http1)
    (hf : cell.connection.Fresh) (hp : cell.connection.permit = none)
    (hbuffer : cell.connection.responseStreamBuffer = 0) (hb : cell.connection.Batched config) :
    Connection.Reads config { (cell.prepareRequest config).connection with phase := .reading } := by
  obtain ⟨buffers, large, lease, parser, heq⟩ := prepareRequest_eq config cell
  rw [heq]
  exact ⟨h, rfl, ⟨⟨⟨rfl, rfl⟩, rfl, rfl, hbuffer, fun _ => rfl, rfl⟩, nofun,
    fun hne => absurd hp hne⟩, hf, hb⟩

theorem prepareRequest_booked {config : Config} {cell : Cell} {phase : Phase}
    (h : Booked cell.connection) (hbusy : cell.connection.responseStreamBusy = false) :
    Booked { (cell.prepareRequest config).connection with phase := phase } := by
  obtain ⟨buffers, large, lease, parser, heq⟩ := prepareRequest_eq config cell
  rw [heq]
  exact h.of_ledger (by simp [ledger, hbusy, busyStreams])

theorem appendBatch_batch {config : Config} {batch : ResponseBatch} {cell : Cell} :
    (cell.appendBatch config batch).connection.batch =
      some (batch.append cell.connection.output cell.connection.responseStatus
        cell.connection.responseBodyBytes
        (if config.accessLog then cell.connection.parser.request.method else [])
        (userAgent config cell.connection)) := by
  unfold appendBatch
  dsimp only
  obtain ⟨buffers, large, lease, parser, heq⟩ := prepareRequest_eq config
    (cell.setConnection { cell.connection with
      batch := some (batch.append cell.connection.output cell.connection.responseStatus
        cell.connection.responseBodyBytes
        (if config.accessLog then cell.connection.parser.request.method else [])
        (userAgent config cell.connection))
      permit := none
      requests := cell.connection.requests + 1 })
  rw [heq]
  rfl

/-- A response joins a batch that is not sent yet, and reading goes on. -/
theorem appendBatch_kept {config : Config} {batch : ResponseBatch} {cell : Cell}
    (h : cell.connection.Http1) (hf : cell.connection.Fresh) (hb : Booked cell.connection)
    (hcan : config.app.canBatch = true) (hbatches : config.batches ≠ 0)
    (hsending : batch.sending = false)
    (hbusy : cell.connection.responseStreamBusy = false)
    (hbuffer : cell.connection.responseStreamBuffer = 0) :
    Booked (cell.appendBatch config batch).connection ∧
      (cell.appendBatch config batch).connection.Reads config := by
  refine ⟨prepareRequest_booked (by exact hb) (by exact hbusy),
    prepareRequest_reads (by exact h) (by exact hf) rfl (by exact hbuffer) ?_⟩
  intro b hbatch
  cases hbatch
  refine ⟨hcan, hbatches, ?_, hsending⟩
  simp [ResponseBatch.append]

/-- A batch is sent before the connection waits for input. -/
theorem Reads.queueBatch {config : Config} {c : Connection} (h : c.Reads config)
    (hbatch : c.batch ≠ none) : c.Pre config .queueBatch :=
  ⟨h.1, h.2.2.2.1, Or.inr ⟨hbatch, h.2.2.2.2, Or.inl ⟨h.2.1, h.2.2.1.1, Or.inr h.2.2.1.2⟩⟩⟩

theorem afterAppend_kept {config : Config} {batch : ResponseBatch} {cell : Cell} {more : Bool}
    {next : ResponseBatch} {shared : Shared}
    (h : Booked (cell.appendBatch config batch).connection ∧
      (cell.appendBatch config batch).connection.Reads config) :
    Kept config (cell.appendBatch config batch, .call (afterAppend more next shared)) := by
  have hpre : (cell.appendBatch config batch).connection.Pre config
      (afterAppend more next shared) := by
    unfold afterAppend
    split
    · exact h.2
    · refine Reads.queueBatch h.2 ?_
      rw [appendBatch_batch]
      simp
  exact ⟨h.1, hpre⟩

theorem aggregate_kept {config : Config} {cell : Cell} (h : cell.connection.Pre config .aggregate)
    (hb : Booked cell.connection) : Kept config (cell.aggregate config) := by
  obtain ⟨hsends, hclear, hcan⟩ := h
  have ⟨hopen, hphase, hans, hunsent, hbatched, hfresh, _⟩ := hsends
  have hbusy : cell.connection.responseStreamBusy = false := by
    have hstreams := canBatch_no_streams hcan
    grind
  have hbuffer : cell.connection.responseStreamBuffer = 0 := by
    have hstreams := canBatch_no_streams hcan
    grind
  have htransmit : cell.connection.batch = none →
      Kept config (cell, .call .transmit) := fun hnone => ⟨hb, hsends, hclear, hnone⟩
  have hcount : (cell.connection.batch.map ResponseBatch.count).getD 0 = 0 →
      cell.connection.batch = none := by
    intro hzero
    cases hbatch : cell.connection.batch with
    | none => rfl
    | some batch =>
        simp [hbatch, ResponseBatch.count] at hzero
        exact absurd hzero (hbatched batch hbatch).2.2.1
  unfold aggregate
  dsimp only
  split
  · rename_i hzero
    refine htransmit ?_
    cases hbatch : cell.connection.batch with
    | none => rfl
    | some batch => exact absurd hzero (hbatched batch hbatch).2.1
  · rename_i hbatches
    split
    · rename_i hzero
      exact htransmit (hcount hzero.1)
    · split
      · split
        · rename_i hzero
          exact htransmit (hcount hzero)
        · rename_i hne
          have hsome : cell.connection.batch ≠ none := by
            intro hnone
            simp [hnone] at hne
          have hidle : cell.connection.Fresh := by
            by_contra hf
            exact hsome (hfresh hf).1
          exact ⟨hb, hopen, hidle, Or.inr ⟨hsome, hbatched, Or.inr ⟨hphase, hans, hunsent⟩⟩⟩
      · rename_i hun
        have hidle : cell.connection.Fresh := by
          by_contra hf
          simp [unbatchable, (hfresh hf).2.1] at hun
        split
        · rename_i batch hbatch
          exact afterAppend_kept (appendBatch_kept hopen hidle hb hcan hbatches
            (hbatched batch hbatch).2.2.2 hbusy hbuffer)
        · split
          · rename_i hnone _
            exact htransmit hnone
          · refine afterAppend_kept (appendBatch_kept ?_ ?_ ?_ hcan hbatches rfl ?_ ?_)
            · exact hopen
            · exact hidle
            · exact hb
            · exact hbusy
            · exact hbuffer

theorem transmit_kept {config : Config} {cell : Cell} (h : cell.connection.Pre config .transmit)
    (hb : Booked cell.connection) : Kept config cell.transmit := by
  obtain ⟨hsends, hclear, hnone⟩ := h
  obtain ⟨hopen, hphase, hans, hunsent, -, hfresh, -⟩ := hsends
  unfold transmit
  dsimp only
  split
  · rename_i htls
    refine ⟨hb, hopen, ⟨hclear.2 (by grind), hclear.1⟩, _, rfl, hphase, Or.inl ⟨hnone, hans, hunsent⟩⟩
  · rename_i htls
    refine ⟨Booked.submitSend hb _ hclear.1, ?_⟩
    have hplain : cell.connection.tls = none := Option.not_isSome_iff_eq_none.mp htls
    simp only [Rest, Connection.submitSend, setConnection, hopen.1, if_true, AtRest, hphase]
    refine ⟨hopen.2, Or.inl ⟨hnone, hans, ?_, ?_⟩⟩
    · intro _ hr
      exact (hfresh (by grind)).2
    · intro operation hop
      simp [hplain] at hop

/-- Sending a batch from a slot that is set up for it. -/
theorem sendBatch_kept {config : Config} {cell : Cell} {c : Connection} {bytes : Bytes}
    (hopen : c.Http1) (hphase : c.phase = .writing) (hf : c.Fresh) (hflush : c.Flushing config)
    (hb : Booked c) :
    Kept config
      (if c.tls.isSome then (cell.setConnection { c with tls := some (.write bytes) }, .call .advanceTls)
      else (cell.setConnection (c.submitSend bytes), .done)) := by
  split
  · exact ⟨hb, hopen, hf, _, rfl, hphase, Or.inr hflush⟩
  · rename_i htls
    refine ⟨Booked.submitSend hb _ hf.2, ?_⟩
    have hplain : c.tls = none := Option.not_isSome_iff_eq_none.mp htls
    simp only [Rest, Connection.submitSend, setConnection, hopen.1, if_true, AtRest, hphase]
    refine ⟨hopen.2, Or.inr ⟨hflush, fun _ => hf.1, ?_⟩⟩
    intro operation hop
    simp [hplain] at hop

theorem queueBatch_kept {config : Config} {cell : Cell}
    (h : cell.connection.Pre config .queueBatch) (hb : Booked cell.connection) :
    Kept config cell.queueBatch := by
  obtain ⟨hopen, hf, hcases⟩ := h
  unfold queueBatch
  split
  · grind
  · rename_i batch hbatch
    dsimp only
    rw [check_connection]
    split
    · rename_i hsending
      refine sendBatch_kept hopen ?_ hf ?_ hb
      · grind
      · grind
    · rename_i hsending
      refine sendBatch_kept hopen rfl hf ⟨_, rfl, ?_⟩ hb
      rcases hcases with ⟨-, b, hb', hrest⟩ | ⟨-, hbatched, hcont⟩
      · grind
      · obtain ⟨hcan, -, hne, -⟩ := hbatched batch hbatch
        refine ⟨hcan, hne, rfl, ?_⟩
        rcases hcont with ⟨hphase, hbehind⟩ | ⟨hphase, hbehind⟩
        · simp only [hphase, reduceCtorEq, decide_false]
          exact hbehind
        · simp only [hphase, decide_true]
          exact hbehind

theorem afterBatch_kept {config : Config} {resume : Bool} {cell : Cell}
    (hopen : cell.connection.Http1) (hnone : cell.connection.batch = none)
    (hf : cell.connection.Fresh) (hbehind : cell.connection.Behind config resume)
    (hb : Booked cell.connection) : Kept config (cell.afterBatch resume) := by
  have hbatched : cell.connection.Batched config := by grind
  unfold afterBatch
  split
  · rename_i hr
    subst hr
    exact ⟨hb, hopen, rfl, hbehind.1, hbehind.2, hbatched, fun hne => absurd hf hne,
      Fresh.unsending hf⟩
  · rename_i hr
    have hresume : resume = false := by simpa using hr
    subst hresume
    obtain ⟨hun, hpermit⟩ : cell.connection.Unanswered ∧ _ := hbehind
    split
    · exact ⟨hb, ⟨hopen, hnone, hun.1⟩, Fresh.unsending hf⟩
    · rename_i hnot
      refine ⟨hb, hopen, rfl, ⟨hun, ?_⟩, hf, hbatched⟩
      rcases hpermit with hclose | hpermit
      · exact absurd (Or.inl hclose) hnot
      · exact hpermit

theorem sentBatch_kept {config : Config} {batch : ResponseBatch} {count : Nat} {cell : Cell}
    (h : cell.connection.Pre config (.sent (some count))) (hb : Booked cell.connection)
    (hbatch : cell.connection.batch = some batch) :
    Kept config (cell.sentBatch batch count) := by
  obtain ⟨hopen, hphase, hclear, hmode⟩ := h
  rcases hmode with ⟨hnone, -⟩ | ⟨⟨b, hb', hcan, hne, hsending, hbehind⟩, hplain⟩
  · rw [hbatch] at hnone
    cases hnone
  obtain rfl : batch = b := by grind
  have hf : cell.connection.Fresh := by
    cases htls : cell.connection.tls <;> grind
  unfold sentBatch
  dsimp only
  split
  · refine ⟨hb, hopen, hf, Or.inl ⟨hphase, _, rfl, hcan, hne, hsending, ?_⟩⟩
    exact hbehind
  · exact afterBatch_kept hopen rfl hf hbehind hb

/-! ### Response streams -/

theorem startResponseStream_kept {config : Config} {choice : Choice} {index : Nat} {cell : Cell}
    (hopen : cell.connection.Http1) (hphase : cell.connection.phase = .writing)
    (hnone : cell.connection.batch = none) (hans : cell.connection.Answering config)
    (hover : cell.connection.Overtaken) (hclear : cell.connection.Clear)
    (hstreams : config.app.hasResponseStreams = true)
    (hstreaming : cell.connection.streaming = true)
    (hinterim : cell.connection.interim = false)
    (hstarted : cell.connection.responseStreamStarted = false) (hb : Booked cell.connection) :
    Kept config (cell.startResponseStream choice index) := by
  unfold startResponseStream
  split
  · exact forceClose_kept config hb hopen.1
  · rename_i next hnext
    have hc := submit_connection hnext
    have hbusy : cell.connection.responseStreamBusy = false := by grind
    refine ⟨?_, ?_⟩
    · refine ⟨?_, ?_, ?_⟩
      · have := hb.1
        simp only [setConnection, hc, hbusy, Bool.toNat_false, Bool.toNat_true, busyStreams] at this ⊢
        omega
      · rw [hc]
        exact hb.2.1
      · rw [hc]
        exact hb.2.2
    · rw [hc]
      simp only [Rest, setConnection, hopen.1, if_true, AtRest, hphase]
      refine ⟨hopen.2, Or.inl ⟨hnone, ?_, hover, ?_⟩⟩
      · grind
      · exact session_of_fresh (fun htls => ⟨hclear.2 htls, hclear.1⟩) _

/-- Nothing to do until the application publishes or the send completes. -/
theorem writing_rest {config : Config} {c : Connection} (hfd : c.fd.isSome = true)
    (h : c.AtRest config) : c.Rest config := by
  simp only [Rest, hfd, if_true]
  exact h

theorem write_ne_nil {encoder next : Response.Encoder} {first : UInt8} {rest bytes : Bytes}
    (hmode : encoder.mode ≠ .suppressed)
    (h : encoder.write (first :: rest) = .ok (next, bytes)) :
    bytes ≠ [] ∧ next.mode ≠ .suppressed := by
  unfold Response.Encoder.write at h
  split at h
  · split at h
    · cases h
    · cases h
      exact ⟨by simp, by simp⟩
  · rename_i hchunked
    rw [if_neg (by simp)] at h
    cases h
    exact ⟨by simp, hmode⟩
  · cases h
    exact ⟨by simp, hmode⟩
  · rename_i hs
    exact absurd hs hmode
  · cases h

/-- A response that has nothing pending goes on with the next fragment, or ends. -/
theorem afterFragment_kept {config : Config} {cell : Cell} {c : Connection}
    {encoder : Response.Encoder} {bytes : Bytes} (hopen : c.Http1) (hphase : c.phase = .writing)
    (hans : c.Answering config) (hnone : c.batch = none) (hinterim : c.interim = false)
    (hover : c.Overtaken) (hclear : c.Clear) (hquiet : bytes = [] → c.Quiet)
    (hmode : config.app.hasResponseStreams = true → c.streaming = true →
      encoder.mode ≠ .suppressed) (hb : Booked c) :
    Kept config (cell.setConnection (setFragment c encoder bytes), .call (afterFragment bytes)) := by
  have ⟨hs, hcompleted, hl, _, hbusy, hstreams, hstream, hcharged⟩ := hans
  have hsession : c.Session (· = .read) :=
    session_of_fresh (fun htls => ⟨hclear.2 htls, hclear.1⟩) _
  refine ⟨hb, ?_⟩
  by_cases hnil : bytes = []
  · rw [afterFragment, if_pos hnil]
    exact ⟨⟨hopen, hnone, hquiet hnil⟩, hphase, hs, hcompleted, hclear,
      fun htls hr => (hover htls hr).1, hcharged⟩
  · rw [afterFragment, if_neg hnil]
    refine ⟨hopen, hphase, ⟨hs, hcompleted, hl, ?_, hbusy, hstreams, ?_, hcharged⟩,
      Or.inl (List.length_pos_of_ne_nil hnil), ?_, ?_, fun _ => hclear.1, hsession⟩
    · intro (hi : c.interim = true)
      rw [hinterim] at hi
      cases hi
    · exact fun hst =>
        ⟨(hstream hst).1, fun happ => ⟨hmode happ hst, ((hstream hst).2 happ).2⟩⟩
    · intro batch (hbatch : c.batch = some batch)
      rw [hnone] at hbatch
      cases hbatch
    · intro (hf : ¬c.Fresh)
      have hwait : c.closeAfterResponse = true ∧ c.interim = false ∧ c.streaming = false := by
        cases htls : c.tls <;> grind
      exact ⟨hnone, hwait⟩

theorem pumpResponseStream_kept {config : Config} {choice : Choice} {index : Nat} {cell : Cell}
    (h : cell.connection.Pre config .pumpResponseStream) (hb : Booked cell.connection) :
    Kept config (cell.pumpResponseStream config choice index) := by
  obtain ⟨hopen, hphase, hrest, hstarted⟩ := h
  have hidle : Kept config (cell, .done) := ⟨hb, writing_rest hopen.1 hrest⟩
  have hclose : Kept config (cell.forceClose index, .done) := forceClose_kept config hb hopen.1
  have hmode : cell.connection.batch = none ∧ cell.connection.Answering config ∧
      cell.connection.Overtaken ∧ cell.connection.Session fun operation =>
        cell.connection.Serves config operation ∨ cell.connection.Superseded config operation := by
    simp only [AtRest, hphase] at hrest
    rcases hrest.2 with hmode | ⟨⟨batch, hbatch, hcan, -, -, hbehind⟩, -⟩
    · exact hmode
    · have hno := canBatch_no_streams hcan
      grind
  obtain ⟨hnone, hans, hover, hsession⟩ := hmode
  have hfacts := hans
  obtain ⟨hs, hcompleted, hl, hinterim, hbusy, hstreams, hstream, hcharged⟩ := hfacts
  obtain ⟨hstreaming, happ⟩ := hstreams hstarted
  obtain ⟨hbody, hmode⟩ := hstream hstreaming
  have hsuppressed := (hmode happ).1
  have hnotInterim : cell.connection.interim = false := by grind
  unfold pumpResponseStream
  dsimp only
  split
  · exact hidle
  · rename_i hwait
    have hsent : cell.connection.sendPending = false := by grind
    have hunsent : ¬cell.connection.Unsent := by grind
    have hclear : cell.connection.Clear := by
      refine ⟨hsent, fun htls => ?_⟩
      obtain ⟨operation, hop⟩ := Option.ne_none_iff_exists'.mp htls
      by_contra hr
      have hserve := (hsession operation hop).2 (by grind)
      cases operation <;> grind [Serves, Superseded]
    split
    · exact hidle
    · exact hclose
    · rename_i first rest hpub
      split
      · exact hclose
      · rename_i encoder encoded hwrite
        obtain ⟨hne, hnext⟩ := write_ne_nil hsuppressed hwrite
        split
        · exact hclose
        · exact afterFragment_kept (c := { cell.connection with
              responseBodyBytes := cell.connection.responseBodyBytes + (first :: rest).length
              responseStreamChunk := true })
            hopen hphase hans hnone hnotInterim hover hclear (fun hnil => absurd hnil hne)
            (fun _ _ => hnext) hb
    · split
      · exact hidle
      · rename_i hdone
        have hidleStream : cell.connection.responseStreamBusy = false := by simpa using hdone
        split
        · exact hclose
        · exact afterFragment_kept (c := { cell.connection with
              streaming := false
              responseStreamStarted := false })
            hopen hphase ⟨hs, hcompleted, hl, by grind, by grind, by rintro ⟨⟩, by rintro ⟨⟩, hcharged⟩ hnone
            hnotInterim
            (by grind) hclear (fun _ => ⟨rfl, hidleStream⟩) (fun _ => (by rintro ⟨⟩)) hb

theorem refill_kept {config : Config} {choice : Choice} {index : Nat} {cell : Cell}
    (hopen : cell.connection.Http1) (hphase : cell.connection.phase = .writing)
    (hans : cell.connection.Answering config) (hnone : cell.connection.batch = none)
    (hinterim : cell.connection.interim = false) (hover : cell.connection.Overtaken)
    (hclear : cell.connection.Clear) (happ : config.app.hasResponseStreams = false)
    (hstreaming : cell.connection.streaming = true) (hb : Booked cell.connection) :
    Kept config (cell.refill config choice index) := by
  unfold refill
  dsimp only
  split
  · exact forceClose_kept config hb hopen.1
  · rename_i fill hfill
    have ⟨hs, hcompleted, hl, hi, hbusy, hstreams, hstream, hcharged⟩ := hans
    have hquiet : cell.connection.Quiet := by grind
    exact afterFragment_kept (c := { cell.connection with
        streamFragment := fill.fragment
        streaming := fill.streaming
        responseBodyBytes := cell.connection.responseBodyBytes + fill.payload })
      hopen hphase ⟨hs, hcompleted, hl, by grind, hbusy, by grind, by grind, hcharged⟩ hnone hinterim
      (by grind) hclear (fun _ => hquiet) (fun happ' => by simp [happ] at happ') hb

theorem consumeChunk_kept {config : Config} {choice : Choice} {index : Nat} {cell : Cell}
    (hopen : cell.connection.Http1) (hphase : cell.connection.phase = .writing)
    (hans : cell.connection.Answering config) (hnone : cell.connection.batch = none)
    (hinterim : cell.connection.interim = false) (hover : cell.connection.Overtaken)
    (hclear : cell.connection.Clear) (happ : config.app.hasResponseStreams = true)
    (hstreaming : cell.connection.streaming = true) (hb : Booked cell.connection) :
    Kept config (cell.consumeChunk choice index) := by
  unfold consumeChunk
  split
  · exact forceClose_kept config hb hopen.1
  · split
    · rename_i hstarted
      exact startResponseStream_kept hopen hphase hnone hans hover hclear happ hstreaming hinterim
        (by simpa using hstarted) hb
    · rename_i hstarted
      have hon : cell.connection.responseStreamStarted = true := by simpa using hstarted
      refine ⟨hb, hopen, hphase, ?_, hon⟩
      simp only [AtRest, setConnection, hphase]
      exact ⟨hopen.2, Or.inl ⟨hnone, hans, hover,
        session_of_fresh (fun htls => ⟨hclear.2 htls, hclear.1⟩) _⟩⟩

theorem outputDone_kept {config : Config} {choice : Choice} {index : Nat} {cell : Cell}
    (hopen : cell.connection.Http1) (hphase : cell.connection.phase = .writing)
    (hans : cell.connection.Answering config) (hnone : cell.connection.batch = none)
    (hover : cell.connection.Overtaken) (hclear : cell.connection.Clear)
    (hb : Booked cell.connection) : Kept config (cell.outputDone config choice index) := by
  have ⟨hs, hcompleted, hl, hi, hbusy, hstreams, hstream, hcharged⟩ := hans
  unfold outputDone
  dsimp only
  split
  · rename_i hinterim
    have hf : cell.connection.Fresh := by
      cases htls : cell.connection.tls <;> grind
    refine ⟨hb, hopen, rfl, hi hinterim, hf, ?_⟩
    intro batch (hbatch : cell.connection.batch = some batch)
    rw [hnone] at hbatch
    cases hbatch
  · rename_i hinterim
    have hnotInterim : cell.connection.interim = false := by simpa using hinterim
    split
    · rename_i hstreaming
      split
      · rename_i happ
        exact consumeChunk_kept hopen hphase hans hnone hnotInterim hover hclear happ hstreaming hb
      · rename_i happ
        exact refill_kept hopen hphase hans hnone hnotInterim hover hclear (by simpa using happ)
          hstreaming hb
    · rename_i hstreaming
      have hquiet : cell.connection.Quiet := by grind
      exact ⟨hb, ⟨hopen, hnone, hquiet⟩, hphase, hs, hcompleted, hclear,
        fun htls hr => (hover htls hr).1, hcharged⟩

theorem sentOutput_kept {config : Config} {choice : Choice} {index count : Nat} {cell : Cell}
    (hopen : cell.connection.Http1) (hphase : cell.connection.phase = .writing)
    (hans : cell.connection.Answering config) (hnone : cell.connection.batch = none)
    (hover : cell.connection.Overtaken) (hclear : cell.connection.Clear)
    (hb : Booked cell.connection) :
    Kept config (cell.sentOutput config choice index count) := by
  unfold sentOutput
  dsimp only
  split
  · rename_i hunsent
    refine ⟨hb, hopen, hphase, hans, hunsent, ?_, ?_, fun _ => hclear.1,
      session_of_fresh (fun htls => ⟨hclear.2 htls, hclear.1⟩) _⟩
    · intro batch (hbatch : cell.connection.batch = some batch)
      rw [hnone] at hbatch
      cases hbatch
    · intro (hf : ¬cell.connection.Fresh)
      have hwait : cell.connection.closeAfterResponse = true ∧
          cell.connection.interim = false ∧ cell.connection.streaming = false := by
        cases htls : cell.connection.tls <;> grind
      exact ⟨hnone, hwait⟩
  · exact outputDone_kept hopen hphase hans hnone hover hclear hb

theorem sent_kept {config : Config} {choice : Choice} {index : Nat} {count : Option Nat}
    {cell : Cell} (h : cell.connection.Pre config (.sent count)) (hb : Booked cell.connection) :
    Kept config (cell.sent config choice index count) := by
  unfold sent
  split
  · exact forceClose_kept config hb h.1.1
  · rename_i count
    split
    · rename_i batch hbatch
      split
      · exact sentBatch_kept h hb hbatch
      · rename_i hnot
        -- A batch without `sending` is never offered to a send.
        obtain ⟨hopen, hphase, hclear, hmode⟩ := h
        grind
    · rename_i hnone
      obtain ⟨hopen, hphase, hclear, hmode⟩ := h
      rcases hmode with ⟨-, hans, hover⟩ | ⟨⟨batch, hbatch, -⟩, -⟩
      · exact sentOutput_kept hopen hphase hans hnone hover hclear hb
      · rw [hnone] at hbatch
        cases hbatch

/-- With its exchange a request gives back the buffer of its stream. -/
theorem releaseApplication_buffer {config : Config} {cell : Cell}
    (h : cell.connection.Charged config) :
    cell.releaseApplication.connection.responseStreamBuffer = 0 := by
  unfold releaseApplication
  split
  · rename_i hkept
    by_contra hne
    obtain ⟨-, hinit, hadmin⟩ := h hne
    simp [hinit, hadmin] at hkept
  · rfl

theorem finishResponse_kept {config : Config} {cell : Cell}
    (h : cell.connection.Pre config .finishResponse) (hb : Booked cell.connection) :
    Kept config (cell.finishResponse config) := by
  obtain ⟨⟨hopen, hnone, hquiet⟩, hphase, hs, hcompleted, hclear, hclose, hcharged⟩ := h
  let done : Cell :=
    { shared :=
        { cell.shared with requestsCompletedTotal := cell.shared.requestsCompletedTotal + 1 }
      connection :=
        { cell.connection with
          requestCompleted := true
          requests := cell.connection.requests + 1 } }
  obtain ⟨buffer, initialized, happ⟩ := releaseApplication_connection done
  have hbuffer : done.releaseApplication.connection.responseStreamBuffer = 0 :=
    releaseApplication_buffer hcharged
  unfold finishResponse
  dsimp only
  split
  · refine ⟨?_, ?_⟩
    · rw [happ]
      exact hb
    · rw [happ]
      exact ⟨⟨hopen, hnone, hquiet⟩, fun _ => hclear.1,
        session_of_fresh (fun htls => ⟨hclear.2 htls, hclear.1⟩) _⟩
  · rename_i hopenAfter
    rw [happ] at hopenAfter
    have hf : cell.connection.Fresh := by
      cases htls : cell.connection.tls <;> grind
    have hfields : ∀ P : Connection → Prop,
        P { cell.connection with
          requestCompleted := true
          requests := cell.connection.requests + 1
          responseStreamBuffer := buffer
          applicationInitialized := initialized
          permit := none } → P done.releaseApplication.releasePermit.connection := by
      intro P hP
      simp only [releasePermit, happ]
      exact hP
    refine ⟨prepareRequest_booked (hfields Booked hb) (hfields (·.responseStreamBusy = false)
      hquiet.2), prepareRequest_reads (hfields _ hopen) (hfields _ hf) rfl hbuffer (hfields _ ?_)⟩
    intro batch (hbatch : cell.connection.batch = some batch)
    rw [hnone] at hbatch
    cases hbatch

end Cell

end Zhtps.Worker
