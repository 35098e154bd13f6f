import Zhtps.Worker.Contract.Sending
import Zhtps.Worker.Ledger.Reading

/-!
The calls that answer a request, alone or in a batch, keep the ledger.
-/

namespace Zhtps.Worker

namespace Cell

open Connection

variable {config : Config} {others : Others} {index : Nat} {resting : Bool} {cell : Cell}

/-! ### Answering -/

theorem reject_balances {choice : Choice} {status : Nat}
    (h : cell.connection.Pre config (.reject status)) (hb : Booked cell.connection)
    (hl : cell.Settled config others index false) :
    Balances config others index (cell.reject choice index status) := by
  unfold reject
  split
  · rename_i hnone
    have hpermit : cell.connection.permit = none := Option.isNone_iff_eq_none.mp hnone.1
    obtain ⟨hactive, hrejecting⟩ :=
      acquireRejection_counts (cell.shared.admission.refill choice.now)
    have hnew := Settled.acquire hl hpermit hactive hrejecting
    generalize Admission.acquireRejection _ = outcome at hnew
    obtain ⟨admission, decision⟩ := outcome
    dsimp only at hnew ⊢
    split
    · split
      · exact hnew
      · exact forceClose_balances hnew hb h.1.1
    · exact hnew
  · exact hl

/-- A response stream's buffer is charged to the budget. -/
theorem allocateStream_settled {choice : Choice} {response : Response} {encoder : Response.Encoder}
    {next : Cell} (hl : cell.Settled config others index false) (hopen : cell.connection.Http1)
    (h : Unanswered { cell.connection with streaming := false })
    (hinit : isStreamed config response encoder = true →
      cell.connection.applicationInitialized = true)
    (hnext : allocateStream config choice response encoder cell = (next, true)) :
    next.Settled config others index false := by
  rcases allocateStream_takes hnext with rfl | ⟨hstreamed, hroom, rfl⟩
  · exact hl
  · have hexchange := hinit hstreamed
    obtain ⟨hquiet, -, -, hbuffer, hpublic, -⟩ := h
    obtain ⟨⟨haccounted, hsane, hloaned, hlisted, hhosted, ⟨hactive, hbudget, hpools, hsmall⟩,
      hbatch, hstreams, hcounts, -, -, hadmin⟩, hsounds, hhonors⟩ := hl
    have hnone : cell.connection.responseStreamBuffer = 0 := hbuffer
    refine ⟨⟨haccounted, hsane, hloaned, hlisted, hhosted, ⟨?_, ?_, hpools, hsmall⟩, hbatch,
      hstreams, hcounts, ?_, ?_, hadmin⟩, hsounds, Honors.of_quiet hhonors hquiet.2 hopen.2⟩
    · simp only [Shared.charge, Connection.charge, hnone] at hactive ⊢
      omega
    · simp only [Shared.charge]
      omega
    · have hnot : cell.connection.admin = false := by
        by_contra hadmin
        have hinitialized : cell.connection.applicationInitialized = false :=
          hpublic (by simpa using hadmin)
        rw [hinitialized] at hexchange
        cases hexchange
      simp [backed, hexchange, hnot]
    · intro (hnone : cell.connection.fd = none)
      have hfd := hopen.1
      rw [hnone] at hfd
      cases hfd

theorem sendResponse_balances {choice : Choice} {response : Response}
    {head : Bytes} {encoder : Response.Encoder} {close : Bool}
    (h : cell.connection.Answerable config close) (hb : Booked cell.connection)
    (hl : cell.Settled config others index false) :
    Balances config others index (cell.sendResponse config choice index response head encoder) := by
  -- What is set before a stream gets its buffer is not accounted for.
  have hbegun : Settled config others index false
      (cell.setConnection (beginOutput response encoder cell.connection)) :=
    hl.update (hl.1.not_idle_of_started h.2.2.1) h.1.2 h.2.1.1.1.2 rfl
  unfold sendResponse
  dsimp only
  split
  · exact forceClose_balances hbegun hb h.1.1
  · rename_i hproducer
    split
    · rename_i next hnext
      obtain ⟨rfl, -⟩ := allocateStream_fails hnext
      exact hbegun
    · rename_i next hnext
      have hinit : isStreamed config response encoder = true →
          cell.connection.applicationInitialized = true := by
        intro hstreamed
        by_contra hinit
        exact hproducer ⟨hstreamed, Or.inr (by simpa [setConnection, beginOutput] using hinit)⟩
      have hallocated := allocateStream_settled hbegun h.1 h.2.1.1 hinit hnext
      have hbuffer : (cell.setConnection
          (beginOutput response encoder cell.connection)).connection.responseStreamBuffer = 0 :=
        h.2.1.1.2.2.2.1
      obtain ⟨buffers, size, rfl, -⟩ := allocateStream_eq hbuffer hnext
      exact hallocated.update (hallocated.1.not_idle_of_started h.2.2.1) h.1.2 h.2.1.1.1.2 rfl

theorem retryBegin_balances {choice : Choice} {response : Response} {close : Bool}
    (h : cell.connection.Answerable config close) (hb : Booked cell.connection)
    (hl : cell.Settled config others index false) :
    Balances config others index (cell.retryBegin config choice index response) := by
  unfold retryBegin
  split
  · rename_i d hd
    exact lease_next hl ⟨h.1.2, h.2.1.1.1.2⟩ hd
  · rename_i d hd
    have hleased := lease_eq hd
    have hnew := lease_next hl ⟨h.1.2, h.2.1.1.1.2⟩ hd
    split
    · exact forceClose_balances hnew (hleased.booked hb) (hleased.answerable h).1.1
    · exact sendResponse_balances (hleased.answerable h) (hleased.booked hb) hnew

theorem leaseOutput_settled {choice : Choice} {response : Response} {next : Cell} {leased : Bool}
    (hl : cell.Settled config others index resting) (hc : Unlent cell.connection)
    (hnext : leaseOutput config choice response cell = (next, leased)) :
    next.Settled config others index resting := by
  unfold leaseOutput at hnext
  split at hnext
  · exact lease_next hl hc hnext
  · cases hnext
    exact hl

theorem startResponse_balances {choice : Choice} {response : Response}
    (h : cell.connection.Pre config (.startResponse response)) (hb : Booked cell.connection)
    (hl : cell.Settled config others index false) :
    Balances config others index (cell.startResponse config choice index response) := by
  obtain ⟨h, -⟩ := h
  unfold startResponse
  dsimp only
  split
  · exact forceClose_balances hl hb h.1.1
  · -- The date is not accounted for.
    have hdated : Settled config others index false
        { cell with shared := { cell.shared with date := choice.date } } := hl
    split
    · rename_i d hd
      exact leaseOutput_settled hdated ⟨h.1.2, h.2.1.1.1.2⟩ hd
    · rename_i d hd
      have hleased := leaseOutput_leased hd
      have hnew := leaseOutput_settled hdated ⟨h.1.2, h.2.1.1.1.2⟩ hd
      have hanswer : d.connection.Answerable config response.close := hleased.answerable h
      have hbooked : Booked d.connection := hleased.booked hb
      split
      · exact sendResponse_balances hanswer hbooked hnew
      · split
        · exact retryBegin_balances hanswer hbooked hnew
        · exact forceClose_balances hnew hbooked hanswer.1.1

/-! ### Sending -/

theorem check_of_true {condition : Bool} {fault : Fault} (h : condition = true) :
    cell.check condition fault = cell := by
  simp [check, h]

theorem queueSend_balances (h : cell.connection.Pre config .queueSend)
    (hl : cell.Settled config others index false) : Balances config others index (cell.queueSend config) := by
  have hphase : cell.connection.phase = .writing := h.2.1
  unfold queueSend
  split
  · exact hl.rest (by simp [hphase])
  · rename_i hclear
    have hsend : cell.connection.sendPending = false := by
      cases htls : cell.connection.tls <;> grind
    rw [check_of_true (by simp [hsend])]
    exact hl

theorem append_formed {batch : ResponseBatch} (h : batch.Formed) (bytes : Bytes)
    (status bodyBytes : Nat) (method : Bytes) (agent : Option Bytes) :
    (batch.append bytes status bodyBytes method agent).Formed := by
  refine ⟨?_, ?_⟩
  · have := h.1
    simp only [ResponseBatch.append, ResponseBatch.count, List.length_append,
      List.length_singleton] at this ⊢
    omega
  · intro entry hmem
    simp only [ResponseBatch.append, List.mem_append, List.mem_singleton] at hmem ⊢
    rcases hmem with hmem | rfl
    · have := h.2 entry hmem
      simp only [List.length_append]
      omega
    · exact Nat.le_refl _

/-- The buffers of a finished request go back, whatever else its connection keeps. -/
theorem prepareRequest_stocked (h : cell.Stocked config others) :
    (cell.prepareRequest config).Stocked config others := by
  have hreleased := releaseBuffers_stocked false h
  have hfields : ∀ c : Connection, (c.resetRequest config).largeBuffers = c.largeBuffers ∧
      (c.resetRequest config).responseStreamBuffer = c.responseStreamBuffer ∧
      (c.resetRequest config).smallBlock = c.smallBlock := by
    intro c
    unfold resetRequest renewLease
    dsimp only
    split
    · exact ⟨rfl, rfl, rfl⟩
    · split
      · exact ⟨rfl, rfl, rfl⟩
      · exact ⟨rfl, rfl, rfl⟩
  obtain ⟨hlarge, hbuffer, hsmall⟩ := hfields (cell.releaseBuffers false).connection
  simpa only [prepareRequest, setConnection, Stocked, charge, blocks, hlarge, hbuffer, hsmall]
    using hreleased

/-- The permit and the request move into the batch. -/
theorem appendBatch_settled {batch : ResponseBatch}
    (hl : cell.Settled config others index false) (hopen : cell.connection.Http1)
    (hs : cell.connection.requestStarted = true) (hc : cell.connection.requestCompleted = false)
    (hpermit : cell.connection.permit = some .admitted)
    (hbusy : cell.connection.responseStreamBusy = false)
    (hbuffer : cell.connection.responseStreamBuffer = 0) (hformed : batch.Formed)
    (hbatch : cell.connection.batched = batch.count - batch.completed) :
    (cell.appendBatch config batch).Settled config others index false := by
  have hidle := hl.1.not_idle_of_started hs
  obtain ⟨⟨⟨hactive, hrejecting, htotal⟩, hsane, ⟨htasks, hperm, htagged, htickets⟩,
    ⟨hact, hloc, hpub, hadm, hwaits⟩, hhosted, hstocked, -, hstreams, hcounts, -, hvacant,
    hadmin⟩, hsounds, hhonors⟩ := hl
  have hcount : (batch.append cell.connection.output cell.connection.responseStatus
      cell.connection.responseBodyBytes
      (if config.accessLog then cell.connection.parser.request.method else [])
      (userAgent config cell.connection)).count = batch.count + 1 := by
    simp [ResponseBatch.append, ResponseBatch.count]
  have hle := hformed.1
  have hprepared : (prepareRequest config (cell.setConnection
      { cell.connection with
        batch := some (batch.append cell.connection.output cell.connection.responseStatus
          cell.connection.responseBodyBytes
          (if config.accessLog then cell.connection.parser.request.method else [])
          (userAgent config cell.connection))
        permit := none
        requests := cell.connection.requests + 1 })).Stocked config others :=
    prepareRequest_stocked hstocked
  obtain ⟨buffers, large, lease, parser, heq⟩ := prepareRequest_eq config
    (cell.setConnection
      { cell.connection with
        batch := some (batch.append cell.connection.output cell.connection.responseStatus
          cell.connection.responseBodyBytes
          (if config.accessLog then cell.connection.parser.request.method else [])
          (userAgent config cell.connection))
        permit := none
        requests := cell.connection.requests + 1 })
  simp only [admits, live, requesting, hs, hc, hpermit, hbatch, holds, if_true, hopen.1,
    Bool.and_true, Bool.not_false, Bool.toNat_true] at hactive htotal
  simp only [rejects, hpermit, holds, Option.some.injEq, reduceCtorEq, if_false] at hrejecting
  simp only [loans, hbusy, Bool.false_eq_true, false_and, if_false] at hperm
  rw [heq] at hprepared
  unfold appendBatch
  dsimp only
  rw [heq]
  refine ⟨⟨⟨?_, ?_, ?_⟩, hsane, ⟨htasks, ?_, htagged, htickets⟩,
    ⟨hact, hloc, hpub, hadm, hwaits.of_not_queued hidle⟩, hhosted, hprepared, ?_, hstreams, hcounts,
    ?_, hvacant, ?_⟩, hsounds, Honors.of_quiet hhonors hbusy hopen.2⟩
  · simp only [setConnection, admits, batched, hcount, holds, reduceCtorEq, if_false]
    show _ = 0 + (batch.count + 1 - batch.completed) +
      streamHolds cell.connection.streams .admitted + others.admits
    omega
  · simp only [setConnection, rejects, holds, reduceCtorEq, if_false]
    exact hrejecting
  · simp only [setConnection, live, requesting, batched, hcount, Bool.and_false, Bool.false_and,
      Bool.toNat_false]
    show _ = _ + (0 + (batch.count + 1 - batch.completed) +
      cell.connection.streams.length) + others.live
    omega
  · simp only [setConnection, loans, Bool.false_eq_true, false_and, if_false]
    exact hperm
  · intro b hb
    cases hb
    exact append_formed hformed _ _ _ _ _
  · simp [setConnection, backed, hbuffer]
  · exact fun hkind => ⟨(hadmin hkind).1, rfl⟩

theorem aggregate_balances (h : cell.connection.Pre config .aggregate)
    (hl : cell.Settled config others index false) : Balances config others index (cell.aggregate config) := by
  obtain ⟨hsends, hclear, hcan⟩ := h
  have hfacts := hsends
  obtain ⟨hopen, hphase, hans, hunsent, hbatched, hfresh, _⟩ := hfacts
  have hbusy : cell.connection.responseStreamBusy = false := by
    have hstreams := canBatch_no_streams hcan
    grind
  have hbuffer : cell.connection.responseStreamBuffer = 0 := by
    have hstreams := canBatch_no_streams hcan
    grind
  unfold aggregate
  dsimp only
  split
  · exact hl
  · split
    · exact hl
    · split
      · exact hl
      · rename_i hun
        have hpermit : cell.connection.permit = some .admitted := by
          by_contra hne
          simp [unbatchable, hne] at hun
        split
        · rename_i batch hbatch
          exact appendBatch_settled hl hopen hans.1 hans.2.1 hpermit hbusy hbuffer
            (hl.1.formed.1 batch hbatch) (by simp [batched, hbatch])
        · rename_i hnone
          split
          · exact hl
          · refine appendBatch_settled ?_ ?_ ?_ ?_ ?_ ?_ ?_ ⟨Nat.le_refl _, by rintro _ ⟨⟩⟩ ?_
            · exact hl
            · exact hopen
            · exact hans.1
            · exact hans.2.1
            · exact hpermit
            · exact hbusy
            · exact hbuffer
            · simp [batched, hnone, ResponseBatch.count]

theorem transmit_balances (h : cell.connection.Pre config .transmit)
    (hl : cell.Settled config others index false) : Balances config others index cell.transmit := by
  have hidle := hl.1.not_idle_of_started h.1.2.2.1.1
  have hphase : cell.connection.phase = .writing := h.1.2.1
  unfold transmit
  dsimp only
  split
  · exact hl.alter hidle rfl hl.2.2
  · exact (hl.alter hidle rfl hl.2.2).rest (by simp [setConnection, hphase])

/-- The same responses in another state of sending. -/
theorem Settled.rebatch {batch : ResponseBatch} (hl : cell.Settled config others index false)
    (next : ResponseBatch)
    (hbatch : cell.connection.batch = some batch) (hnext : next.Formed)
    (hcount : next.count - next.completed = batch.count - batch.completed) {c : Connection}
    (hc : account c = account { cell.connection with batch := some next })
    (hview : c.view = cell.connection.view) :
    Settled config others index false (cell.setConnection c) := by
  have hidle : cell.shared.idle.queued index = false :=
    hl.1.not_idle fun hidle => by simp [hidle.2.2.2] at hbatch
  have hbatched : batched { cell.connection with batch := some next } = cell.connection.batched := by
    simp only [batched, hbatch]
    exact hcount
  have hmid : Settled config others index false
      (cell.setConnection { cell.connection with batch := some next }) := by
    obtain ⟨⟨⟨hactive, hrejecting, htotal⟩, hsane, hloaned, ⟨hact, hloc, hpub, hadm, hwaits⟩,
      hhosted, hstocked, -, hformed⟩, hsettled⟩ := hl
    refine ⟨⟨⟨?_, hrejecting, ?_⟩, hsane, hloaned,
      ⟨hact, hloc, hpub, hadm, hwaits.of_not_queued hidle⟩, hhosted, hstocked, ?_, hformed⟩, hsettled⟩
    · simp only [admits, setConnection, hbatched, streams] at hactive ⊢
      exact hactive
    · simp only [live, requesting, setConnection, hbatched, streams] at htotal ⊢
      exact htotal
    · intro b hb
      cases hb
      exact hnext
  refine hmid.alter hidle hc ⟨fun before hbefore => ?_, fun before hmem => ?_⟩
  · obtain ⟨hbusy, hsame⟩ := hl.2.2.1 before hbefore
    simp only [account, Prod.mk.injEq] at hc
    exact ⟨hc.1.2.2.2.trans hbusy, hview.trans hsame⟩
  · obtain ⟨stream, hin, hrest⟩ := hl.2.2.2 before hmem
    refine ⟨stream, ?_, hrest⟩
    simp only [account, Prod.mk.injEq] at hc
    simpa only [streams, hc.1.2.2.1] using hin

theorem queueBatch_balances (h : cell.connection.Pre config .queueBatch)
    (hl : cell.Settled config others index false) : Balances config others index cell.queueBatch := by
  obtain ⟨hopen, hf, hcases⟩ := h
  unfold queueBatch
  split
  · grind
  · rename_i batch hbatch
    dsimp only
    rw [check_of_true (by simp [hf.2])]
    have hformed := hl.1.formed.1 batch hbatch
    have hidle : cell.shared.idle.queued index = false :=
      hl.1.not_idle fun hidle => by simp [hidle.2.2.2] at hbatch
    split
    · rename_i hsending
      have hphase : cell.connection.phase = .writing := by grind
      split
      · exact hl.alter hidle rfl hl.2.2
      · exact (hl.alter hidle rfl hl.2.2).rest (by simp [setConnection, hphase])
    · have hstart := fun c hc hview => hl.rebatch (c := c)
        { batch with
          sending := true
          resumeResponse := decide (cell.connection.phase = .writing) } hbatch hformed rfl hc hview
      split
      · exact hstart _ rfl rfl
      · exact Settled.rest (hstart _ rfl rfl) nofun

/-- The connection behind a batch has lent nothing. -/
theorem Flushing.not_busy {config : Config} {c : Connection} (h : c.Flushing config) :
    c.responseStreamBusy = false := by
  obtain ⟨batch, -, hcan, -, -, hbehind⟩ := h
  have hstreams := canBatch_no_streams hcan
  grind

theorem sentBatch_balances {batch : ResponseBatch} {count : Nat}
    (h : cell.connection.Pre config (.sent (some count))) (hl : cell.Settled config others index false)
    (hbatch : cell.connection.batch = some batch) :
    Balances config others index (cell.sentBatch batch count) := by
  obtain ⟨hopen, hphase, hclear, hmode⟩ := h
  have hflush : cell.connection.Flushing config := by
    rcases hmode with ⟨hnone, -⟩ | ⟨hflush, -⟩
    · rw [hbatch] at hnone
      cases hnone
    · exact hflush
  have hbusy := Flushing.not_busy hflush
  have hidle := hl.1.not_idle_of_phase (by simp [hphase])
  have hformed := hl.1.formed.1 batch hbatch
  have hlen : (batch.responses.drop batch.completed).length = batch.count - batch.completed := by
    simp [ResponseBatch.count]
  obtain ⟨⟨⟨hactive, hrejecting, htotal⟩, hsane, hloaned, hlisted, hhosted, hstocked, -, hrest⟩,
    hsounds, hhonors⟩ := hl
  have hbatched : cell.connection.batched = batch.count - batch.completed := by
    simp [batched, hbatch]
  rw [admits, hbatched] at hactive
  rw [live, hbatched] at htotal
  obtain ⟨done, hdone, heq, hall⟩ := completeEntries_eq (batch.sent + count)
    (batch.responses.drop batch.completed) cell.shared batch.completed (by omega)
  have hle : batch.completed + done ≤ batch.count := by
    have := hformed.1
    omega
  -- The responses that are completed leave the batch, whatever becomes of the others.
  have hsettle : ∀ b : Option ResponseBatch,
      batched { cell.connection with batch := b } + done = batch.count - batch.completed →
      (∀ next, b = some next → next.Formed) → ∀ free,
      Settled config others index false
        { shared :=
            { cell.shared.without done 0 with
              requestsCompletedTotal := cell.shared.requestsCompletedTotal + done
              freeBatches := free }
          connection := { cell.connection with batch := b } } := by
    intro b hsum hnew free
    obtain ⟨hact, hloc, hpub, hadm, hwaits⟩ := hlisted
    refine ⟨⟨⟨?_, hrejecting, ?_⟩, hsane, hloaned,
      ⟨hact, hloc, hpub, hadm, hwaits.of_not_queued hidle⟩, hhosted, hstocked, hnew, hrest⟩, hsounds,
      hhonors⟩
    · show cell.shared.admission.active - done = holds cell.connection.permit .admitted +
        batched { cell.connection with batch := b } +
        streamHolds cell.connection.streams .admitted + others.admits
      omega
    · show cell.shared.requestsTotal = cell.shared.requestsCompletedTotal + done +
        cell.shared.requestsAbortedTotal + (cell.connection.requesting.toNat +
        batched { cell.connection with batch := b } + cell.connection.streams.length) + others.live
      omega
  unfold sentBatch
  dsimp only
  rw [heq]
  dsimp only
  split
  · refine hsettle _ ?_ ?_ _
    · simp only [batched, ResponseBatch.count] at hle ⊢
      omega
    · intro next hnext
      cases hnext
      exact ⟨hle, hformed.2⟩
  · rename_i hsent
    have hevery : done = batch.count - batch.completed := by
      rw [← hlen]
      refine hall fun entry hmem => ?_
      have := hformed.2 entry (List.mem_of_mem_drop hmem)
      omega
    have hempty := hsettle none (by simp [batched, hevery]) (by rintro _ ⟨⟩) (cell.shared.freeBatches + 1)
    unfold afterBatch releaseBatch
    dsimp only
    split
    · exact hempty.update hidle hopen.2 hbusy rfl
    · split
      · exact hempty
      · exact hempty.update hidle hopen.2 hbusy rfl

/-! ### Response streams -/

theorem startResponseStream_balances {choice : Choice} (hopen : cell.connection.Http1)
    (hphase : cell.connection.phase = .writing) (hpublic : cell.connection.admin = false)
    (hbusy : cell.connection.responseStreamBusy = false) (hb : Booked cell.connection)
    (hl : cell.Settled config others index false) :
    Balances config others index (cell.startResponseStream choice index) := by
  unfold startResponseStream
  split
  · exact forceClose_balances hl hb hopen.1
  · rename_i next hnext
    obtain ⟨task, rfl, hindex, hticket, hgen, hocc, hloan⟩ := submit_eq hnext
    rw [if_pos rfl] at hloan
    obtain ⟨⟨haccounted, hsane, hloaned, hlisted, hhosted, hstocked, hbatch, hstreams, hcounts,
      hbacked, hvacant, -⟩, hsounds, hhonors⟩ := hl
    refine ⟨⟨haccounted, hsane, ?_, hlisted, hhosted, hstocked, hbatch, hstreams, hcounts, hbacked,
      hvacant, ?_⟩, hsounds, Honors.of_quiet hhonors hbusy hopen.2⟩
    · refine hloaned.submit rfl hindex hticket hgen hocc ⟨rfl, rfl⟩ ?_
      simp only [loans, hloan, hphase, hbusy, streams, hopen.2]
      simp
    · intro (hadmin : cell.connection.admin = true)
      rw [hpublic] at hadmin
      cases hadmin

theorem pumpResponseStream_balances {choice : Choice}
    (h : cell.connection.Pre config .pumpResponseStream) (hb : Booked cell.connection)
    (hl : cell.Settled config others index false) :
    Balances config others index (cell.pumpResponseStream config choice index) := by
  obtain ⟨hopen, hphase, hrest, hstarted⟩ := h
  have hdone : Balances config others index (cell, .done) := hl.rest (by simp [hphase])
  have hclose := forceClose_balances hl hb hopen.1
  have hidle := hl.1.not_idle_of_phase (by simp [hphase])
  unfold pumpResponseStream
  dsimp only
  split
  · exact hdone
  · split
    · exact hdone
    · exact hclose
    · split
      · exact hclose
      · split
        · exact hclose
        · exact hl.alter hidle rfl hl.2.2
    · split
      · exact hdone
      · split
        · exact hclose
        · exact hl.alter hidle rfl hl.2.2

theorem outputDone_balances {choice : Choice} (hopen : cell.connection.Http1)
    (hphase : cell.connection.phase = .writing) (hans : cell.connection.Answering config)
    (hb : Booked cell.connection) (hl : cell.Settled config others index false) :
    Balances config others index (cell.outputDone config choice index) := by
  have hidle := hl.1.not_idle_of_phase (by simp [hphase])
  unfold outputDone
  dsimp only
  split
  · exact hl.alter hidle rfl hl.2.2
  · split
    · split
      · unfold consumeChunk
        split
        · exact forceClose_balances hl hb hopen.1
        · split
          · rename_i hstarted
            have hpublic : cell.connection.admin = false := by grind
            have hbusy : cell.connection.responseStreamBusy = false := by grind
            exact startResponseStream_balances hopen hphase hpublic hbusy hb hl
          · exact hl.alter hidle rfl hl.2.2
      · unfold Cell.refill
        dsimp only
        split
        · exact forceClose_balances hl hb hopen.1
        · exact hl.alter hidle rfl hl.2.2
    · exact hl

theorem sentOutput_balances {choice : Choice} {count : Nat}
    (hopen : cell.connection.Http1) (hphase : cell.connection.phase = .writing)
    (hans : cell.connection.Answering config) (hb : Booked cell.connection)
    (hl : cell.Settled config others index false) :
    Balances config others index (cell.sentOutput config choice index count) := by
  have hidle := hl.1.not_idle_of_phase (by simp [hphase])
  unfold sentOutput
  dsimp only
  split
  · exact hl.alter hidle rfl hl.2.2
  · refine outputDone_balances ?_ ?_ ?_ ?_ (hl.alter hidle rfl hl.2.2)
    · exact hopen
    · exact hphase
    · exact hans
    · exact hb

theorem sent_balances {choice : Choice} {count : Option Nat}
    (h : cell.connection.Pre config (.sent count)) (hb : Booked cell.connection)
    (hl : cell.Settled config others index false) :
    Balances config others index (cell.sent config choice index count) := by
  unfold sent
  split
  · exact forceClose_balances hl hb h.1.1
  · rename_i count
    split
    · rename_i batch hbatch
      split
      · exact sentBatch_balances h hl hbatch
      · rename_i hnot
        obtain ⟨hopen, hphase, hclear, hmode⟩ := h
        grind
    · rename_i hnone
      obtain ⟨hopen, hphase, hclear, hmode⟩ := h
      rcases hmode with ⟨-, hans, hover⟩ | ⟨⟨batch, hbatch, -⟩, -⟩
      · exact sentOutput_balances hopen hphase hans hb hl
      · rw [hnone] at hbatch
        cases hbatch

/-- A completed request leaves the account of live ones. -/
theorem complete_settled (hl : cell.Settled config others index false) (hopen : cell.connection.Http1)
    (hs : cell.connection.requestStarted = true) (hc : cell.connection.requestCompleted = false)
    (hquiet : cell.connection.Quiet) :
    Settled config others index false
      { shared :=
          { cell.shared with requestsCompletedTotal := cell.shared.requestsCompletedTotal + 1 }
        connection :=
          { cell.connection with
            requestCompleted := true
            requests := cell.connection.requests + 1 } } := by
  obtain ⟨⟨⟨hactive, hrejecting, htotal⟩, hrest⟩, hsounds, hhonors⟩ := hl
  refine ⟨⟨⟨hactive, hrejecting, ?_⟩, hrest⟩, hsounds, Honors.of_quiet hhonors hquiet.2 hopen.2⟩
  simp only [live, requesting, hs, hc, hopen.1, Bool.and_true, Bool.not_false, Bool.toNat_true]
    at htotal
  show cell.shared.requestsTotal = cell.shared.requestsCompletedTotal + 1 +
    cell.shared.requestsAbortedTotal + ((cell.connection.fd.isSome &&
      cell.connection.requestStarted && !true).toNat + cell.connection.batched +
      cell.connection.streams.length) + others.live
  simp only [Bool.not_true, Bool.and_false, Bool.toNat_false]
  omega

theorem releasePermit_settled (hl : cell.Settled config others index resting) :
    cell.releasePermit.Settled config others index resting := by
  obtain ⟨⟨⟨hactive, hrejecting, htotal⟩, hrest⟩, hsettled⟩ := hl
  simp only [admits] at hactive
  simp only [rejects] at hrejecting
  unfold releasePermit
  rw [Shared.releaseAll_eq _ _ (by omega) (by omega)]
  refine ⟨⟨⟨?_, ?_, htotal⟩, hrest⟩, hsettled⟩
  · show cell.shared.admission.active - holds cell.connection.permit .admitted =
      0 + cell.connection.batched + streamHolds cell.connection.streams .admitted + others.admits
    omega
  · show cell.shared.admission.rejecting - holds cell.connection.permit .reject =
      0 + streamHolds cell.connection.streams .reject + others.rejects
    omega

/-- A completed request makes room for the next one. -/
theorem prepareRequest_settled (hl : cell.Settled config others index false)
    (hopen : cell.connection.Http1) (hs : cell.connection.requestStarted = true)
    (hc : cell.connection.requestCompleted = true) (hquiet : cell.connection.Quiet)
    (hbuffer : cell.connection.responseStreamBuffer = 0) :
    Settled config others index false
      ((cell.prepareRequest config).setConnection
        { (cell.prepareRequest config).connection with phase := .reading }) := by
  have hidle := hl.1.not_idle_of_started hs
  have hprepared := prepareRequest_stocked hl.1.stocked
  obtain ⟨⟨⟨hactive, hrejecting, htotal⟩, hsane, ⟨htasks, hperm, htagged, htickets⟩,
    ⟨hact, hloc, hpub, hadm, hwaits⟩, hhosted, -, hbatch, hstreams, hcounts, -, hvacant, hadmin⟩,
    hsounds, hhonors⟩ := hl
  obtain ⟨buffers, large, lease, parser, heq⟩ := prepareRequest_eq config cell
  rw [heq] at hprepared ⊢
  refine ⟨⟨⟨hactive, hrejecting, ?_⟩, hsane, ⟨htasks, ?_, htagged, htickets⟩,
    ⟨hact, hloc, hpub, hadm, hwaits.of_not_queued hidle⟩, hhosted, hprepared, hbatch, hstreams,
    hcounts, ?_, hvacant, fun hkind => ⟨(hadmin hkind).1, rfl⟩⟩, hsounds,
    Honors.of_quiet hhonors hquiet.2 hopen.2⟩
  · simp only [live, requesting, hs, hc, Bool.not_true, Bool.and_false, Bool.toNat_false] at htotal
    simp only [setConnection, live, requesting, Bool.and_false, Bool.false_and, Bool.toNat_false]
    exact htotal
  · simp only [loans, hquiet.2, Bool.false_eq_true, false_and, if_false] at hperm
    simp only [setConnection, loans, Bool.false_eq_true, false_and, if_false]
    exact hperm
  · simp [setConnection, backed, hbuffer]

/-- The exchange of a completed request is given back. -/
theorem releaseApplication_settled (hl : cell.Settled config others index resting)
    (hopen : cell.connection.Http1) (hbusy : cell.connection.responseStreamBusy = false) :
    cell.releaseApplication.Settled config others index resting := by
  obtain ⟨buffer, initialized, happ⟩ := releaseApplication_connection cell
  refine ⟨releaseApplication_ledger hl.1 hbusy, ?_, ?_⟩
  · rw [happ]
    exact hl.2.1
  · exact Honors.of_quiet hl.2.2 hbusy hopen.2

theorem finishResponse_balances
    (h : cell.connection.Pre config .finishResponse) (hl : cell.Settled config others index false) :
    Balances config others index (cell.finishResponse config) := by
  obtain ⟨⟨hopen, hnone, hquiet⟩, hphase, hs, hcompleted, hclear, hclose, -⟩ := h
  have hdone := complete_settled hl hopen hs hcompleted hquiet
  have hbacked := hl.1.formed.2.2.2.1
  unfold finishResponse
  dsimp only
  generalize hcell : ({
      shared :=
        { cell.shared with requestsCompletedTotal := cell.shared.requestsCompletedTotal + 1 }
      connection :=
        { cell.connection with
          requestCompleted := true
          requests := cell.connection.requests + 1 } } : Cell) = completed at hdone
  have hc : completed.connection = { cell.connection with
      requestCompleted := true
      requests := cell.connection.requests + 1 } := by rw [← hcell]
  have hreleased : completed.releaseApplication.Settled config others index false :=
    releaseApplication_settled hdone (by rw [hc]; exact hopen) (by rw [hc]; exact hquiet.2)
  have hbuffer : completed.releaseApplication.connection.responseStreamBuffer = 0 :=
    releaseApplication_unbacked (by rw [hc]; exact hbacked)
  obtain ⟨buffer, initialized, happ⟩ := releaseApplication_connection completed
  split
  · exact hreleased
  · have hpermit := releasePermit_settled hreleased
    refine prepareRequest_settled hpermit ?_ ?_ ?_ ?_ hbuffer <;>
      simp only [releasePermit] <;> rw [happ, hc]
    · exact hopen
    · exact hs
    · exact hquiet

end Cell

end Zhtps.Worker
