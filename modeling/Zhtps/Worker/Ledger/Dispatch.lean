import Zhtps.Worker.Ledger.Receiving
import Zhtps.Worker.Ledger.Session

/-!
Every call keeps the contract and the ledger: the calls of HTTP/1 and TLS by their own theorems, and
`pumpHttp2` because its callbacks and its drive do.
-/

namespace Zhtps.Worker

namespace Cell

open Connection

variable {config : Config} {others : Others} {index : Nat} {cell : Cell} {session : Session}

/-- What a callback or a drive does to the connection. -/
def Steers (before after : Cell) : Prop :=
  ∃ pending next, before.connection.pending ≤ pending ∧ after.connection =
    { before.connection with pending := pending, http2 := some next }

theorem Steers.setStreams {after : Cell} (hsession : cell.connection.http2 = some session)
    (h : Walks cell after) (streams : List Stream) : Steers cell (after.setStreams streams) := by
  obtain ⟨pending, count, hle, hc⟩ := h
  refine ⟨pending, { session with count := count, streams := streams }, hle, ?_⟩
  simp only [Cell.setStreams, setConnection, hc, hsession, Option.map_some]

theorem Steers.trans {a b c : Cell} (h : Steers a b) (h' : Steers b c) : Steers a c := by
  obtain ⟨_, _, hle, hb⟩ := h
  obtain ⟨pending, next, hle', hc⟩ := h'
  refine ⟨pending, next, ?_, by rw [hc, hb]⟩
  rw [hb] at hle'
  exact Nat.le_trans hle hle'

theorem Sounds.setStreams {streams : List Stream} (hsession : cell.connection.http2 = some session)
    (h : ∀ stream ∈ streams, stream.Sound ∧ stream.Flowing) : (cell.setStreams streams).connection.Sounds := by
  rw [setStreams_eq hsession]
  exact h

/-- Draining is not accounted for. -/
theorem drainSession_carried (hsession : cell.connection.http2 = some session)
    (h : Carried config others index cell) :
    Carried config others index cell.drainSession ∧ Steers cell cell.drainSession ∧
      cell.drainSession.connection.streams = cell.connection.streams := by
  have heq : cell.drainSession = cell.setConnection
      { cell.connection with http2 := some { session with draining := true } } := by
    rw [drainSession, hsession, Option.map_some]
  have hl := h.2.1.lent
  simp only [Connection.streams, hsession] at hl ⊢
  rw [heq]
  refine ⟨h.restream hsession _ (List.Perm.refl _) rfl hl fun stream hmem hbusy =>
    ⟨stream, hmem, hbusy, rfl⟩, ⟨_, _, Nat.le_refl _, rfl⟩, rfl⟩

/-- One callback or drive of the session. -/
theorem http2Step_carried (step : Http2Step) (hsession : cell.connection.http2 = some session)
    (h : Carried config others index cell) (hsound : cell.connection.Sounds) :
    Steers cell (cell.http2Step config index session step).1 ∧
      Carried config others index (cell.http2Step config index session step).1 ∧
      ((cell.http2Step config index session step).2 = true →
        (cell.http2Step config index session step).1.connection.Sounds) := by
  have hcarries := Carries.of_carried hsession h
  have hsounds : ∀ stream ∈ session.streams, stream.Sound ∧ stream.Flowing := by
    rw [Sounds, Connection.streams, hsession] at hsound
    exact hsound
  have hstay : Steers cell cell := ⟨_, session, Nat.le_refl _, by rw [← hsession]⟩
  have hmodify : ∀ (f : Stream → Stream) (id : Nat), (∀ stream : Stream, stream.Records (f stream)) →
      Steers cell (cell.setStreams (Session.modify f id session.streams)) ∧
        Carried config others index (cell.setStreams (Session.modify f id session.streams)) ∧
        (true = true →
          (cell.setStreams (Session.modify f id session.streams)).connection.Sounds) := by
    intro f id hf
    obtain ⟨hmodified, hkept⟩ := modify_carries f id hsession hcarries hsounds hf
    exact ⟨Steers.setStreams hsession (Walks.refl hsession) _, hmodified,
      fun _ => Sounds.setStreams hsession hkept⟩
  unfold http2Step
  cases step with
  | begin id address granted =>
      obtain ⟨⟨next, hframe⟩, hbegun, hkept⟩ :=
        beginStream_carried id address granted hsession h hsound
      exact ⟨⟨_, next, Nat.le_refl _, hframe⟩, hbegun, fun _ => hkept⟩
  | beginTrailers id => exact hmodify _ id Stream.records_trailers
  | header id field => exact hmodify _ id (Stream.records_header field)
  | headComplete id trailers ended => exact hmodify _ id (Stream.records_headComplete trailers)
  | ended id => exact hmodify _ id Stream.records_ended
  | closed id code => exact hmodify _ id (Stream.records_close code)
  | body id bytes choice =>
      obtain ⟨hwalk, hreceived, hkept⟩ := onStream_carries (fun stream => stream.id == id)
        (StreamCell.receiveBody config choice index bytes) hsession hcarries hsounds
        fun s hs hl => ⟨StreamCell.receiveBody_steps choice bytes hs hl, fun hm hf =>
          StreamCell.receiveBody_flows choice bytes hm hf hl hs.2⟩
      obtain ⟨count, hnext⟩ := hwalk.http2 hsession
      exact ⟨Steers.setStreams hsession hwalk _, hreceived,
        fun hok => Sounds.setStreams hnext (hkept (by simpa using hok))⟩
  | drive choices =>
      obtain ⟨hwalk, hdriven, hkept⟩ := driveStreams_carries session.streams choices [] hsession
        hcarries hsounds
      generalize hdrive : driveStreams config index choices session.streams cell = outcome at *
      obtain ⟨driven, streams, result⟩ := outcome
      dsimp only at hwalk hdriven hkept ⊢
      rw [hdrive]
      obtain ⟨count, hnext⟩ := hwalk.http2 hsession
      have hsteers := Steers.setStreams hsession hwalk streams
      have hok : result = .ok → (driven.setStreams streams).connection.Sounds :=
        fun hresult => Sounds.setStreams hnext (hkept hresult)
      dsimp only
      split
      · have hset : (driven.setStreams streams).connection.http2 =
            some { session with count := count, streams := streams } := by
          rw [setStreams_eq hnext]
        obtain ⟨hdrained, hframe, hsame⟩ := drainSession_carried hset hdriven
        refine ⟨?_, hdrained, fun hresult => ?_⟩
        · exact hsteers.trans hframe
        · rw [Sounds, hsame]
          exact hok (by simpa using hresult)
      · exact ⟨hsteers, hdriven, fun hresult => hok (by simpa using hresult)⟩
  | shutdown =>
      obtain ⟨hdrained, hframe, hsame⟩ := drainSession_carried hsession h
      refine ⟨hframe, hdrained, fun _ => ?_⟩
      rw [Sounds, hsame]
      exact hsound
  | stop => exact ⟨hstay, h, fun _ => hsound⟩
  | failed => exact ⟨hstay, h, fun _ => hsound⟩
  | finish send receive => exact ⟨hstay, h, fun _ => hsound⟩

/-- Aborted streams stay lent, and close. -/
theorem abort_carried (hsession : cell.connection.http2 = some session)
    (h : Carried config others index cell) :
    Carried config others index (cell.setConnection
        { cell.connection with http2 := some { session.abort with closing := true } }) ∧
      Connection.Sounds
        { cell.connection with http2 := some { session.abort with closing := true } } := by
  have hl := h.2.1.lent
  rw [Connection.streams, hsession] at hl
  refine ⟨h.restream hsession _ ?_ rfl ?_ ?_, ?_⟩
  · simp only [Session.abort, List.map_map, Function.comp_def]
    exact List.Perm.refl _
  · intro stream hmem
    obtain ⟨old, hold, rfl⟩ := List.mem_map.mp hmem
    exact hl old hold
  · exact fun stream hmem hbusy => ⟨_, List.mem_map_of_mem hmem, hbusy, rfl⟩
  · intro stream hmem
    obtain ⟨old, -, rfl⟩ := List.mem_map.mp hmem
    exact ⟨StreamCell.sound_of_closed rfl, Stream.flowing_of_closed rfl⟩

/-- Only operations are given to the kernel. -/
theorem submitHttp2Io_eq (send receive : Bool) (c : Connection) :
    ∃ kernel pending receiving sending, c.pending ≤ pending ∧ submitHttp2Io send receive c =
      { c with
        kernel := kernel
        pending := pending
        receivePending := receiving
        sendPending := sending } := by
  unfold submitHttp2Io
  dsimp only
  split
  · split
    · exact ⟨_, _, _, _, Nat.le_trans (Nat.le_succ _) (Nat.le_succ _), rfl⟩
    · exact ⟨_, _, _, _, Nat.le_succ _, rfl⟩
  · split
    · exact ⟨_, _, _, _, Nat.le_succ _, rfl⟩
    · exact ⟨_, _, _, _, Nat.le_refl _, rfl⟩

theorem submitHttp2Io_booked (send receive : Bool) {c : Connection} (h : Booked c) :
    Booked (submitHttp2Io send receive c) := by
  have hsent : Booked (if send ∧ !c.sendPending then c.submitSend [] else c) := by
    split
    · rename_i hsend
      exact h.submitSend [] (by simpa using hsend.2)
    · exact h
  unfold submitHttp2Io
  dsimp only
  generalize (if send ∧ !c.sendPending then c.submitSend [] else c) = d at hsent
  split
  · rename_i hreceive
    exact hsent.submitReceive (by simpa using hreceive.2)
  · exact hsent

/-- Steering a session leaves the connection in its phase. -/
theorem Steers.pumps {after : Cell} (h : cell.connection.Pre config .pumpHttp2)
    (hsteers : Steers cell after) : after.connection.Pre config .pumpHttp2 := by
  obtain ⟨hfd, -, hphase, hrest⟩ := h
  obtain ⟨pending, next, hle, hc⟩ := hsteers
  rw [hc]
  refine ⟨hfd, nofun, hphase, ?_⟩
  rcases hphase with hphase | hphase
  · simp only [AtRest, hphase] at hrest ⊢
    exact ⟨nofun, hrest.2⟩
  · simp only [AtRest, hphase] at hrest ⊢
    omega

/-- A session goes on, or its connection closes. -/
theorem pumpHttp2_carried (choice : Choice) (h : cell.connection.Pre config .pumpHttp2)
    (hb : Booked cell.connection) (hl : cell.Settled config others index false) :
    Kept config (cell.pumpHttp2 config choice index) ∧
      Balances config others index (cell.pumpHttp2 config choice index) := by
  have hfd := h.1
  have hphase := h.2.2.1
  obtain ⟨session, hsession⟩ := Option.ne_none_iff_exists'.mp h.2.1
  have hcarried : Carried config others index cell := ⟨hb, hl.1, hl.2.2⟩
  have hgoes : ∀ after : Cell, Steers cell after → Carried config others index after →
      after.connection.Sounds → Kept config (after, .call .pumpHttp2) ∧
        Balances config others index (after, .call .pumpHttp2) :=
    fun after hsteers hcarried hsounds =>
      ⟨⟨hcarried.1, hsteers.pumps h⟩, hcarried.2.1, hsounds, hcarried.2.2⟩
  have hcloses : ∀ after : Cell, Steers cell after → Carried config others index after →
      Kept config (after.forceClose index, .done) ∧
        Balances config others index (after.forceClose index, .done) := by
    intro after hsteers hcarried
    have hopen := (hsteers.pumps h).1
    exact ⟨forceClose_kept config hcarried.1 hopen,
      forceClose_settled hcarried.2.1 hcarried.1 hopen hcarried.2.2⟩
  have hstay : Steers cell cell := ⟨_, session, Nat.le_refl _, by rw [← hsession]⟩
  have hstep : ∀ step : Http2Step,
      Kept config
          (if session.closing then (cell, .call .pumpHttp2)
          else if (cell.http2Step config index session step).2 then
            ((cell.http2Step config index session step).1, .call .pumpHttp2)
          else ((cell.http2Step config index session step).1.forceClose index, .done)) ∧
        Balances config others index
          (if session.closing then (cell, .call .pumpHttp2)
          else if (cell.http2Step config index session step).2 then
            ((cell.http2Step config index session step).1, .call .pumpHttp2)
          else ((cell.http2Step config index session step).1.forceClose index, .done)) := by
    intro step
    obtain ⟨hsteers, hafter, hsounds⟩ := http2Step_carried step hsession hcarried hl.2.1
    split
    · exact hgoes cell hstay hcarried hl.2.1
    · split
      · rename_i hok
        exact hgoes _ hsteers hafter (hsounds hok)
      · exact hcloses _ hsteers hafter
  unfold pumpHttp2
  rw [hsession]
  dsimp only
  split
  · exact hcloses cell hstay hcarried
  · rename_i send receive _
    obtain ⟨kernel, pending, receiving, sending, hle, hio⟩ :=
      submitHttp2Io_eq send receive cell.connection
    have hbooked := submitHttp2Io_booked send receive hb
    have hrest := h.2.2.2
    rw [hio] at hbooked ⊢
    refine ⟨⟨hbooked, ?_⟩, Settled.rest ?_ ?_⟩
    · simp only [Rest, setConnection, hfd, if_true]
      rcases hphase with hphase | hphase
      · simp only [AtRest, hphase] at hrest ⊢
        exact hrest
      · simp only [AtRest, hphase] at hrest ⊢
        omega
    · exact hl
    · rcases hphase with hphase | hphase <;> simp [setConnection, hphase]
  · split
    · exact hgoes cell hstay hcarried hl.2.1
    · obtain ⟨haborted, hsounds⟩ := abort_carried hsession hcarried
      exact hgoes _ ⟨_, _, Nat.le_refl _, rfl⟩ haborted hsounds
  · exact hstep _

/-- Every call that starts in its precondition keeps the contract and the ledger. -/
theorem dispatch_carried {call : Call} (choice : Choice) (h : cell.connection.Pre config call)
    (hb : Booked cell.connection) (hl : cell.Settled config others index false) :
    Kept config (cell.dispatch config choice index call) ∧
      Balances config others index (cell.dispatch config choice index call) := by
  cases call with
  | processInput => exact ⟨processInput_kept h hb, processInput_balances h hb hl⟩
  | parseInput => exact ⟨parseInput_kept h hb, parseInput_balances h hb hl⟩
  | receiveHead => exact ⟨receiveHead_kept h hb, receiveHead_balances h hb hl⟩
  | dispatchHead => exact ⟨dispatchHead_kept h hb, dispatchHead_balances h hl⟩
  | receiveBody bytes => exact ⟨receiveBody_kept h hb, receiveBody_balances h hl⟩
  | finishRequest => exact ⟨finishRequest_kept h hb, finishRequest_balances h hl⟩
  | continueAfterHead => exact ⟨continueAfterHead_kept h hb, continueAfterHead_balances h hl⟩
  | reject status => exact ⟨reject_kept h hb, reject_balances h hb hl⟩
  | respondStatus status close => exact ⟨respondStatus_kept h hb, hl⟩
  | startResponse response => exact ⟨startResponse_kept h hb, startResponse_balances h hb hl⟩
  | queueSend => exact ⟨queueSend_kept h hb, queueSend_balances h hl⟩
  | aggregate => exact ⟨aggregate_kept h hb, aggregate_balances h hl⟩
  | transmit => exact ⟨transmit_kept h hb, transmit_balances h hl⟩
  | queueBatch => exact ⟨queueBatch_kept h hb, queueBatch_balances h hl⟩
  | queueReceive => exact ⟨queueReceive_kept h hb, queueReceive_balances h hb hl⟩
  | received result => exact ⟨received_kept h hb, received_balances h hb hl⟩
  | receivedTls result => exact ⟨receivedTls_kept h hb, receivedTls_balances h hb hl⟩
  | sentTls ok => exact ⟨sentTls_kept h hb, sentTls_balances h hb hl⟩
  | sent count => exact ⟨sent_kept h hb, sent_balances h hb hl⟩
  | pumpResponseStream => exact ⟨pumpResponseStream_kept h hb, pumpResponseStream_balances h hb hl⟩
  | finishResponse => exact ⟨finishResponse_kept h hb, finishResponse_balances h hl⟩
  | drainConnection => exact ⟨drainConnection_kept h hb, drainConnection_balances hl⟩
  | beginTcpDrain => exact ⟨beginTcpDrain_kept h hb, beginTcpDrain_balances h hl⟩
  | advanceTls => exact ⟨advanceTls_kept h hb, advanceTls_balances h hb hl⟩
  | pumpHttp2 => exact pumpHttp2_carried choice h hb hl

end Cell

end Zhtps.Worker
