import Zhtps.Worker.Streams

/-!
The body of one HTTP/2 stream, from the engine's DATA to the application.  Every byte that is taken
is either buffered or credited, what the application was given is a prefix of what was received, and
the buffer never needs more than the window that the engine keeps to.
-/

namespace Zhtps.Worker

namespace Stream

/-- Credit was given only for bytes that were taken and are not buffered.  Unless the engine overran
the window, so much credit is outstanding at most, and the application has a prefix of the
payload. -/
def Metered (stream : Stream) : Prop :=
  (stream.credited + stream.body.length ≤ stream.taken ∧
      stream.taken ≤ stream.received.length) ∧
    (stream.overrun = false →
      stream.received.length ≤ stream.credited + window ∧ stream.delivered <+: stream.received)

/-- On an open stream every byte taken is buffered or credited, and no body task runs once there is
a response. -/
def Exact (stream : Stream) : Prop :=
  stream.closed = false →
    stream.credited + stream.body.length = stream.taken ∧
      (stream.lentFor = some .body → stream.response = none)

/-- The prefix of the buffered body that a task has. -/
def lentBody (stream : Stream) : Bytes :=
  if stream.lentFor = some .body then stream.body.take stream.taskBodyLen else []

/-- Before the response, what was received is what the application has consumed and then the
buffer; it was given the former, and the prefix that a task has. -/
def Traced (stream : Stream) : Prop :=
  stream.closed = false → stream.response = none → stream.overrun = false →
    ∃ consumed, stream.received = consumed ++ stream.body ∧
      stream.delivered = consumed ++ stream.lentBody

/-- A stream that may go on. -/
def Flowing (stream : Stream) : Prop := stream.Exact ∧ stream.Traced

theorem flowing_of_closed {stream : Stream} (h : stream.closed = true) : stream.Flowing := by
  refine ⟨fun hopen => ?_, fun hopen => ?_⟩ <;> rw [h] at hopen <;> cases hopen

/-- Nothing is traced any more once there is a response. -/
theorem Exact.flowing {stream : Stream} (h : stream.Exact) (hr : stream.response.isSome = true) :
    stream.Flowing :=
  ⟨h, fun _ hnone => by rw [hnone] at hr; cases hr⟩

theorem Free.lentBody {stream : Stream} (h : stream.Free) : stream.lentBody = [] := by
  rw [Stream.lentBody, h.2, if_neg nofun]

/-- What the meters read. -/
def flow (stream : Stream) :=
  ((stream.received, stream.taken, stream.credited, stream.delivered), stream.overrun, stream.body)

theorem Metered.of_flow {stream other : Stream} (h : other.Metered)
    (hflow : stream.flow = other.flow) : stream.Metered := by
  simp only [flow, Prod.mk.injEq] at hflow
  obtain ⟨⟨hr, ht, hc, hd⟩, ho, hb⟩ := hflow
  rw [Metered, hr, ht, hc, hd, ho, hb]
  exact h

/-- The body buffer has room for what the engine may still deliver. -/
theorem Metered.room {stream : Stream} (h : stream.Metered) {bytes : Bytes}
    (hwindow : stream.received.length + bytes.length ≤ stream.credited + window) :
    (stream.body ++ bytes).length ≤ window := by
  obtain ⟨⟨hcredit, htaken⟩, -⟩ := h
  rw [List.length_append]
  omega

theorem begun_metered (address id serial : Nat) :
    Metered { address := address, id := id, serial := serial } :=
  ⟨⟨Nat.le_refl _, Nat.le_refl _⟩, fun _ => ⟨Nat.zero_le _, List.prefix_refl _⟩⟩

theorem begun_flowing (address id serial : Nat) :
    Flowing { address := address, id := id, serial := serial } :=
  ⟨fun _ => ⟨rfl, nofun⟩, fun _ _ _ => ⟨[], rfl, rfl⟩⟩

end Stream

namespace StreamCell

variable {config : Config} {index : Nat} {s t : StreamCell}

/-- A step that ends with a response or a reset, so that no more of the body is given away. -/
def Answers (s : StreamCell) (result : StreamCell × Engine) : Prop :=
  s.stream.Metered → s.stream.Exact →
    result.1.stream.Metered ∧ (result.2 ≠ .memory → result.1.stream.Flowing)

/-- A step that keeps the flow; only a failed one may leave a stream that cannot go on. -/
def Conveys (s : StreamCell) (result : StreamCell × Engine) : Prop :=
  s.stream.Metered → s.stream.Flowing →
    result.1.stream.Metered ∧ (result.2 = .ok → result.1.stream.Flowing)

theorem Answers.ends {result : StreamCell × Engine} (h : s.Answers result)
    (hm : s.stream.Metered) (he : s.stream.Exact) :
    result.1.stream.Metered ∧ (result.2 = .ok → result.1.stream.Flowing) :=
  ⟨(h hm he).1, fun hok => (h hm he).2 (by rw [hok]; nofun)⟩

theorem Answers.conveys {result : StreamCell × Engine} (h : s.Answers result) : s.Conveys result :=
  fun hm hf => h.ends hm hf.1

theorem Answers.after {result : StreamCell × Engine}
    (hm : s.stream.Metered → t.stream.Metered) (he : s.stream.Exact → t.stream.Exact)
    (h : t.Answers result) : s.Answers result :=
  fun hmetered hexact => h (hm hmetered) (he hexact)

theorem Conveys.refl (s : StreamCell) (engine : Engine) : s.Conveys (s, engine) :=
  fun hm hf => ⟨hm, fun _ => hf⟩

/-! ### Responses -/

theorem reset_answers (choice : StreamChoice) : s.Answers (s.reset choice) := by
  intro hm _
  unfold reset
  split
  · exact ⟨hm, fun _ => Stream.flowing_of_closed rfl⟩
  · exact ⟨hm, fun h => absurd rfl h⟩

/-- A lent stream, and what its task was given. -/
theorem submitHttp2_stream {choice : StreamChoice} {stage : Stage}
    (h : s.submitHttp2 choice index stage = some t) :
    t.stream =
      { s.stream with
        busy := true
        lentFor := some stage
        delivered :=
          if stage = .body then s.stream.delivered ++ s.stream.body.take s.stream.taskBodyLen
          else s.stream.delivered } := by
  obtain ⟨cell, -, rfl⟩ := Option.map_eq_some_iff.mp h
  rfl

theorem startStream_answers (choice : StreamChoice) (hr : s.stream.response.isSome = true) :
    s.Answers (s.startStream choice index) := by
  unfold startStream
  split
  · exact reset_answers choice
  · split
    · exact reset_answers choice
    · rename_i t ht
      have hstream := submitHttp2_stream ht
      rw [if_neg nofun] at hstream
      intro hm he
      dsimp only
      rw [hstream]
      refine ⟨hm, fun _ => Stream.Exact.flowing (fun hopen => ?_) hr⟩
      exact ⟨(he hopen).1, nofun⟩

/-- What is credited leaves the buffer. -/
theorem credit_metered (h : s.stream.Metered) : s.credit.stream.Metered := by
  obtain ⟨⟨hcredit, htaken⟩, hwindow⟩ := h
  refine ⟨⟨?_, htaken⟩, fun hoverrun => ⟨?_, (hwindow hoverrun).2⟩⟩
  · simpa [credit] using hcredit
  · have := (hwindow hoverrun).1
    simp only [credit]
    omega

theorem credit_exact (h : s.stream.Exact) : s.credit.stream.Exact := by
  intro hopen
  obtain ⟨hcredit, hlent⟩ := h hopen
  exact ⟨by simpa [credit] using hcredit, hlent⟩

theorem respond_answers (choice : StreamChoice) (response : Response) (hbusy : s.stream.Free) :
    s.Answers (s.respond config choice index response) := by
  unfold respond
  dsimp only
  generalize hanswered : ({ s with stream := { s.stream with response := some response } } :
    StreamCell) = answered
  have hr : answered.stream.response.isSome = true := by
    rw [← hanswered]
    rfl
  have hm (h : s.stream.Metered) : answered.stream.Metered := by
    rw [← hanswered]
    exact h
  -- A free stream has no body task, whatever its response.
  have he (h : s.stream.Exact) : answered.stream.Exact := by
    rw [← hanswered]
    refine fun hopen => ⟨(h hopen).1, fun hlent => ?_⟩
    have hnone := hbusy.2.symm.trans hlent
    cases hnone
  split
  · exact reset_answers choice
  · split
    · exact fun hmetered _ => ⟨hmetered, fun h => absurd rfl h⟩
    · split
      · exact fun hmetered hexact => ⟨hm hmetered, fun _ => (he hexact).flowing hr⟩
      · split
        · exact .after (fun h => credit_metered (hm h)) (fun h => credit_exact (he h))
            (startStream_answers choice hr)
        · exact fun hmetered hexact => ⟨credit_metered (hm hmetered),
            fun _ => (credit_exact (he hexact)).flowing hr⟩

theorem status_answers (choice : StreamChoice) (code : Nat) (hbusy : s.stream.Free) :
    s.Answers (s.status config choice index code) := by
  unfold status
  dsimp only
  split
  · generalize hassigned : s.assign (s.cell.shared.admission.refill choice.now).acquireRejection.1
      (s.cell.shared.admission.refill choice.now).acquireRejection.2 = assigned
    have hafter {result : StreamCell × Engine} (h : assigned.Answers result) :
        s.Answers result := by
      subst hassigned
      exact h
    split
    · exact hafter (reset_answers choice)
    · refine hafter (respond_answers choice _ ?_)
      subst hassigned
      exact hbusy
  · exact respond_answers choice _ hbusy

/-! ### The drive -/

theorem submitStage_conveys (choice : StreamChoice) {stage : Stage} (hbusy : s.stream.Free)
    (hstage : stage ≠ .body) : s.Conveys (s.submitStage config choice index stage) := by
  unfold submitStage
  split
  · rename_i t ht
    have hstream := submitHttp2_stream ht
    rw [if_neg hstage] at hstream
    intro hm hf
    dsimp only
    rw [hstream]
    refine ⟨hm, fun _ => ⟨fun hopen => ⟨(hf.1 hopen).1, fun hlent => ?_⟩, fun hopen hr ho => ?_⟩⟩
    · exact absurd (Option.some.inj hlent) hstage
    · obtain ⟨consumed, hreceived, hdelivered⟩ := hf.2 hopen hr ho
      refine ⟨consumed, hreceived, ?_⟩
      rw [hbusy.lentBody] at hdelivered
      rw [Stream.lentBody, if_neg (by simpa using hstage)]
      exact hdelivered
  · exact (status_answers choice 503 hbusy).conveys

theorem advanceEnd_conveys (choice : StreamChoice) (hbusy : s.stream.Free) :
    s.Conveys (s.advanceEnd config choice index) := by
  unfold advanceEnd
  split
  · exact .refl _ _
  · dsimp only
    generalize hended : ({ s with stream :=
      { s.stream with requestTrailers := s.stream.trailerFields } } : StreamCell) = ended
    have hafter {result : StreamCell × Engine} (h : ended.Conveys result) : s.Conveys result := by
      subst hended
      exact h
    have hfree : ended.stream.Free := by
      subst hended
      exact hbusy
    split
    · exact hafter (submitStage_conveys choice hfree nofun)
    · exact hafter (respond_answers choice _ hfree).conveys

/-- A stream that lends nothing has delivered what it consumed: the buffer comes next. -/
theorem delivered_body {stream : Stream} (h : stream.Flowing) (hbusy : stream.Free)
    (hclosed : stream.closed = false) (hr : stream.response = none)
    (ho : stream.overrun = false) : stream.delivered ++ stream.body = stream.received := by
  obtain ⟨consumed, hreceived, hdelivered⟩ := h.2 hclosed hr ho
  rw [hbusy.lentBody, List.append_nil] at hdelivered
  rw [hdelivered, hreceived]

/-- The buffer is lent to a task. -/
theorem lendBody_conveys (choice : StreamChoice) (hbusy : s.stream.Free)
    (hclosed : s.stream.closed = false) (hr : s.stream.response = none)
    (hlength : s.stream.taskBodyLen = s.stream.body.length) :
    s.Conveys (s.submitStage config choice index .body) := by
  unfold submitStage
  split
  · rename_i t ht
    have hstream := submitHttp2_stream ht
    rw [if_pos rfl, hlength, List.take_length] at hstream
    intro hm hf
    have hgiven := delivered_body hf hbusy hclosed hr
    dsimp only
    rw [hstream]
    refine ⟨⟨hm.1, fun ho => ⟨(hm.2 ho).1, hgiven ho ▸ List.prefix_refl _⟩⟩,
      fun _ => ⟨fun hopen => ⟨(hf.1 hopen).1, fun _ => hr⟩, fun hopen hnone ho => ?_⟩⟩
    obtain ⟨consumed, hreceived, hdelivered⟩ := hf.2 hopen hnone ho
    refine ⟨consumed, hreceived, ?_⟩
    rw [hbusy.lentBody, List.append_nil] at hdelivered
    simp only [Stream.lentBody, if_true, hlength, List.take_length, hdelivered]
  · exact (status_answers choice 503 hbusy).conveys

/-- The application takes the buffer at once. -/
theorem giveBody_conveys (choice : StreamChoice) (hbusy : s.stream.Free)
    (hclosed : s.stream.closed = false) (hr : s.stream.response = none) {given : StreamCell}
    (hgiven : { s with stream := { s.stream with delivered := s.stream.delivered ++ s.stream.body } }
      = given) :
    s.Conveys
      (if !choice.accepted then given.status config choice index 413
      else if choice.engine ≠ .ok then (given, choice.engine)
      else given.credit.advanceEnd config choice index) := by
  intro hm hf
  have hbody := delivered_body hf hbusy hclosed hr
  have hmetered : given.stream.Metered := by
    subst hgiven
    exact ⟨hm.1, fun ho => ⟨(hm.2 ho).1, hbody ho ▸ List.prefix_refl _⟩⟩
  have hexact : given.stream.Exact := by
    subst hgiven
    exact hf.1
  have hfree : given.stream.Free := by
    subst hgiven
    exact hbusy
  split
  · exact (status_answers choice 413 hfree).ends hmetered hexact
  · split
    · rename_i hfailed
      exact ⟨hmetered, fun hok => absurd hok hfailed⟩
    · refine advanceEnd_conveys choice (by exact hfree) (credit_metered hmetered)
        ⟨credit_exact hexact, fun _ _ ho => ⟨s.stream.received, ?_, ?_⟩⟩
      · subst hgiven
        exact (List.append_nil _).symm
      · subst hgiven
        have ho' : s.stream.overrun = false := ho
        simp [credit, Stream.lentBody, hbusy.2, hbody ho']

theorem advanceBody_conveys (choice : StreamChoice) (hbusy : s.stream.Free)
    (hclosed : s.stream.closed = false) (hr : s.stream.response = none) :
    s.Conveys (s.advanceBody config choice index) := by
  unfold advanceBody
  split
  · exact .refl _ _
  · split
    · exact advanceEnd_conveys choice hbusy
    · split
      · generalize hsized : ({ s with stream :=
          { s.stream with taskBodyLen := s.stream.body.length } } : StreamCell) = sized
        have hlend : sized.Conveys (sized.submitStage config choice index .body) := by
          subst hsized
          exact lendBody_conveys choice hbusy hclosed hr rfl
        intro hm hf
        have hflowing : sized.stream.Flowing := by
          subst hsized
          refine ⟨hf.1, fun hopen hnone ho => ?_⟩
          obtain ⟨consumed, hreceived, hdelivered⟩ := hf.2 hopen hnone ho
          rw [hbusy.lentBody] at hdelivered
          exact ⟨consumed, hreceived, by simpa [Stream.lentBody, hbusy.2] using hdelivered⟩
        refine hlend ?_ hflowing
        subst hsized
        exact hm
      · exact giveBody_conveys choice hbusy hclosed hr rfl

theorem headDone_conveys (choice : StreamChoice) (hbusy : s.stream.Free)
    (hclosed : s.stream.closed = false) (hr : s.stream.response = none) :
    s.Conveys (s.headDone config choice index) := by
  unfold headDone
  dsimp only
  generalize hdone : ({ s with stream := { s.stream with headDone := true } } : StreamCell) = done
  have hafter {result : StreamCell × Engine} (h : done.Conveys result) : s.Conveys result := by
    subst hdone
    exact h
  split
  · exact hafter (.refl _ _)
  · refine hafter (advanceBody_conveys choice ?_ ?_ ?_) <;> subst hdone
    · exact hbusy
    · exact hclosed
    · exact hr

theorem advanceHead_conveys (choice : StreamChoice) (hbusy : s.stream.Free)
    (hclosed : s.stream.closed = false) (hr : s.stream.response = none) :
    s.Conveys (s.advanceHead config choice index) := by
  unfold advanceHead
  dsimp only
  generalize hbegun : ({ s with stream := { s.stream with initialized := true } } : StreamCell) = begun
  have hafter {result : StreamCell × Engine} (h : begun.Conveys result) : s.Conveys result := by
    subst hbegun
    exact h
  have hfree : begun.stream.Free ∧ begun.stream.closed = false ∧ begun.stream.response = none := by
    subst hbegun
    exact ⟨hbusy, hclosed, hr⟩
  obtain ⟨hbusy', hclosed', hr'⟩ := hfree
  split
  · exact hafter (respond_answers choice _ hbusy').conveys
  · split
    · exact hafter (headDone_conveys choice hbusy' hclosed' hr')
    · split
      · exact hafter (submitStage_conveys choice hbusy' nofun)
      · split
        · exact hafter (respond_answers choice _ hbusy').conveys
        · exact hafter (headDone_conveys choice hbusy' hclosed' hr')

theorem advance_conveys (choice : StreamChoice) (hbusy : s.stream.Free)
    (hclosed : s.stream.closed = false) (hr : s.stream.response = none) :
    s.Conveys (s.advance config choice index) := by
  unfold advance
  split
  · exact advanceBody_conveys choice hbusy hclosed hr
  · split
    · exact (status_answers choice _ hbusy).conveys
    · generalize s.cell.shared.admission.acquire choice.now false = outcome
      obtain ⟨admission, decision⟩ := outcome
      dsimp only
      generalize hassigned : s.assign admission decision = assigned
      have hafter {result : StreamCell × Engine} (h : assigned.Conveys result) :
          s.Conveys result := by
        subst hassigned
        exact h
      have hfree : assigned.stream.Free ∧ assigned.stream.closed = false ∧
          assigned.stream.response = none := by
        subst hassigned
        exact ⟨hbusy, hclosed, hr⟩
      cases decision with
      | reject => exact hafter (status_answers choice _ hfree.1).conveys
      | close => exact hafter (reset_answers choice).conveys
      | admitted =>
          dsimp only
          split
          · exact hafter (advanceHead_conveys choice hfree.1 hfree.2.1 hfree.2.2)
          · exact hafter (.refl _ _)

theorem expire_conveys (choice : StreamChoice) : s.Conveys (expire choice s) := by
  unfold expire
  split
  · exact (reset_answers choice).conveys
  · exact .refl _ _

theorem driveOpen_conveys (choice : StreamChoice) (hlent : s.stream.Lent) :
    s.Conveys (s.driveOpen config choice index) := by
  unfold driveOpen
  split
  · exact .refl _ _
  · rename_i hclosed
    split
    · rename_i hready
      exact advance_conveys choice (hlent.free (by simpa using hready.1)) (by simpa using hclosed)
        (by simpa using hready.2.1)
    · split
      · split
        · exact (reset_answers choice).conveys
        · exact .refl _ _
      · exact .refl _ _

/-! ### DATA and completions -/

/-- Bytes that nobody will read are taken and credited together. -/
theorem creditAtOnce_metered (choice : StreamChoice) {bytes : Bytes} (hm : s.stream.Metered)
    (hroom : s.stream.taken + bytes.length ≤ s.stream.received.length) :
    (s.creditAtOnce choice bytes).stream.Metered := by
  obtain ⟨⟨hcredit, htaken⟩, hwindow⟩ := hm
  unfold creditAtOnce
  split
  · refine ⟨⟨?_, hroom⟩, fun ho => ⟨?_, (hwindow ho).2⟩⟩
    · dsimp only
      omega
    · have := (hwindow ho).1
      dsimp only
      omega
  · exact ⟨⟨hcredit, htaken⟩, hwindow⟩

theorem creditAtOnce_exact (choice : StreamChoice) {bytes : Bytes} (he : s.stream.Exact) :
    (s.creditAtOnce choice bytes).stream.Exact := by
  unfold creditAtOnce
  split
  · intro hopen
    obtain ⟨hcredit, hlent⟩ := he hopen
    refine ⟨?_, hlent⟩
    dsimp only
    omega
  · exact he

/-- DATA that the stream has noted, and not yet taken. -/
theorem acceptBody_flows (choice : StreamChoice) {bytes : Bytes} (hm : s.stream.Metered)
    (he : s.stream.Exact) (hlent : s.stream.Lent) (hsized : s.stream.Sized)
    (hroom : s.stream.taken + bytes.length ≤ s.stream.received.length)
    (htraced : s.stream.closed = false → s.stream.response = none → s.stream.overrun = false →
      ∃ consumed, s.stream.received = consumed ++ s.stream.body ++ bytes ∧
        s.stream.delivered = consumed ++ s.stream.lentBody) :
    (s.acceptBody config choice index bytes).1.stream.Metered ∧
      ((s.acceptBody config choice index bytes).2 ≠ .memory →
        (s.acceptBody config choice index bytes).1.stream.Flowing) := by
  unfold acceptBody
  dsimp only
  split
  · rename_i hlate
    refine ⟨creditAtOnce_metered choice hm hroom, fun _ => ⟨creditAtOnce_exact choice he, ?_⟩⟩
    intro hopen hnone
    have hsame : (s.creditAtOnce choice bytes).stream.closed = s.stream.closed ∧
        (s.creditAtOnce choice bytes).stream.response = s.stream.response := by
      unfold creditAtOnce
      split <;> exact ⟨rfl, rfl⟩
    rw [hsame.1] at hopen
    rw [hsame.2] at hnone
    simp [hopen, hnone] at hlate
  · rename_i hlate
    have hclosed : s.stream.closed = false := by simpa using fun h => hlate (Or.inl h)
    have hr : s.stream.response = none := by simpa using fun h => hlate (Or.inr h)
    split
    · split
      · exact reset_answers choice hm he
      · rename_i hbusy
        exact status_answers choice 413 (hlent.free (by simpa using hbusy)) hm he
    · split
      · exact ⟨hm, fun h => absurd rfl h⟩
      · split
        · -- Without room for the bytes more than a window is not credited.
          rename_i hfull
          refine ⟨hm, fun _ => ⟨he, fun hopen hnone ho => ?_⟩⟩
          have hwindow := (hm.2 ho).1
          have hexact := (he hclosed).1
          rw [List.length_append] at hfull
          omega
        · obtain ⟨⟨hcredit, htaken⟩, hwindow⟩ := hm
          refine ⟨⟨⟨?_, hroom⟩, hwindow⟩, fun _ => ⟨fun hopen => ⟨?_, (he hclosed).2⟩,
            fun hopen hnone ho => ?_⟩⟩
          · simp only [List.length_append]
            omega
          · have hexact := (he hclosed).1
            simp only [List.length_append]
            omega
          · obtain ⟨consumed, hreceived, hdelivered⟩ := htraced hclosed hr ho
            refine ⟨consumed, by rw [hreceived, List.append_assoc], ?_⟩
            -- What comes behind the lent prefix is not part of it.
            have hlead : Stream.lentBody { s.stream with body := s.stream.body ++ bytes } =
                s.stream.lentBody := by
              have hle := hsized hclosed hr
              unfold Stream.lentBody
              split
              · rename_i hstage
                rw [if_pos hstage] at hle
                exact List.take_append_of_le_length hle
              · rfl
            exact hdelivered.trans (congrArg (consumed ++ ·) hlead.symm)

theorem receiveBody_flows (choice : StreamChoice) (bytes : Bytes) (hm : s.stream.Metered)
    (hf : s.stream.Flowing) (hlent : s.stream.Lent) (hsized : s.stream.Sized) :
    (s.receiveBody config choice index bytes).1.stream.Metered ∧
      ((s.receiveBody config choice index bytes).2 ≠ .memory →
        (s.receiveBody config choice index bytes).1.stream.Flowing) := by
  obtain ⟨⟨hcredit, htaken⟩, hwindow⟩ := hm
  -- A stream that was overrun before stays so.
  have hkeeps (ho : (s.record bytes).stream.overrun = false) :
      s.stream.overrun = false ∧
        s.stream.received.length + bytes.length ≤ s.stream.credited + window := by
    simpa [record] using ho
  refine acceptBody_flows (s := s.record bytes) choice ⟨⟨hcredit, ?_⟩, fun ho => ⟨?_, ?_⟩⟩ hf.1 hlent
    hsized ?_ fun hopen hnone ho => ?_
  · simp only [record, List.length_append]
    omega
  · simpa only [record, List.length_append] using (hkeeps ho).2
  · exact (hwindow (hkeeps ho).1).2.trans (List.prefix_append _ _)
  · simp only [record, List.length_append]
    omega
  · obtain ⟨consumed, hreceived, hdelivered⟩ := hf.2 hopen hnone (hkeeps ho).1
    refine ⟨consumed, ?_, hdelivered⟩
    simp only [record, hreceived]

theorem completeStage_conveys (choice : StreamChoice) (stage : Stage)
    (hclosed : s.stream.closed = false) (hsized : s.stream.Sized)
    (hstage : s.stream.lentFor = some stage) :
    s.stream.Metered → s.stream.Flowing →
      (s.returned.completeStage choice stage).1.stream.Metered ∧
        ((s.returned.completeStage choice stage).2 = .ok →
          (s.returned.completeStage choice stage).1.stream.Flowing) := by
  intro hm hf
  -- Without a body task nothing was lent, and nothing comes back.
  have hreturned (hne : stage ≠ .body) : s.returned.stream.Flowing := by
    refine ⟨fun hopen => ⟨(hf.1 hopen).1, nofun⟩, fun hopen hnone ho => ?_⟩
    obtain ⟨consumed, hreceived, hdelivered⟩ := hf.2 hopen hnone ho
    rw [Stream.lentBody, hstage, if_neg (by simpa using hne)] at hdelivered
    exact ⟨consumed, hreceived, hdelivered⟩
  unfold completeStage
  cases stage with
  | head => exact ⟨hm, fun _ => hreturned nofun⟩
  | response => exact ⟨hm, fun _ => hreturned nofun⟩
  | bodyResponse => exact ⟨hm, fun _ => hreturned nofun⟩
  | produce => exact ⟨hm, fun _ => hreturned nofun⟩
  | body =>
      obtain ⟨hexact, hlent⟩ := hf.1 hclosed
      have hr := hlent hstage
      have hle := hsized hclosed hr
      rw [if_pos hstage] at hle
      obtain ⟨⟨hcredit, htaken⟩, hwindow⟩ := hm
      refine ⟨⟨⟨?_, htaken⟩, fun ho => ⟨?_, (hwindow ho).2⟩⟩, fun hok => ⟨fun _ => ⟨?_, nofun⟩,
        fun _ _ ho => ?_⟩⟩
      · simp only [returned, List.length_drop]
        split <;> omega
      · have := (hwindow ho).1
        simp only [returned]
        split <;> omega
      · have hok' : choice.engine = .ok := hok
        simp only [returned, List.length_drop, hok', if_true]
        omega
      · obtain ⟨consumed, hreceived, hdelivered⟩ := hf.2 hclosed hr ho
        rw [Stream.lentBody, if_pos hstage] at hdelivered
        refine ⟨consumed ++ s.stream.body.take s.stream.taskBodyLen, ?_, ?_⟩
        · simp only [returned, List.append_assoc, List.take_append_drop, hreceived]
        · simp [returned, Stream.lentBody, hdelivered]

theorem complete_conveys (choice : StreamChoice) (stage : Stage) (response : Option Response)
    (expired : Bool) (hbusy : s.stream.busy = true) (hstage : s.stream.lentFor = some stage)
    (hsized : s.stream.Sized) :
    s.Conveys (s.complete config choice index stage response expired) := by
  unfold complete
  dsimp only
  rw [show s.cell.check s.stream.busy .busy = s.cell by simp [Cell.check, hbusy]]
  have hexact (he : s.stream.Exact) : s.returned.stream.Exact :=
    fun hopen => ⟨(he hopen).1, by rintro ⟨⟩⟩
  intro hm hf
  split
  · rename_i hclosed
    exact ⟨hm, fun _ => Stream.flowing_of_closed hclosed⟩
  · rename_i hclosed
    split
    · exact (reset_answers (s := s.returned) choice).ends hm (hexact hf.1)
    · split
      · exact (respond_answers (s := s.returned) choice _ ⟨rfl, rfl⟩).ends hm (hexact hf.1)
      · exact completeStage_conveys choice stage (by simpa using hclosed) hsized hstage hm hf

end StreamCell

end Zhtps.Worker
