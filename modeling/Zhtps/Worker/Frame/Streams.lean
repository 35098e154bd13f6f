import Zhtps.Worker.Frame

/-!
What the functions of HTTP/2 leave of their streams.  A stream stays what it is, and closed once it is
closed, until it is destroyed.  One whose task was canceled is closed as soon as the call is over, for
where memory is exhausted in between the connection closes.
-/

namespace Zhtps.Worker

/-- A stream whose task was canceled is closed. -/
def Stream.Told (stream : Stream) : Prop := stream.canceled = true → stream.closed = true

namespace StreamCell

variable {config : Config} {choice : StreamChoice} {index : Nat} {s t : StreamCell}
  {result : StreamCell × Engine}

def marks (s : StreamCell) :=
  (s.cell.frame, (s.stream.address, s.stream.serial), (s.stream.closed, s.stream.canceled))

/-- What a function on one stream leaves: it is the same stream, closed if it was, and closed if it
was canceled, unless memory is exhausted. -/
def Descends (s : StreamCell) (result : StreamCell × Engine) : Prop :=
  (result.1.cell.frame = s.cell.frame ∧ result.1.stream.address = s.stream.address ∧
      result.1.stream.serial = s.stream.serial) ∧
    (s.stream.closed = true → result.1.stream.closed = true) ∧
    (s.stream.Told → result.2 ≠ .memory → result.1.stream.Told)

theorem Descends.same (h : result.1.marks = s.marks) : s.Descends result := by
  simp only [marks, Prod.mk.injEq] at h
  obtain ⟨hframe, ⟨haddress, hserial⟩, hclosed, hcanceled⟩ := h
  refine ⟨⟨hframe, haddress, hserial⟩, fun h => hclosed.trans h, fun htold _ => ?_⟩
  rw [Stream.Told, hclosed, hcanceled]
  exact htold

/-- After changes that do not concern the marks. -/
theorem Descends.of (hdescends : t.Descends result) (h : t.marks = s.marks) : s.Descends result := by
  simp only [marks, Prod.mk.injEq] at h
  obtain ⟨hframe, ⟨haddress, hserial⟩, hclosed, hcanceled⟩ := h
  unfold Descends Stream.Told at hdescends ⊢
  rwa [hframe, haddress, hserial, hclosed, hcanceled] at hdescends

/-- A function that goes on where another one had no error. -/
theorem Descends.trans (h : s.Descends result) (hok : result.2 = .ok)
    {last : StreamCell × Engine} (h' : result.1.Descends last) : s.Descends last := by
  obtain ⟨⟨hframe, haddress, hserial⟩, hclosed, htold⟩ := h
  obtain ⟨⟨hframe', haddress', hserial'⟩, hclosed', htold'⟩ := h'
  exact ⟨⟨hframe'.trans hframe, haddress'.trans haddress, hserial'.trans hserial⟩,
    fun h => hclosed' (hclosed h), fun h => htold' (htold h (by rw [hok]; nofun))⟩

theorem reset_descends : s.Descends (s.reset choice) := by
  unfold reset
  split
  · exact ⟨⟨rfl, rfl, rfl⟩, fun _ => rfl, fun _ _ _ => rfl⟩
  · exact ⟨⟨rfl, rfl, rfl⟩, fun h => h, fun _ h => absurd rfl h⟩

theorem submitHttp2_marks {stage : Stage} (h : s.submitHttp2 choice index stage = some t) :
    t.marks = s.marks := by
  obtain ⟨cell, hsubmit, rfl⟩ := Option.map_eq_some_iff.mp h
  have hframe := Cell.submit_frame hsubmit
  exact congrArg (fun frame => (frame, _)) hframe

theorem startStream_descends : s.Descends (s.startStream choice index) := by
  unfold startStream
  split
  · exact reset_descends
  · split
    · exact reset_descends
    · rename_i next hsubmit
      have hmarks := submitHttp2_marks hsubmit
      exact .same hmarks

theorem respond_descends (response : Response) :
    s.Descends (s.respond config choice index response) := by
  unfold respond
  split
  · exact reset_descends
  · split
    · exact .same rfl
    · dsimp only
      split
      · exact .same rfl
      · split
        · exact startStream_descends.of rfl
        · exact .same rfl

theorem status_descends (code : Nat) : s.Descends (s.status config choice index code) := by
  unfold status
  dsimp only
  split
  · split
    · exact reset_descends.of rfl
    · exact (respond_descends _).of rfl
  · exact respond_descends _

theorem submitStage_descends (stage : Stage) : s.Descends (s.submitStage config choice index stage) := by
  unfold submitStage
  split
  · rename_i next hsubmit
    exact .same (submitHttp2_marks hsubmit)
  · exact status_descends 503

theorem advanceEnd_descends : s.Descends (s.advanceEnd config choice index) := by
  unfold advanceEnd
  split
  · exact .same rfl
  · dsimp only
    split
    · exact (submitStage_descends .response).of rfl
    · exact (respond_descends _).of rfl

theorem advanceBody_descends : s.Descends (s.advanceBody config choice index) := by
  unfold advanceBody
  split
  · exact .same rfl
  · split
    · exact advanceEnd_descends
    · split
      · exact (submitStage_descends .body).of rfl
      · dsimp only
        split
        · exact (status_descends 413).of rfl
        · split
          · exact .same rfl
          · exact advanceEnd_descends.of rfl

theorem headDone_descends : s.Descends (s.headDone config choice index) := by
  unfold headDone
  dsimp only
  split
  · exact .same rfl
  · exact advanceBody_descends.of rfl

theorem advanceHead_descends : s.Descends (s.advanceHead config choice index) := by
  unfold advanceHead
  dsimp only
  split
  · exact (respond_descends _).of rfl
  · split
    · exact headDone_descends.of rfl
    · split
      · exact (submitStage_descends .head).of rfl
      · split
        · exact (respond_descends _).of rfl
        · exact headDone_descends.of rfl

theorem advance_descends : s.Descends (s.advance config choice index) := by
  unfold advance
  split
  · exact advanceBody_descends
  · split
    · exact status_descends _
    · dsimp only
      split
      · exact (status_descends 503).of rfl
      · exact reset_descends.of rfl
      · split
        · exact advanceHead_descends.of rfl
        · exact .same rfl

/-- The answer of a handler is not missed where it is there. -/
theorem completeStage_descends {stage : Stage} (h : stage ≠ .response) :
    s.Descends (s.completeStage choice stage) := by
  unfold completeStage
  cases stage with
  | head => exact .same rfl
  | body => exact .same rfl
  | response => exact absurd rfl h
  | bodyResponse => exact .same rfl
  | produce => exact .same rfl

theorem complete_descends (stage : Stage) (response : Option Response) (expired : Bool)
    (h : s.stream.closed = true ∨ expired = true ∨ response.isSome = true ∨ stage ≠ .response) :
    s.Descends (s.complete config choice index stage response expired) := by
  unfold complete
  have hcheck : ({ s with
      cell := s.cell.check s.stream.busy .busy
      stream := { s.stream with busy := false, lentFor := none } } : StreamCell).marks = s.marks :=
    congrArg (fun frame => (frame, _)) (@Cell.check_frame s.cell s.stream.busy .busy nofun)
  dsimp only
  split
  · exact .same hcheck
  · rename_i hclosed
    split
    · exact reset_descends.of hcheck
    · rename_i hexpired
      split
      · exact (respond_descends _).of hcheck
      · refine (completeStage_descends ?_).of hcheck
        rcases h with h | h | h | h
        · exact absurd h hclosed
        · exact absurd h hexpired
        · cases h
        · exact h

theorem expire_descends : s.Descends (s.expire choice) := by
  unfold expire
  split
  · exact reset_descends
  · exact .same rfl

theorem driveOpen_descends : s.Descends (s.driveOpen config choice index) := by
  unfold driveOpen
  split
  · exact .same rfl
  · split
    · exact advance_descends
    · split
      · split
        · exact reset_descends
        · exact .same rfl
      · exact .same rfl

theorem receiveBody_descends (bytes : Bytes) :
    s.Descends (s.receiveBody config choice index bytes) := by
  unfold receiveBody acceptBody
  split
  · unfold creditAtOnce
    split
    · exact .same rfl
    · exact .same rfl
  · split
    · split
      · exact reset_descends.of rfl
      · exact (status_descends 413).of rfl
    · dsimp only
      split
      · exact .same rfl
      · split
        · exact .same rfl
        · exact .same rfl

end StreamCell

/-! ### Lists of streams -/

/-- Every stream was there before, and is closed if it was. -/
def Inherits (before after : List Stream) : Prop :=
  ∀ stream ∈ after, ∃ old ∈ before, old.address = stream.address ∧ old.serial = stream.serial ∧
    (old.closed = true → stream.closed = true)

/-- Every stream was there before, or begins. -/
def Stems (before after : List Stream) : Prop :=
  ∀ stream ∈ after, (∃ old ∈ before, old.address = stream.address ∧ old.serial = stream.serial ∧
    (old.closed = true → stream.closed = true)) ∨ stream.busy = false

def AllTold (streams : List Stream) : Prop := ∀ stream ∈ streams, stream.Told

theorem Inherits.refl (streams : List Stream) : Inherits streams streams :=
  fun stream hmem => ⟨stream, hmem, rfl, rfl, fun h => h⟩

theorem inherits_nil (streams : List Stream) : Inherits streams [] :=
  fun _ hmem => absurd hmem List.not_mem_nil

theorem Inherits.stems {before after : List Stream} (h : Inherits before after) : Stems before after :=
  fun stream hmem => Or.inl (h stream hmem)

theorem Stems.inherits {before middle after : List Stream} (h : Stems before middle)
    (h' : ∀ stream ∈ after, ∃ old ∈ middle, old.address = stream.address ∧
      old.serial = stream.serial ∧ (old.closed = true → stream.closed = true) ∧
      (old.busy = false → stream.busy = false)) : Stems before after := by
  intro stream hmem
  obtain ⟨old, hold, haddress, hserial, hclosed, hbusy⟩ := h' stream hmem
  rcases h old hold with ⟨first, hfirst, haddress', hserial', hclosed'⟩ | hfree
  · exact Or.inl ⟨first, hfirst, haddress'.trans haddress, hserial'.trans hserial,
      fun h => hclosed (hclosed' h)⟩
  · exact Or.inr (hbusy hfree)

theorem Inherits.cons {stream next : Stream} {before after : List Stream}
    (hhead : next.address = stream.address ∧ next.serial = stream.serial)
    (hclosed : stream.closed = true → next.closed = true) (h : Inherits before after) :
    Inherits (stream :: before) (next :: after) := by
  intro other hmem
  rcases List.mem_cons.mp hmem with rfl | hmem
  · exact ⟨stream, List.mem_cons_self, hhead.1.symm, hhead.2.symm, hclosed⟩
  · obtain ⟨old, hold, hsame⟩ := h other hmem
    exact ⟨old, List.mem_cons_of_mem _ hold, hsame⟩

theorem Inherits.tail {stream : Stream} {before after : List Stream} (h : Inherits before after) :
    Inherits (stream :: before) after := by
  intro other hmem
  obtain ⟨old, hold, hsame⟩ := h other hmem
  exact ⟨old, List.mem_cons_of_mem _ hold, hsame⟩

theorem inherits_abort (streams : List Stream) : Inherits streams (streams.map Stream.abort) := by
  intro stream hmem
  obtain ⟨old, hold, rfl⟩ := List.mem_map.mp hmem
  exact ⟨old, hold, rfl, rfl, fun _ => rfl⟩

theorem allTold_abort (streams : List Stream) : AllTold (streams.map Stream.abort) := by
  intro stream hmem hcanceled
  obtain ⟨old, -, rfl⟩ := List.mem_map.mp hmem
  rfl

/-- One stream of a session changes. -/
theorem inherits_modify {f : Stream → Stream} (hf : ∀ stream : Stream,
      ((f stream).address = stream.address ∧ (f stream).serial = stream.serial) ∧
        (stream.closed = true → (f stream).closed = true) ∧ (stream.Told → (f stream).Told))
    (id : Nat) (streams : List Stream) :
    Inherits streams (Session.modify f id streams) ∧
      (AllTold streams → AllTold (Session.modify f id streams)) := by
  induction streams with
  | nil => exact ⟨inherits_nil _, fun h => h⟩
  | cons stream rest ih =>
      unfold Session.modify
      split
      · exact ⟨(Inherits.refl rest).cons (hf stream).1 (hf stream).2.1, fun h =>
          List.forall_mem_cons.mpr ⟨(hf stream).2.2 (h stream List.mem_cons_self),
            fun other hmem => h other (List.mem_cons_of_mem _ hmem)⟩⟩
      · exact ⟨ih.1.cons ⟨rfl, rfl⟩ fun h => h, fun h =>
          List.forall_mem_cons.mpr ⟨h stream List.mem_cons_self,
            ih.2 fun other hmem => h other (List.mem_cons_of_mem _ hmem)⟩⟩

namespace Cell

variable {config : Config} {choice : Choice} {index : Nat} {cell : Cell}

/-- What a function on a session's streams leaves of them. -/
def Drives (cell : Cell) (streams : List Stream) (result : Cell × List Stream × Engine) : Prop :=
  result.1.frame = cell.frame ∧ Inherits streams result.2.1 ∧
    (AllTold streams → result.2.2 ≠ .memory → AllTold result.2.1)

theorem onStream_drives {property : Stream → Bool} {f : StreamCell → StreamCell × Engine}
    (streams : List Stream) (cell : Cell)
    (hf : ∀ stream ∈ streams, property stream = true →
      StreamCell.Descends ⟨cell, stream⟩ (f ⟨cell, stream⟩)) :
    cell.Drives streams (onStream property f streams cell) := by
  induction streams with
  | nil => exact ⟨rfl, .refl _, fun h _ => h⟩
  | cons stream rest ih =>
      unfold onStream
      split
      · rename_i hfound
        obtain ⟨⟨hframe, hsame⟩, hclosed, htold⟩ := hf stream List.mem_cons_self hfound
        exact ⟨hframe, (Inherits.refl rest).cons hsame hclosed, fun h hresult =>
          List.forall_mem_cons.mpr ⟨htold (h stream List.mem_cons_self) hresult,
            fun other hmem => h other (List.mem_cons_of_mem _ hmem)⟩⟩
      · obtain ⟨hframe, hinherits, htold⟩ :=
          ih fun other hmem => hf other (List.mem_cons_of_mem _ hmem)
        exact ⟨hframe, hinherits.cons ⟨rfl, rfl⟩ fun h => h, fun h hresult =>
          List.forall_mem_cons.mpr ⟨h stream List.mem_cons_self,
            htold (fun other hmem => h other (List.mem_cons_of_mem _ hmem)) hresult⟩⟩

theorem destroyStream_frame (stream : Stream) (cell : Cell) :
    (cell.destroyStream stream).frame = cell.frame := by
  refine frame_of (Shared.destroy_frame cell.shared stream) ?_
  unfold destroyStream Connection.streams
  dsimp only
  cases cell.connection.http2 <;> rfl

/-- One stream, which stays or is destroyed. -/
theorem driveStream_drives (choice : StreamChoice) (cell : Cell) (stream : Stream) :
    cell.Drives [stream] (cell.driveStream config choice index stream) := by
  have hone : ∀ {s : StreamCell} {result : Engine},
      StreamCell.Descends ⟨cell, stream⟩ (s, result) →
        cell.Drives [stream] (s.cell, [s.stream], result) := by
    rintro s result ⟨⟨hframe, hsame⟩, hclosed, htold⟩
    refine ⟨hframe, (Inherits.refl []).cons hsame hclosed, fun h hresult => ?_⟩
    intro other hmem
    rw [List.mem_singleton.mp hmem]
    exact htold (h stream List.mem_cons_self) hresult
  have hexpire : StreamCell.Descends ⟨cell, stream⟩ (StreamCell.expire choice ⟨cell, stream⟩) :=
    StreamCell.expire_descends
  unfold driveStream
  dsimp only
  split
  · exact hone hexpire
  · rename_i hresult
    rw [Decidable.not_not] at hresult
    split
    · exact ⟨(destroyStream_frame _ _).trans hexpire.1.1, inherits_nil _,
        fun _ _ _ hmem => absurd hmem List.not_mem_nil⟩
    · refine hone (hexpire.trans hresult StreamCell.driveOpen_descends)

theorem driveStreams_drives (choices : List StreamChoice) (streams : List Stream) (cell : Cell) :
    cell.Drives streams (driveStreams config index choices streams cell) := by
  induction streams generalizing choices cell with
  | nil => exact ⟨rfl, .refl _, fun h _ => h⟩
  | cons stream rest ih =>
      have hdrive := @driveStream_drives config index (choices.headD {}) cell stream
      unfold driveStreams
      dsimp only
      generalize cell.driveStream config (choices.headD {}) index stream = driven at hdrive ⊢
      obtain ⟨next, kept, result⟩ := driven
      obtain ⟨hframe, hinherits, htold⟩ := hdrive
      dsimp only at hframe hinherits htold ⊢
      have happend : ∀ {others : List Stream}, Inherits rest others →
          Inherits (stream :: rest) (kept ++ others) := by
        intro others hothers other hmem
        rcases List.mem_append.mp hmem with hmem | hmem
        · obtain ⟨old, hold, hsame⟩ := hinherits other hmem
          exact ⟨old, List.mem_singleton.mp hold ▸ List.mem_cons_self, hsame⟩
        · exact hothers.tail other hmem
      have hall : ∀ {others : List Stream}, AllTold (stream :: rest) → result ≠ .memory →
          AllTold others → AllTold (kept ++ others) := by
        intro others h hresult hothers other hmem
        rcases List.mem_append.mp hmem with hmem | hmem
        · refine htold (fun first hfirst => ?_) hresult other hmem
          exact h first (List.mem_singleton.mp hfirst ▸ List.mem_cons_self)
        · exact hothers other hmem
      split
      · exact ⟨hframe, happend (.refl rest), fun h hresult =>
          hall h hresult fun other hmem => h other (List.mem_cons_of_mem _ hmem)⟩
      · rename_i hok
        rw [Decidable.not_not] at hok
        obtain ⟨hframe', hinherits', htold'⟩ := ih choices.tail next
        exact ⟨hframe'.trans hframe, happend hinherits', fun h hresult =>
          hall h (by rw [hok]; nofun)
            (htold' (fun other hmem => h other (List.mem_cons_of_mem _ hmem)) hresult)⟩

/-! ### One round of `pumpHttp2` -/

theorem setStreams_streams (cell : Cell) (streams : List Stream) :
    (cell.setStreams streams).connection.streams = streams ∨
      (cell.setStreams streams).connection.streams = [] := by
  unfold setStreams Connection.streams
  dsimp only [setConnection]
  cases cell.connection.http2 with
  | none => exact Or.inr rfl
  | some session => exact Or.inl rfl

theorem drainSession_streams (cell : Cell) :
    cell.drainSession.connection.streams = cell.connection.streams := by
  unfold drainSession Connection.streams
  dsimp only [setConnection]
  cases cell.connection.http2 <;> rfl

/-- What a round leaves of the streams: all are told unless the connection has to close. -/
def Rounds (cell : Cell) (result : Cell × Bool) : Prop :=
  result.1.shared.frame = cell.shared.frame ∧
    Stems cell.connection.streams result.1.connection.streams ∧
    (result.2 = true → AllTold cell.connection.streams → AllTold result.1.connection.streams)

theorem Rounds.of_drives {streams : List Stream} {result : Cell × List Stream × Engine} {ok : Bool}
    (hstreams : cell.connection.streams = streams) (h : cell.Drives streams result)
    (hok : ok = true → result.2.2 ≠ .memory) : cell.Rounds (result.1.setStreams result.2.1, ok) := by
  obtain ⟨hframe, hinherits, htold⟩ := h
  refine ⟨(Prod.mk.inj hframe).1, ?_, fun h hbefore => ?_⟩
  · rcases setStreams_streams result.1 result.2.1 with heq | heq
    · rw [heq, hstreams]
      exact hinherits.stems
    · rw [heq]
      exact (inherits_nil _).stems
  · rcases setStreams_streams result.1 result.2.1 with heq | heq
    · rw [heq]
      exact htold (hstreams ▸ hbefore) (hok h)
    · rw [heq]
      exact fun _ hmem => absurd hmem List.not_mem_nil

theorem modify_rounds {streams : List Stream} {f : Stream → Stream} (id : Nat)
    (hstreams : cell.connection.streams = streams)
    (hf : ∀ stream : Stream, ((f stream).address = stream.address ∧ (f stream).serial = stream.serial) ∧
      (stream.closed = true → (f stream).closed = true) ∧ (stream.Told → (f stream).Told)) :
    cell.Rounds (cell.setStreams (Session.modify f id streams), true) :=
  @Rounds.of_drives cell streams (cell, Session.modify f id streams, .ok) true hstreams
    ⟨rfl, (inherits_modify hf id streams).1, fun h _ => (inherits_modify hf id streams).2 h⟩ nofun

theorem beginStream_rounds {session : Session} (id address : Nat) (granted : Bool)
    (hsession : cell.connection.http2 = some session) :
    cell.Rounds (cell.beginStream config session id address granted) := by
  have hstreams : cell.connection.streams = session.streams := by
    rw [Connection.streams, hsession]
  unfold beginStream
  split
  · exact ⟨rfl, (Inherits.refl _).stems, fun _ h => h⟩
  · split
    · exact ⟨rfl, (Inherits.refl _).stems, fun _ h => h⟩
    · rename_i shared stored hacquire
      have hframe := Shared.acquireStream_frame hacquire
      refine ⟨hframe, fun stream hmem => ?_, fun _ h stream hmem => ?_⟩
      · rcases List.mem_cons.mp hmem with rfl | hmem
        · exact Or.inr rfl
        · exact (Inherits.refl _).stems stream (hstreams ▸ hmem)
      · rcases List.mem_cons.mp hmem with rfl | hmem
        · rintro ⟨⟩
        · exact h stream (hstreams ▸ hmem)

theorem http2Step_rounds {session : Session} (step : Http2Step)
    (hsession : cell.connection.http2 = some session) :
    cell.Rounds (cell.http2Step config index session step) := by
  have hstreams : cell.connection.streams = session.streams := by
    rw [Connection.streams, hsession]
  unfold http2Step
  cases step with
  | begin id address granted => exact beginStream_rounds id address granted hsession
  | beginTrailers id => exact modify_rounds id hstreams fun _ => ⟨⟨rfl, rfl⟩, fun h => h, fun h => h⟩
  | header id field =>
      refine modify_rounds id hstreams fun stream => ?_
      unfold Stream.header
      split_ifs <;> exact ⟨⟨rfl, rfl⟩, fun h => h, fun h => h⟩
  | headComplete id trailers ended =>
      refine modify_rounds id hstreams fun stream => ?_
      unfold Stream.headComplete
      split_ifs <;> exact ⟨⟨rfl, rfl⟩, fun h => h, fun h => h⟩
  | body id bytes choice =>
      exact .of_drives hstreams
        (onStream_drives session.streams cell fun stream _ _ =>
          StreamCell.receiveBody_descends bytes) (by simp)
  | ended id => exact modify_rounds id hstreams fun _ => ⟨⟨rfl, rfl⟩, fun h => h, fun h => h⟩
  | closed id code =>
      exact modify_rounds id hstreams fun _ => ⟨⟨rfl, rfl⟩, fun _ => rfl, fun _ _ => rfl⟩
  | drive choices =>
      have hdrives := @driveStreams_drives config index choices session.streams cell
      obtain ⟨hframe, hstems, htold⟩ := @Rounds.of_drives cell _ _
        ((driveStreams config index choices session.streams cell).2.2 == .ok) hstreams hdrives
        (fun hok => by rw [beq_iff_eq.mp hok]; rintro ⟨⟩)
      dsimp only at hframe hstems htold ⊢
      split_ifs
      · refine ⟨hframe, ?_, ?_⟩
        · rw [drainSession_streams]
          exact hstems
        · rw [drainSession_streams]
          exact htold
      · exact ⟨hframe, hstems, htold⟩
  | shutdown =>
      refine ⟨rfl, ?_, fun _ h => ?_⟩
      · rw [drainSession_streams]
        exact (Inherits.refl _).stems
      · rw [drainSession_streams]
        exact h
  | stop => exact ⟨rfl, (Inherits.refl _).stems, fun _ h => h⟩
  | failed => exact ⟨rfl, (Inherits.refl _).stems, fun _ h => h⟩
  | finish send receive => exact ⟨rfl, (Inherits.refl _).stems, fun _ h => h⟩

end Cell

end Zhtps.Worker
