import Zhtps.Worker.Booked

/-!
What the functions that work on one HTTP/2 stream can do to it and to the worker, said once: they
move permits between admission and the stream, and they lend the stream to at most one task.
-/

namespace Zhtps.Worker

/-- One for a permit of this kind. -/
def holds (permit : Option Decision) (kind : Decision) : Nat := if permit = some kind then 1 else 0

@[simp] theorem refill_active (a : Admission) (now : Nat) : (a.refill now).active = a.active := rfl

@[simp]
theorem refill_rejecting (a : Admission) (now : Nat) : (a.refill now).rejecting = a.rejecting := rfl

/-- A rejection takes one permit of its kind, or none. -/
theorem acquireRejection_counts (a : Admission) :
    a.acquireRejection.1.active + holds none .admitted =
        a.active + holds (some a.acquireRejection.2) .admitted ∧
      a.acquireRejection.1.rejecting + holds none .reject =
        a.rejecting + holds (some a.acquireRejection.2) .reject := by
  unfold Admission.acquireRejection
  split <;> simp [holds]

theorem acquire_counts (a : Admission) (now : Nat) (draining : Bool) :
    (a.acquire now draining).1.active + holds none .admitted =
        a.active + holds (some (a.acquire now draining).2) .admitted ∧
      (a.acquire now draining).1.rejecting + holds none .reject =
        a.rejecting + holds (some (a.acquire now draining).2) .reject := by
  unfold Admission.acquire
  dsimp only
  split
  · simp [holds]
  · exact acquireRejection_counts (a.refill now)

namespace Stream

/-- The stream that a task borrows, and what it reads of it. -/
def view (stream : Stream) :=
  ((stream.address, stream.serial), stream.fields, stream.requestTrailers, stream.taskBodyLen,
    stream.body.take stream.taskBodyLen)

/-- A permit belongs to a stream that will not ask for another one. -/
def Owned (stream : Stream) : Prop :=
  stream.permit = none ∨ stream.initialized = true ∨ stream.response.isSome = true ∨
    stream.closed = true

/-- The body prefix lent to a task is there. -/
def Sized (stream : Stream) : Prop :=
  stream.closed = false → stream.response = none →
    if stream.lentFor = some .body then stream.taskBodyLen ≤ stream.body.length
    else stream.taskBodyLen = 0

def Sound (stream : Stream) : Prop := stream.Owned ∧ stream.Sized

/-- No task borrows the stream. -/
def Free (stream : Stream) : Prop := stream.busy = false ∧ stream.lentFor = none

/-- `busy` and the stage of the borrowing task agree, and only complete heads are lent. -/
def Lent (stream : Stream) : Prop :=
  stream.lentFor.isSome = stream.busy ∧ (stream.busy = true → stream.headReady = true)

/-- A permit was assigned once, or none was. -/
def Assigned (stream : Stream) : Prop :=
  stream.assigned ≤ 1 ∧ (stream.permit = none → stream.assigned = 0)

/-- What identifies a stream, and what the worker holds for it. -/
def holding (stream : Stream) :=
  ((stream.address, stream.id, stream.serial), stream.headReady, (stream.permit, stream.assigned),
    (stream.busy, stream.lentFor))

theorem Lent.free {stream : Stream} (h : stream.Lent) (hbusy : stream.busy = false) :
    stream.Free := by
  have hl := h.1
  rw [hbusy] at hl
  exact ⟨hbusy, by simpa using hl⟩

end Stream

namespace StreamCell

/-- The task that borrows a stream of this slot. -/
def task (index : Nat) (s : StreamCell) (stage : Stage) (lane : Nat) : Task :=
  { index := index
    generation := s.cell.connection.generation
    occupant := s.cell.connection.occupant
    stage := stage
    stream := some s.stream.address
    lane := lane
    ticket := s.cell.shared.executor.submitted }

/-- Permits taken from admission are held by the stream. -/
def Balanced (s t : StreamCell) : Prop :=
  t.cell.shared.admission.active + holds s.stream.permit .admitted =
      s.cell.shared.admission.active + holds t.stream.permit .admitted ∧
    t.cell.shared.admission.rejecting + holds s.stream.permit .reject =
      s.cell.shared.admission.rejecting + holds t.stream.permit .reject

/-- A permit is assigned to a stream that has none, or nothing is. -/
def Assigns (s t : StreamCell) : Prop :=
  t.stream.permit = s.stream.permit ∧ t.stream.assigned = s.stream.assigned ∨
    s.stream.permit = none ∧ t.stream.permit ≠ none ∧
      t.stream.assigned = s.stream.assigned + 1

/-- The stream is lent to nobody new. -/
def Keeps (s t : StreamCell) : Prop :=
  t.stream.busy = s.stream.busy ∧ t.stream.lentFor = s.stream.lentFor ∧ t.cell.connection = s.cell.connection ∧
    t.cell.shared.executor = s.cell.shared.executor ∧
    (s.stream.busy = true → t.stream.view = s.stream.view)

/-- The stream is lent to one new task, which `pending` counts. -/
def Lends (config : Config) (index : Nat) (s t : StreamCell) : Prop :=
  config.app.isIsolated = true ∧ s.stream.headReady = true ∧ s.stream.busy = false ∧
    t.stream.busy = true ∧
    t.cell.connection =
      { s.cell.connection with pending := s.cell.connection.pending + 1 } ∧
    ∃ stage lane, t.stream.lentFor = some stage ∧
      t.cell.shared.executor =
        { s.cell.shared.executor with
          queued := s.cell.shared.executor.queued ++ [s.task index stage lane]
          submitted := s.cell.shared.executor.submitted + 1 }

/-- All that a function on one stream can do. -/
def Evolves (config : Config) (index : Nat) (s t : StreamCell) : Prop :=
  (t.stream.address = s.stream.address ∧ t.stream.id = s.stream.id ∧
    t.stream.serial = s.stream.serial) ∧
    t.stream.headReady = s.stream.headReady ∧
    t.cell.shared =
      { s.cell.shared with
        admission := t.cell.shared.admission
        executor := t.cell.shared.executor } ∧
    (s.Balanced t ∧ s.Assigns t) ∧ (s.Keeps t ∨ s.Lends config index t)

variable {config : Config} {index : Nat} {s t u : StreamCell}

theorem Assigns.trans (h : s.Assigns t) (h' : t.Assigns u) : s.Assigns u := by
  rcases h with ⟨hp, ha⟩ | ⟨hnone, hsome, ha⟩
  · rcases h' with ⟨hp', ha'⟩ | ⟨hnone', hsome', ha'⟩
    · exact Or.inl ⟨hp'.trans hp, ha'.trans ha⟩
    · exact Or.inr ⟨hp.symm.trans hnone', hsome', ha'.trans (congrArg (· + 1) ha)⟩
  · rcases h' with ⟨hp', ha'⟩ | ⟨hnone', -, -⟩
    · exact Or.inr ⟨hnone, hp' ▸ hsome, ha'.trans ha⟩
    · exact absurd hnone' hsome

theorem Assigns.assigned (h : s.Assigns t) (hs : s.stream.Assigned) : t.stream.Assigned := by
  rcases h with ⟨hp, ha⟩ | ⟨hnone, hsome, ha⟩
  · rw [Stream.Assigned, hp, ha]
    exact hs
  · exact ⟨Nat.le_of_eq (by rw [ha, hs.2 hnone]), fun h => absurd h hsome⟩

theorem Evolves.refl (config : Config) (index : Nat) (s : StreamCell) : s.Evolves config index s :=
  ⟨⟨rfl, rfl, rfl⟩, rfl, rfl, ⟨⟨rfl, rfl⟩, Or.inl ⟨rfl, rfl⟩⟩,
    Or.inl ⟨rfl, rfl, rfl, rfl, fun _ => rfl⟩⟩

theorem Evolves.trans (h : s.Evolves config index t) (h' : t.Evolves config index u) :
    s.Evolves config index u := by
  obtain ⟨⟨ha, hi, hn⟩, hh, hs, ⟨⟨h1, h2⟩, hassigns⟩, hk⟩ := h
  obtain ⟨⟨ha', hi', hn'⟩, hh', hs', ⟨⟨h1', h2'⟩, hassigns'⟩, hk'⟩ := h'
  refine ⟨⟨ha'.trans ha, hi'.trans hi, hn'.trans hn⟩, hh'.trans hh, ?_,
    ⟨⟨by omega, by omega⟩, hassigns.trans hassigns'⟩, ?_⟩
  · rw [hs', hs]
  · rcases hk with ⟨hbusy, hl, hc, he, hv⟩ | ⟨hiso, hready, hfree, hbusy, hc, stage, lane, hl, he⟩
    · rcases hk' with ⟨hbusy', hl', hc', he', hv'⟩ |
        ⟨hiso, hready, hfree, hbusy', hc', stage, lane, hl', he'⟩
      · refine Or.inl ⟨hbusy'.trans hbusy, hl'.trans hl, hc'.trans hc, he'.trans he, fun h => ?_⟩
        exact (hv' (hbusy.trans h)).trans (hv h)
      · refine Or.inr ⟨hiso, hh ▸ hready, hbusy ▸ hfree, hbusy', by rw [hc', hc], stage, lane, hl', ?_⟩
        rw [he', he]
        simp only [task, hc, ha, he]
    · rcases hk' with ⟨hbusy', hl', hc', he', -⟩ | ⟨-, -, hfree', -⟩
      · exact Or.inr ⟨hiso, hready, hfree, hbusy'.trans hbusy, hc'.trans hc, stage, lane,
          hl'.trans hl, he'.trans he⟩
      · rw [hbusy] at hfree'
        cases hfree'

/-- Lending keeps `busy` and the stage together. -/
theorem Evolves.lent (h : s.Evolves config index t) (hs : s.stream.Lent) : t.stream.Lent := by
  obtain ⟨-, hh, -, -, hk⟩ := h
  rw [Stream.Lent, hh]
  rcases hk with ⟨hbusy, hl, -⟩ | ⟨-, hready, -, hbusy, -, stage, lane, hl, -⟩
  · rw [hl, hbusy]
    exact hs
  · rw [hl, hbusy]
    exact ⟨rfl, fun _ => hready⟩

/-- A stream may change in its own fields, but not in what a task borrows. -/
theorem Evolves.of_view {stream : Stream} (h : stream.holding = s.stream.holding)
    (hview : s.stream.busy = true → stream.view = s.stream.view) :
    s.Evolves config index { s with stream := stream } := by
  simp only [Stream.holding, Prod.mk.injEq] at h
  obtain ⟨⟨ha, hi, hn⟩, hh, ⟨hp, hassigned⟩, hb, hl⟩ := h
  exact ⟨⟨ha, hi, hn⟩, hh, rfl, ⟨⟨by simp [hp], by simp [hp]⟩, Or.inl ⟨hp, hassigned⟩⟩,
    Or.inl ⟨hb, hl, rfl, rfl, hview⟩⟩

theorem Evolves.of_free {stream : Stream} (hbusy : s.stream.Free)
    (h : stream.holding = s.stream.holding) : s.Evolves config index { s with stream := stream } :=
  .of_view h fun hborrowed => absurd (hborrowed.symm.trans hbusy.1) nofun

/-- A step that ends with a sound stream, unless memory is exhausted. -/
def Settles (config : Config) (index : Nat) (s : StreamCell) (result : StreamCell × Engine) :
    Prop :=
  s.Evolves config index result.1 ∧ (result.2 ≠ .memory → result.1.stream.Sound)

/-- A step that leaves a sound stream sound. -/
def Steps (config : Config) (index : Nat) (s : StreamCell) (result : StreamCell × Engine) : Prop :=
  s.Evolves config index result.1 ∧
    (s.stream.Sound → result.2 ≠ .memory → result.1.stream.Sound)

theorem Settles.steps {result : StreamCell × Engine} (h : s.Settles config index result) :
    s.Steps config index result :=
  ⟨h.1, fun _ => h.2⟩

theorem Settles.after {result : StreamCell × Engine} (h : s.Evolves config index t)
    (h' : t.Settles config index result) : s.Settles config index result :=
  ⟨h.trans h'.1, h'.2⟩

theorem Steps.after {result : StreamCell × Engine} (h : s.Evolves config index t)
    (hs : s.stream.Sound → t.stream.Sound) (h' : t.Steps config index result) :
    s.Steps config index result :=
  ⟨h.trans h'.1, fun hsound => h'.2 (hs hsound)⟩

/-- A closed stream is sound. -/
theorem sound_of_closed {stream : Stream} (h : stream.closed = true) : stream.Sound :=
  ⟨Or.inr (Or.inr (Or.inr h)), fun hopen => by rw [h] at hopen; cases hopen⟩

/-- A stream that has its response is sound. -/
theorem sound_of_response {stream : Stream} (h : stream.response.isSome = true) : stream.Sound :=
  ⟨Or.inr (Or.inr (Or.inl h)), fun _ hnone => by simp [hnone] at h⟩

theorem reset_settles (choice : StreamChoice) : s.Settles config index (s.reset choice) := by
  unfold reset
  split
  · exact ⟨.of_view rfl fun _ => rfl, fun _ => sound_of_closed rfl⟩
  · exact ⟨.of_view rfl fun _ => rfl, fun h => absurd rfl h⟩

theorem submitHttp2_lends {choice : StreamChoice} {stage : Stage}
    (hiso : config.app.isIsolated = true) (hready : s.stream.headReady = true)
    (hbusy : s.stream.Free) (h : s.submitHttp2 choice index stage = some t) :
    s.Evolves config index t ∧ ∃ delivered, t.stream =
      { s.stream with busy := true, lentFor := some stage, delivered := delivered } := by
  obtain ⟨cell, hcell, rfl⟩ := Option.map_eq_some_iff.mp h
  obtain ⟨executor, hexec, rfl⟩ := Option.map_eq_some_iff.mp hcell
  have hsubmit : executor =
      { s.cell.shared.executor with
        queued := s.cell.shared.executor.queued ++ [s.task index stage choice.lane]
        submitted := s.cell.shared.executor.submitted + 1 } := by
    unfold Executor.submit at hexec
    split at hexec
    · cases hexec
    · exact (Option.some.inj hexec).symm
  exact ⟨⟨⟨rfl, rfl, rfl⟩, rfl, rfl, ⟨⟨rfl, rfl⟩, Or.inl ⟨rfl, rfl⟩⟩,
    Or.inr ⟨hiso, hready, hbusy.1, rfl, rfl, stage, choice.lane, rfl, hsubmit⟩⟩, _, rfl⟩

theorem hasResponseStreams_isolated {app : App} (h : app.hasResponseStreams = true) :
    app.isIsolated = true := by
  cases app <;> simp_all [App.hasResponseStreams, App.isIsolated]

theorem startStream_settles (choice : StreamChoice) (happ : config.app.hasResponseStreams = true)
    (hready : s.stream.headReady = true) (hbusy : s.stream.Free)
    (hr : s.stream.response.isSome = true) : s.Settles config index (s.startStream choice index) := by
  unfold startStream
  split
  · exact reset_settles choice
  · split
    · exact reset_settles choice
    · rename_i t ht
      obtain ⟨hevolves, _, hstream⟩ :=
        submitHttp2_lends (hasResponseStreams_isolated happ) hready hbusy ht
      refine ⟨?_, fun _ => sound_of_response (by rw [hstream]; exact hr)⟩
      obtain ⟨ha, hh, hs, hb, hk⟩ := hevolves
      refine ⟨ha, hh, hs, hb, ?_⟩
      rcases hk with ⟨hsame, -⟩ | hlends
      · rw [hstream, hbusy.1] at hsame
        cases hsame
      · exact Or.inr hlends

theorem respond_settles (choice : StreamChoice) (response : Response)
    (hready : s.stream.headReady = true ∨ Cell.isStream response.body = false)
    (hbusy : s.stream.Free) :
    s.Settles config index (s.respond config choice index response) := by
  unfold respond
  dsimp only
  split
  · exact reset_settles choice
  · split
    · exact ⟨.refl .., fun h => absurd rfl h⟩
    · split
      · exact ⟨.of_free hbusy rfl, fun _ => sound_of_response rfl⟩
      · have hset : s.Evolves config index
            (credit { s with stream := { s.stream with response := some response } }) :=
          .of_free hbusy rfl
        split
        · rename_i happ
          refine .after hset (startStream_settles choice happ.1 ?_ hbusy rfl)
          rcases hready with hready | hbytes
          · exact hready
          · rw [hbytes] at happ
            cases happ.2.2
        · exact ⟨hset, fun _ => sound_of_response rfl⟩

/-- A stream without a permit takes one. -/
theorem Evolves.acquire {admission : Admission} {decision : Decision}
    (hbusy : s.stream.Free) (hp : s.stream.permit = none)
    (hactive : admission.active + holds none .admitted =
      s.cell.shared.admission.active + holds (some decision) .admitted)
    (hrejecting : admission.rejecting + holds none .reject =
      s.cell.shared.admission.rejecting + holds (some decision) .reject) :
    s.Evolves config index (s.assign admission decision) := by
  refine ⟨⟨rfl, rfl, rfl⟩, rfl, rfl, ⟨?_, Or.inr ⟨hp, nofun, rfl⟩⟩,
    Or.inl ⟨rfl, rfl, rfl, rfl, fun h => by rw [hbusy.1] at h; cases h⟩⟩
  rw [Balanced, hp]
  exact ⟨hactive, hrejecting⟩

theorem status_settles (choice : StreamChoice) (code : Nat) (hbusy : s.stream.Free) :
    s.Settles config index (s.status config choice index code) := by
  unfold status
  dsimp only
  split
  · rename_i hnone
    have hpermit : s.stream.permit = none := Option.isNone_iff_eq_none.mp hnone
    obtain ⟨hactive, hrejecting⟩ :=
      acquireRejection_counts (s.cell.shared.admission.refill choice.now)
    split
    · exact .after (.acquire hbusy hpermit hactive hrejecting) (reset_settles choice)
    · exact .after (.acquire hbusy hpermit hactive hrejecting)
        (respond_settles choice _ (Or.inr rfl) hbusy)
  · exact respond_settles choice _ (Or.inr rfl) hbusy

theorem submitStage_steps (choice : StreamChoice) (stage : Stage)
    (hiso : config.app.isIsolated = true) (hready : s.stream.headReady = true) (hbusy : s.stream.Free)
    (hstage : stage ≠ .body)
    (hsized : s.stream.Sound → s.stream.taskBodyLen = 0) :
    s.Steps config index (s.submitStage config choice index stage) := by
  unfold submitStage
  split
  · rename_i t ht
    obtain ⟨hevolves, _, hstream⟩ := submitHttp2_lends hiso hready hbusy ht
    refine ⟨hevolves, fun hsound _ => ?_⟩
    rw [hstream]
    refine ⟨hsound.1, fun _ _ => ?_⟩
    rw [if_neg (by simpa using hstage)]
    exact hsized hsound
  · exact (status_settles choice 503 hbusy).steps

/-- A stream that can still be advanced lends no part of its body. -/
theorem Sound.unlent {stream : Stream} (h : stream.Sound) (hbusy : stream.Free)
    (hclosed : stream.closed = false) (hr : stream.response = none) : stream.taskBodyLen = 0 := by
  have := h.2 hclosed hr
  rwa [hbusy.2, if_neg nofun] at this

theorem advanceEnd_steps (choice : StreamChoice) (hready : s.stream.headReady = true)
    (hbusy : s.stream.Free)
    (hclosed : s.stream.closed = false) (hr : s.stream.response = none) :
    s.Steps config index (s.advanceEnd config choice index) := by
  unfold advanceEnd
  split
  · exact ⟨.refl .., fun h _ => h⟩
  · have hset : s.Evolves config index
        { s with stream := { s.stream with requestTrailers := s.stream.trailerFields } } :=
      .of_free hbusy rfl
    dsimp only
    split
    · rename_i hiso
      exact .after hset id (submitStage_steps choice .response hiso hready hbusy nofun
        fun hsound => Sound.unlent hsound hbusy hclosed hr)
    · exact (Settles.after hset (respond_settles choice _ (Or.inl hready) hbusy)).steps

theorem advanceBody_steps (choice : StreamChoice) (hready : s.stream.headReady = true)
    (hbusy : s.stream.Free)
    (hclosed : s.stream.closed = false) (hr : s.stream.response = none) :
    s.Steps config index (s.advanceBody config choice index) := by
  unfold advanceBody
  split
  · exact ⟨.refl .., fun h _ => h⟩
  · split
    · exact advanceEnd_steps choice hready hbusy hclosed hr
    · split
      · rename_i hiso
        have hset : s.Evolves config index
            { s with stream := { s.stream with taskBodyLen := s.stream.body.length } } :=
          .of_free hbusy rfl
        -- The prefix is recorded before the task is accepted, which keeps only the permit's half.
        unfold submitStage
        split
        · rename_i t ht
          obtain ⟨hevolves, _, hstream⟩ := submitHttp2_lends
            (s := { s with stream := { s.stream with taskBodyLen := s.stream.body.length } })
            hiso.1 hready hbusy ht
          refine ⟨hset.trans hevolves, fun hsound _ => ?_⟩
          rw [hstream]
          refine ⟨hsound.1, fun _ _ => ?_⟩
          simp only [if_true, Nat.le_refl]
        · exact (Settles.after hset (status_settles choice 503 hbusy)).steps
      · have hdeliver : s.Evolves config index
            { s with stream := { s.stream with delivered := s.stream.delivered ++ s.stream.body } } :=
          .of_free hbusy rfl
        dsimp only
        split
        · exact (Settles.after hdeliver (status_settles choice 413 hbusy)).steps
        · split
          · exact ⟨hdeliver, fun h _ => h⟩
          · have hset : s.Evolves config index (credit
                { s with
                  stream := { s.stream with delivered := s.stream.delivered ++ s.stream.body } }) :=
              .of_free hbusy rfl
            refine .after hset (fun hsound => ⟨hsound.1, fun hc hn => ?_⟩)
              (advanceEnd_steps choice hready hbusy hclosed hr)
            have hzero := Sound.unlent hsound hbusy hc hn
            simpa [credit, hbusy.2] using hzero

theorem headDone_steps (choice : StreamChoice) (hready : s.stream.headReady = true)
    (hbusy : s.stream.Free)
    (hclosed : s.stream.closed = false) (hr : s.stream.response = none) :
    s.Steps config index (s.headDone config choice index) := by
  unfold headDone
  dsimp only
  have hset : s.Evolves config index { s with stream := { s.stream with headDone := true } } :=
    .of_free hbusy rfl
  split
  · exact ⟨hset, fun h _ => h⟩
  · exact .after hset id (advanceBody_steps choice hready hbusy hclosed hr)

/-- An initialized stream owns its permit, whatever it had before. -/
theorem advanceHead_steps (config : Config) (index : Nat) (choice : StreamChoice)
    (hready : s.stream.headReady = true) (hbusy : s.stream.Free)
    (hclosed : s.stream.closed = false) (hr : s.stream.response = none) :
    s.Evolves config index (s.advanceHead config choice index).1 ∧
      (s.stream.Sized → (s.advanceHead config choice index).2 ≠ .memory →
        (s.advanceHead config choice index).1.stream.Sound) := by
  have hset : s.Evolves config index { s with stream := { s.stream with initialized := true } } :=
    .of_free hbusy rfl
  have hsound : s.stream.Sized → Stream.Sound { s.stream with initialized := true } :=
    fun h => ⟨Or.inr (Or.inl rfl), h⟩
  have hjoin : ∀ result, Steps config index
      { s with stream := { s.stream with initialized := true } } result →
      s.Evolves config index result.1 ∧
        (s.stream.Sized → result.2 ≠ .memory → result.1.stream.Sound) :=
    fun result h => ⟨hset.trans h.1, fun hsized => h.2 (hsound hsized)⟩
  unfold advanceHead
  dsimp only
  split
  · refine hjoin _ (Settles.steps (respond_settles choice _ (Or.inl ?_) ?_))
    · exact hready
    · exact hbusy
  · split
    · exact hjoin _ (headDone_steps choice hready hbusy hclosed hr)
    · rename_i hiso
      split
      · refine hjoin _ (submitStage_steps choice .head (by simpa using hiso) hready hbusy nofun ?_)
        intro h
        have hzero : s.stream.taskBodyLen = 0 := by simpa [hbusy.2] using h.2 hclosed hr
        exact hzero
      · split
        · refine hjoin _ (Settles.steps (respond_settles choice _ (Or.inl ?_) ?_))
          · exact hready
          · exact hbusy
        · exact hjoin _ (headDone_steps choice hready hbusy hclosed hr)

theorem advance_steps (choice : StreamChoice) (hready : s.stream.headReady = true)
    (hbusy : s.stream.Free)
    (hclosed : s.stream.closed = false) (hr : s.stream.response = none)
    (howned : s.stream.Owned) : s.Steps config index (s.advance config choice index) := by
  unfold advance
  split
  · exact advanceBody_steps choice hready hbusy hclosed hr
  · rename_i hinit
    have hpermit : s.stream.permit = none := by
      rcases howned with h | h | h | h
      · exact h
      · exact absurd h hinit
      · simp [hr] at h
      · rw [hclosed] at h
        cases h
    split
    · exact (status_settles choice _ hbusy).steps
    · obtain ⟨hactive, hrejecting⟩ := acquire_counts s.cell.shared.admission choice.now false
      have hacquire : s.Evolves config index _ :=
        Evolves.acquire hbusy hpermit hactive hrejecting
      dsimp only
      generalize s.cell.shared.admission.acquire choice.now false = outcome at hacquire
      obtain ⟨admission, decision⟩ := outcome
      cases decision with
      | reject => exact (Settles.after hacquire (status_settles choice _ hbusy)).steps
      | close => exact (Settles.after hacquire (reset_settles choice)).steps
      | admitted =>
          dsimp only
          split
          · have hhead := advanceHead_steps config index choice
              (s := s.assign admission .admitted) hready hbusy hclosed hr
            exact ⟨hacquire.trans hhead.1, fun hsound => hhead.2 hsound.2⟩
          · exact ⟨hacquire, fun _ h => absurd rfl h⟩

theorem expire_settles (choice : StreamChoice) :
    s.Steps config index (expire choice s) := by
  unfold expire
  split
  · exact (reset_settles choice).steps
  · exact ⟨.refl .., fun h _ => h⟩

theorem driveOpen_steps (choice : StreamChoice) (howned : s.stream.Owned) (hlent : s.stream.Lent) :
    s.Steps config index (s.driveOpen config choice index) := by
  unfold driveOpen
  split
  · exact ⟨.refl .., fun h _ => h⟩
  · rename_i hclosed
    split
    · rename_i hready
      exact advance_steps choice hready.2.2 (hlent.free (by simpa using hready.1)) (by simpa using hclosed)
        (by simpa using hready.2.1) howned
    · split
      · split
        · exact (reset_settles choice).steps
        · exact ⟨.refl .., fun h _ => h⟩
      · exact ⟨.refl .., fun h _ => h⟩

theorem creditAtOnce_steps (choice : StreamChoice) (bytes : Bytes) (engine : Engine) :
    s.Steps config index (s.creditAtOnce choice bytes, engine) := by
  unfold creditAtOnce
  split
  · exact ⟨.of_view rfl fun _ => rfl, fun h _ => h⟩
  · exact ⟨.refl .., fun h _ => h⟩

theorem acceptBody_steps (choice : StreamChoice) (bytes : Bytes) (hsound : s.stream.Sound)
    (hlent : s.stream.Lent) :
    s.Steps config index (s.acceptBody config choice index bytes) := by
  -- The length is counted before the bytes are stored.
  have hcount (count : Nat) : s.Evolves config index
      { s with stream := { s.stream with bodyReceived := count } } := .of_view rfl fun _ => rfl
  unfold acceptBody
  dsimp only
  split
  · exact creditAtOnce_steps choice bytes _
  · rename_i hopen
    have hclosed : s.stream.closed = false := by grind
    have hr : s.stream.response = none := by
      cases h : s.stream.response <;> grind
    have hsized := hsound.2 hclosed hr
    split
    · split
      · exact (reset_settles choice).steps
      · rename_i hbusy
        exact (status_settles choice 413 (hlent.free (by simpa using hbusy))).steps
    · split
      · exact ⟨hcount _, fun h _ => h⟩
      · split
        · exact ⟨hcount _, fun h _ => h⟩
        · -- Input behind the lent prefix does not change it.
          refine ⟨.of_view rfl fun hbusy => ?_, fun h _ => ⟨h.1, fun hc hn => ?_⟩⟩
          · have hle : s.stream.taskBodyLen ≤ s.stream.body.length := by grind
            simp only [Stream.view, List.take_append_of_le_length hle]
          · have := h.2 hc hn
            show if s.stream.lentFor = some .body then
                s.stream.taskBodyLen ≤ (s.stream.body ++ bytes).length
              else s.stream.taskBodyLen = 0
            rw [List.length_append]
            grind

theorem receiveBody_steps (choice : StreamChoice) (bytes : Bytes) (hsound : s.stream.Sound)
    (hlent : s.stream.Lent) :
    s.Steps config index (s.receiveBody config choice index bytes) :=
  .after (.of_view rfl fun _ => rfl) id (acceptBody_steps (s := s.record bytes) choice bytes hsound hlent)

/-- The stream without its task. -/
def returned (s : StreamCell) : StreamCell :=
  { s with stream := { s.stream with busy := false, lentFor := none } }

/-- A completion ends the loan; only a missing response is recorded as a fault. -/
theorem complete_steps (config : Config) (index : Nat) (s : StreamCell) (choice : StreamChoice)
    (stage : Stage) (response : Option Response) (expired : Bool) (hbusy : s.stream.busy = true)
    (hstage : s.stream.lentFor = some stage) (hready : s.stream.headReady = true) :
    ∃ faults, (∀ fault ∈ faults, fault ∈ s.cell.shared.faults ∨ fault = .response) ∧
      ({ s.returned with
        cell := { s.cell with shared := { s.cell.shared with faults := faults } } } :
          StreamCell).Evolves config index
        (s.complete config choice index stage response expired).1 ∧
      (s.stream.Sound → (s.complete config choice index stage response expired).2 ≠ .memory →
        (s.complete config choice index stage response expired).1.stream.Sound) := by
  have hfree : s.returned.stream.Free := ⟨rfl, rfl⟩
  unfold complete
  dsimp only
  rw [show s.cell.check s.stream.busy .busy = s.cell by simp [Cell.check, hbusy]]
  have hsettles : ∀ result, Settles config index s.returned result →
      ∃ faults, (∀ fault ∈ faults, fault ∈ s.cell.shared.faults ∨ fault = .response) ∧
        ({ s.returned with
          cell := { s.cell with shared := { s.cell.shared with faults := faults } } } :
            StreamCell).Evolves config index result.1 ∧
        (s.stream.Sound → result.2 ≠ .memory → result.1.stream.Sound) :=
    fun result h => ⟨_, fun _ => Or.inl, h.1, fun _ => h.2⟩
  split
  · rename_i hclosed
    exact ⟨_, fun _ => Or.inl, .refl .., fun _ _ => sound_of_closed hclosed⟩
  · rename_i hclosed
    split
    · exact hsettles _ (reset_settles choice)
    · split
      · exact hsettles _ (respond_settles choice _ (Or.inl hready) hfree)
      · unfold completeStage
        -- Unless the body was lent, nothing of it has to be given back.
        have hsized : stage ≠ .body → s.stream.Sound → s.returned.stream.Sound := by
          intro hne hsound
          refine ⟨hsound.1, fun hc hr => ?_⟩
          have := hsound.2 hc hr
          rw [hstage, if_neg (by simpa using hne)] at this
          rw [if_neg nofun]
          exact this
        split
        · exact ⟨_, fun _ => Or.inl, .of_free hfree rfl, fun h _ => hsized nofun h⟩
        · refine ⟨_, fun _ => Or.inl, .of_free hfree rfl, fun h _ => ⟨h.1, fun _ _ => ?_⟩⟩
          rw [if_neg nofun]
        · refine ⟨.response :: s.cell.shared.faults, ?_, .refl .., fun h _ => hsized nofun h⟩
          intro fault hmem
          rcases List.mem_cons.mp hmem with rfl | hmem
          · exact Or.inr rfl
          · exact Or.inl hmem
        · exact ⟨_, fun _ => Or.inl, .refl .., fun h _ => hsized nofun h⟩
        · exact ⟨_, fun _ => Or.inl, .refl .., fun h _ => hsized nofun h⟩

end StreamCell

end Zhtps.Worker
