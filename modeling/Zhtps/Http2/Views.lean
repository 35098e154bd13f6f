import Zhtps.Http2.Delivery

/-!
What the callbacks of a response body find, said by what the stream holds, and the production of a
whole body.  A callback that answers at once finds a buffered body or a fragment; one over a
publication finds what its load shows and answers that, whatever the others do in between.
-/

namespace Zhtps.Produce

open Lib
open ResponseStream (stepTransport)

variable {σ : Type} {app : App σ} {s s' : Stream σ}

/-! ### What is found -/

/-- What a callback finds that answers at once: nothing of a closed stream, the rest of a buffered
body, the rest of a pending fragment, or what the producer gives next. -/
structure Stream.Finds (app : App σ) (s : Stream σ) (v : View) : Prop where
  closed : s.source.closed = true → v.broken = true
  bytes : ∀ bytes, s.source.closed = false → s.body = .bytes bytes →
    v = { delivered := (delivered s.calls).length
          rest := bytes.drop (delivered s.calls).length
          ended := true
          buffered := true }
  fragment : ∀ length, s.source.closed = false → s.body = .stream length →
    s.fragment.len ≠ 0 ∨ s.producerDone = true →
    v = { declared := length
          delivered := (delivered s.calls).length
          rest := s.memory.read s.fragment
          ended := s.producerDone }
  produced : ∀ length, s.source.closed = false → s.body = .stream length →
    s.fragment.len = 0 → s.producerDone = false →
    v = match app.produce s.exchange s.memory s.outputBytes with
      | (_, _, none) =>
          { declared := length, delivered := (delivered s.calls).length, ended := true }
      | (_, memory, some fragment) =>
          { declared := length
            delivered := (delivered s.calls).length
            rest := memory.read fragment
            broken := fragment.len = 0 }

/-- What a load of `publication` shows.  All that is published and not delivered is at hand while the
publication is ready; the end shows once the task is idle. -/
structure Stream.Shows (s : Stream σ) (v : View) : Prop where
  declared : ∀ length, s.body = .stream length → v.declared = length
  delivered : v.delivered = (Produce.delivered s.calls).length
  unbuffered : v.buffered = false
  broken : v.broken = true ↔ s.source.publication = .failed
  ended : v.ended = true ↔ s.source.publication = .finished ∧ s.source.busy = false
  waiting : s.source.publication ≠ .ready → v.rest = []
  ready : s.source.publication = .ready →
    v.rest ≠ [] ∧ Produce.delivered s.calls ++ v.rest = s.source.written

/-- The action loads `publication`. -/
def Stream.loads (s : Stream σ) : Action → Bool
  | .transport _ =>
      match s.source.transport with
      | .load _ => true
      | _ => false
  | _ => false

/-- The stream after a callback that answered at once. -/
structure Replied (app : App σ) (s : Stream σ) (room : Nat) (s' : Stream σ) : Prop where
  idle : s'.calling = false
  found : ∃ v, s.Finds app v ∧ s'.calls = s.calls ++ [⟨v, room, v.answer room⟩]

/-- The stream after a callback that loads a publication next. -/
structure Entered (app : App σ) (s : Stream σ) (room : Nat) (s' : Stream σ) : Prop where
  streams : app.hasResponseStreams = true ∧ s.source.closed = false ∧ ∃ length, s.body = .stream length
  calling : s'.calling = true
  load : s'.source.transport = .load (some room)
  room : s'.room = room
  calls : s'.calls = s.calls

/-! ### Callbacks that answer at once -/

/-- The answer in the last callback of a sound stream is what the body is owed. -/
theorem Sound.last_answer (h : Sound app s') {calls : List Call} {call : Call}
    (hcalls : s'.calls = calls ++ [call]) : call.answer = call.view.answer call.room :=
  (h.base.answered calls call [] hcalls).2.2.1

theorem callBytes_finds (h : Sound app s) {bytes : Bytes} (hbody : s.body = .bytes bytes)
    (hclosed : s.source.closed = false) : s.Finds app (s.bytesView bytes) := by
  have hprogress := (progress_bytes hbody).mp h.progress
  have hproduced := h.base.produced
  have hoffset : (delivered s.calls).length = s.responseOffset := by
    rw [hprogress.2.2, List.length_take, Nat.min_eq_left hprogress.2.1]
  constructor
  · intro hyes
    rw [hyes] at hclosed
    cases hclosed
  · intro bytes' _ hbytes
    rw [hbody] at hbytes
    cases hbytes
    rw [hoffset, Stream.bytesView, hproduced, hoffset]
  · intro length _ hstream
    rw [hbody] at hstream
    cases hstream
  · intro length _ hstream
    rw [hbody] at hstream
    cases hstream

/-- A pull takes the next fragment only where the last one is exhausted. -/
theorem callFragment_finds (h : Sound app s) {length : Option Nat} (hbody : s.body = .stream length)
    (hclosed : s.source.closed = false) :
    s.Finds app ((s.pull app).1.fragmentView length (s.pull app).2) := by
  have hproduced := h.base.produced
  have hempty : ∀ {memory : Memory UInt8}, s.fragment.len = 0 → memory.read s.fragment = [] :=
    fun hlen => List.eq_nil_of_length_eq_zero ((Memory.length_read _ _).trans hlen)
  constructor
  · intro hyes
    rw [hyes] at hclosed
    cases hclosed
  · intro bytes _ hbytes
    rw [hbody] at hbytes
    cases hbytes
  · intro length' _ hstream hkept
    rw [hbody] at hstream
    cases hstream
    have hpull : s.pull app = (s, false) := by
      unfold Stream.pull
      rw [if_neg]
      rintro ⟨hzero, hmore⟩
      rcases hkept with hne | hdone
      · exact hne hzero
      · rw [hdone] at hmore
        cases hmore
    rw [hpull, Stream.fragmentView, hproduced]
  · intro length' _ hstream hzero hmore
    rw [hbody] at hstream
    cases hstream
    unfold Stream.pull
    rw [if_pos ⟨hzero, by rw [hmore]; rfl⟩]
    cases app.produce s.exchange s.memory s.outputBytes with
    | mk exchange produced =>
        obtain ⟨memory, next⟩ := produced
        cases next with
        | none =>
            simp only [Stream.fragmentView, hproduced, hempty hzero]
        | some fragment =>
            -- an empty fragment is an error and is not kept
            by_cases hlen : fragment.len = 0
            · have hread : memory.read fragment = [] :=
                List.eq_nil_of_length_eq_zero ((Memory.length_read _ _).trans hlen)
              simp only [hlen, if_true, Stream.fragmentView, hproduced, hempty hzero, hmore, hread,
                decide_true]
            · simp only [hlen, if_false, Stream.fragmentView, hproduced, hmore, decide_false]

/-- The fragment path answers over what its pull has left. -/
theorem callFragment_calls (h : Sound app s) {length : Option Nat} (hbody : s.body = .stream length)
    (hstreams : app.hasResponseStreams = false) (room : Nat) :
    (s.callFragment app length room).calling = false ∧
      ∃ answer, (s.callFragment app length room).calls = s.calls ++
        [⟨(s.pull app).1.fragmentView length (s.pull app).2, room, answer⟩] := by
  have hprogress := (progress_fragments hbody hstreams).mp h.progress
  have hpulled := pull_spec app hprogress.2
  unfold Stream.callFragment
  generalize s.pull app = pair at hpulled ⊢
  obtain ⟨next, broken⟩ := pair
  have hcalls : next.calls = s.calls := hpulled.calls
  dsimp only
  split
  · exact ⟨rfl, _, by rw [← hcalls]; rfl⟩
  · split
    · exact ⟨rfl, _, by rw [← hcalls]; rfl⟩
    · exact ⟨rfl, _, by rw [← hcalls]; rfl⟩

/-- A callback answers what it finds, or goes on to load the publication. -/
theorem Sound.call_finds (h : Sound app s) {room : Nat} (hstep : s.call app room = some s') :
    Replied app s room s' ∨ Entered app s room s' := by
  have hsound := h.call hstep
  unfold Stream.call at hstep
  split at hstep
  · cases hstep
  · split at hstep
    · rename_i hclosed
      cases hstep
      refine .inl ⟨rfl, _, ⟨fun _ => rfl, ?_, ?_, ?_⟩, rfl⟩
      -- nothing else is said of a closed stream
      all_goals
        intro _ hopen
        rw [hclosed] at hopen
        cases hopen
    · rename_i hopen
      have hclosed : s.source.closed = false := by simpa using hopen
      cases hbody : s.body with
      | bytes bytes =>
          rw [hbody] at hstep
          cases hstep
          obtain ⟨answer, hcalls⟩ : ∃ answer, (s.callBytes bytes room).calls =
              s.calls ++ [⟨s.bytesView bytes, room, answer⟩] := ⟨_, rfl⟩
          have hanswer := hsound.last_answer hcalls
          refine .inl ⟨rfl, s.bytesView bytes, callBytes_finds h hbody hclosed, ?_⟩
          rw [hcalls, ← hanswer]
      | stream length =>
          rw [hbody] at hstep
          dsimp only at hstep
          split at hstep
          · rename_i hstreams
            obtain ⟨source, hsource, rfl⟩ := Option.map_eq_some_iff.mp hstep
            simp only [ResponseStream.step] at hsource
            split at hsource
            · cases hsource
              exact .inr ⟨⟨hstreams, hclosed, length, hbody⟩, rfl, rfl, rfl, rfl⟩
            · cases hsource
          · rename_i hstreams
            cases hstep
            obtain ⟨hcalling, answer, hcalls⟩ :=
              callFragment_calls h hbody (by simpa using hstreams) room
            have hanswer := hsound.last_answer hcalls
            refine .inl ⟨hcalling, _, callFragment_finds h hbody hclosed, ?_⟩
            rw [hcalls, ← hanswer]

/-- Whatever the stream holds, a destination that nghttp2 may offer is answered or entered. -/
theorem call_isSome (app : App σ) {room : Nat} (hroom : 0 < room) (hopen : s.isOpen = true)
    (hidle : s.source.transport = .idle) : (s.call app room).isSome = true := by
  unfold Stream.call
  rw [if_neg (by simp [Nat.ne_of_gt hroom, hopen, hidle])]
  split
  · rfl
  · rename_i hclosed
    split
    · rfl
    · split
      · simp [ResponseStream.step, hidle, hclosed]
      · rfl

/-! ### Callbacks over a publication -/

/-- The load shows the publication. -/
theorem Sound.load_shows (h : Sound app s) {room : Option Nat}
    (ht : s.source.transport = .load room) {length : Option Nat} (hbody : s.body = .stream length) :
    s.Shows (s.publicationView length) := by
  obtain ⟨length', hbody', -, hpublishing⟩ := h.inCall (by rw [ht]; trivial)
  unfold Publishing at hpublishing
  rw [ht] at hpublishing
  obtain ⟨-, -, hcopied, -⟩ := hpublishing
  constructor
  · intro other hother
    rw [hbody] at hother
    cases hother
    rfl
  · exact h.base.produced
  · rfl
  · simp [Stream.publicationView]
  · simp [Stream.publicationView]
  · intro hnot
    simp only [Stream.publicationView, if_neg hnot]
  · intro hready
    obtain ⟨hall, hlength, hlt⟩ := rest_ready h.base.inv h.base.unspent ht hready
    simp only [Stream.publicationView, if_pos hready]
    refine ⟨fun hnil => ?_, by rw [← hcopied]; exact hall⟩
    rw [hnil, List.length_nil] at hlength
    omega

/-- A step that is no callback leaves what was found and answered, or lets the callback return. -/
structure Continues (s s' : Stream σ) : Prop where
  room : s'.room = s.room
  view : s'.view = s.view ∨ ∃ length room, s.body = .stream length ∧
    s.source.transport = .load room ∧ s'.view = s.publicationView length
  calls : s'.calls = s.calls ∧ s'.calling = s.calling ∨
    s'.calling = false ∧ InCall s.source.transport ∧
      ∃ answer, s'.calls = s.calls ++ [⟨s.view, s.room, answer⟩]

theorem Continues.still {source : ResponseStream.State} :
    Continues s { s with source } := ⟨rfl, .inl rfl, .inl ⟨rfl, rfl⟩⟩

theorem finish_continues (hin : InCall s.source.transport) (source : ResponseStream.State)
    (deferred : Bool) (result : Result) :
    Continues s (({ s with source, responseDeferred := deferred } : Stream σ).finish result) :=
  ⟨rfl, .inl rfl, .inr ⟨rfl, hin, _, rfl⟩⟩

theorem loaded_continues {length : Option Nat} {seen : ResponseStream.Publication}
    {room : Option Nat} (hin : InCall s.source.transport)
    (hstep : s.loaded length seen room = some s') : Continues s s' := by
  unfold Stream.loaded at hstep
  cases seen with
  | writing =>
      obtain ⟨source, -, rfl⟩ := Option.map_eq_some_iff.mp hstep
      exact finish_continues hin source true _
  | ready =>
      dsimp only at hstep
      split at hstep
      · obtain ⟨source, -, rfl⟩ := Option.map_eq_some_iff.mp hstep
        exact finish_continues hin source s.responseDeferred _
      · obtain ⟨source, -, rfl⟩ := Option.map_eq_some_iff.mp hstep
        exact .still
  | finished =>
      dsimp only at hstep
      split at hstep
      · obtain ⟨source, -, rfl⟩ := Option.map_eq_some_iff.mp hstep
        exact finish_continues hin source true _
      · split at hstep
        · cases hstep
          exact finish_continues hin _ s.responseDeferred _
        · obtain ⟨source, -, rfl⟩ := Option.map_eq_some_iff.mp hstep
          exact finish_continues hin source s.responseDeferred _
  | failed =>
      obtain ⟨source, -, rfl⟩ := Option.map_eq_some_iff.mp hstep
      exact finish_continues hin source s.responseDeferred _

theorem transport_continues {count : Nat} (hstep : s.transport count = some s') :
    Continues s s' := by
  unfold Stream.transport at hstep
  split at hstep
  next length room hbody ht =>
    obtain ⟨source, -, rfl⟩ := Option.map_eq_some_iff.mp hstep
    exact ⟨rfl, .inr ⟨length, room, hbody, ht, rfl⟩, .inl ⟨rfl, rfl⟩⟩
  next length seen room hbody ht =>
    exact loaded_continues (by rw [ht]; trivial) hstep
  next done goal len ht =>
    obtain ⟨source, -, rfl⟩ := Option.map_eq_some_iff.mp hstep
    split
    · exact ⟨rfl, .inl rfl, .inl ⟨rfl, rfl⟩⟩
    · split
      · exact .still
      · exact finish_continues (by rw [ht]; trivial) source s.responseDeferred _
  next ht =>
    obtain ⟨source, -, rfl⟩ := Option.map_eq_some_iff.mp hstep
    exact finish_continues (by rw [ht]; trivial) source s.responseDeferred _
  next =>
    obtain ⟨source, -, rfl⟩ := Option.map_eq_some_iff.mp hstep
    exact .still

theorem step_continues {action : Action} (haction : ∀ room, action ≠ .call room)
    (hstep : step app s action = some s') : Continues s s' := by
  cases action with
  | call room => exact absurd rfl (haction room)
  | transport count => exact transport_continues hstep
  | resume =>
      simp only [step, Stream.resume] at hstep
      split at hstep
      · cases hstep
        exact ⟨rfl, .inl rfl, .inl ⟨rfl, rfl⟩⟩
      · cases hstep
  | outside action =>
      simp only [step] at hstep
      split at hstep
      · obtain ⟨source, -, rfl⟩ := Option.map_eq_some_iff.mp hstep
        exact .still
      · cases hstep

/-- The stream after a step that is no callback: the room stays, only a load changes what is found,
and a callback that returns answers what its load has shown. -/
structure Keeps (s : Stream σ) (action : Action) (s' : Stream σ) : Prop where
  room : s'.room = s.room
  view : s.loads action = false → s'.view = s.view
  load : s.loads action = true → s.Shows s'.view
  calls : s'.calls = s.calls ∧ s'.calling = s.calling ∨
    s.calling = true ∧ s'.calling = false ∧
      s'.calls = s.calls ++ [⟨s.view, s.room, s.view.answer s.room⟩]

theorem transport_loads {count : Nat} (hloads : s.loads (.transport count) = true) :
    ∃ room, s.source.transport = .load room := by
  unfold Stream.loads at hloads
  dsimp only at hloads
  split at hloads
  · rename_i room ht
    exact ⟨room, ht⟩
  · cases hloads

theorem step_keeps (h : Sound app s) {action : Action} (haction : ∀ room, action ≠ .call room)
    (hstep : step app s action = some s') : Keeps s action s' := by
  have hcontinues := step_continues haction hstep
  have hsound := h.step hstep
  refine ⟨hcontinues.room, fun hloads => ?_, fun hloads => ?_, ?_⟩
  · rcases hcontinues.view with hview | ⟨length, room, hbody, ht, hview⟩
    · exact hview
    · -- only the load itself is taken from there
      cases action with
      | call room => exact absurd rfl (haction room)
      | transport count =>
          simp only [Stream.loads, ht] at hloads
          cases hloads
      | resume =>
          simp only [step, Stream.resume, ht] at hstep
          simp at hstep
      | outside action =>
          simp only [step] at hstep
          split at hstep
          · obtain ⟨source, -, rfl⟩ := Option.map_eq_some_iff.mp hstep
            rfl
          · cases hstep
  · cases action with
    | call room => exact absurd rfl (haction room)
    | resume => cases hloads
    | outside action => cases hloads
    | transport count =>
        obtain ⟨room, ht⟩ := transport_loads hloads
        obtain ⟨length, hbody, -, -⟩ := h.inCall (by rw [ht]; trivial)
        have hload : s.transport count = some s' := hstep
        rw [transport_load hbody ht count] at hload
        obtain ⟨source, -, rfl⟩ := Option.map_eq_some_iff.mp hload
        exact h.load_shows ht hbody
  · rcases hcontinues.calls with hsame | ⟨hidle, hin, answer, hcalls⟩
    · exact .inl hsame
    · have hanswer : answer = s.view.answer s.room := hsound.last_answer hcalls
      exact .inr ⟨h.calling.mpr hin, hidle, hanswer ▸ hcalls⟩

/-! ### Buffered bodies -/

/-- The callbacks over a buffered body: one that does not fail delivers as much of the rest as fits,
with the end of file where that is all of it. -/
def Parts (bytes : Bytes) (calls : List Call) : Prop :=
  (∀ before call after, calls = before ++ call :: after →
    call.answer = .error ∨
      call.answer = .data ((bytes.drop (delivered before).length).take call.room)
        (decide (bytes.length ≤ (delivered before).length + call.room))) ∧
  delivered calls =
    bytes.take ((calls.filter fun call => call.answer != .error).map Call.room).sum

theorem Parts.snoc {bytes : Bytes} {calls : List Call} {call : Call} (h : Parts bytes calls)
    (hanswer : call.answer = .error ∨
      call.answer = .data ((bytes.drop (delivered calls).length).take call.room)
        (decide (bytes.length ≤ (delivered calls).length + call.room))) :
    Parts bytes (calls ++ [call]) := by
  obtain ⟨hall, hsum⟩ := h
  constructor
  · intro before other after heq
    rcases List.eq_nil_or_concat after with rfl | ⟨after, last, rfl⟩
    · obtain ⟨rfl, hcall⟩ := List.append_inj' heq rfl
      obtain rfl : call = other := List.singleton_inj.mp hcall
      exact hanswer
    · rw [List.concat_eq_append, ← List.cons_append, ← List.append_assoc] at heq
      exact hall before other after (List.append_inj' heq rfl).1
  · rw [delivered_snoc, List.filter_append, List.map_append, List.sum_append]
    rcases hanswer with herror | hdata
    · simp [herror, Answer.bytes, hsum]
    · have hkept : ([call].filter fun call => call.answer != .error) = [call] := by
        simp [hdata]
      rw [hkept, hdata, hsum]
      simp only [Answer.bytes, List.map_cons, List.map_nil, List.sum_cons, List.sum_nil, Nat.add_zero]
      -- the rest behind so many bytes, also where they are more than there are
      generalize ((calls.filter fun call => call.answer != .error).map Call.room).sum = count
      rw [List.take_add, List.length_take]
      by_cases hle : count ≤ bytes.length
      · rw [Nat.min_eq_left hle]
      · have hlong : bytes.length ≤ count := Nat.le_of_not_le hle
        rw [Nat.min_eq_right hlong, List.drop_length, List.drop_eq_nil_of_le hlong]

/-- The answer that a buffered body is owed. -/
theorem View.answer_buffered (bytes : Bytes) (count room : Nat) :
    View.answer
        { delivered := count, rest := bytes.drop count, ended := true, buffered := true } room =
      .data ((bytes.drop count).take room) (decide (bytes.length ≤ count + room)) := by
  by_cases hrest : bytes.drop count = []
  · rw [View.answer_end rfl hrest, hrest]
    have hle := List.drop_eq_nil_iff.mp hrest
    simp [show bytes.length ≤ count + room by omega]
  · have hend : decide (bytes.length - count ≤ room) = decide (bytes.length ≤ count + room) :=
      decide_eq_decide.mpr (by omega)
    rw [View.answer_rest rfl hrest]
    simp only [List.length_drop, Option.any_none, Bool.false_eq_true, if_false, Bool.true_and, hend]

theorem step_parts (h : Sound app s) {bytes : Bytes} (hbody : s.body = .bytes bytes)
    {action : Action} (hparts : Parts bytes s.calls) (hstep : step app s action = some s') :
    Parts bytes s'.calls := by
  by_cases hcall : ∃ room, action = .call room
  · obtain ⟨room, rfl⟩ := hcall
    rcases h.call_finds hstep with ⟨-, v, hfinds, hcalls⟩ | ⟨⟨-, -, length, hstream⟩, -, -, -, -⟩
    · rw [hcalls]
      refine hparts.snoc ?_
      cases hclosed : s.source.closed with
      | true => exact .inl (View.answer_broken (hfinds.closed hclosed) room)
      | false =>
          right
          rw [hfinds.bytes bytes hclosed hbody]
          exact View.answer_buffered bytes _ room
    · rw [hbody] at hstream
      cases hstream
  · -- a buffered body has no callback that is still to return
    have hkeeps := step_keeps h (fun room heq => hcall ⟨room, heq⟩) hstep
    rcases hkeeps.calls with ⟨hcalls, -⟩ | ⟨hcalling, -, -⟩
    · rw [hcalls]
      exact hparts
    · rw [((progress_bytes hbody).mp h.progress).1] at hcalling
      cases hcalling

/-! ### The whole body -/

/-- For every response body, every destination that nghttp2 offers and every interleaving with the
producer's task: each callback answers what the body is owed as it finds it, with the bytes behind
those that are delivered, and none follows an end or an error; the payload begins the body's text
and keeps within a declared length; and where the body ends all of its text is delivered, which has
the declared length unless the callback is answered with an error.

What a callback finds is what the stream holds: a destination is always answered, or the publication
is loaded for it and the answer follows that load.  So the callbacks of a buffered body deliver its
first bytes, as many as their destinations have room for, and the one that reaches the last byte
signals the end. -/
theorem produce_body (app : App σ) (body : Body) (exchange : σ) (memory : Memory UInt8)
    (outputBytes : Slice) (buffer : Bytes) (actions : List Action) (s : Stream σ)
    (h : run (step app) (init body exchange memory outputBytes buffer) actions = some s) :
    Answered (s.text app) s.calls ∧
    (∀ call ∈ s.calls, call.view.broken = true ∨ call.view.Declares body) ∧
    delivered s.calls <+: s.text app ∧
    (∀ length, body = .stream (some length) → (delivered s.calls).length ≤ length) ∧
    (∀ before last, s.calls = before ++ [last] → last.concludes = true →
      delivered s.calls = s.text app ∧
      ∀ length, body = .stream (some length) →
        ((s.text app).length = length ↔ last.answer ≠ .error)) ∧
    (∀ room, 0 < room → s.isOpen = true → s.source.transport = .idle →
      (s.call app room).isSome = true) ∧
    (∀ room s', s.call app room = some s' → Replied app s room s' ∨ Entered app s room s') ∧
    (∀ action s', (∀ room, action ≠ .call room) → step app s action = some s' →
      Keeps s action s') ∧
    (∀ bytes, body = .bytes bytes → Parts bytes s.calls) := by
  have hsound : (Sound app s ∧ s.body = body) ∧
      ∀ bytes, body = .bytes bytes → Parts bytes s.calls := by
    refine @run_invariant _ _ _ (fun t => (Sound app t ∧ t.body = body) ∧
      ∀ bytes, body = .bytes bytes → Parts bytes t.calls) ?_ actions _ s ?_ h
    · rintro t action t' ⟨ht, hparts⟩ hstep
      refine ⟨⟨ht.1.step hstep, (step_body hstep).trans ht.2⟩, fun bytes hbody => ?_⟩
      exact step_parts ht.1 (ht.2.trans hbody) (hparts bytes hbody) hstep
    · refine ⟨⟨init_sound app body exchange memory outputBytes buffer, rfl⟩, fun bytes _ => ?_⟩
      exact ⟨fun before call after heq => absurd heq (by simp [init]), rfl⟩
  obtain ⟨⟨hsound, rfl⟩, hparts⟩ := hsound
  refine ⟨hsound.base.answered, hsound.base.declared, hsound.delivered, ?_, ?_,
    fun room hroom hopen hidle => call_isSome app hroom hopen hidle,
    fun room s' hstep => hsound.call_finds hstep,
    fun action s' haction hstep => step_keeps hsound haction hstep, hparts⟩
  · intro length hbody
    rw [← hsound.base.produced]
    exact hsound.base.bound length hbody
  · intro before last hcalls hconcludes
    have hlast : s.calls.getLast? = some last := by rw [hcalls, List.getLast?_concat]
    obtain ⟨hdelivered, -, hanswer, -⟩ := hsound.base.answered before last [] hcalls
    obtain ⟨view, room, answer⟩ := last
    simp only at hanswer
    subst hanswer
    have hfinal := View.final_of_concludes hconcludes
    have hcalling : s.calling = false := by
      cases hcalling : s.calling with
      | false => rfl
      | true =>
          have hopen := hsound.unfinished hcalling _ hlast
          simp only [hfinal, Bool.true_eq_false] at hopen
    have hwhole := hsound.isWhole (hsound.whole _ hlast hconcludes) hcalling
    refine ⟨hwhole, fun length hbody => ?_⟩
    rcases hsound.base.declared _ (List.mem_of_getLast? hlast) with hbroken | hdeclares
    · have hview : view.broken = true := hbroken
      simp [Call.concludes, View.answer_broken hview, hview] at hconcludes
    · obtain ⟨hdeclared, hunbuffered⟩ := hdeclares (some length) hbody
      obtain ⟨hbytes, hiff⟩ := View.answer_concludes hdeclared hunbuffered hconcludes
      rw [← hwhole, hcalls, delivered_snoc, hbytes, List.append_nil, ← hdelivered]
      exact hiff

/-- A byte that its task publishes with the end: it is copied, the end is deferred until the task is
idle, and the callback after that signals it. -/
def oneByte : List Action :=
  [Action.outside .start, .outside (.write [[1]] 1)] ++
  List.replicate 2 (Action.outside (.produce true)) ++
  [Action.outside .succeed] ++ List.replicate 8 (Action.outside (.produce true)) ++
  [Action.call 5] ++ List.replicate 9 (Action.transport 5) ++
  List.replicate 7 (Action.outside (.produce true)) ++
  [Action.call 5] ++ List.replicate 2 (Action.transport 0) ++
  [Action.outside .complete, .resume, .call 5] ++ List.replicate 2 (Action.transport 0)

/-- An application whose producers are tasks. -/
def tasks : App Unit := ⟨true, fun _ memory _ => ((), memory, none)⟩

/-- The byte is delivered whole; a buffered body goes into two destinations, the second of which has
room for more than the rest. -/
theorem produce_body_oneByte :
    (∃ s, run (step tasks)
        (init (.stream (some 1)) () ⟨fun _ => 0, [], List.Pairwise.nil⟩ ⟨0, 0⟩ [0]) oneByte =
          some s ∧
      s.calls.map Call.answer = [.data [1] false, .deferred, .data [] true] ∧
      delivered s.calls = s.text tasks ∧ (s.text tasks).length = 1) ∧
    ∃ s, run (step tasks)
        (init (.bytes [1, 2, 3]) () ⟨fun _ => 0, [], List.Pairwise.nil⟩ ⟨0, 0⟩ [0])
          [.call 2, .call 5] = some s ∧
      s.calls.map Call.answer = [.data [1, 2] false, .data [3] true] ∧ Parts [1, 2, 3] s.calls := by
  constructor
  · have hrun : (run (step tasks)
        (init (.stream (some 1)) () ⟨fun _ => 0, [], List.Pairwise.nil⟩ ⟨0, 0⟩ [0]) oneByte).map
          (fun s => (s.calls.map Call.answer, s.calls.map Call.concludes)) =
        some ([.data [1] false, .deferred, .data [] true], [false, false, true]) := by
      decide +kernel
    obtain ⟨s, hs, hfields⟩ := Option.map_eq_some_iff.mp hrun
    obtain ⟨hanswers, hconcludes⟩ := Prod.mk.inj hfields
    obtain ⟨-, -, -, -, hend, -⟩ := produce_body tasks (.stream (some 1)) () _ _ _ oneByte s hs
    rcases List.eq_nil_or_concat s.calls with hnil | ⟨before, last, hcalls⟩
    · rw [hnil] at hanswers
      cases hanswers
    · rw [List.concat_eq_append] at hcalls
      have hlast := congrArg List.getLast? hconcludes
      have hanswer := congrArg List.getLast? hanswers
      rw [hcalls, List.map_append, List.map_singleton, List.getLast?_concat] at hlast hanswer
      obtain ⟨hall, hlength⟩ := hend before last hcalls (Option.some.inj hlast)
      refine ⟨s, hs, hanswers, hall, (hlength 1 rfl).mpr ?_⟩
      rw [Option.some.inj hanswer]
      decide
  · have hrun : (run (step tasks)
        (init (.bytes [1, 2, 3]) () ⟨fun _ => 0, [], List.Pairwise.nil⟩ ⟨0, 0⟩ [0])
          [.call 2, .call 5]).map (fun s => s.calls.map Call.answer) =
        some [.data [1, 2] false, .data [3] true] := by
      decide +kernel
    obtain ⟨s, hs, hanswers⟩ := Option.map_eq_some_iff.mp hrun
    obtain ⟨-, -, -, -, -, -, -, -, hparts⟩ :=
      produce_body tasks (.bytes [1, 2, 3]) () _ _ _ [.call 2, .call 5] s hs
    exact ⟨s, hs, hanswers, hparts [1, 2, 3] rfl⟩

end Zhtps.Produce
