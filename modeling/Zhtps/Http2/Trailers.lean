import Zhtps.Http.Trailers
import Zhtps.Http2.Transparent

/-!
Trailers of both transports: they leave the request alone.
-/

namespace Zhtps

namespace Http2

open Lib

/-- The head of a state and the request that was made of it are those of an earlier one. -/
structure Framed (state state' : State) : Prop where
  ready : state'.stream.headReady = true
  head : HeadKept state state'
  request : state'.request = state.request

theorem Framed.trans {a b c : State} (h : Framed a b) (h' : Framed b c) : Framed a c :=
  ⟨h'.ready, h.head.trans h'.head, h'.request.trans h.request⟩

/-- A trailer whose name is a token, unless it is that of a pseudo field. -/
theorem Decoded.token_of {field : Decoded} (h : field.name.head? ≠ some 0x3a) :
    Syntax.isToken field.name = true := by
  rcases field.valid with htoken | ⟨rest, hname, -⟩
  · exact htoken
  · rw [hname] at h
    exact absurd rfl h

theorem next_trailers {m : Metadata} {field : Decoded} {result : Except Fault Unit}
    (h : m.trailing = false) : (m.next field result).trailers = m.trailers := by
  have hhead : ¬m.trailing = true := by rw [h]; exact Bool.false_ne_true
  cases result with
  | ok _ =>
      rw [Metadata.next, Metadata.receive, if_neg hhead]
      split_ifs <;> rfl
  | error fault =>
      rw [Metadata.next, Metadata.refuse]
      split_ifs <;> rfl

/-- The trailers that a call adds. -/
def added (field : Decoded) : Except Fault Unit → List Header
  | .ok () => [field.toHeader]
  | .error _ => []

theorem next_trailing {m : Metadata} {field : Decoded} {result : Except Fault Unit}
    (h : m.trailing = true) :
    m.next field result = { m with trailers := m.trailers ++ added field result } := by
  cases result with
  | ok _ => rw [Metadata.next, Metadata.receive, if_pos h, added]
  | error fault =>
      rw [Metadata.next, Metadata.refuse, if_neg, added, List.append_nil]
      rw [h]
      exact fun h => Bool.noConfusion h.1

/-- The trailers of a state are ones that its request permits, and there are none before the head is
complete. -/
structure Safe (state : State) : Prop where
  none : state.stream.headReady = false → state.metadata.trailers = []
  permitted : ∀ field ∈ state.metadata.trailers, state.request.Permits field.name

theorem Safe.of_framed {state state' : State} (h : Safe state) (hframed : Framed state state')
    (hmetadata : state'.metadata.trailers = state.metadata.trailers) : Safe state' where
  none := by
    rw [hframed.ready]
    exact nofun
  permitted := by
    rw [hmetadata, hframed.request]
    exact h.permitted

def Event.IsRecycle : Event → Prop
  | .recycle _ => True
  | _ => False

/-- Once the head is complete, nothing but a new life changes it. -/
theorem field_framed {config : Config} {state : State} {view : View} (alloc : Allocation)
    (field : Decoded) (h : Shows config state view) (htrailing : state.stream.trailers = true) :
    Framed state (header config alloc state field).1 ∧
      (Safe state → Safe (header config alloc state field).1) := by
  cases hclosed : state.stream.closed with
  | true =>
      rw [header, hclosed, if_pos rfl]
      exact ⟨⟨h.trailing htrailing, .refl state, rfl⟩, id⟩
  | false =>
      have hhandled := header_handled alloc field h.held (Or.inl htrailing) hclosed
      have hmode : state.metadata.trailing = true := htrailing
      generalize header config alloc state field = r at hhandled ⊢
      obtain ⟨contentLength, fieldCount, trailerCount, headLen, trailerLen, hcounters⟩ :=
        hhandled.counters
      have hmetadata := hhandled.metadata
      rw [next_trailing hmode] at hmetadata
      have hready : r.1.stream.headReady = true :=
        (congrArg Counters.headReady hcounters).trans (h.trailing htrailing)
      have hrequest : r.1.request = state.request := by
        rw [hhandled.held.request_eq, h.held.request_eq, hmetadata,
          show r.1.stream.published = state.stream.published from
            congrArg Counters.published hcounters,
          show r.1.stream.bodyFollows = state.stream.bodyFollows from
            congrArg Counters.bodyFollows hcounters]
        rfl
      refine ⟨⟨hready, hhandled.head htrailing, hrequest⟩, fun hsafe => ⟨?_, ?_⟩⟩
      · rw [hready]
        rintro ⟨⟩
      · rw [hmetadata, hrequest]
        intro trailer htrailer
        rcases List.mem_append.mp htrailer with htrailer | htrailer
        · exact hsafe.permitted trailer htrailer
        · have hpermitted := hhandled.permitted
          cases hresult : r.2 with
          | error fault =>
              rw [hresult] at htrailer
              exact absurd htrailer (by rintro ⟨⟩)
          | ok _ =>
              rw [hresult] at htrailer
              have hnot := hpermitted hresult
              rw [Metadata.Breaks, if_pos hmode, not_or, Bool.not_eq_true] at hnot
              rw [List.mem_singleton.mp htrailer]
              exact Request.permits_of (Decoded.token_of hnot.1) hnot.2

theorem step_trailers (config : Config) (state : State) :
    (Event.step config state .trailers).1 =
      if state.stream.trailers then state
      else ⟨state.memory, { state.stream with trailers := true }⟩ := by
  unfold Event.step beginTrailers
  cases htrailing : state.stream.trailers <;> simp

theorem step_framed {config : Config} {state : State} {view : View} (event : Event)
    (h : Shows config state view) (hexpected : event.Expected state)
    (hready : state.stream.headReady = true) (hevent : ¬event.IsRecycle) :
    Framed state (event.step config state).1 ∧
      (Safe state → Safe (event.step config state).1) := by
  obtain ⟨memory, stream⟩ := state
  have hmode : stream.trailers = true ∨ stream.headReady = false → stream.trailers = true :=
    fun hor => hor.resolve_right (by
      rw [show stream.headReady = true from hready]
      exact nofun)
  cases event with
  | field alloc field => exact field_framed alloc field h (hmode hexpected)
  | complete alloc ended =>
      have htrailing : stream.trailers = true := hmode hexpected
      have hsame : (Event.step config ⟨memory, stream⟩ (.complete alloc ended)).1 =
          ⟨memory, stream⟩ := by
        rw [Event.step, headComplete, if_pos htrailing]
      rw [hsame]
      exact ⟨⟨hready, .refl _, rfl⟩, id⟩
  | trailers =>
      rw [step_trailers]
      split
      · exact ⟨⟨hready, .refl _, rfl⟩, id⟩
      · exact ⟨⟨hready, ⟨rfl, rfl, fun _ _ => rfl⟩, rfl⟩,
          fun hsafe => ⟨hsafe.none, hsafe.permitted⟩⟩
  | task busy =>
      exact ⟨⟨hready, ⟨rfl, rfl, fun _ _ => rfl⟩, rfl⟩,
        fun hsafe => ⟨hsafe.none, hsafe.permitted⟩⟩
  | close =>
      exact ⟨⟨hready, ⟨rfl, rfl, fun _ _ => rfl⟩, rfl⟩,
        fun hsafe => ⟨hsafe.none, hsafe.permitted⟩⟩
  | elsewhere memory' =>
      have hshows := elsewhere_shows h hexpected
      have hrequest : State.request ⟨memory', stream⟩ = State.request ⟨memory, stream⟩ := by
        rw [hshows.request, h.request]
      have hframed : Framed ⟨memory, stream⟩ ⟨memory', stream⟩ :=
        ⟨hready, ⟨rfl, rfl, elsewhere_head h hexpected⟩, hrequest⟩
      exact ⟨hframed, fun hsafe => hsafe.of_framed hframed
        (congrArg Metadata.trailers (hshows.metadata.trans h.metadata.symm))⟩
  | recycle fieldBuffer => exact absurd trivial hevent

/-- A head that is not complete has no trailers, and they stay away until it is. -/
theorem step_safe {config : Config} {state : State} {view : View} (event : Event)
    (h : Shows config state view) (hexpected : event.Expected state) (hsafe : Safe state) :
    Safe (event.step config state).1 := by
  cases hready : state.stream.headReady with
  | true =>
      cases event with
      | recycle fieldBuffer => exact ⟨fun _ => rfl, by rintro _ ⟨⟩⟩
      | _ => exact (step_framed _ h hexpected hready id).2 hsafe
  | false =>
      have hnone := hsafe.none hready
      have hnext := step_shows event h hexpected
      -- no event brings trailers to a head
      have htrailers : (event.step config state).1.metadata.trailers = [] := by
        rw [h.metadata] at hnone
        have htrailing : view.metadata.trailing = false := by
          cases hmode : state.stream.trailers with
          | true =>
              rw [h.trailing hmode] at hready
              exact absurd hready (by rintro ⟨⟩)
          | false =>
              rw [← h.metadata]
              exact hmode
        rw [hnext.metadata]
        cases event with
        | field alloc field =>
            rw [View.step, View.receive]
            split
            · exact hnone
            · rw [next_trailers htrailing]
              exact hnone
        | complete alloc ended =>
            cases (Event.step config state (.complete alloc ended)).2 with
            | error fault => exact hnone
            | ok _ =>
                show (view.complete ended).metadata.trailers = []
                rw [View.complete]
                split_ifs <;> exact hnone
        | trailers =>
            rw [show state.stream.headReady = true from hexpected] at hready
            exact absurd hready (by rintro ⟨⟩)
        | task busy => exact hnone
        | close => exact hnone
        | elsewhere memory => exact hnone
        | recycle fieldBuffer => rfl
      exact ⟨fun _ => htrailers, by rw [htrailers]; rintro _ ⟨⟩⟩

theorem run_safe {config : Config} (events : List Event) :
    ∀ {state : State} {view : View}, Shows config state view → Ordered config state events →
      Safe state → Safe (run config (state, view) events).1 := by
  induction events with
  | nil => exact fun _ _ hsafe => hsafe
  | cons event events ih =>
      intro state view h hordered hsafe
      exact ih (step_shows event h hordered.1) hordered.2 (step_safe event h hordered.1 hsafe)

theorem run_framed {config : Config} (events : List Event) (hevents : ∀ e ∈ events, ¬e.IsRecycle) :
    ∀ {state : State} {view : View}, Shows config state view → Ordered config state events →
      state.stream.headReady = true → Framed state (run config (state, view) events).1 := by
  induction events with
  | nil => exact fun _ _ hready => ⟨hready, .refl _, rfl⟩
  | cons event events ih =>
      intro state view h hordered hready
      have hstep := (step_framed event h hordered.1 hready (hevents event List.mem_cons_self)).1
      exact hstep.trans (ih (fun e he => hevents e (List.mem_cons_of_mem _ he))
        (step_shows event h hordered.1) hordered.2 hstep.ready)

/-- Over both transports, whatever follows a head adds trailers that its request permits, and leaves the
request and the text that it is made of as they are. -/
theorem trailers_keep_request :
    (∀ (headStorage trailerStorage : Bytes) (limits : Limits) (before after : List Bytes)
        (request : Request),
      .head request ∈ (Parser.feedAll (.init headStorage trailerStorage limits) before).2 →
        let reached := Parser.feedAll (.init headStorage trailerStorage limits) before
        let last := Parser.feedAll reached.1 after
        let trailers := (reached.2 ++ last.2).flatMap Zhtps.Event.trailers
        last.1.request = { request with trailers } ∧
          last.1.headStorage = reached.1.headStorage ∧
          reached.1.trailerStorage.used <+: last.1.trailerStorage.used ∧
          ∀ field ∈ trailers, request.Permits field.name) ∧
    ∀ (config : Config) (memory : Memory UInt8) (headBuffer outputBuffer : Nat)
        (fieldBuffer : Vector Field 16) (before after : List Event),
      ⟨headBuffer, 1024⟩ ∈ memory.blocks →
        let start := fresh memory headBuffer outputBuffer fieldBuffer
        let (state, view) := run config (start, {}) before
        let (last, _) := run config (state, view) after
        Ordered config start before → state.stream.headReady = true →
          Ordered config state after → (∀ event ∈ after, ¬event.IsRecycle) →
            last.request = state.request ∧
              (last.stream.headSlices = state.stream.headSlices ∧
                ∀ x ∈ state.stream.headSlices, last.memory.read x = state.memory.read x) ∧
              ∀ field ∈ last.metadata.trailers, state.request.Permits field.name := by
  constructor
  · intro headStorage trailerStorage limits before after request hmem
    obtain ⟨htrailed, hnone⟩ := Parser.feedAll_keeps before after
      (Parser.opening_init headStorage trailerStorage limits) hmem
    refine ⟨?_, htrailed.headStorage, htrailed.trailerStorage, htrailed.permitted⟩
    have hrequest := htrailed.request
    simp only at hrequest
    rw [hnone, List.nil_append] at hrequest
    exact hrequest
  · intro config memory headBuffer outputBuffer fieldBuffer before after hbuffer start
    have hfresh := @fresh_shows config memory headBuffer outputBuffer fieldBuffer hbuffer
    intro hordered hready hlater hrecycle
    have hshows := run_shows before hfresh hordered
    have hsafe := run_safe before hfresh hordered ⟨fun _ => rfl, nofun⟩
    have hframed := run_framed after hrecycle hshows hlater hready
    have hlast := run_safe after hshows hlater hsafe
    exact ⟨hframed.request, ⟨hframed.head.1, hframed.head.2.2⟩, by
      rw [← hframed.request]
      exact hlast.permitted⟩

def chunkedHead : Bytes := ascii "POST / HTTP/1.1\r\nHost: a\r\nTransfer-Encoding: chunked\r\n\r\n"

def chunkedRequest : Request :=
  { method := ascii "POST"
    target := ascii "/"
    path := ascii "/"
    authority := ascii "a"
    headers := [⟨ascii "Host", ascii "a"⟩, ⟨ascii "Transfer-Encoding", ascii "chunked"⟩]
    chunked := true }

def trailerField : Decoded := ⟨ascii "x", ascii "y", .inl (by decide)⟩

def trailerEvents : List Event :=
  [.trailers, .field (roomAt 4096) trailerField, .complete noMemory true]

/-- A trailer that is sent over either transport. -/
theorem trailers_keep_request_both :
    (Parser.feedAll (Parser.feedAll (.init (List.replicate 128 0) (List.replicate 16 0) {})
      [chunkedHead]).1 [ascii "0\r\nx: y\r\n"]).1.request =
        { chunkedRequest with trailers := [⟨ascii "x", ascii "y"⟩] } ∧
    let state := (run ⟨64, 64, 64⟩ (fresh oneStream 0 2048 (Vector.replicate 16 {}), {})
      [.field noMemory methodGet, .complete noMemory false]).1
    let last := (run ⟨64, 64, 64⟩ (run ⟨64, 64, 64⟩
      (fresh oneStream 0 2048 (Vector.replicate 16 {}), {})
      [.field noMemory methodGet, .complete noMemory false]) trailerEvents).1
    last.metadata.trailers = [⟨ascii "x", ascii "y"⟩] ∧ last.request = state.request ∧
      last.request.method = ascii "GET" ∧ state.request.Permits (ascii "x") := by
  refine ⟨?_, ?_⟩
  · have h := (trailers_keep_request.1 (List.replicate 128 0) (List.replicate 16 0) {} [chunkedHead]
      [ascii "0\r\nx: y\r\n"] chunkedRequest (by decide +kernel)).1
    exact h.trans (by decide +kernel)
  · have hordered : Ordered ⟨64, 64, 64⟩ (run ⟨64, 64, 64⟩
        (fresh oneStream 0 2048 (Vector.replicate 16 {}), {})
        [.field noMemory methodGet, .complete noMemory false]).1 trailerEvents :=
      ⟨rfl, Or.inl rfl, Or.inl rfl, trivial⟩
    obtain ⟨hrequest, -, hpermitted⟩ := trailers_keep_request.2 ⟨64, 64, 64⟩ oneStream 0 2048
      (Vector.replicate 16 {}) [.field noMemory methodGet, .complete noMemory false] trailerEvents
      List.mem_cons_self ⟨Or.inr rfl, Or.inr rfl, trivial⟩ rfl hordered
      (by simp [trailerEvents, Event.IsRecycle])
    exact ⟨by decide +kernel, hrequest, by decide +kernel,
      hpermitted ⟨ascii "x", ascii "y"⟩ (by decide +kernel)⟩

end Http2

end Zhtps
