import Zhtps.Http2.Cookies

/-!
The lives of a stream: its storage is transparent.

A stream receives a head, then perhaps trailers, and begins again with the storage that it has.  Along
any run the text that it shows is that of `View`, which has no storage.
-/

namespace Zhtps

namespace Http2

open Lib

/-! ### What a stream is for -/

structure View where
  metadata : Metadata := {}
  bodyFollows : Bool := false
  headReady : Bool := false
  closed : Bool := false
  busy : Bool := false
  /-- The bytes of the fields of the head, and of the trailers. -/
  headSize : Nat := 0
  trailerSize : Nat := 0

inductive Event
  | field (alloc : Allocation) (field : Decoded)
  | complete (alloc : Allocation) (ended : Bool)
  | trailers
  /-- The application has the request, or gives it back. -/
  | task (busy : Bool)
  | close
  /-- Whatever else uses the memory. -/
  | elsewhere (memory : Memory UInt8)
  /-- The stream is over and its storage begins another. -/
  | recycle (fieldBuffer : Vector Field 16)

namespace View

def request (view : View) : Request :=
  view.metadata.request (if view.headReady then view.metadata.headers.length else 0) view.bodyFollows

/-- The bytes of the block that is being received. -/
def size (view : View) : Nat :=
  if view.metadata.trailing then view.trailerSize else view.headSize

def receive (view : View) (field : Decoded) (result : Except Fault Unit) : View :=
  if view.closed then view
  else { view with
    metadata := view.metadata.next field result
    headSize := if view.metadata.trailing then view.headSize else view.headSize + field.size
    trailerSize :=
      if view.metadata.trailing then view.trailerSize + field.size else view.trailerSize }

def complete (view : View) (ended : Bool) : View :=
  if view.metadata.trailing then view
  else { view with
    metadata := { view.metadata with headers := coalesce view.metadata.headers }
    bodyFollows := !ended
    headReady := true }

/-- A failed completion or trailer block changes nothing. -/
def step (view : View) (event : Event) (result : Except Fault Unit) : View :=
  match event, result with
  | .field _ field, result => view.receive field result
  | .complete _ ended, .ok () => view.complete ended
  | .trailers, .ok () => { view with metadata := { view.metadata with trailing := true } }
  | .task busy, _ => { view with busy }
  | .close, _ => { view with closed := true }
  | .recycle _, _ => {}
  | _, _ => view

end View

/-- Blocks that hold what they held. -/
def KeptBlocks (memory memory' : Memory UInt8) (blocks : List Slice) : Prop :=
  ∀ block ∈ blocks, block ∈ memory.blocks →
    block ∈ memory'.blocks ∧ memory'.read block = memory.read block

namespace Event

def step (config : Config) (state : State) : Event → State × Except Fault Unit
  | .field alloc decoded => header config alloc state decoded
  | .complete alloc ended => headComplete config alloc state state.stream.trailers ended
  | .trailers =>
      match beginTrailers state.stream with
      | .error fault => (state, .error fault)
      | .ok stream => (⟨state.memory, stream⟩, .ok ())
  | .task busy => (⟨state.memory, { state.stream with busy }⟩, .ok ())
  | .close => (⟨state.memory, { state.stream with closed := true }⟩, .ok ())
  | .elsewhere memory => (⟨memory, state.stream⟩, .ok ())
  | .recycle fieldBuffer =>
      (⟨state.memory, .begin state.stream.storage state.stream.headBuffer state.stream.outputBuffer
        fieldBuffer⟩, .ok ())

/-- The order in which the engine delivers events, and what leaves the blocks of the stream alone. -/
def Expected (state : State) : Event → Prop
  | .field _ _ => state.stream.trailers = true ∨ state.stream.headReady = false
  | .complete _ _ => state.stream.trailers = true ∨ state.stream.headReady = false
  | .trailers => state.stream.headReady = true
  | .task busy => busy = true → state.stream.headReady = true
  | .elsewhere memory => KeptBlocks state.memory memory
      [state.stream.headBuffer, state.stream.storage.head, state.stream.storage.trailers]
  | _ => True

end Event

def run (config : Config) : State × View → List Event → State × View
  | s, [] => s
  | (state, view), event :: events =>
      let (state', result) := event.step config state
      run config (state', view.step event result) events

def Ordered (config : Config) : State → List Event → Prop
  | _, [] => True
  | state, event :: events => event.Expected state ∧ Ordered config (event.step config state).1 events

/-! ### The invariant -/

/-- A stream shows a view. -/
structure Shows (config : Config) (state : State) (view : View) : Prop where
  held : Held config state
  metadata : state.metadata = view.metadata
  published : state.stream.published = if state.stream.headReady then state.stream.fieldCount else 0
  bodyFollows : state.stream.bodyFollows = view.bodyFollows
  headReady : state.stream.headReady = view.headReady
  closed : state.stream.closed = view.closed
  busy : state.stream.busy = view.busy
  task : state.stream.busy = true → state.stream.headReady = true
  trailing : state.stream.trailers = true → state.stream.headReady = true
  headSize : state.stream.headReady = false → state.stream.headLen ≤ view.headSize
  trailerSize : state.stream.trailerLen ≤ view.trailerSize

theorem Shows.request {config : Config} {state : State} {view : View}
    (h : Shows config state view) : state.request = view.request := by
  rw [h.held.request_eq, h.metadata, View.request, h.published, h.bodyFollows, h.headReady,
    ← h.held.length_headers, h.metadata]

theorem Shows.used {config : Config} {state : State} {view : View} (h : Shows config state view)
    (hmode : state.stream.trailers = true ∨ state.stream.headReady = false) :
    state.stream.used ≤ view.size := by
  have htrailing : view.metadata.trailing = state.stream.trailers := by rw [← h.metadata]; rfl
  rw [Stream.used, View.size, htrailing]
  split
  · exact h.trailerSize
  next hhead => exact h.headSize (hmode.resolve_left hhead)

theorem Shows.expects {config : Config} {state : State} {view : View} (h : Shows config state view)
    (hmode : state.stream.trailers = true ∨ state.stream.headReady = false) :
    state.stream.Expects := by
  refine hmode.imp id fun hready => ⟨hready, ?_⟩
  cases hbusy : state.stream.busy with
  | false => rfl
  | true =>
      rw [h.task hbusy] at hready
      exact absurd hready nofun

/-- Storage that a stream owns is all that its next life needs. -/
theorem begin_shows {config : Config} {memory : Memory UInt8} {storage : Storage}
    {headBuffer outputBuffer : Slice} (fieldBuffer : Vector Field 16)
    (howned : Owned memory storage headBuffer) :
    Shows config ⟨memory, .begin storage headBuffer outputBuffer fieldBuffer⟩ {} where
  held :=
    { owned := howned
      headLen_le := Nat.zero_le _
      headLen_max := Nat.zero_le _
      trailerLen_le := Nat.zero_le _
      trailerLen_max := Nat.zero_le _
      fieldCount_le := Nat.zero_le _
      fieldCount_max := Nat.zero_le _
      trailerCount_le := Nat.zero_le _
      trailerCount_max := Nat.zero_le _
      published_le := le_refl _
      headText := by
        intro x hx
        refine Or.inl ?_
        have hempty : x = ⟨0, 0⟩ := by simpa [Stream.headSlices, Stream.fieldSlices, Stream.begin]
          using hx
        rw [hempty]
      trailerText := by
        intro x hx
        exact absurd hx (by simp [Stream.trailerSlices, Stream.fieldSlices, Stream.begin]) }
  metadata := rfl
  published := rfl
  bodyFollows := rfl
  headReady := rfl
  closed := rfl
  busy := rfl
  task := nofun
  trailing := nofun
  headSize := fun _ => le_refl _
  trailerSize := le_refl _

/-! ### One event -/

theorem metadata_next_headers {m : Metadata} {field : Decoded} {result : Except Fault Unit}
    (h : m.trailing = true) : (m.next field result).headers = m.headers := by
  cases result with
  | ok _ => rw [Metadata.next, Metadata.receive, if_pos h]
  | error fault =>
      rw [Metadata.next, Metadata.refuse, if_neg]
      rw [h]
      exact fun h => Bool.noConfusion h.1

theorem field_shows {config : Config} {state : State} {view : View} (alloc : Allocation)
    (field : Decoded) (h : Shows config state view)
    (hmode : state.stream.trailers = true ∨ state.stream.headReady = false) :
    Shows config (header config alloc state field).1
      (view.receive field (header config alloc state field).2) := by
  cases hclosed : state.stream.closed with
  | true =>
      rw [header, hclosed, if_pos rfl, View.receive, ← h.closed, hclosed, if_pos rfl]
      exact h
  | false =>
      have hhandled := header_handled alloc field h.held (h.expects hmode) hclosed
      have hsize := h.used hmode
      generalize header config alloc state field = r at hhandled ⊢
      obtain ⟨contentLength, fieldCount, trailerCount, headLen, trailerLen, hcounters⟩ :=
        hhandled.counters
      have hmodeEq : r.1.stream.trailers = state.stream.trailers :=
        congrArg Counters.trailers hcounters
      have hreadyEq : r.1.stream.headReady = state.stream.headReady :=
        congrArg Counters.headReady hcounters
      have hused := hhandled.used
      have hother := hhandled.usedOther
      rw [Stream.used, Stream.used, hmodeEq] at hused
      rw [Stream.usedOther, Stream.usedOther, hmodeEq] at hother
      have htrailing : view.metadata.trailing = state.stream.trailers := by
        rw [← h.metadata]
        rfl
      have hmetadata : r.1.metadata = view.metadata.next field r.2 := by
        rw [hhandled.metadata, h.metadata]
      rw [View.receive, ← h.closed, hclosed, if_neg Bool.false_ne_true]
      exact
        { held := hhandled.held
          metadata := hmetadata
          published := by
            rw [show r.1.stream.published = state.stream.published from
              congrArg Counters.published hcounters, hreadyEq, h.published]
            split
            next hready =>
              -- after the head only trailers arrive, and they leave its fields alone
              have hnext := @metadata_next_headers view.metadata field r.2 (by
                  rw [htrailing]
                  exact hmode.resolve_right (by rw [hready]; rintro ⟨⟩))
              rw [← h.held.length_headers, ← hhandled.held.length_headers, hmetadata, hnext,
                h.metadata]
            · rfl
          bodyFollows := (congrArg Counters.bodyFollows hcounters).trans h.bodyFollows
          headReady := hreadyEq.trans h.headReady
          closed := (congrArg Counters.closed hcounters).trans hclosed
          busy := (congrArg Counters.busy hcounters).trans h.busy
          task := by
            rw [hreadyEq, show r.1.stream.busy = state.stream.busy from
              congrArg Counters.busy hcounters]
            exact h.task
          trailing := by
            rw [hreadyEq, hmodeEq]
            exact h.trailing
          headSize := by
            rw [hreadyEq]
            intro hready
            have hhead : ¬state.stream.trailers = true := fun htrue => by
              rw [h.trailing htrue] at hready
              exact absurd hready (by rintro ⟨⟩)
            rw [if_neg hhead, if_neg hhead] at hused
            have hle := h.headSize hready
            simp only
            rw [htrailing, if_neg hhead]
            omega
          trailerSize := by
            have hle := h.trailerSize
            simp only
            rw [htrailing]
            split
            next htrue =>
              rw [if_pos htrue, if_pos htrue] at hused
              omega
            next hhead =>
              rw [if_neg hhead, if_neg hhead] at hother
              omega }

theorem complete_shows {config : Config} {state : State} {view : View} (alloc : Allocation)
    (ended : Bool) (h : Shows config state view)
    (hmode : state.stream.trailers = true ∨ state.stream.headReady = false) :
    Shows config (headComplete config alloc state state.stream.trailers ended).1
      (view.step (.complete alloc ended)
        (headComplete config alloc state state.stream.trailers ended).2) := by
  have htrailing : view.metadata.trailing = state.stream.trailers := by
    rw [← h.metadata]
    rfl
  cases hmodeEq : state.stream.trailers with
  | true =>
      rw [hmodeEq] at htrailing
      cases ended with
      | true =>
          rw [headComplete, if_pos rfl, if_pos rfl, View.step, View.complete, if_pos htrailing]
          exact h
      | false =>
          rw [headComplete, if_pos rfl, if_neg Bool.false_ne_true]
          exact h
  | false =>
      have hready : state.stream.headReady = false :=
        hmode.resolve_left (by rw [hmodeEq]; exact Bool.false_ne_true)
      have hpublished : state.stream.published = 0 := by
        rw [h.published, hready, if_neg Bool.false_ne_true]
      have hbusy : state.stream.busy = false :=
        ((h.expects hmode).resolve_left (by rw [hmodeEq]; exact Bool.false_ne_true)).2
      rcases headComplete_spec alloc ended h.held hready hbusy hpublished with
        ⟨hok, hdone⟩ | ⟨fault, hfailed, -⟩
      · rw [hok, View.step, View.complete, htrailing, hmodeEq, if_neg Bool.false_ne_true]
        exact
          { held := hdone.held
            metadata := by rw [hdone.metadata, h.metadata]
            published := by rw [hdone.headReady, if_pos rfl, hdone.published]
            bodyFollows := hdone.bodyFollows
            headReady := hdone.headReady
            closed := hdone.closed.trans h.closed
            busy := hdone.busy.trans h.busy
            task := fun _ => hdone.headReady
            trailing := fun _ => hdone.headReady
            headSize := fun hfalse => by
              rw [hdone.headReady] at hfalse
              exact absurd hfalse nofun
            trailerSize := by
              rw [hdone.trailerLen]
              exact h.trailerSize }
      · rw [hfailed]
        exact h

theorem read_kept {memory memory' : Memory UInt8} {x block : Slice} (hx : x.Within block)
    (h : memory'.read block = memory.read block) : memory'.read x = memory.read x := by
  rcases hx with hzero | hinside
  · exact Memory.read_of_len hzero hzero
  · have hshift := Memory.read_shift h.symm hinside
    unfold Slice.Inside at hinside
    rwa [show block.ptr + (x.ptr - block.ptr) = x.ptr by omega] at hshift

theorem KeptBlocks.of_mem {memory memory' : Memory UInt8} {blocks : List Slice} {block : Slice}
    (h : KeptBlocks memory memory' blocks) (hmem : block ∈ blocks) :
    KeptBlocks memory memory' [block] := by
  intro other hother
  rw [List.mem_singleton.mp hother]
  exact h block hmem

theorem elsewhere_head {config : Config} {memory memory' : Memory UInt8} {stream : Stream}
    {view : View} (h : Shows config ⟨memory, stream⟩ view)
    (hkept : KeptBlocks memory memory'
      [stream.headBuffer, stream.storage.head, stream.storage.trailers]) :
    ∀ x ∈ stream.headSlices, memory'.read x = memory.read x := by
  have hbytes : KeptBlocks memory memory' [stream.headBytes] := by
    unfold Stream.headBytes
    split
    · exact hkept.of_mem (by simp)
    · exact hkept.of_mem (by simp)
  exact fun x hx => read_kept (within_longer (h.held.headText x hx) h.held.headLen_le)
    (hbytes _ List.mem_cons_self h.held.owned.headBytes_mem).2

/-- What happens elsewhere in the memory does not show. -/
theorem elsewhere_shows {config : Config} {memory memory' : Memory UInt8} {stream : Stream}
    {view : View} (h : Shows config ⟨memory, stream⟩ view)
    (hkept : KeptBlocks memory memory'
      [stream.headBuffer, stream.storage.head, stream.storage.trailers]) :
    Shows config ⟨memory', stream⟩ view := by
  have howned : Owned memory stream.storage stream.headBuffer := h.held.owned
  have hbuffer := @KeptBlocks.of_mem _ _ _ stream.headBuffer hkept (by simp)
  have hhead := @KeptBlocks.of_mem _ _ _ stream.storage.head hkept (by simp)
  have htrailers := @KeptBlocks.of_mem _ _ _ stream.storage.trailers hkept (by simp)
  have hheadShown := elsewhere_head h hkept
  have htrailersShown : ∀ x ∈ stream.trailerSlices, memory'.read x = memory.read x := by
    intro x hx
    have hwithin := within_longer (h.held.trailerText x hx) h.held.trailerLen_le
    rcases howned.trailers with hzero | hmem
    · have hx : x.len = 0 := by
        unfold Slice.Within Slice.Inside at hwithin
        simp only at hwithin hzero
        omega
      exact Memory.read_of_len hx hx
    · exact read_kept hwithin (htrailers _ List.mem_cons_self hmem).2
  exact
    { held :=
        { owned :=
            { buffer := (hbuffer _ List.mem_cons_self howned.buffer).1
              head := howned.head.imp id fun hmem => (hhead _ List.mem_cons_self hmem).1
              trailers := howned.trailers.imp id fun hmem =>
                (htrailers _ List.mem_cons_self hmem).1
              head_buffer := howned.head_buffer
              trailers_buffer := howned.trailers_buffer
              trailers_head := howned.trailers_head }
          headLen_le := h.held.headLen_le
          headLen_max := h.held.headLen_max
          trailerLen_le := h.held.trailerLen_le
          trailerLen_max := h.held.trailerLen_max
          fieldCount_le := h.held.fieldCount_le
          fieldCount_max := h.held.fieldCount_max
          trailerCount_le := h.held.trailerCount_le
          trailerCount_max := h.held.trailerCount_max
          published_le := h.held.published_le
          headText := h.held.headText
          trailerText := h.held.trailerText }
      metadata := by
        rw [← h.metadata]
        refine (@metadata_trailers memory memory' stream stream hheadShown rfl rfl rfl rfl rfl rfl
          rfl).trans ?_
        rw [map_read_same htrailersShown]
        rfl
      published := h.published
      bodyFollows := h.bodyFollows
      headReady := h.headReady
      closed := h.closed
      busy := h.busy
      task := h.task
      trailing := h.trailing
      headSize := h.headSize
      trailerSize := h.trailerSize }

/-- Flags of a stream that no text depends on. -/
theorem flags_held {config : Config} {memory : Memory UInt8} {stream : Stream}
    {trailers closed busy : Bool} (h : Held config ⟨memory, stream⟩) :
    Held config ⟨memory, { stream with trailers, closed, busy }⟩ where
  owned :=
    { buffer := h.owned.buffer
      head := h.owned.head
      trailers := h.owned.trailers
      head_buffer := h.owned.head_buffer
      trailers_buffer := h.owned.trailers_buffer
      trailers_head := h.owned.trailers_head }
  headLen_le := h.headLen_le
  headLen_max := h.headLen_max
  trailerLen_le := h.trailerLen_le
  trailerLen_max := h.trailerLen_max
  fieldCount_le := h.fieldCount_le
  fieldCount_max := h.fieldCount_max
  trailerCount_le := h.trailerCount_le
  trailerCount_max := h.trailerCount_max
  published_le := h.published_le
  headText := h.headText
  trailerText := h.trailerText

theorem step_shows {config : Config} {state : State} {view : View} (event : Event)
    (h : Shows config state view) (hexpected : event.Expected state) :
    Shows config (event.step config state).1 (view.step event (event.step config state).2) := by
  obtain ⟨memory, stream⟩ := state
  cases event with
  | field alloc field => exact field_shows alloc field h hexpected
  | complete alloc ended => exact complete_shows alloc ended h hexpected
  | trailers =>
      have hready : stream.headReady = true := hexpected
      unfold Event.step beginTrailers
      cases htrailing : stream.trailers with
      | true => exact h
      | false =>
          exact
            { held := @flags_held config memory stream true stream.closed stream.busy h.held
              metadata := by
                show ({ State.metadata ⟨memory, stream⟩ with trailing := true } : Metadata) =
                  { view.metadata with trailing := true }
                rw [h.metadata]
              published := h.published
              bodyFollows := h.bodyFollows
              headReady := h.headReady
              closed := h.closed
              busy := h.busy
              task := h.task
              trailing := fun _ => hready
              headSize := h.headSize
              trailerSize := h.trailerSize }
  | task busy =>
      exact
        { held := @flags_held config memory stream stream.trailers stream.closed busy h.held
          metadata := h.metadata
          published := h.published
          bodyFollows := h.bodyFollows
          headReady := h.headReady
          closed := h.closed
          busy := rfl
          task := hexpected
          trailing := h.trailing
          headSize := h.headSize
          trailerSize := h.trailerSize }
  | close =>
      exact
        { held := @flags_held config memory stream stream.trailers true stream.busy h.held
          metadata := h.metadata
          published := h.published
          bodyFollows := h.bodyFollows
          headReady := h.headReady
          closed := rfl
          busy := h.busy
          task := h.task
          trailing := h.trailing
          headSize := h.headSize
          trailerSize := h.trailerSize }
  | elsewhere memory' => exact elsewhere_shows h hexpected
  | recycle fieldBuffer => exact begin_shows fieldBuffer h.held.owned

theorem run_shows {config : Config} (events : List Event) :
    ∀ {state : State} {view : View}, Shows config state view → Ordered config state events →
      Shows config (run config (state, view) events).1 (run config (state, view) events).2 := by
  induction events with
  | nil => exact fun h _ => h
  | cons event events ih =>
      intro state view h hordered
      exact ih (step_shows event h hordered.1) hordered.2

/-! ### Storage is transparent -/

/-- A new stream: nothing is allocated, and its first buffer is inside it. -/
def fresh (memory : Memory UInt8) (headBuffer outputBuffer : Nat) (fieldBuffer : Vector Field 16) :
    State :=
  ⟨memory, .begin {} ⟨headBuffer, 1024⟩ ⟨outputBuffer, 256⟩ fieldBuffer⟩

theorem fresh_shows (config : Config) {memory : Memory UInt8} {headBuffer outputBuffer : Nat}
    {fieldBuffer : Vector Field 16} (hbuffer : ⟨headBuffer, 1024⟩ ∈ memory.blocks) :
    Shows config (fresh memory headBuffer outputBuffer fieldBuffer) {} :=
  begin_shows fieldBuffer
    { buffer := hbuffer
      head := Or.inl rfl
      trailers := Or.inl rfl
      head_buffer := Or.inl rfl
      trailers_buffer := Or.inl rfl
      trailers_head := Or.inl rfl }

theorem Shows.live {config : Config} {state : State} {view : View} (h : Shows config state view) :
    ∀ x ∈ state.stream.headSlices ++ state.stream.trailerSlices,
      x.len = 0 ∨ state.memory.Live x := by
  intro x hx
  rcases List.mem_append.mp hx with hx | hx
  · exact Memory.Live.of_within h.held.owned.headBytes_mem
      (within_longer (h.held.headText x hx) h.held.headLen_le)
  · have hwithin := within_longer (h.held.trailerText x hx) h.held.trailerLen_le
    rcases h.held.owned.trailers with hzero | hmem
    · left
      unfold Slice.Within Slice.Inside at hwithin
      simp only at hwithin
      omega
    · exact Memory.Live.of_within hmem hwithin

/-- Over all lives of a stream, its metadata is that of the fields that it was given, in memory that is
allocated; and a call fails for one of its reasons. -/
theorem header_transparent (config : Config) (memory : Memory UInt8)
    (headBuffer outputBuffer : Nat) (fieldBuffer : Vector Field 16)
    (hbuffer : ⟨headBuffer, 1024⟩ ∈ memory.blocks) (events : List Event)
    (hordered : Ordered config (fresh memory headBuffer outputBuffer fieldBuffer) events) :
    let (state, view) := run config (fresh memory headBuffer outputBuffer fieldBuffer, {}) events
    state.metadata = view.metadata ∧ state.request = view.request ∧
      (∀ x ∈ state.stream.headSlices ++ state.stream.trailerSlices,
        x.len = 0 ∨ state.memory.Live x) ∧
      ∀ (alloc : Allocation) (field : Decoded), (Event.field alloc field).Expected state →
        view.closed = false →
          let (state', result) := header config alloc state field
          (result = .ok () → state'.metadata = view.metadata.receive field) ∧
            ∀ fault, result = .error fault →
              state'.metadata = view.metadata.refuse field fault ∧
                Refused config alloc state.memory view.metadata view.request view.size
                  (state.stream.asked config field) field fault := by
  have h := run_shows events (fresh_shows config hbuffer) hordered
  generalize run config (fresh memory headBuffer outputBuffer fieldBuffer, {}) events = reached at h ⊢
  obtain ⟨state, view⟩ := reached
  simp only at h ⊢
  refine ⟨h.metadata, h.request, h.live, fun alloc field hmode hclosed => ?_⟩
  have hhandled := header_handled alloc field h.held (h.expects hmode) (h.closed.trans hclosed)
  have hmetadata := hhandled.metadata
  rw [h.metadata] at hmetadata
  refine ⟨fun hok => ?_, fun fault hfault => ⟨?_, ?_⟩⟩
  · rw [hmetadata, hok]
    rfl
  · rw [hmetadata, hfault]
    rfl
  · have hrefused := hhandled.refused fault hfault
    rw [h.metadata, h.request] at hrefused
    exact hrefused.mono (h.used hmode)

/-- A memory with one stream in it. -/
def oneStream : Memory UInt8 := ⟨fun _ => 0, [⟨0, 1024⟩], List.pairwise_singleton _ _⟩

def noMemory : Allocation := ⟨fun _ _ => none, false⟩

def methodGet : Decoded := ⟨ascii ":method", ascii "GET", .inr ⟨ascii "method", rfl, by decide⟩⟩

/-- An allocator with room at one address. -/
def roomAt (ptr : Nat) : Allocation where
  bytes memory n :=
    if h : ∀ block ∈ memory.blocks, ptr + n ≤ block.ptr ∨ block.ptr + block.len ≤ ptr then
      some ⟨ptr, h⟩
    else none
  fields := true

/-- A field that is too long for the buffer of 1024 bytes. -/
def longField : Decoded := ⟨ascii "padding", List.replicate 1100 0x61, .inl (by decide)⟩

def longEvents : List Event := [.field noMemory methodGet, .field (roomAt 4096) longField]

def longRun : State × View :=
  run ⟨2048, 64, 64⟩ (fresh oneStream 0 2048 (Vector.replicate 16 {}), {}) longEvents

theorem longEvents_ordered :
    Ordered ⟨2048, 64, 64⟩ (fresh oneStream 0 2048 (Vector.replicate 16 {})) longEvents :=
  ⟨Or.inr rfl, Or.inr (by decide +kernel), trivial⟩

set_option maxRecDepth 8000 in
/-- The head has moved to a block of 2048 bytes and shows the same; one more such field is refused
with the 4096 bytes that it asks for. -/
theorem header_transparent_grown :
    longRun.1.stream.storage.head = ⟨4096, 2048⟩ ∧ longRun.1.metadata = longRun.2.metadata ∧
      longRun.1.metadata.method = ascii "GET" ∧
      longRun.1.metadata.headers = [⟨ascii "padding", List.replicate 1100 0x61⟩] ∧
      (header ⟨2048, 64, 64⟩ noMemory longRun.1 longField).2 = .error .outOfMemory ∧
      Refused ⟨2048, 64, 64⟩ noMemory longRun.1.memory longRun.2.metadata longRun.2.request
        longRun.2.size 4096 longField .outOfMemory := by
  have hhead : longRun.1.stream.storage.head = ⟨4096, 2048⟩ := by decide +kernel
  have hmethod : longRun.2.metadata.method = ascii "GET" := by decide +kernel
  have hheaders : longRun.2.metadata.headers = [⟨ascii "padding", List.replicate 1100 0x61⟩] := by
    decide +kernel
  have hready : longRun.1.stream.headReady = false := by decide +kernel
  have hclosed : longRun.2.closed = false := by decide +kernel
  have hasked : longRun.1.stream.asked ⟨2048, 64, 64⟩ longField = 4096 := by decide +kernel
  have hfull : (header ⟨2048, 64, 64⟩ noMemory longRun.1 longField).2 = .error .outOfMemory := by
    decide +kernel
  have h := header_transparent ⟨2048, 64, 64⟩ oneStream 0 2048 (Vector.replicate 16 {})
    List.mem_cons_self longEvents longEvents_ordered
  have hrun : run ⟨2048, 64, 64⟩ (fresh oneStream 0 2048 (Vector.replicate 16 {}), {}) longEvents =
      longRun := rfl
  rw [hrun] at h
  -- what was evaluated is all that the rest needs to know of the state
  generalize longRun = reached at h hhead hmethod hheaders hready hclosed hasked hfull ⊢
  obtain ⟨state, view⟩ := reached
  obtain ⟨hmetadata, -, -, hnext⟩ := h
  have hrefused := ((hnext noMemory longField (Or.inr hready) hclosed).2 _ hfull).2
  exact ⟨hhead, hmetadata, (congrArg Metadata.method hmetadata).trans hmethod,
    (congrArg Metadata.headers hmetadata).trans hheaders, hfull, hasked ▸ hrefused⟩

/-! ### Cookies of an accepted head -/

/-- The fields of a head arrive, and each is accepted. -/
def Session.accept (config : Config) : Session → List (Allocation × Decoded) → Option Session
  | session, [] => some session
  | session, (alloc, field) :: fields =>
      match Session.header config alloc session field with
      | (session, .ok ()) => accept config session fields
      | (_, .error _) => none

/-- What a session charges for headers. -/
def charge (headers : List Header) : Nat :=
  (headers.map fun header => header.name.length + header.value.length + 32).sum

/-- A head that is being received, with what the session has charged for it. -/
structure Charged (config : Config) (session : Session) (view : View) : Prop where
  shown : Shows config session.state view
  headReady : view.headReady = false
  trailing : view.metadata.trailing = false
  closed : view.closed = false
  headLen : session.state.stream.headLen ≤ session.headerBytes
  charge : charge view.metadata.headers ≤ session.headerBytes
  headerBytes : session.headerBytes ≤ config.headerBytes

theorem length_joinedCookies_le (headers : List Header) :
    (joinedCookies headers).length ≤ charge headers := by
  unfold joinedCookies
  cases hcookies : headers.filter isCookie with
  | nil => exact Nat.zero_le _
  | cons first rest =>
      rw [Join.length_intercalate _ (by simp), ← hcookies, List.map_map, List.length_map]
      have hsum : ((headers.filter isCookie).map (List.length ∘ Header.value)).sum +
          (headers.filter isCookie).length * 2 ≤ charge headers := by
        clear hcookies
        unfold charge
        induction headers with
        | nil => exact le_refl _
        | cons header headers ih =>
            rw [List.filter_cons, List.map_cons, List.sum_cons]
            split
            · rw [List.map_cons, List.sum_cons, List.length_cons, Function.comp_apply]
              omega
            · omega
      have hseparator : separator.length = 2 := rfl
      rw [hseparator]
      omega

theorem charge_append (headers : List Header) (header : Header) :
    charge (headers ++ [header]) = charge headers + (header.name.length + header.value.length + 32) := by
  unfold charge
  simp

/-- The headers that a field adds. -/
def Decoded.headers (field : Decoded) : List Header :=
  if field.name ∈ pseudo then [] else [field.toHeader]

theorem receive_headers {m : Metadata} {field : Decoded} (h : m.trailing = false) :
    (m.receive field).headers = m.headers ++ field.headers ∧ (m.receive field).trailing = false := by
  unfold Metadata.receive Decoded.headers pseudo
  simp only [h, Bool.false_eq_true, if_false, List.mem_cons, List.not_mem_nil, or_false]
  split_ifs <;> simp_all

theorem header_charged {config : Config} {session session' : Session} {view : View}
    {alloc : Allocation} {field : Decoded} (h : Charged config session view)
    (hok : Session.header config alloc session field = (session', .ok ())) :
    ∃ view', Charged config session' view' ∧
      view'.metadata.headers = view.metadata.headers ++ field.headers := by
  unfold Session.header at hok
  simp only at hok
  split at hok
  · exact absurd (congrArg Prod.snd hok) nofun
  next hcharge =>
    have hready : session.state.stream.headReady = false := h.shown.headReady.trans h.headReady
    have hmode : session.state.stream.trailers = true ∨ session.state.stream.headReady = false :=
      Or.inr hready
    have hclosed : session.state.stream.closed = false := h.shown.closed.trans h.closed
    have hshown := field_shows alloc field h.shown hmode
    have hhandled := header_handled alloc field h.shown.held (h.shown.expects hmode) hclosed
    generalize header config alloc session.state field = r at hok hshown hhandled
    obtain ⟨state, result⟩ := r
    simp only [Prod.mk.injEq] at hok
    obtain ⟨rfl, rfl⟩ := hok
    obtain ⟨hheaders, htrailing⟩ := @receive_headers _ field h.trailing
    have hview : view.receive field (.ok ()) = { view with
        metadata := view.metadata.receive field
        headSize := view.headSize + field.size } := by
      rw [View.receive, h.closed, if_neg Bool.false_ne_true, h.trailing]
      rfl
    rw [hview] at hshown
    refine ⟨_, ⟨hshown, h.headReady, htrailing, h.closed, ?_, ?_, ?_⟩, hheaders⟩
    · have hhead : ¬session.state.stream.trailers = true := by
        intro htrue
        rw [h.shown.trailing htrue] at hready
        exact absurd hready nofun
      have hhead' : ¬state.stream.trailers = true := by
        obtain ⟨_, _, _, _, _, hcounters⟩ := hhandled.counters
        rw [show state.stream.trailers = session.state.stream.trailers from
          congrArg Counters.trailers hcounters]
        exact hhead
      have hused := hhandled.used
      rw [Stream.used, Stream.used, if_neg hhead, if_neg hhead', Decoded.size] at hused
      have hle := h.headLen
      simp only at hused ⊢
      omega
    · simp only
      rw [hheaders, Decoded.headers]
      have hle := h.charge
      split
      · rw [List.append_nil]
        omega
      · rw [charge_append]
        exact Nat.add_le_add_right hle _
    · have hle := h.headerBytes
      simp only
      omega

theorem accept_charged {config : Config} (fields : List (Allocation × Decoded)) :
    ∀ {session session' : Session} {view : View}, Charged config session view →
      Session.accept config session fields = some session' →
        ∃ view', Charged config session' view' ∧
          view'.metadata.headers =
            view.metadata.headers ++ (fields.map Prod.snd).flatMap Decoded.headers := by
  induction fields with
  | nil =>
      intro session session' view h haccept
      rw [← Option.some.inj haccept]
      exact ⟨view, h, by rw [List.map_nil, List.flatMap_nil, List.append_nil]⟩
  | cons entry fields ih =>
      obtain ⟨alloc, field⟩ := entry
      intro session session' view h haccept
      rw [Session.accept] at haccept
      split at haccept
      next next hok =>
        obtain ⟨view₁, hcharged, hheaders⟩ := header_charged h hok
        obtain ⟨view', hcharged', hheaders'⟩ := ih hcharged haccept
        refine ⟨view', hcharged', ?_⟩
        rw [hheaders', hheaders, List.append_assoc, List.map_cons, List.flatMap_cons]
      · exact absurd haccept nofun

/-- The head of a stream that has received `fields`, over storage that is new or was used before. -/
theorem headComplete_cookies (config : Config) (memory : Memory UInt8)
    (headBuffer outputBuffer : Nat) (fieldBuffer fieldBuffer' : Vector Field 16)
    (hbuffer : ⟨headBuffer, 1024⟩ ∈ memory.blocks) (events : List Event)
    (hordered : Ordered config (fresh memory headBuffer outputBuffer fieldBuffer) events)
    (fields : List (Allocation × Decoded)) (session : Session)
    (haccept : Session.accept config
      { state := (Event.step config
          (run config (fresh memory headBuffer outputBuffer fieldBuffer, {}) events).1
          (.recycle fieldBuffer')).1 } fields = some session)
    (alloc : Allocation) (ended : Bool) :
    let headers := (fields.map Prod.snd).flatMap Decoded.headers
    let (state, result) := headComplete config alloc session.state false ended
    session.state.metadata.headers = headers ∧
      (result = .error .outOfMemory ∧
          alloc.bytes session.state.memory
            (session.state.stream.headAsked config (joinedCookies headers).length) = none ∧
          state = session.state ∨
        result = .ok () ∧
          state.request.headers.filter (!isCookie ·) = headers.filter (!isCookie ·) ∧
          ((headers.filter isCookie).length ≤ 1 → state.request.headers = headers) ∧
          (1 < (headers.filter isCookie).length → ∃ before first after,
            headers = before ++ first :: after ∧ before.filter isCookie = [] ∧
              isCookie first = true ∧
              state.request.headers = before ++
                ⟨cookie, separator.intercalate ((headers.filter isCookie).map Header.value)⟩ ::
                  after.filter (!isCookie ·))) := by
  have hrun := run_shows events (fresh_shows config hbuffer) hordered
  have hbegin := step_shows (.recycle fieldBuffer') hrun trivial
  obtain ⟨view, hcharged, hheaders⟩ := @accept_charged config fields
    { state := (Event.step config
      (run config (fresh memory headBuffer outputBuffer fieldBuffer, {}) events).1
      (.recycle fieldBuffer')).1 } _ {}
    ⟨hbegin, rfl, rfl, rfl, Nat.zero_le _, Nat.zero_le _, Nat.zero_le _⟩ haccept
  rw [show ({} : View).metadata.headers = [] from rfl, List.nil_append] at hheaders
  intro headers
  have hready : session.state.stream.headReady = false :=
    hcharged.shown.headReady.trans hcharged.headReady
  have hexpects := hcharged.shown.expects (Or.inr hready)
  have hmetadata : session.state.metadata.headers = headers := by
    rw [hcharged.shown.metadata, hheaders]
  have hhead : ¬session.state.stream.trailers = true := by
    intro htrue
    rw [hcharged.shown.trailing htrue] at hready
    exact absurd hready nofun
  have hspec := headComplete_spec alloc ended hcharged.shown.held hready
    (hexpects.resolve_left hhead).2
    (by rw [hcharged.shown.published, hready, if_neg Bool.false_ne_true])
  generalize headComplete config alloc session.state false ended = r at hspec ⊢
  obtain ⟨state, result⟩ := r
  simp only [Prod.mk.injEq] at hspec ⊢
  refine ⟨hmetadata, ?_⟩
  rcases hspec with ⟨rfl, hdone⟩ | ⟨fault, ⟨rfl, rfl⟩, hincomplete⟩
  · right
    have hrequest : state.request.headers = coalesce headers := by
      rw [hdone.held.request_eq, hdone.published, ← hdone.held.length_headers, hdone.metadata,
        hmetadata]
      exact List.take_length
    rw [hrequest]
    refine ⟨rfl, coalesce_others headers, coalesce_of_le, fun hlt => ?_⟩
    obtain ⟨before, first, after, heq, hbefore, hfirst⟩ := split_first isCookie (l := headers) (by
      intro hnil
      rw [hnil] at hlt
      exact absurd hlt (by decide))
    have hafter : after.filter isCookie ≠ [] := by
      intro hnil
      rw [heq, List.filter_append, hbefore, List.filter_cons, if_pos hfirst, hnil] at hlt
      exact absurd hlt (lt_irrefl 1)
    exact ⟨before, first, after, heq, hbefore, hfirst,
      by conv_lhs => rw [heq, coalesce_of_lt hbefore hfirst hafter, ← heq]⟩
  · left
    cases hincomplete with
    | memory hrefuses => exact ⟨rfl, hmetadata ▸ hrefuses, rfl⟩
    | bytes hlt =>
        -- what was charged for the cookies pays for joining them
        have hjoined := length_joinedCookies_le headers
        rw [hmetadata] at hlt
        have hle := hcharged.charge
        rw [hheaders] at hle
        have hheadLen := hcharged.headLen
        have hmax := hcharged.headerBytes
        have : charge headers ≤ session.headerBytes := hle
        omega

def twoCookies : List (Allocation × Decoded) :=
  [(noMemory, ⟨cookie, ascii "a=1", .inl (by decide)⟩),
    (noMemory, ⟨cookie, ascii "b=2", .inl (by decide)⟩)]

theorem headComplete_cookies_two : ∃ session,
    Session.accept ⟨128, 64, 64⟩
        { state := (Event.step ⟨128, 64, 64⟩
          (run ⟨128, 64, 64⟩ (fresh oneStream 0 2048 (Vector.replicate 16 {}), {}) []).1
          (.recycle (Vector.replicate 16 {}))).1 } twoCookies = some session ∧
      session.state.metadata.headers = [⟨cookie, ascii "a=1"⟩, ⟨cookie, ascii "b=2"⟩] := by
  have h := fun session haccept => (headComplete_cookies ⟨128, 64, 64⟩ oneStream 0 2048
    (Vector.replicate 16 {}) (Vector.replicate 16 {}) List.mem_cons_self [] trivial twoCookies
    session haccept noMemory true).1
  exact ⟨_, rfl, h _ rfl⟩

end Http2

end Zhtps
