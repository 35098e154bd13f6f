import Zhtps.Http.Grammar
import Zhtps.Http.ResponseHead
import Zhtps.Http2.Metadata

/-!
The metadata of a response, after `respond` of `src/server/http2.zig`.

Names are lowered into a buffer of the stream that moves to larger blocks during the loop; whatever else
the fields refer to lies outside of it.
-/

namespace Zhtps

namespace Http2

open Lib Response

/-! ### The model -/

/-- `http.Response`, which borrows its fields. -/
structure Reply where
  status : Nat
  headers : List Field
  body : Body
  close : Bool

def Reply.read (memory : Memory UInt8) (reply : Reply) : Response :=
  { status := reply.status
    headers := reply.headers.map (Field.read memory)
    body := reply.body
    close := reply.close }

/-- The texts that `respond` refers to: two literals, the date of the owner, and the buffer on the stack
for a number. -/
structure Texts where
  dateName : Slice
  lengthName : Slice
  date : Slice
  lengthBuffer : Slice

inductive Stop
  | reset
  | fault (fault : Fault)
  deriving DecidableEq, Repr

/-- The locals of the loop over the headers. -/
structure Collecting where
  state : State
  fields : List Field
  budget : Nat
  namesUsed : Nat := 0

section Calls

variable (config : Config) (alloc : Memory.Allocator UInt8)

def reserveOutput (state : State) (needed used : Nat) : Except Fault State :=
  if config.responseBytes < needed then .error .panic
  else
    let previous := state.stream.outputBytes
    if needed ≤ previous.len then .ok state
    else if state.stream.busy then .error .panic
    else
      match growBytes alloc state.memory state.stream.storage.output ⟨previous.ptr, used⟩
          (min config.responseBytes (max needed (previous.len * 2))) with
      | none => .error .outOfMemory
      | some (memory, output) =>
          .ok ⟨memory, { state.stream with storage := { state.stream.storage with output } }⟩

/-- `syntax.trim` of a slice. -/
def trimSlice (memory : Memory UInt8) (text : Slice) : Slice :=
  let bytes := memory.read text
  ⟨text.ptr + (bytes.length - (Mem.trimStart bytes).length), (Syntax.trim bytes).length⟩

def isFiltered (name : Bytes) : Bool :=
  Syntax.eql name (ascii "keep-alive") || Syntax.eql name (ascii "upgrade") ||
    Syntax.eql name (ascii "proxy-connection")

/-- A name with an upper case letter is lowered into the output buffer; when that moves, so do the names
in it. -/
def lowerName (collecting : Collecting) (name : Slice) : Except Stop (Collecting × Slice) :=
  let state := collecting.state
  if (state.memory.read name).any Ascii.isUpper then
    let previous := state.stream.outputBytes
    match reserveOutput config alloc state (collecting.namesUsed + name.len)
        collecting.namesUsed with
    | .error fault => .error (.fault fault)
    | .ok state =>
        let names := state.stream.outputBytes
        let fields :=
          if previous.ptr ≠ names.ptr then
            collecting.fields.map fun prior =>
              { prior with
                name := relocated ⟨previous.ptr, collecting.namesUsed⟩ names prior.name }
          else collecting.fields
        if names.len < collecting.namesUsed + name.len then .error (.fault .panic)
        else
          let lower : Slice := ⟨names.ptr + collecting.namesUsed, name.len⟩
          let memory := state.memory.write lower.ptr ((state.memory.read name).map Ascii.toLower)
          .ok ({ collecting with
            state := ⟨memory, state.stream⟩
            fields
            namesUsed := collecting.namesUsed + name.len }, lower)
  else .ok (collecting, name)

/-- One turn of the loop. -/
def addHeader (collecting : Collecting) (field : Field) : Except Stop Collecting :=
  if field.name.len > collecting.budget then .error .reset
  else
    let budget := collecting.budget - field.name.len
    if field.value.len > budget then .error .reset
    else
      let budget := budget - field.value.len
      if budget < 4 then .error .reset
      else
        let collecting := { collecting with budget := budget - 4 }
        if isFiltered (collecting.state.memory.read field.name) then .ok collecting
        else if collecting.fields.length = 63 then .error .reset
        else
          match lowerName config alloc collecting field.name with
          | .error stop => .error stop
          | .ok (collecting, name) =>
              .ok { collecting with
                fields := collecting.fields ++
                  [⟨name, trimSlice collecting.state.memory field.value⟩] }

/-- What the HTTP/1 head of the response takes besides its fields. -/
def fixedBytes (reply : Reply) (request : Request) (plan : Framing) (date lengthText : Nat) : Nat :=
  (ascii "HTTP/1.1 000 \r\nDate: \r\n\r\n").length + date + (reason reply.status).length +
    (if reply.close || !request.keepAlive then (ascii "Connection: close\r\n").length else 0) +
    (if plan.contentLength.isSome then (ascii "Content-Length: \r\n").length + lengthText
      else if !plan.suppressed then (ascii "Transfer-Encoding: chunked\r\n").length
      else 0)

def hasBody (reply : Reply) (plan : Framing) : Bool :=
  !plan.suppressed &&
    match reply.body with
    | .bytes bytes => !bytes.isEmpty
    | .stream _ => true

/-- The fields before the loop. -/
def firstFields (texts : Texts) (plan : Framing) : List Field :=
  ⟨texts.dateName, texts.date⟩ ::
    (if plan.contentLength.isSome then
      [⟨texts.lengthName, ⟨texts.lengthBuffer.ptr,
        ((plan.contentLength.map (digits 10)).getD []).length⟩⟩]
    else [])

def isStream : Body → Bool
  | .bytes _ => false
  | .stream _ => true

/-- `respond` up to the call of the engine: the state, the fields it is given, and whether a body
follows. -/
def respond (texts : Texts) (state : State) (reply : Reply) :
    Except Stop (State × List Field × Bool) :=
  if reply.status < 200 then .error .reset
  else
    let request := state.request
    match framing (reply.read state.memory) request with
    | .error _ => .error .reset
    | .ok plan =>
        let reserved :=
          if hasBody reply plan && isStream reply.body then
            reserveOutput config alloc state config.responseBytes 0
          else .ok state
        match reserved with
        | .error fault => .error (.fault fault)
        | .ok state =>
            let lengthText := (plan.contentLength.map (digits 10)).getD []
            if texts.lengthBuffer.len < lengthText.length then .error (.fault .panic)
            else
              let memory := state.memory.write texts.lengthBuffer.ptr lengthText
              let fixed := fixedBytes reply request plan texts.date.len lengthText.length
              if fixed > config.responseBytes then .error .reset
              else
                let collecting : Collecting :=
                  { state := ⟨memory, state.stream⟩
                    fields := firstFields texts plan
                    budget := config.responseBytes - fixed }
                match reply.headers.foldlM (addHeader config alloc) collecting with
                | .error stop => .error stop
                | .ok collecting =>
                    .ok (collecting.state, collecting.fields, hasBody reply plan)

end Calls

/-! ### The output buffer and what lies outside of it -/

/-- The output buffer of a stream is allocated. -/
structure OutputOwned (memory : Memory UInt8) (stream : Stream) : Prop where
  buffer : stream.outputBuffer ∈ memory.blocks
  output : stream.storage.output.len = 0 ∨ stream.storage.output ∈ memory.blocks
  distinct : Distinct stream.storage.output stream.outputBuffer

/-- Text in a block that is none of some others. -/
def Outside (memory : Memory UInt8) (blocks : List Slice) (x : Slice) : Prop :=
  x.len = 0 ∨ ∃ block ∈ memory.blocks, x.Inside block ∧ block ∉ blocks

/-- The blocks that the output of a stream may be in. -/
def Stream.outputs (stream : Stream) : List Slice := [stream.storage.output, stream.outputBuffer]

theorem Outside.part {memory : Memory UInt8} {blocks : List Slice} {x : Slice} {start n : Nat}
    (h : Outside memory blocks x) (hle : start + n ≤ x.len) :
    Outside memory blocks ⟨x.ptr + start, n⟩ := by
  rcases h with h | ⟨block, hblock, hinside, hnot⟩
  · exact Or.inl (by simp only; omega)
  · refine Or.inr ⟨block, hblock, ?_, hnot⟩
    unfold Slice.Inside at *
    simp only
    omega

theorem OutputOwned.outputBytes_mem {memory : Memory UInt8} {stream : Stream}
    (h : OutputOwned memory stream) : stream.outputBytes ∈ memory.blocks := by
  unfold Stream.outputBytes
  split
  · exact h.buffer
  next hlen => exact h.output.resolve_left hlen

theorem outputBytes_mem_outputs (stream : Stream) : stream.outputBytes ∈ stream.outputs := by
  unfold Stream.outputBytes Stream.outputs
  split <;> simp

/-- Text outside of the output does not overlap it. -/
theorem Outside.apart {memory : Memory UInt8} {stream : Stream} {x : Slice}
    (h : Outside memory stream.outputs x) (howned : OutputOwned memory stream) :
    x.len = 0 ∨ x.Apart stream.outputBytes := by
  rcases h with h | ⟨block, hblock, hinside, hnot⟩
  · exact Or.inl h
  · have hne : block ≠ stream.outputBytes := by
      rintro rfl
      exact hnot (outputBytes_mem_outputs stream)
    have hapart := Memory.apart_of_mem hblock howned.outputBytes_mem hne
    refine Or.inr ?_
    unfold Slice.Inside at hinside
    unfold Slice.Apart at *
    omega

/-- What becomes of a name when the buffer moves. -/
def moveName (previous names : Slice) (used : Nat) (x : Slice) : Slice :=
  if previous.ptr ≠ names.ptr then relocated ⟨previous.ptr, used⟩ names x else x

/-- A state with more room in the output buffer. -/
structure Reserved (state state' : State) (needed used : Nat) : Prop where
  owned : OutputOwned state'.memory state'.stream
  room : needed ≤ state'.stream.outputBytes.len
  busy : state'.stream.busy = state.stream.busy
  outside : ∀ {x : Slice}, Outside state.memory state.stream.outputs x →
    Outside state'.memory state'.stream.outputs x ∧ state'.memory.read x = state.memory.read x
  names : ∀ {x : Slice}, x.Within ⟨state.stream.outputBytes.ptr, used⟩ →
    (moveName state.stream.outputBytes state'.stream.outputBytes used x).Within
        ⟨state'.stream.outputBytes.ptr, used⟩ ∧
      state'.memory.read (moveName state.stream.outputBytes state'.stream.outputBytes used x) =
        state.memory.read x

theorem Reserved.refl {state : State} {needed used : Nat}
    (howned : OutputOwned state.memory state.stream)
    (hroom : needed ≤ state.stream.outputBytes.len) : Reserved state state needed used where
  owned := howned
  room := hroom
  busy := rfl
  outside := fun h => ⟨h, rfl⟩
  names := by
    intro x hx
    rw [moveName, if_neg (not_not_intro rfl)]
    exact ⟨hx, rfl⟩

theorem output_reserved {memory memory' : Memory UInt8} {stream : Stream} {output : Slice}
    {needed used capacity : Nat} (howned : OutputOwned memory stream)
    (hused : used ≤ stream.outputBytes.len)
    (hgrown : Grown memory memory' stream.storage.output ⟨stream.outputBytes.ptr, used⟩ output
      capacity) (hpos : 0 < capacity) (hroom : needed ≤ capacity) :
    Reserved ⟨memory, stream⟩
      ⟨memory', { stream with storage := { stream.storage with output } }⟩ needed used := by
  have hlen := hgrown.len
  have hbytes : ({ stream with storage := { stream.storage with output } } : Stream).outputBytes =
      output := if_neg (by simp only; omega)
  constructor
  case owned =>
    exact
      { buffer := hgrown.kept _ howned.buffer howned.distinct.symm
        output := Or.inr hgrown.mem
        distinct := distinct_of_apart hgrown.apart (Or.inr howned.buffer) }
  case room =>
    simp only
    rw [hbytes, hlen]
    exact hroom
  case busy => rfl
  case outside =>
    intro x hx
    refine ⟨?_, ?_⟩
    · rcases hx with hx | ⟨block, hblock, hinside, hnot⟩
      · exact Or.inl hx
      · by_cases hzero : block.len = 0
        · left
          unfold Slice.Inside at hinside
          omega
        · have hnext := ((distinct_of_apart hgrown.apart (Or.inr hblock)).resolve_left
            (by omega)).resolve_left hzero
          refine Or.inr ⟨block, hgrown.kept block hblock (Or.inr (Or.inr ?_)), hinside, ?_⟩
          · rintro rfl
            exact hnot (by simp [Stream.outputs])
          · intro hmem
            refine hnot ?_
            simp only [Stream.outputs, List.mem_cons, List.not_mem_nil, or_false] at hmem ⊢
            rcases hmem with hmem | hmem
            · exact absurd hmem.symm hnext
            · exact Or.inr hmem
    · rcases hx with hx | ⟨block, hblock, hinside, -⟩
      · exact Memory.read_of_len hx hx
      · exact hgrown.shown hblock (Or.inr hinside)
  case names =>
    intro x hx
    simp only at hx ⊢
    rw [hbytes]
    by_cases hptr : stream.outputBytes.ptr = output.ptr
    · -- a block that overlaps the one in use has no room for a name
      have hapart := hgrown.apart _ howned.outputBytes_mem
      have hzero : x.len = 0 := by
        unfold Slice.Apart at hapart
        unfold Slice.Within Slice.Inside at hx
        simp only at hx
        omega
      rw [moveName, if_neg (not_not_intro hptr)]
      exact ⟨Or.inl hzero, Memory.read_of_len hzero hzero⟩
    · rw [moveName, if_pos hptr]
      exact ⟨relocated_within hx rfl, relocated_read hx hgrown.copied⟩

theorem reserveOutput_spec {config : Config} {alloc : Memory.Allocator UInt8} {state : State}
    {needed used : Nat} (howned : OutputOwned state.memory state.stream)
    (hbusy : state.stream.busy = false) (hneeded : needed ≤ config.responseBytes)
    (hused : used ≤ state.stream.outputBytes.len) (hle : used ≤ needed) :
    (reserveOutput config alloc state needed used = .error .outOfMemory ∧
      ∃ memory n, alloc memory n = none) ∨
    ∃ state', reserveOutput config alloc state needed used = .ok state' ∧
      Reserved state state' needed used := by
  obtain ⟨memory, stream⟩ := state
  unfold reserveOutput
  simp only at hbusy hused ⊢
  rw [if_neg (by omega)]
  split
  next hfits => exact Or.inr ⟨_, rfl, .refl howned hfits⟩
  next hshort =>
    rw [if_neg (by rw [hbusy]; exact Bool.false_ne_true)]
    cases hgrow : growBytes alloc memory stream.storage.output ⟨stream.outputBytes.ptr, used⟩
        (min config.responseBytes (max needed (stream.outputBytes.len * 2))) with
    | none => exact Or.inl ⟨rfl, _, _, growBytes_none hgrow⟩
    | some grown =>
        obtain ⟨memory', output⟩ := grown
        have hroom : needed ≤ min config.responseBytes
            (max needed (stream.outputBytes.len * 2)) := by omega
        have hgrown := growBytes_grown hgrow howned.output (by omega) (by simp only; omega)
        refine Or.inr ⟨_, rfl, ?_⟩
        exact output_reserved howned hused hgrown (by omega) hroom

/-! ### The loop -/

/-- The slice of `trimSlice` is the part of the text that is left. -/
theorem trimSlice_eq (memory : Memory UInt8) (text : Slice) :
    ∃ start n, start + n ≤ text.len ∧ trimSlice memory text = ⟨text.ptr + start, n⟩ ∧
      ((memory.read text).drop start).take n = Syntax.trim (memory.read text) := by
  have hlen := Memory.length_read memory text
  unfold trimSlice
  simp only
  generalize memory.read text = bytes at hlen ⊢
  obtain ⟨l, -, hfront, -⟩ := Grammar.trimStart_split bytes
  obtain ⟨r, -, hback, -⟩ := Grammar.trimStart_split (Mem.trimStart bytes).reverse
  have hrest : Mem.trimStart bytes = Syntax.trim bytes ++ r.reverse := by
    rw [Syntax.trim, Mem.trim, ← List.reverse_append, ← hback, List.reverse_reverse]
  have hlength : bytes.length = l.length + (Mem.trimStart bytes).length := by
    rw [← List.length_append, ← hfront]
  have hlength' := congrArg List.length hrest
  rw [List.length_append] at hlength'
  have hdrop : bytes.drop l.length = Mem.trimStart bytes :=
    (congrArg (List.drop l.length) hfront).trans List.drop_left
  refine ⟨_, _, by omega, rfl, ?_⟩
  rw [hlength, Nat.add_sub_cancel, hdrop, hrest, List.take_left]

theorem trimSlice_read (memory : Memory UInt8) (text : Slice) :
    memory.read (trimSlice memory text) = Syntax.trim (memory.read text) := by
  obtain ⟨start, n, hle, heq, htrim⟩ := trimSlice_eq memory text
  rw [heq, Memory.read_part memory text hle, htrim]

theorem trimSlice_outside {memory : Memory UInt8} {blocks : List Slice} {text : Slice}
    (h : Outside memory blocks text) : Outside memory blocks (trimSlice memory text) := by
  obtain ⟨start, n, hle, heq, -⟩ := trimSlice_eq memory text
  rw [heq]
  exact h.part hle

/-- A response header as HTTP/2 has it. -/
def lowered (header : Header) : Header := ⟨header.name.map Ascii.toLower, Syntax.trim header.value⟩

/-- The headers that are passed on: all but those of the HTTP/1 connection. -/
def passed (headers : List Header) : List Header :=
  (headers.filter fun header =>
    header.name.map Ascii.toLower ≠ ascii "keep-alive" ∧
      header.name.map Ascii.toLower ≠ ascii "upgrade" ∧
      header.name.map Ascii.toLower ≠ ascii "proxy-connection").map lowered

/-- What headers take of an HTTP/1 head. -/
def lineBytes (headers : List Header) : Nat :=
  (headers.map fun header => header.name.length + header.value.length + 4).sum

/-- Text that a field may refer to when so much of the output buffer is in use. -/
def Referable (state : State) (used : Nat) (x : Slice) : Prop :=
  x.Within ⟨state.stream.outputBytes.ptr, used⟩ ∨
    Outside state.memory state.stream.outputs x

/-- The loop has collected `shown`, in a state that shows the texts of `start`. -/
structure Collected (config : Config) (start : Memory UInt8) (headers : List Field)
    (collecting : Collecting) (shown : List Header) : Prop where
  owned : OutputOwned collecting.state.memory collecting.state.stream
  busy : collecting.state.stream.busy = false
  used : collecting.namesUsed ≤ collecting.state.stream.outputBytes.len
  room : collecting.namesUsed + collecting.budget ≤ config.responseBytes
  names : ∀ field ∈ collecting.fields,
    Referable collecting.state collecting.namesUsed field.name
  values : ∀ field ∈ collecting.fields,
    Outside collecting.state.memory collecting.state.stream.outputs field.value
  read : collecting.fields.map (Field.read collecting.state.memory) = shown
  texts : ∀ x ∈ Stream.fieldSlices headers,
    Outside collecting.state.memory collecting.state.stream.outputs x ∧
      collecting.state.memory.read x = start.read x

/-- Text outside of the output is not moved. -/
theorem moveName_outside {memory : Memory UInt8} {stream : Stream} {names x : Slice} {used : Nat}
    (h : Outside memory stream.outputs x) (howned : OutputOwned memory stream)
    (hused : used ≤ stream.outputBytes.len) : moveName stream.outputBytes names used x = x := by
  have hapart := h.apart howned
  unfold moveName relocated
  split
  · rw [if_pos]
    unfold Slice.Apart at hapart
    simp only
    omega
  · rfl

/-- Whatever a field refers to is found again when the output moves. -/
theorem Reserved.referable {state state' : State} {needed used : Nat} {x : Slice}
    (h : Reserved state state' needed used) (howned : OutputOwned state.memory state.stream)
    (hused : used ≤ state.stream.outputBytes.len) (hx : Referable state used x) :
    Referable state' used (moveName state.stream.outputBytes state'.stream.outputBytes used x) ∧
      state'.memory.read (moveName state.stream.outputBytes state'.stream.outputBytes used x) =
        state.memory.read x := by
  rcases hx with hx | hx
  · obtain ⟨hwithin, hread⟩ := h.names hx
    exact ⟨Or.inl hwithin, hread⟩
  · rw [moveName_outside hx howned hused]
    obtain ⟨houtside, hread⟩ := h.outside hx
    exact ⟨Or.inr houtside, hread⟩

theorem Collected.reserved {config : Config} {start : Memory UInt8} {headers : List Field}
    {collecting : Collecting} {shown : List Header} {state' : State} {needed : Nat}
    (h : Collected config start headers collecting shown)
    (hreserved : Reserved collecting.state state' needed collecting.namesUsed)
    (hle : collecting.namesUsed ≤ needed) :
    Collected config start headers
      { collecting with
        state := state'
        fields := collecting.fields.map fun prior =>
          { prior with
            name := moveName collecting.state.stream.outputBytes state'.stream.outputBytes
              collecting.namesUsed prior.name } } shown := by
  have hmoved := fun x => hreserved.referable (x := x) h.owned h.used
  constructor
  case owned => exact hreserved.owned
  case busy => exact hreserved.busy.trans h.busy
  case used => exact hle.trans hreserved.room
  case room => exact h.room
  case names =>
    intro field hfield
    obtain ⟨prior, hprior, rfl⟩ := List.mem_map.mp hfield
    exact (hmoved _ (h.names prior hprior)).1
  case values =>
    intro field hfield
    obtain ⟨prior, hprior, rfl⟩ := List.mem_map.mp hfield
    exact (hreserved.outside (h.values prior hprior)).1
  case read =>
    rw [← h.read, List.map_map]
    apply List.map_congr_left
    intro prior hprior
    show (⟨_, _⟩ : Header) = ⟨_, _⟩
    rw [(hmoved _ (h.names prior hprior)).2, (hreserved.outside (h.values prior hprior)).2]
  case texts =>
    intro x hx
    obtain ⟨houtside, hread⟩ := h.texts x hx
    obtain ⟨houtside', hread'⟩ := hreserved.outside houtside
    exact ⟨houtside', hread'.trans hread⟩

/-- A copy behind the names in use changes nothing that a field refers to. -/
theorem write_referable {state : State} {used : Nat} {bytes : Bytes} {x : Slice}
    (howned : OutputOwned state.memory state.stream)
    (hroom : used + bytes.length ≤ state.stream.outputBytes.len) (hx : Referable state used x) :
    (state.memory.write (state.stream.outputBytes.ptr + used) bytes).read x =
      state.memory.read x := by
  apply Memory.read_write_apart
  rcases hx with (hx | hx) | hx
  · exact Or.inl hx
  · right
    unfold Slice.Inside at hx
    unfold Slice.Apart
    simp only at hx ⊢
    omega
  · rcases hx.apart howned with hx | hx
    · exact Or.inl hx
    · right
      unfold Slice.Apart at hx ⊢
      simp only
      omega

theorem Referable.mono {state : State} {used used' : Nat} {x : Slice}
    (h : Referable state used x) (hle : used ≤ used') : Referable state used' x :=
  h.imp (within_longer · hle) id

theorem Collected.written {config : Config} {start : Memory UInt8} {headers : List Field}
    {collecting : Collecting} {shown : List Header} {bytes : Bytes}
    (h : Collected config start headers collecting shown)
    (hroom : collecting.namesUsed + bytes.length ≤ collecting.state.stream.outputBytes.len)
    (hbudget : collecting.namesUsed + bytes.length + collecting.budget ≤ config.responseBytes) :
    Collected config start headers
      { collecting with
        state := ⟨collecting.state.memory.write
          (collecting.state.stream.outputBytes.ptr + collecting.namesUsed) bytes,
          collecting.state.stream⟩
        namesUsed := collecting.namesUsed + bytes.length } shown := by
  have hsame := fun x => write_referable (x := x) h.owned hroom
  constructor
  case owned => exact { buffer := h.owned.buffer, output := h.owned.output, distinct := h.owned.distinct }
  case busy => exact h.busy
  case used => exact hroom
  case room => exact hbudget
  case names => exact fun field hfield => (h.names field hfield).mono (Nat.le_add_right _ _)
  case values => exact h.values
  case read =>
    rw [← h.read]
    apply List.map_congr_left
    intro field hfield
    show (⟨_, _⟩ : Header) = ⟨_, _⟩
    rw [hsame _ (h.names field hfield), hsame _ (Or.inr (h.values field hfield))]
  case texts =>
    intro x hx
    obtain ⟨houtside, hread⟩ := h.texts x hx
    exact ⟨houtside, (hsame x (Or.inr houtside)).trans hread⟩

theorem Collected.push {config : Config} {start : Memory UInt8} {headers : List Field}
    {collecting : Collecting} {shown : List Header} {field : Field}
    (h : Collected config start headers collecting shown)
    (hname : Referable collecting.state collecting.namesUsed field.name)
    (hvalue : Outside collecting.state.memory collecting.state.stream.outputs field.value) :
    Collected config start headers
      { collecting with fields := collecting.fields ++ [field] }
      (shown ++ [field.read collecting.state.memory]) where
  owned := h.owned
  busy := h.busy
  used := h.used
  room := h.room
  names := by
    intro other hother
    rcases List.mem_append.mp hother with hother | hother
    · exact h.names other hother
    · rw [List.mem_singleton.mp hother]
      exact hname
  values := by
    intro other hother
    rcases List.mem_append.mp hother with hother | hother
    · exact h.values other hother
    · rw [List.mem_singleton.mp hother]
      exact hvalue
  read := by rw [List.map_append, h.read, List.map_singleton]
  texts := h.texts

/-- A name is lowered into the buffer, or refers to the text that is lower case already. -/
theorem lowerName_spec {config : Config} {alloc : Memory.Allocator UInt8} {start : Memory UInt8}
    {headers : List Field} {collecting : Collecting} {shown : List Header} {name : Slice}
    (h : Collected config start headers collecting shown)
    (hname : name ∈ Stream.fieldSlices headers)
    (hroom : collecting.namesUsed + name.len + collecting.budget ≤ config.responseBytes) :
    (lowerName config alloc collecting name = .error (.fault .outOfMemory) ∧
      ∃ memory n, alloc memory n = none) ∨
    ∃ next lower, lowerName config alloc collecting name = .ok (next, lower) ∧
      Collected config start headers next shown ∧ next.budget = collecting.budget ∧
      Referable next.state next.namesUsed lower ∧
      next.state.memory.read lower = (start.read name).map Ascii.toLower := by
  obtain ⟨houtside, hread⟩ := h.texts name hname
  unfold lowerName
  simp only
  split
  next hupper =>
    rcases @reserveOutput_spec config alloc collecting.state (collecting.namesUsed + name.len)
      collecting.namesUsed h.owned h.busy (by omega) h.used (by omega) with
      ⟨hreserve, hrefused⟩ | ⟨state, hreserve, hreserved⟩
    · rw [hreserve]
      exact Or.inl ⟨rfl, hrefused⟩
    · have hmoved := h.reserved hreserved (by omega)
      have hfields : (if collecting.state.stream.outputBytes.ptr ≠ state.stream.outputBytes.ptr then
            collecting.fields.map fun prior =>
              { prior with
                name := relocated ⟨collecting.state.stream.outputBytes.ptr, collecting.namesUsed⟩
                  state.stream.outputBytes prior.name }
          else collecting.fields) =
          collecting.fields.map fun prior =>
            { prior with
              name := moveName collecting.state.stream.outputBytes state.stream.outputBytes
                collecting.namesUsed prior.name } := by
        unfold moveName
        split
        · rfl
        · exact (List.map_id' _).symm
      have hlen : ((state.memory.read name).map Ascii.toLower).length = name.len := by
        rw [List.length_map, Memory.length_read]
      have hsame := (hmoved.texts name hname).2
      have hwritten := @Collected.written config start headers _ shown
        ((state.memory.read name).map Ascii.toLower) hmoved
        (by rw [hlen]; exact hreserved.room) (by rw [hlen]; exact hroom)
      rw [hreserve]
      simp only
      rw [if_neg (Nat.not_lt.mpr hreserved.room), hfields]
      rw [hlen] at hwritten
      refine Or.inr ⟨_, _, rfl, hwritten, rfl, Or.inl (Or.inr ?_), ?_⟩
      · unfold Slice.Inside
        simp only
        omega
      · rw [← hsame, ← hlen]
        exact Memory.read_write_self ..
  next hlower =>
    refine Or.inr ⟨_, _, rfl, h, rfl, Or.inr houtside, ?_⟩
    rw [hread] at hlower ⊢
    rw [List.map_congr_left (g := id), List.map_id]
    intro c hc
    have hnot : Ascii.isUpper c = false := by
      by_contra hupper
      exact hlower (List.any_eq_true.mpr ⟨c, hc, by simpa using hupper⟩)
    rw [Ascii.toLower, hnot]
    rfl

theorem lineBytes_read (memory : Memory UInt8) (field : Field) (rest : List Header) :
    lineBytes (field.read memory :: rest) = field.name.len + field.value.len + 4 + lineBytes rest := by
  simp only [lineBytes, List.map_cons, List.sum_cons, Field.read, Memory.length_read]

theorem isFiltered_iff (name : Bytes) : isFiltered name = true ↔
    name.map Ascii.toLower = ascii "keep-alive" ∨ name.map Ascii.toLower = ascii "upgrade" ∨
      name.map Ascii.toLower = ascii "proxy-connection" := by
  simp only [isFiltered, Syntax.eql, Ascii.eqlIgnoreCase, Bool.or_eq_true, beq_iff_eq, or_assoc]
  rfl

theorem passed_cons (header : Header) (rest : List Header) :
    passed (header :: rest) =
      (if isFiltered header.name then [] else [lowered header]) ++ passed rest := by
  unfold passed
  have hpassed : decide (header.name.map Ascii.toLower ≠ ascii "keep-alive" ∧
      header.name.map Ascii.toLower ≠ ascii "upgrade" ∧
      header.name.map Ascii.toLower ≠ ascii "proxy-connection") = !isFiltered header.name := by
    rw [Bool.eq_iff_iff, decide_eq_true_eq, Bool.not_eq_true', ← Bool.not_eq_true,
      isFiltered_iff, not_or, not_or]
  rw [List.filter_cons, hpassed]
  cases isFiltered header.name with
  | true => rfl
  | false => rfl

/-- A field of the reply is collected in the shape HTTP/2 gives it, or the stream is reset. -/
theorem addHeader_spec {config : Config} {alloc : Memory.Allocator UInt8}
    {start : Memory UInt8} {headers : List Field} {collecting : Collecting} {shown : List Header}
    {field : Field} (h : Collected config start headers collecting shown)
    (hfield : field ∈ headers) (hlen : shown.length ≤ 63) :
    (addHeader config alloc collecting field = .error (.fault .outOfMemory) ∧
      ∃ memory n, alloc memory n = none) ∨
    if collecting.budget < lineBytes [field.read start] ∨
        63 < shown.length + (passed [field.read start]).length then
      addHeader config alloc collecting field = .error .reset
    else
      ∃ next, addHeader config alloc collecting field = .ok next ∧
        Collected config start headers next (shown ++ passed [field.read start]) ∧
        next.budget = collecting.budget - lineBytes [field.read start] := by
  have hname : field.name ∈ Stream.fieldSlices headers :=
    List.mem_flatMap.mpr ⟨field, hfield, List.mem_cons_self ..⟩
  have hvalue : field.value ∈ Stream.fieldSlices headers :=
    List.mem_flatMap.mpr ⟨field, hfield, List.mem_cons_of_mem _ (List.mem_cons_self ..)⟩
  have hbytes : lineBytes [field.read start] = field.name.len + field.value.len + 4 :=
    lineBytes_read start field []
  have hcount : collecting.fields.length = shown.length := by
    rw [← h.read, List.length_map]
  have hroom := h.room
  unfold addHeader
  simp only
  by_cases hbudget : collecting.budget < lineBytes [field.read start]
  · rw [if_pos (Or.inl hbudget)]
    right
    split
    · rfl
    · split
      · rfl
      · rw [if_pos (by omega)]
  · rw [if_neg (by omega), if_neg (by omega), if_neg (by omega), (h.texts _ hname).2, hcount]
    have hspent : Collected config start headers
        { collecting with budget := collecting.budget - field.name.len - field.value.len - 4 }
        shown :=
      { h with room := by simp only; omega }
    have hone : passed [field.read start] =
        if isFiltered (start.read field.name) then [] else [lowered (field.read start)] := by
      rw [passed_cons, show passed [] = [] from rfl, List.append_nil]
      rfl
    by_cases hfilter : isFiltered (start.read field.name) = true
    · rw [if_pos hfilter] at hone
      right
      rw [hone, if_neg (by simp only [List.length_nil]; omega), if_pos hfilter, List.append_nil]
      exact ⟨_, rfl, hspent, by simp only; omega⟩
    · rw [if_neg hfilter] at hone
      rw [hone, if_neg hfilter, List.length_singleton]
      by_cases hfull : shown.length = 63
      · rw [if_pos hfull, if_pos (by omega)]
        exact Or.inr rfl
      · rw [if_neg hfull, if_neg (by omega)]
        rcases @lowerName_spec config alloc _ _ _ _ _ hspent hname (by simp only; omega) with
          ⟨hlower, hrefused⟩ | ⟨next, lower, hlower, hnext, hleft, hrefer, hread⟩
        · rw [hlower]
          exact Or.inl ⟨rfl, hrefused⟩
        · rw [hlower]
          obtain ⟨houtside, hsame⟩ := hnext.texts _ hvalue
          have hpush := @Collected.push config start headers next shown
            ⟨lower, trimSlice next.state.memory field.value⟩ hnext hrefer
            (trimSlice_outside houtside)
          refine Or.inr ⟨_, rfl, ?_, hleft.trans (by simp only; omega)⟩
          rw [Field.read, trimSlice_read, hread, hsame] at hpush
          exact hpush

/-- The loop either resets the stream or collects all fields that are passed on. -/
theorem addHeaders_spec {config : Config} {alloc : Memory.Allocator UInt8}
    {start : Memory UInt8} {headers : List Field} {fields : List Field} :
    ∀ {collecting : Collecting} {shown : List Header},
    Collected config start headers collecting shown → (∀ field ∈ fields, field ∈ headers) →
    shown.length ≤ 63 →
    (fields.foldlM (addHeader config alloc) collecting = .error (.fault .outOfMemory) ∧
      ∃ memory n, alloc memory n = none) ∨
    if collecting.budget < lineBytes (fields.map (Field.read start)) ∨
        63 < shown.length + (passed (fields.map (Field.read start))).length then
      fields.foldlM (addHeader config alloc) collecting = .error .reset
    else
      ∃ next, fields.foldlM (addHeader config alloc) collecting = .ok next ∧
        Collected config start headers next
          (shown ++ passed (fields.map (Field.read start))) := by
  induction fields with
  | nil =>
      intro collecting shown h _ hlen
      right
      have hnone : lineBytes [] = 0 := rfl
      rw [List.map_nil, show passed [] = [] from rfl, List.append_nil, List.length_nil, hnone,
        if_neg (by omega)]
      exact ⟨_, rfl, h⟩
  | cons field fields ih =>
      intro collecting shown h hmem hlen
      obtain ⟨hfield, hrest⟩ := List.forall_mem_cons.mp hmem
      rw [List.foldlM_cons, List.map_cons]
      have hsum : lineBytes (field.read start :: fields.map (Field.read start)) =
          lineBytes [field.read start] + lineBytes (fields.map (Field.read start)) := by
        rw [lineBytes_read, lineBytes_read]
        rfl
      have happend : passed (field.read start :: fields.map (Field.read start)) =
          passed [field.read start] ++ passed (fields.map (Field.read start)) := by
        rw [passed_cons, passed_cons, show passed [] = [] from rfl, List.append_nil]
      rw [hsum, happend, List.length_append]
      rcases @addHeader_spec config alloc _ _ _ _ _ h hfield hlen with ⟨hadd, hrefused⟩ | hadd
      · rw [hadd]
        exact Or.inl ⟨rfl, hrefused⟩
      · split at hadd
        next hreset =>
          rw [if_pos (by omega), hadd]
          exact Or.inr rfl
        next hfits =>
          obtain ⟨next, heq, hnext, hbudget⟩ := hadd
          rw [heq]
          have hshort : (shown ++ passed [field.read start]).length ≤ 63 := by
            rw [List.length_append]
            omega
          have hgo := ih hnext hrest hshort
          rw [List.length_append, hbudget, List.append_assoc] at hgo
          refine hgo.imp id fun hgo => ?_
          split at hgo
          next hreset =>
            rw [if_pos (by omega)]
            exact hgo
          next hall =>
            rw [if_neg (by omega)]
            exact hgo

/-! ### The budget is the length of the HTTP/1 head -/

theorem length_digits_word {n : Nat} (h : n < 2 ^ 64) : (digits 10 n).length ≤ 20 := by
  rw [digits, List.length_map]
  exact (Nat.length_toDigits_le_iff (by decide) (by decide)).mpr (by omega)

theorem length_fieldLines (headers : List Header) :
    (headers.flatMap fieldLine).length = lineBytes headers := by
  have hcolon : (ascii ": ").length = 2 := by decide
  rw [List.length_flatMap, lineBytes]
  congr 1
  apply List.map_congr_left
  intro header _
  simp only [fieldLine, List.length_append, hcolon, crlf, List.length_cons, List.length_nil]
  omega

/-- The request as an HTTP/1.1 request. -/
def asHttp11 (request : Request) : Request := { request with version := .http11 }

theorem length_statusLine {version : Version} {status : Nat} (hversion : version ≠ .http10)
    (hlow : 200 ≤ status) (hhigh : status ≤ 599) :
    (statusLine version status).length =
      (ascii "HTTP/1.1 000 \r\nDate: ").length + (reason status).length := by
  have htexts : (ascii "HTTP/1.").length = 7 ∧ (ascii " ").length = 1 ∧
      (ascii "Date: ").length = 6 ∧ (ascii "HTTP/1.1 000 \r\nDate: ").length = 21 ∧
      (digits 10 1).length = 1 := by decide
  obtain ⟨hhttp, hspace, hdate, hall, hminor⟩ := htexts
  rw [statusLine_eq, statusText, if_neg hversion]
  simp only [List.length_append, hhttp, hspace, hdate, hall, hminor,
    length_digits_status (le_trans (by decide) hlow) hhigh, crlf, List.length_cons, List.length_nil]
  omega

theorem length_connectionLine {version : Version} {status : Nat} (closing : Bool)
    (hversion : version ≠ .http10) (hlow : 200 ≤ status) :
    (connectionLine version status closing).length =
      if closing then (ascii "Connection: close\r\n").length else 0 := by
  rw [connectionLine, if_neg (by omega), if_neg hversion]
  split <;> rfl

theorem length_framingLine (plan : Framing) :
    (framingLine plan (plan.contentLength.isNone && !plan.suppressed)).length =
      if plan.contentLength.isSome then (ascii "Content-Length: \r\n").length +
        ((plan.contentLength.map (digits 10)).getD []).length
      else if !plan.suppressed then (ascii "Transfer-Encoding: chunked\r\n").length
      else 0 := by
  have htexts : (ascii "Content-Length: ").length = 16 ∧
      (ascii "Content-Length: \r\n").length = 18 := by decide
  unfold framingLine
  cases plan.contentLength with
  | some length =>
      show (_ ++ _ ++ crlf).length = _ + (digits 10 length).length
      rw [List.length_append, List.length_append, htexts.1, htexts.2]
      simp only [crlf, List.length_cons, List.length_nil]
      omega
  | none =>
      show (if (!plan.suppressed) = true then _ else _ : Bytes).length = _
      split <;> rfl

/-- What is added up by hand is the length of the head that HTTP/1.1 would have. -/
theorem length_head {reply : Reply} {request : Request} {memory : Memory UInt8} {plan : Framing}
    {date : Bytes} (hlow : 200 ≤ reply.status) (hhigh : reply.status ≤ 599) :
    (head (reply.read memory) (asHttp11 request) date plan).length =
      fixedBytes reply request plan date.length
          ((plan.contentLength.map (digits 10)).getD []).length +
        lineBytes (reply.read memory).headers := by
  have hversion : (asHttp11 request).version ≠ .http10 := nofun
  have hcloses : closes (reply.read memory) (asHttp11 request) plan =
      (reply.close || !request.keepAlive) := by
    simp [closes, asHttp11, Reply.read]
  have hchunks : chunks (asHttp11 request) plan =
      (plan.contentLength.isNone && !plan.suppressed) := by
    simp [chunks, asHttp11]
  have htexts : (ascii "HTTP/1.1 000 \r\nDate: \r\n\r\n").length =
      (ascii "HTTP/1.1 000 \r\nDate: ").length + 4 := by decide
  have hstatus : (reply.read memory).status = reply.status := rfl
  rw [head, hcloses, hchunks, hstatus]
  simp only [List.length_append, length_fieldLines]
  rw [length_statusLine hversion hlow hhigh, length_connectionLine _ hversion hlow,
    length_framingLine, fixedBytes, htexts]
  simp only [crlf, List.length_cons, List.length_nil, Reply.read]
  omega

/-- Only HTTP/1.0 has framing of its own. -/
theorem framing_asHttp11 {response : Response} {request : Request}
    (h : request.version ≠ .http10) :
    framing response (asHttp11 request) = framing response request := by
  unfold framing asHttp11
  simp only [h, false_and, if_false, reduceCtorEq]

/-! ### Submission -/

/-- The texts that a stream is answered with, before the answer. -/
structure Supplied (state : State) (texts : Texts) (reply : Reply) : Prop where
  outside : ∀ x ∈ [texts.dateName, texts.lengthName, texts.date] ++ Stream.fieldSlices reply.headers,
    Outside state.memory state.stream.outputs x ∧ (x.len = 0 ∨ x.Apart texts.lengthBuffer)
  buffer : Outside state.memory state.stream.outputs texts.lengthBuffer
  room : texts.lengthBuffer.len = 20
  dateName : state.memory.read texts.dateName = ascii "date"
  lengthName : state.memory.read texts.lengthName = ascii "content-length"

/-- What the server adds to the headers of a response. -/
def first (plan : Framing) (date : Bytes) : List Header :=
  ⟨ascii "date", date⟩ ::
    (plan.contentLength.map fun n => (⟨ascii "content-length", digits 10 n⟩ : Header)).toList

/-- The metadata of a response in HTTP/2. -/
def metadata (response : Response) (plan : Framing) (date : Bytes) : List Header :=
  first plan date ++ passed response.headers

/-- The state in which the loop begins. -/
theorem collected_first {config : Config} {state state' : State} {texts : Texts} {reply : Reply}
    {plan : Framing} {needed budget : Nat} (hsupplied : Supplied state texts reply)
    (hbusy : state.stream.busy = false) (hreserved : Reserved state state' needed 0)
    (hlength : ((plan.contentLength.map (digits 10)).getD []).length ≤ 20)
    (hbudget : budget ≤ config.responseBytes) :
    Collected config state.memory reply.headers
      { state := ⟨state'.memory.write texts.lengthBuffer.ptr
          ((plan.contentLength.map (digits 10)).getD []), state'.stream⟩
        fields := firstFields texts plan
        budget := budget }
      (first plan (state.memory.read texts.date)) := by
  have hroom := hsupplied.room
  have hshown : ∀ x ∈ [texts.dateName, texts.lengthName, texts.date] ++
      Stream.fieldSlices reply.headers, Outside state'.memory state'.stream.outputs x ∧
        (state'.memory.write texts.lengthBuffer.ptr
          ((plan.contentLength.map (digits 10)).getD [])).read x = state.memory.read x := by
    intro x hx
    obtain ⟨houtside, hapart⟩ := hsupplied.outside x hx
    obtain ⟨houtside', hread⟩ := hreserved.outside houtside
    refine ⟨houtside', (Memory.read_write_apart _ (hapart.imp id fun hapart => ?_)).trans hread⟩
    unfold Slice.Apart at *
    simp only
    omega
  have hbuffer : Outside state'.memory state'.stream.outputs
      ⟨texts.lengthBuffer.ptr, ((plan.contentLength.map (digits 10)).getD []).length⟩ :=
    @Outside.part _ _ _ 0 _ (hreserved.outside hsupplied.buffer).1 (by omega)
  obtain ⟨hdateName, hreadDateName⟩ := hshown texts.dateName (by simp)
  obtain ⟨hlengthName, hreadLengthName⟩ := hshown texts.lengthName (by simp)
  obtain ⟨hdate, hreadDate⟩ := hshown texts.date (by simp)
  constructor
  case owned =>
    have howned := hreserved.owned
    exact { buffer := howned.buffer, output := howned.output, distinct := howned.distinct }
  case busy => exact hreserved.busy.trans hbusy
  case used => exact Nat.zero_le _
  case room => simpa using hbudget
  case names =>
    intro field hfield
    right
    rcases List.mem_cons.mp hfield with rfl | hfield
    · exact hdateName
    · split at hfield
      · rw [List.mem_singleton.mp hfield]
        exact hlengthName
      · exact absurd hfield List.not_mem_nil
  case values =>
    intro field hfield
    rcases List.mem_cons.mp hfield with rfl | hfield
    · exact hdate
    · split at hfield
      · rw [List.mem_singleton.mp hfield]
        exact hbuffer
      · exact absurd hfield List.not_mem_nil
  case read =>
    rw [firstFields, first, List.map_cons, Field.read, hreadDateName, hreadDate, hsupplied.dateName]
    congr 1
    cases hcontent : plan.contentLength with
    | none => rfl
    | some n =>
        rw [hcontent] at hreadLengthName
        show [Field.read _ _] = [_]
        rw [Field.read, hreadLengthName, hsupplied.lengthName]
        congr 2
        exact Memory.read_write_self ..
  case texts => exact fun x hx => hshown x (List.mem_append_right _ hx)

theorem framing_contentLength {response : Response} {request : Request} {plan : Framing} {n : Nat}
    (h : framing response request = .ok plan) (hplan : plan.contentLength = some n) :
    Body.length response.body = some n := by
  obtain ⟨-, -, -, -, rfl⟩ := framing_ok h
  simp only at hplan
  split at hplan
  · cases hplan
  · exact hplan

/-- Whether a response is submitted. -/
def Submits (response : Response) (request : Request) (date : Bytes) (responseBytes : Nat) : Prop :=
  200 ≤ response.status ∧ ∃ plan result,
    framing response request = .ok plan ∧
    begin response request date responseBytes = .ok result ∧
    (metadata response plan date).length ≤ 63

/-- The room that a response needs, counted in the two ways. -/
theorem submits_iff {response : Response} {request : Request} {date : Bytes} {responseBytes : Nat}
    {plan : Framing} (hlow : 200 ≤ response.status) (h : framing response request = .ok plan) :
    Submits response request date responseBytes ↔
      (head response request date plan).length ≤ responseBytes ∧
        (metadata response plan date).length ≤ 63 := by
  have hbegin : (∃ result, begin response request date responseBytes = .ok result) ↔
      (head response request date plan).length ≤ responseBytes := by
    unfold begin
    rw [h]
    simp only
    by_cases hfits : (head response request date plan).length ≤ responseBytes
    · rw [if_pos hfits]
      exact ⟨fun _ => hfits, fun _ => ⟨_, rfl⟩⟩
    · rw [if_neg hfits]
      exact ⟨fun ⟨_, hresult⟩ => absurd hresult nofun, fun h => absurd h hfits⟩
  constructor
  · rintro ⟨-, plan', result, hplan, hresult, hcount⟩
    cases h.symm.trans hplan
    exact ⟨hbegin.mp ⟨result, hresult⟩, hcount⟩
  · rintro ⟨hfits, hcount⟩
    obtain ⟨result, hresult⟩ := hbegin.mpr hfits
    exact ⟨hlow, plan, result, h, hresult, hcount⟩

/-- A streamed body has the whole of the output buffer from the start. -/
theorem reserveBody_spec {config : Config} {alloc : Memory.Allocator UInt8} {state : State}
    {reply : Reply} {plan : Framing} (howned : OutputOwned state.memory state.stream)
    (hbusy : state.stream.busy = false) :
    ((if hasBody reply plan && isStream reply.body then
        reserveOutput config alloc state config.responseBytes 0
      else .ok state) = .error .outOfMemory ∧ ∃ memory n, alloc memory n = none) ∨
    ∃ state' needed, (if hasBody reply plan && isStream reply.body then
        reserveOutput config alloc state config.responseBytes 0
      else .ok state) = .ok state' ∧ Reserved state state' needed 0 := by
  split
  · rcases @reserveOutput_spec config alloc _ _ _ howned hbusy (Nat.le_refl _)
      (Nat.zero_le _) (Nat.zero_le _) with h | ⟨state', hreserve, hreserved⟩
    · exact Or.inl h
    · exact Or.inr ⟨state', _, hreserve, hreserved⟩
  · exact Or.inr ⟨state, 0, rfl, .refl howned (Nat.zero_le _)⟩

/-- What becomes of a response: the allocator refuses, the stream is reset, or the fields are
submitted. -/
theorem respond_cases {config : Config} {alloc : Memory.Allocator UInt8} {texts : Texts}
    {state : State} {reply : Reply} (hsupplied : Supplied state texts reply)
    (howned : OutputOwned state.memory state.stream) (hbusy : state.stream.busy = false)
    (hlength : ∀ n ∈ Body.length reply.body, n < 2 ^ 64) :
    let response := reply.read state.memory
    let request := asHttp11 state.request
    let date := state.memory.read texts.date
    (respond config alloc texts state reply = .error (.fault .outOfMemory) ∧
      ∃ memory n, alloc memory n = none) ∨
    (respond config alloc texts state reply = .error .reset ∧
      ¬Submits response request date config.responseBytes) ∨
    ∃ plan state' fields,
      respond config alloc texts state reply = .ok (state', fields, hasBody reply plan) ∧
      Submits response request date config.responseBytes ∧
      framing response request = .ok plan ∧
      fields.map (Field.read state'.memory) = metadata response plan date := by
  intro response request date
  have hversion : state.request.version ≠ .http10 := nofun
  have hsame : framing response request = framing response state.request :=
    framing_asHttp11 hversion
  unfold respond
  simp only
  by_cases hlow : reply.status < 200
  · rw [if_pos hlow]
    exact Or.inr (Or.inl ⟨rfl, fun h => absurd h.1 (Nat.not_le.mpr hlow)⟩)
  · rw [if_neg hlow]
    cases hplan : framing (reply.read state.memory) state.request with
    | error failure =>
        refine Or.inr (Or.inl ⟨rfl, ?_⟩)
        rintro ⟨-, plan, -, hother, -⟩
        rw [hsame] at hother
        exact absurd (hother.symm.trans hplan) nofun
    | ok plan =>
        have hplan' : framing response request = .ok plan := hsame.trans hplan
        have hsubmits := @submits_iff response request date config.responseBytes plan
          (Nat.not_lt.mp hlow) hplan'
        rw [length_head (Nat.not_lt.mp hlow) (framing_ok hplan').2.1] at hsubmits
        have hdigits : ((plan.contentLength.map (digits 10)).getD []).length ≤ 20 := by
          cases hcontent : plan.contentLength with
          | none => exact Nat.zero_le _
          | some n => exact length_digits_word (hlength n (framing_contentLength hplan hcontent))
        dsimp only
        rcases @reserveBody_spec config alloc state reply plan howned hbusy with
          ⟨hreserve, hrefused⟩ | ⟨state', needed, hreserve, hreserved⟩
        · rw [hreserve]
          exact Or.inl ⟨rfl, hrefused⟩
        · rw [hreserve]
          simp only
          rw [if_neg (by rw [hsupplied.room]; omega)]
          rw [Memory.length_read] at hsubmits
          by_cases hfixed : config.responseBytes < fixedBytes reply state.request plan
              texts.date.len ((plan.contentLength.map (digits 10)).getD []).length
          · rw [if_pos hfixed]
            exact Or.inr (Or.inl ⟨rfl, fun h => by have := (hsubmits.mp h).1; omega⟩)
          · rw [if_neg hfixed]
            have hfirst := collected_first hsupplied hbusy hreserved hdigits (Nat.sub_le
              config.responseBytes (fixedBytes reply state.request plan texts.date.len
                ((plan.contentLength.map (digits 10)).getD []).length))
            have hshort : (first plan date).length ≤ 63 := by
              unfold first
              cases plan.contentLength <;> simp
            have hloop := @addHeaders_spec config alloc state.memory reply.headers reply.headers
              _ _ hfirst (fun _ hfield => hfield) hshort
            have hcount : (metadata response plan date).length =
                (first plan date).length + (passed response.headers).length :=
              List.length_append
            rw [hcount] at hsubmits
            change _ ↔ _ + lineBytes (reply.headers.map (Field.read state.memory)) ≤ _ ∧
              (first plan (state.memory.read texts.date)).length +
                (passed (reply.headers.map (Field.read state.memory))).length ≤ 63 at hsubmits
            rcases hloop with ⟨hloop, hrefused⟩ | hloop
            · rw [hloop]
              exact Or.inl ⟨rfl, hrefused⟩
            · right
              by_cases hfits : Submits response request date config.responseBytes
              · obtain ⟨hroom, hmany⟩ := hsubmits.mp hfits
                rw [if_neg (by simp only; omega)] at hloop
                obtain ⟨next, heq, hnext⟩ := hloop
                rw [heq]
                exact Or.inr ⟨plan, _, _, rfl, hfits, hplan', hnext.read⟩
              · have hnot : ¬(_ ∧ _) := fun h => hfits (hsubmits.mpr h)
                rw [if_pos (by simp only; omega)] at hloop
                rw [hloop]
                exact Or.inl ⟨rfl, hfits⟩

/-- **Metadata of responses.**  `respond` fails only where the allocator refuses, and its assertions
hold.  Otherwise it submits the response exactly if the status is final, HTTP/1.1 has room for the
head, and no more than 63 fields are left; it resets the stream if not.  The fields are the date, the
length where one is planned, and the headers that are passed on, in their order, with lower case names
and trimmed values, whatever became of the buffer of names. -/
theorem respond_metadata {config : Config} {alloc : Memory.Allocator UInt8} {texts : Texts}
    {state : State} {reply : Reply} (hsupplied : Supplied state texts reply)
    (howned : OutputOwned state.memory state.stream) (hbusy : state.stream.busy = false)
    (hlength : ∀ n ∈ Body.length reply.body, n < 2 ^ 64) :
    let response := reply.read state.memory
    let request := asHttp11 state.request
    let date := state.memory.read texts.date
    (∀ fault, respond config alloc texts state reply = .error (.fault fault) →
      fault = .outOfMemory ∧ ∃ memory n, alloc memory n = none) ∧
    (respond config alloc texts state reply ≠ .error (.fault .outOfMemory) →
      ((∃ result, respond config alloc texts state reply = .ok result) ↔
        Submits response request date config.responseBytes) ∧
      (respond config alloc texts state reply = .error .reset ↔
        ¬Submits response request date config.responseBytes)) ∧
    ∀ state' fields follows, respond config alloc texts state reply = .ok (state', fields, follows) →
      ∃ plan, framing response request = .ok plan ∧ follows = hasBody reply plan ∧
        fields.map (Field.read state'.memory) = metadata response plan date := by
  intro response request date
  have hcases := @respond_cases config alloc texts state reply hsupplied howned hbusy hlength
  rcases hcases with ⟨heq, hrefused⟩ | ⟨heq, hnot⟩ | ⟨plan, state', fields, heq, hsubmits, hplan, hread⟩
  · rw [heq]
    refine ⟨fun fault hfault => ?_, fun hne => absurd rfl hne, by rintro _ _ _ ⟨⟩⟩
    cases hfault
    exact ⟨rfl, hrefused⟩
  · rw [heq]
    refine ⟨by rintro _ ⟨⟩, fun _ => ⟨⟨by rintro ⟨_, ⟨⟩⟩, fun h => absurd h hnot⟩,
      ⟨fun _ => hnot, fun _ => rfl⟩⟩, by rintro _ _ _ ⟨⟩⟩
  · rw [heq]
    refine ⟨by rintro _ ⟨⟩, fun _ => ⟨⟨fun _ => hsubmits, fun _ => ⟨_, rfl⟩⟩,
      ⟨by rintro ⟨⟩, fun h => absurd hsubmits h⟩⟩, ?_⟩
    intro other others follows hother
    cases hother
    exact ⟨plan, hplan, rfl, hread⟩

/-- Two literals, a date, a header, a number buffer and an output buffer. -/
def answering : State :=
  { memory :=
      { cells := fun a => (ascii "datecontent-lengthtodayX-Trace 7 ").getD a 0
        blocks := [⟨0, 40⟩, ⟨40, 20⟩, ⟨60, 256⟩]
        apart := by simp [Slice.Apart] }
    stream := Stream.begin {} ⟨0, 0⟩ ⟨60, 256⟩ (Vector.replicate 16 {}) }

def answer : Reply :=
  { status := 200, headers := [⟨⟨23, 7⟩, ⟨30, 3⟩⟩], body := .bytes [], close := false }

def literals : Texts := ⟨⟨0, 4⟩, ⟨4, 14⟩, ⟨18, 5⟩, ⟨40, 20⟩⟩

/-- The name is lowered into the buffer, without the allocator. -/
theorem respond_metadata_lowered :
    ∃ state' fields follows,
      respond ⟨1024, 1024, 1024⟩ (fun _ _ => none) literals answering answer =
        .ok (state', fields, follows) ∧
      fields.map (Field.read state'.memory) =
        [⟨ascii "date", ascii "today"⟩, ⟨ascii "content-length", ascii "0"⟩,
          ⟨ascii "x-trace", ascii "7"⟩] := by
  have hinside : ∀ x ∈ [(⟨0, 4⟩ : Slice), ⟨4, 14⟩, ⟨18, 5⟩] ++ Stream.fieldSlices answer.headers,
      x.ptr + x.len ≤ 40 := by decide
  have hsupplied : Supplied answering literals answer :=
    { outside := by
        intro x hx
        have hle := hinside x hx
        refine ⟨Or.inr ⟨⟨0, 40⟩, List.mem_cons_self, ⟨Nat.zero_le _, ?_⟩, by decide⟩,
          Or.inr (Or.inl hle)⟩
        simpa using hle
      buffer := Or.inr ⟨⟨40, 20⟩, by decide, ⟨Nat.le_refl _, Nat.le_refl _⟩, by decide⟩
      room := rfl
      dateName := by decide +kernel
      lengthName := by decide +kernel }
  have howned : OutputOwned answering.memory answering.stream :=
    { buffer := by decide, output := Or.inl rfl, distinct := Or.inl rfl }
  have h := @respond_metadata ⟨1024, 1024, 1024⟩ (fun _ _ => none) literals answering answer
    hsupplied howned rfl (by decide)
  have hok : (respond ⟨1024, 1024, 1024⟩ (fun _ _ => none) literals answering answer).toBool = true := by
    decide +kernel
  cases hrespond : respond ⟨1024, 1024, 1024⟩ (fun _ _ => none) literals answering answer with
  | error stop => rw [hrespond] at hok; cases hok
  | ok result =>
      obtain ⟨state', fields, follows⟩ := result
      obtain ⟨plan, hplan, -, hread⟩ := h.2.2 state' fields follows hrespond
      have hframing : framing (answer.read answering.memory) (asHttp11 answering.request) =
          .ok ⟨some 0, false⟩ := by rfl
      cases hplan.symm.trans hframing
      exact ⟨state', fields, follows, rfl, hread.trans (by decide +kernel)⟩

end Http2

end Zhtps
