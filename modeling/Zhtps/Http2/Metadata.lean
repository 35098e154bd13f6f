import Zhtps.Http2.Storage

/-!
What the metadata of a stream shows, and that growing its storage does not change it.

The invariant ties every slice to the used part of the block that it belongs to.  One lemma says what
`growBytes` does to a memory, one what `relocated` does to a slice, and everything that moves storage
follows from the two.
-/

namespace Zhtps

namespace Http2

open Lib

/-! ### Blocks and slices that move -/

theorem Slice.ne_of_apart {a b : Slice} (h : a.Apart b) (ha : 0 < a.len) : a ≠ b := by
  rintro rfl
  unfold Slice.Apart at h
  omega

/-- Two blocks, unless one of them is empty. -/
def Distinct (a b : Slice) : Prop := a.len = 0 ∨ b.len = 0 ∨ a ≠ b

theorem Distinct.symm {a b : Slice} (h : Distinct a b) : Distinct b a := by
  unfold Distinct at *
  tauto

/-- A new block is none of those that exist. -/
theorem distinct_of_apart {memory : Memory UInt8} {next block : Slice}
    (h : ∀ block ∈ memory.blocks, next.Apart block) (hblock : block.len = 0 ∨ block ∈ memory.blocks) :
    Distinct next block := by
  by_cases hlen : next.len = 0
  · exact Or.inl hlen
  · rcases hblock with hblock | hblock
    · exact Or.inr (Or.inl hblock)
    · exact Or.inr (Or.inr (Slice.ne_of_apart (h block hblock) (Nat.pos_of_ne_zero hlen)))

/-- What growing does to a memory. -/
structure Grown (memory memory' : Memory UInt8) (owned previous next : Slice) (capacity : Nat) :
    Prop where
  len : next.len = capacity
  mem : next ∈ memory'.blocks
  copied : memory.read previous = memory'.read ⟨next.ptr, previous.len⟩
  apart : ∀ block ∈ memory.blocks, next.Apart block
  kept : ∀ block ∈ memory.blocks, Distinct block owned → block ∈ memory'.blocks
  shown : ∀ {s block : Slice}, block ∈ memory.blocks → s.Within block →
    memory'.read s = memory.read s

theorem growBytes_grown {alloc : Memory.Allocator UInt8} {memory memory' : Memory UInt8}
    {owned previous next : Slice} {capacity : Nat}
    (h : growBytes alloc memory owned previous capacity = some (memory', next))
    (howned : owned.len = 0 ∨ owned ∈ memory.blocks) (hpos : 0 < capacity)
    (hroom : previous.len ≤ capacity) :
    Grown memory memory' owned previous next capacity := by
  unfold growBytes at h
  split at h
  · exact absurd h nofun
  next place _ =>
    rw [Option.some.injEq, Prod.mk.injEq] at h
    obtain ⟨rfl, rfl⟩ := h
    refine ⟨rfl, ?_, ?_, place.property, ?_, ?_⟩
    · unfold Memory.free
      split
      · exact List.mem_cons_self
      next hlen =>
        have hne := Slice.ne_of_apart (place.property owned (howned.resolve_left hlen)) hpos
        exact (List.mem_erase_of_ne hne).mpr List.mem_cons_self
    · have hcopy := Memory.read_write_self (memory.alloc capacity place) place.val
        (memory.read previous)
      rw [Memory.length_read] at hcopy
      rw [Memory.read_free, hcopy]
    · intro block hblock hdistinct
      have hmem : block ∈ ((memory.alloc capacity place).write place.val
          (memory.read previous)).blocks := List.mem_cons_of_mem _ hblock
      by_cases hlen : owned.len = 0
      · rwa [Memory.free, if_pos hlen]
      · refine Memory.mem_free hmem ?_
        rintro rfl
        exact (hdistinct.resolve_left hlen).elim hlen fun hne => hne rfl
    · intro s block hblock hs
      rw [Memory.read_free, Memory.read_write_apart, Memory.read_alloc]
      rw [Memory.length_read]
      have hapart := place.property block hblock
      unfold Slice.Within Slice.Inside Slice.Apart at *
      simp only at hapart ⊢
      omega

theorem growBytes_none {alloc : Memory.Allocator UInt8} {memory : Memory UInt8}
    {owned previous : Slice} {capacity : Nat}
    (h : growBytes alloc memory owned previous capacity = none) : alloc memory capacity = none := by
  unfold growBytes at h
  split at h
  next hnone => exact hnone
  · exact absurd h nofun

theorem relocated_within {previous next x : Slice} (h : x.Within previous)
    {n : Nat} (hn : previous.len = n) :
    (relocated previous next x).Within ⟨next.ptr, n⟩ := by
  unfold relocated
  split
  next hsame =>
    refine Or.inl ?_
    unfold Slice.Within Slice.Inside at h
    omega
  next hmoved =>
    refine Or.inr ?_
    unfold Slice.Within Slice.Inside at *
    simp only
    omega

/-- A slice of what was copied shows the same after it was moved. -/
theorem relocated_read {memory memory' : Memory UInt8} {previous next x : Slice}
    (h : x.Within previous)
    (hcopied : memory.read previous = memory'.read ⟨next.ptr, previous.len⟩) :
    memory'.read (relocated previous next x) = memory.read x := by
  unfold relocated
  split
  next hsame =>
    refine Memory.read_of_len ?_ ?_ <;>
      · unfold Slice.Within Slice.Inside at h
        omega
  next hmoved =>
    exact Memory.read_shift hcopied (h.resolve_left fun hlen => hmoved (Or.inl hlen))

/-! ### What a stream shows -/

/-- The request metadata of a stream; `trailing` tells its trailer block from its head. -/
structure Metadata where
  method : Bytes := []
  target : Bytes := []
  authority : Bytes := []
  scheme : Option Bytes := none
  contentLength : Option Nat := none
  headers : List Header := []
  trailers : List Header := []
  trailing : Bool := false
  deriving DecidableEq, Repr

namespace Stream

def fieldSlices (fields : List Field) : List Slice :=
  fields.flatMap fun field => [field.name, field.value]

/-- The slices of the head in use. -/
def headSlices (stream : Stream) : List Slice :=
  [stream.method, stream.target, stream.authority] ++ stream.scheme.toList ++
    fieldSlices (stream.fields.take stream.fieldCount)

def trailerSlices (stream : Stream) : List Slice :=
  fieldSlices (stream.storage.trailerFields.take stream.trailerCount)

end Stream

def State.metadata (state : State) : Metadata :=
  { method := state.memory.read state.stream.method
    target := state.memory.read state.stream.target
    authority := state.memory.read state.stream.authority
    scheme := state.stream.scheme.map state.memory.read
    contentLength := state.stream.contentLength
    headers := (state.stream.fields.take state.stream.fieldCount).map (Field.read state.memory)
    trailers := (state.stream.storage.trailerFields.take state.stream.trailerCount).map
      (Field.read state.memory)
    trailing := state.stream.trailers }

/-- Storage that a stream can use: its blocks are allocated, and no two of them are one. -/
structure Owned (memory : Memory UInt8) (storage : Storage) (headBuffer : Slice) : Prop where
  buffer : headBuffer ∈ memory.blocks
  head : storage.head.len = 0 ∨ storage.head ∈ memory.blocks
  trailers : storage.trailers.len = 0 ∨ storage.trailers ∈ memory.blocks
  head_buffer : Distinct storage.head headBuffer
  trailers_buffer : Distinct storage.trailers headBuffer
  trailers_head : Distinct storage.trailers storage.head

/-- What holds of a stream between two calls. -/
structure Held (config : Config) (state : State) : Prop where
  owned : Owned state.memory state.stream.storage state.stream.headBuffer
  headLen_le : state.stream.headLen ≤ state.stream.headBytes.len
  headLen_max : state.stream.headLen ≤ 2 * config.headerBytes
  trailerLen_le : state.stream.trailerLen ≤ state.stream.storage.trailers.len
  trailerLen_max : state.stream.trailerLen ≤ config.trailerBytes
  fieldCount_le : state.stream.fieldCount ≤ state.stream.fields.length
  fieldCount_max : state.stream.fieldCount ≤ 128
  trailerCount_le : state.stream.trailerCount ≤ state.stream.storage.trailerFields.length
  trailerCount_max : state.stream.trailerCount ≤ 128
  published_le : state.stream.published ≤ state.stream.fieldCount
  headText : ∀ x ∈ state.stream.headSlices,
    x.Within ⟨state.stream.headBytes.ptr, state.stream.headLen⟩
  trailerText : ∀ x ∈ state.stream.trailerSlices,
    x.Within ⟨state.stream.storage.trailers.ptr, state.stream.trailerLen⟩

theorem Owned.headBytes_mem {memory : Memory UInt8} {stream : Stream}
    (h : Owned memory stream.storage stream.headBuffer) : stream.headBytes ∈ memory.blocks := by
  unfold Stream.headBytes
  split
  · exact h.buffer
  next hlen => exact h.head.resolve_left hlen

theorem Owned.distinct {memory : Memory UInt8} {stream : Stream}
    (h : Owned memory stream.storage stream.headBuffer) :
    Distinct stream.storage.trailers stream.headBytes := by
  unfold Stream.headBytes
  split
  · exact h.trailers_buffer
  · exact h.trailers_head

/-! ### Fields -/

theorem map_read_eq {memory memory' : Memory UInt8} {f : Slice → Slice} {fields : List Field}
    (h : ∀ x ∈ Stream.fieldSlices fields, memory'.read (f x) = memory.read x) :
    (fields.map (Field.map f)).map (Field.read memory') = fields.map (Field.read memory) := by
  rw [List.map_map]
  refine List.map_congr_left fun field hfield => ?_
  have hname := h field.name (List.mem_flatMap.mpr ⟨field, hfield, by simp⟩)
  have hvalue := h field.value (List.mem_flatMap.mpr ⟨field, hfield, by simp⟩)
  rw [Function.comp_apply, Field.read, Field.map, hname, hvalue, Field.read]

theorem map_read_same {memory memory' : Memory UInt8} {fields : List Field}
    (h : ∀ x ∈ Stream.fieldSlices fields, memory'.read x = memory.read x) :
    fields.map (Field.read memory') = fields.map (Field.read memory) := by
  have := map_read_eq (f := id) h
  rwa [show fields.map (Field.map id) = fields from List.map_id fields] at this

theorem fieldSlices_map (f : Slice → Slice) (fields : List Field) :
    Stream.fieldSlices (fields.map (Field.map f)) = (Stream.fieldSlices fields).map f := by
  induction fields with
  | nil => rfl
  | cons field fields ih =>
      rw [Stream.fieldSlices, List.map_cons, List.flatMap_cons]
      rw [Stream.fieldSlices] at ih
      rw [ih]
      rfl

theorem length_moveFields (f : Slice → Slice) (count : Nat) (fields : List Field) :
    (moveFields f count fields).length = fields.length := by
  rw [moveFields, List.length_append, List.length_map, ← List.length_append,
    List.take_append_drop]

theorem take_moveFields (f : Slice → Slice) {count : Nat} {fields : List Field}
    (h : count ≤ fields.length) :
    (moveFields f count fields).take count = (fields.take count).map (Field.map f) := by
  rw [moveFields, List.take_left']
  rw [List.length_map, List.length_take]
  omega

theorem setFields_fields (stream : Stream) {fields : List Field}
    (h : fields.length = stream.fields.length) : (stream.setFields fields).fields = fields := by
  unfold Stream.fields at h
  unfold Stream.setFields Stream.fields
  split
  · rfl
  next hlen =>
    rw [if_neg hlen] at h
    exact if_neg (by rw [← h] at hlen; exact hlen)

/-- Which of the two arrays is written to does not matter to the rest of the stream. -/
theorem setFields_eq (stream : Stream) (fields : List Field) :
    ∃ array buffer, stream.setFields fields =
      { stream with
        fieldBuffer := buffer
        storage := { stream.storage with fields := array } } := by
  unfold Stream.setFields
  split
  · exact ⟨stream.storage.fields, fields, rfl⟩
  · exact ⟨fields, stream.fieldBuffer, rfl⟩

/-- What a stream counts and knows besides text. -/
structure Counters where
  contentLength : Option Nat
  bodyFollows : Bool
  published : Nat
  fieldCount : Nat
  trailerCount : Nat
  headLen : Nat
  trailerLen : Nat
  trailers : Bool
  headReady : Bool
  closed : Bool
  busy : Bool

def Stream.counters (stream : Stream) : Counters :=
  { contentLength := stream.contentLength
    bodyFollows := stream.bodyFollows
    published := stream.published
    fieldCount := stream.fieldCount
    trailerCount := stream.trailerCount
    headLen := stream.headLen
    trailerLen := stream.trailerLen
    trailers := stream.trailers
    headReady := stream.headReady
    closed := stream.closed
    busy := stream.busy }

theorem moveHead_eq (stream : Stream) (f : Slice → Slice)
    (h : stream.fieldCount ≤ stream.fields.length) :
    ∃ array buffer, stream.moveHead f =
        { stream with
          fieldBuffer := buffer
          storage := { stream.storage with fields := array }
          method := f stream.method
          target := f stream.target
          authority := f stream.authority
          scheme := stream.scheme.map f } ∧
      (stream.moveHead f).fields.length = stream.fields.length ∧
      (stream.moveHead f).fields.take stream.fieldCount =
        (stream.fields.take stream.fieldCount).map (Field.map f) ∧
      (stream.moveHead f).headSlices = stream.headSlices.map f := by
  have hfields := setFields_fields stream
    (length_moveFields f stream.fieldCount stream.fields)
  obtain ⟨array, buffer, heq⟩ := setFields_eq stream
    (moveFields f stream.fieldCount stream.fields)
  have hmoved : (stream.moveHead f).fields = moveFields f stream.fieldCount stream.fields := hfields
  refine ⟨array, buffer, ?_, ?_, ?_, ?_⟩
  · rw [Stream.moveHead, heq]
  · rw [hmoved, length_moveFields]
  · rw [hmoved, take_moveFields f h]
  · have hcount : (stream.moveHead f).fieldCount = stream.fieldCount := by
      rw [Stream.moveHead, heq]
    have hscheme : (stream.moveHead f).scheme = stream.scheme.map f := by
      rw [Stream.moveHead, heq]
    have hthree : [(stream.moveHead f).method, (stream.moveHead f).target,
        (stream.moveHead f).authority] =
          [stream.method, stream.target, stream.authority].map f := by
      rw [Stream.moveHead, heq]
      rfl
    rw [Stream.headSlices, hmoved, hcount, take_moveFields f h, fieldSlices_map, hscheme, hthree,
      Stream.headSlices, List.map_append, List.map_append]
    cases stream.scheme <;> rfl

theorem metadata_moveHead {memory memory' : Memory UInt8} {stream : Stream} {f : Slice → Slice}
    (hcount : stream.fieldCount ≤ stream.fields.length)
    (hhead : ∀ x ∈ stream.headSlices, memory'.read (f x) = memory.read x)
    (htrailers : ∀ x ∈ stream.trailerSlices, memory'.read x = memory.read x) :
    State.metadata ⟨memory', stream.moveHead f⟩ = State.metadata ⟨memory, stream⟩ := by
  obtain ⟨array, buffer, heq, -, htake, -⟩ := moveHead_eq stream f hcount
  have hmethod := hhead stream.method (by simp [Stream.headSlices])
  have htarget := hhead stream.target (by simp [Stream.headSlices])
  have hauthority := hhead stream.authority (by simp [Stream.headSlices])
  have hscheme : (stream.scheme.map f).map memory'.read = stream.scheme.map memory.read := by
    cases h : stream.scheme with
    | none => rfl
    | some x => rw [Option.map_some, Option.map_some, Option.map_some,
        hhead x (by simp [Stream.headSlices, h])]
  have hfields := map_read_eq (f := f) fun x hx =>
    hhead x (List.mem_append_right _ hx)
  rw [← htake] at hfields
  have htrail := @map_read_same memory memory'
    (stream.storage.trailerFields.take stream.trailerCount) htrailers
  rw [heq] at hfields ⊢
  simp only [State.metadata] at *
  rw [hmethod, htarget, hauthority, hscheme, hfields, htrail]

/-! ### Room -/

/-- A state whose storage was moved: it shows the same. -/
structure Moved (config : Config) (state state' : State) : Prop where
  held : Held config state'
  metadata : state'.metadata = state.metadata
  counters : state'.stream.counters = state.stream.counters

theorem Moved.refl {config : Config} {state : State} (h : Held config state) :
    Moved config state state := ⟨h, rfl, rfl⟩

/-- The stream whose head is in another block now. -/
def Stream.withHead (stream : Stream) (head : Slice) : Stream :=
  { stream with storage := { stream.storage with head } }

theorem trailers_shown {config : Config} {memory memory' : Memory UInt8} {stream : Stream}
    {owned previous next : Slice} {capacity : Nat} (hheld : Held config ⟨memory, stream⟩)
    (hgrown : Grown memory memory' owned previous next capacity) :
    ∀ x ∈ stream.trailerSlices, memory'.read x = memory.read x := by
  intro x hx
  have hwithin := hheld.trailerText x hx
  have hle : stream.trailerLen ≤ stream.storage.trailers.len := hheld.trailerLen_le
  rcases hheld.owned.trailers with hlen | hmem
  · have hzero : x.len = 0 := by
      unfold Slice.Within Slice.Inside at hwithin
      simp only at hwithin hlen
      omega
    exact Memory.read_of_len hzero hzero
  · exact hgrown.shown hmem (hwithin.trans ⟨le_refl _, by simp only; omega⟩)

theorem head_moved {config : Config} {memory memory' : Memory UInt8} {stream : Stream}
    {head : Slice} {capacity : Nat} (hheld : Held config ⟨memory, stream⟩)
    (hgrown : Grown memory memory' stream.storage.head ⟨stream.headBytes.ptr, stream.headLen⟩ head
      capacity) (hpos : 0 < capacity) (hroom : stream.headLen ≤ capacity) :
    Moved config ⟨memory, stream⟩ ⟨memory', (stream.withHead head).moveHead
        (relocated ⟨stream.headBytes.ptr, stream.headLen⟩ (stream.withHead head).headBytes)⟩ ∧
      ((stream.withHead head).moveHead (relocated ⟨stream.headBytes.ptr, stream.headLen⟩
        (stream.withHead head).headBytes)).headBytes.len = capacity := by
  have hbytes : (stream.withHead head).headBytes = head := by
    rw [Stream.headBytes, if_neg]
    · rfl
    · show head.len ≠ 0
      rw [hgrown.len]
      omega
  rw [hbytes]
  generalize hf : relocated ⟨stream.headBytes.ptr, stream.headLen⟩ head = f
  obtain ⟨array, buffer, heq, hlength, -, hslices⟩ :=
    moveHead_eq (stream.withHead head) f hheld.fieldCount_le
  have hread : ∀ x ∈ stream.headSlices, memory'.read (f x) = memory.read x := by
    intro x hx
    rw [← hf]
    exact relocated_read (hheld.headText x hx) hgrown.copied
  have hmetadata : State.metadata ⟨memory', (stream.withHead head).moveHead f⟩ =
      State.metadata ⟨memory, stream⟩ := by
    have htrailers := trailers_shown hheld hgrown
    exact @metadata_moveHead memory memory' (stream.withHead head) f hheld.fieldCount_le hread
      htrailers
  have hmoved : ((stream.withHead head).moveHead f).headBytes = head :=
    (congrArg Stream.headBytes heq).trans hbytes
  have hlen : ((stream.withHead head).moveHead f).headLen = stream.headLen := by
    rw [heq]
    rfl
  have howned : Owned memory' { stream.storage with head, fields := array } stream.headBuffer :=
    { buffer := hgrown.kept _ hheld.owned.buffer hheld.owned.head_buffer.symm
      head := Or.inr hgrown.mem
      trailers := hheld.owned.trailers.imp id fun hmem =>
        hgrown.kept _ hmem hheld.owned.trailers_head
      head_buffer := distinct_of_apart hgrown.apart (Or.inr hheld.owned.buffer)
      trailers_buffer := hheld.owned.trailers_buffer
      trailers_head := (distinct_of_apart hgrown.apart hheld.owned.trailers).symm }
  refine ⟨⟨?_, hmetadata, by rw [heq]; rfl⟩, by rw [hmoved, hgrown.len]⟩
  constructor
  case headText =>
    intro x hx
    rw [hslices] at hx
    obtain ⟨y, hy, rfl⟩ := List.mem_map.mp hx
    show Slice.Within _ ⟨((stream.withHead head).moveHead f).headBytes.ptr,
      ((stream.withHead head).moveHead f).headLen⟩
    rw [hmoved, hlen, ← hf]
    exact relocated_within (hheld.headText y hy) rfl
  case headLen_le =>
    show ((stream.withHead head).moveHead f).headLen ≤ _
    rw [hmoved, hlen, hgrown.len]
    exact hroom
  case fieldCount_le =>
    rw [hlength, heq]
    exact hheld.fieldCount_le
  all_goals rw [heq]
  · exact howned
  · exact hheld.headLen_max
  · exact hheld.trailerLen_le
  · exact hheld.trailerLen_max
  · exact hheld.fieldCount_max
  · exact hheld.trailerCount_le
  · exact hheld.trailerCount_max
  · exact hheld.published_le
  · exact hheld.trailerText

theorem reserveHead_moved {config : Config} {alloc : Allocation} {state state' : State}
    {extra : Nat} (hheld : Held config state)
    (h : reserveHead config alloc state extra = .ok state') :
    Moved config state state' ∧
      state.stream.headLen + extra ≤ state'.stream.headBytes.len ∧
      state.stream.headLen + extra ≤ 2 * config.headerBytes := by
  unfold reserveHead at h
  simp only at h
  have hmax := hheld.headLen_max
  split at h
  · exact absurd h nofun
  next hextra =>
    split at h
    next hfits =>
      rw [← Except.ok.inj h]
      exact ⟨.refl hheld, hfits, by omega⟩
    next hshort =>
      split at h
      · exact absurd h nofun
      · split at h
        · exact absurd h nofun
        next memory' head hgrow =>
          rw [← Except.ok.inj h]
          have hgrown := growBytes_grown hgrow hheld.owned.head (by omega) (by simp only; omega)
          obtain ⟨hmoved, hlen⟩ := head_moved hheld hgrown (by omega) (by omega)
          refine ⟨hmoved, le_trans ?_ (le_of_eq hlen.symm), by omega⟩
          omega

/-- Slices of the head are where they were, and show what they showed. -/
def HeadKept (state state' : State) : Prop :=
  state'.stream.headSlices = state.stream.headSlices ∧
    state'.stream.headBytes = state.stream.headBytes ∧
    ∀ x ∈ state.stream.headSlices, state'.memory.read x = state.memory.read x

theorem HeadKept.refl (state : State) : HeadKept state state := ⟨rfl, rfl, fun _ _ => rfl⟩

theorem HeadKept.trans {a b c : State} (h : HeadKept a b) (h' : HeadKept b c) : HeadKept a c :=
  ⟨h'.1.trans h.1, h'.2.1.trans h.2.1, fun x hx =>
    (h'.2.2 x (by rw [h.1]; exact hx)).trans (h.2.2 x hx)⟩

theorem head_shown {config : Config} {memory memory' : Memory UInt8} {stream : Stream}
    {owned previous next : Slice} {capacity : Nat} (hheld : Held config ⟨memory, stream⟩)
    (hgrown : Grown memory memory' owned previous next capacity) :
    ∀ x ∈ stream.headSlices, memory'.read x = memory.read x := by
  intro x hx
  have hle : stream.headLen ≤ stream.headBytes.len := hheld.headLen_le
  exact hgrown.shown hheld.owned.headBytes_mem
    ((hheld.headText x hx).trans ⟨le_refl _, by simp only; omega⟩)

theorem scheme_shown {memory memory' : Memory UInt8} {stream : Stream}
    (h : ∀ x ∈ stream.headSlices, memory'.read x = memory.read x) :
    stream.scheme.map memory'.read = stream.scheme.map memory.read := by
  cases hscheme : stream.scheme with
  | none => rfl
  | some x =>
      rw [Option.map_some, Option.map_some, h x (by simp [Stream.headSlices, hscheme])]

/-- A stream with the same head and the same counters shows the same, but for its trailers. -/
theorem metadata_trailers {memory memory' : Memory UInt8} {stream stream' : Stream}
    (hhead : ∀ x ∈ stream.headSlices, memory'.read x = memory.read x)
    (hfields : stream'.fields.take stream'.fieldCount = stream.fields.take stream.fieldCount)
    (hmethod : stream'.method = stream.method) (htarget : stream'.target = stream.target)
    (hauthority : stream'.authority = stream.authority) (hscheme : stream'.scheme = stream.scheme)
    (hlength : stream'.contentLength = stream.contentLength)
    (htrailing : stream'.trailers = stream.trailers) :
    State.metadata ⟨memory', stream'⟩ =
      { State.metadata ⟨memory, stream⟩ with
        trailers := (stream'.storage.trailerFields.take stream'.trailerCount).map
          (Field.read memory') } := by
  have hshown := @map_read_same memory memory' (stream.fields.take stream.fieldCount) fun x hx =>
    hhead x (List.mem_append_right _ hx)
  simp only [State.metadata, hfields, hmethod, htarget, hauthority, hscheme, hlength, htrailing,
    hshown, scheme_shown hhead]
  rw [hhead stream.method (by simp [Stream.headSlices]),
    hhead stream.target (by simp [Stream.headSlices]),
    hhead stream.authority (by simp [Stream.headSlices])]

theorem reserveTrailers_moved {config : Config} {alloc : Allocation} {state state' : State}
    {extra : Nat} (hheld : Held config state)
    (h : reserveTrailers config alloc state extra = .ok state') :
    Moved config state state' ∧ HeadKept state state' ∧
      state.stream.trailerLen + extra ≤ state'.stream.storage.trailers.len ∧
      state.stream.trailerLen + extra ≤ config.trailerBytes := by
  unfold reserveTrailers at h
  simp only at h
  have hmax := hheld.trailerLen_max
  split at h
  · exact absurd h nofun
  next hextra =>
    split at h
    next hfits =>
      rw [← Except.ok.inj h]
      exact ⟨.refl hheld, .refl state, hfits, by omega⟩
    next hshort =>
      split at h
      · exact absurd h nofun
      next memory' trailers hgrow =>
        obtain ⟨memory, stream⟩ := state
        simp only at hgrow hextra hshort hmax h ⊢
        rw [← Except.ok.inj h]
        have hgrown := growBytes_grown hgrow hheld.owned.trailers (by omega)
          (by simp only; omega)
        have hhead := head_shown hheld hgrown
        generalize hf : relocated ⟨stream.storage.trailers.ptr, stream.trailerLen⟩ trailers = f
        have hcount : stream.trailerCount ≤ stream.storage.trailerFields.length :=
          hheld.trailerCount_le
        have htake := take_moveFields f hcount
        have hread : ∀ x ∈ stream.trailerSlices, memory'.read (f x) = memory.read x := by
          intro x hx
          rw [← hf]
          exact relocated_read (hheld.trailerText x hx) hgrown.copied
        have hlen := hgrown.len
        refine ⟨⟨?_, ?_, rfl⟩, ⟨rfl, rfl, hhead⟩, ?_, by omega⟩
        · exact
            { owned :=
                { buffer := hgrown.kept _ hheld.owned.buffer hheld.owned.trailers_buffer.symm
                  head := hheld.owned.head.imp id fun hmem =>
                    hgrown.kept _ hmem hheld.owned.trailers_head.symm
                  trailers := Or.inr hgrown.mem
                  head_buffer := hheld.owned.head_buffer
                  trailers_buffer := distinct_of_apart hgrown.apart (Or.inr hheld.owned.buffer)
                  trailers_head := distinct_of_apart hgrown.apart hheld.owned.head }
              headLen_le := hheld.headLen_le
              headLen_max := hheld.headLen_max
              trailerLen_le := by simp only; omega
              trailerLen_max := hheld.trailerLen_max
              fieldCount_le := hheld.fieldCount_le
              fieldCount_max := hheld.fieldCount_max
              trailerCount_le := by
                simp only
                rw [length_moveFields]
                exact hheld.trailerCount_le
              trailerCount_max := hheld.trailerCount_max
              published_le := hheld.published_le
              headText := hheld.headText
              trailerText := by
                intro x hx
                simp only [Stream.trailerSlices] at hx
                rw [htake, fieldSlices_map] at hx
                obtain ⟨y, hy, rfl⟩ := List.mem_map.mp hx
                rw [← hf]
                exact relocated_within (hheld.trailerText y hy) rfl }
        · refine (@metadata_trailers memory memory' stream { stream with
            storage := { stream.storage with
              trailers
              trailerFields := moveFields f stream.trailerCount stream.storage.trailerFields } }
            hhead rfl rfl rfl rfl rfl rfl rfl).trans ?_
          simp only
          rw [htake, map_read_eq hread]
          rfl
        · simp only
          omega

/-- An array that has grown holds the fields that it held, and has room for one more. -/
theorem growFields_take {count : Nat} {previous : List Field} (h : count ≤ previous.length) :
    (growFields count previous).take count = previous.take count := by
  rw [growFields, List.take_left']
  rw [List.length_take]
  omega

theorem growFields_length {count : Nat} {previous : List Field} (h : count = previous.length)
    (hmax : count < 128) : count < (growFields count previous).length := by
  rw [growFields, List.length_append, List.length_replicate, List.length_take]
  omega

theorem reserveFields_eq {alloc : Allocation} {stream stream' : Stream}
    (h : reserveFields alloc stream = .ok stream') :
    ∃ array trailerArray, stream' = { stream with
      storage := { stream.storage with fields := array, trailerFields := trailerArray } } := by
  unfold reserveFields at h
  simp only at h
  generalize (if stream.trailers then stream.trailerCount else stream.fieldCount) = count at h
  generalize (if stream.trailers then stream.storage.trailerFields else stream.fields) = previous
    at h
  split at h
  · exact absurd h nofun
  · split at h
    · rw [← Except.ok.inj h]
      exact ⟨stream.storage.fields, stream.storage.trailerFields, rfl⟩
    · split at h
      · exact absurd h nofun
      · rw [← Except.ok.inj h]
        split
        · exact ⟨stream.storage.fields, growFields count previous, rfl⟩
        · exact ⟨growFields count previous, stream.storage.trailerFields, rfl⟩

theorem reserveFields_spec {alloc : Allocation} {stream stream' : Stream}
    (hfields : stream.fieldCount ≤ stream.fields.length)
    (htrailers : stream.trailerCount ≤ stream.storage.trailerFields.length)
    (hmax : (if stream.trailers then stream.trailerCount else stream.fieldCount) ≤ 128)
    (h : reserveFields alloc stream = .ok stream') :
    (stream.trailers = true → stream'.fields = stream.fields) ∧
      stream'.fields.take stream.fieldCount = stream.fields.take stream.fieldCount ∧
      stream'.storage.trailerFields.take stream.trailerCount =
        stream.storage.trailerFields.take stream.trailerCount ∧
      stream.fieldCount ≤ stream'.fields.length ∧
      stream.trailerCount ≤ stream'.storage.trailerFields.length ∧
      (if stream.trailers then stream.trailerCount < stream'.storage.trailerFields.length
        else stream.fieldCount < stream'.fields.length) ∧
      (if stream.trailers then stream.trailerCount else stream.fieldCount) < 128 := by
  unfold reserveFields at h
  cases htrailing : stream.trailers with
  | true =>
      simp only [htrailing, if_true] at h hmax ⊢
      split at h
      · exact absurd h nofun
      next hne =>
        split at h
        next hroom =>
          rw [← Except.ok.inj h]
          exact ⟨fun _ => rfl, rfl, rfl, hfields, htrailers, hroom, by omega⟩
        next hfull =>
          split at h
          · exact absurd h nofun
          · rw [← Except.ok.inj h]
            have hlength := @growFields_length stream.trailerCount stream.storage.trailerFields
              (by omega) (by omega)
            exact ⟨fun _ => rfl, rfl, growFields_take htrailers, hfields,
              le_of_lt hlength, hlength, by omega⟩
  | false =>
      simp only [htrailing, Bool.false_eq_true, if_false] at h hmax ⊢
      split at h
      · exact absurd h nofun
      next hne =>
        split at h
        next hroom =>
          rw [← Except.ok.inj h]
          exact ⟨nofun, rfl, rfl, hfields, htrailers, hroom, by omega⟩
        next hfull =>
          split at h
          · exact absurd h nofun
          · rw [← Except.ok.inj h]
            have hlength := @growFields_length stream.fieldCount stream.fields (by omega) (by omega)
            have hgrown : ({ stream with storage := { stream.storage with
                fields := growFields stream.fieldCount stream.fields } } : Stream).fields =
                  growFields stream.fieldCount stream.fields :=
              if_neg (by simp only; omega)
            refine ⟨nofun, ?_, rfl, ?_, htrailers, ?_, by omega⟩
            · exact (congrArg (List.take stream.fieldCount) hgrown).trans (growFields_take hfields)
            · exact le_trans (le_of_lt hlength) (le_of_eq (congrArg List.length hgrown).symm)
            · exact lt_of_lt_of_eq hlength (congrArg List.length hgrown).symm

/-! ### Copying a field -/

/-- A name and a value are copied behind what is used of a block. -/
structure Copied (memory memory' : Memory UInt8) (block : Slice) (used : Nat) (name value : Bytes) :
    Prop where
  blocks : memory'.blocks = memory.blocks
  readName : memory'.read ⟨block.ptr + used, name.length⟩ = name
  readValue : memory'.read ⟨block.ptr + (used + name.length), value.length⟩ = value
  shown : ∀ {x : Slice}, x.Within ⟨block.ptr, used⟩ → memory'.read x = memory.read x
  others : ∀ {x other : Slice}, other ∈ memory.blocks → Distinct other block → x.Within other →
    memory'.read x = memory.read x

theorem write_copied {memory : Memory UInt8} {block : Slice} (hblock : block ∈ memory.blocks)
    {used : Nat} {name value : Bytes} (hroom : used + (name.length + value.length) ≤ block.len) :
    Copied memory ((memory.write (block.ptr + used) name).write (block.ptr + (used + name.length))
      value) block used name value := by
  -- what does not overlap the room behind the used part is left alone
  have hapart : ∀ {x : Slice},
      x.len = 0 ∨ x.Apart ⟨block.ptr + used, name.length + value.length⟩ →
        ((memory.write (block.ptr + used) name).write (block.ptr + (used + name.length))
          value).read x = memory.read x := by
    intro x hx
    unfold Slice.Apart at hx
    simp only at hx
    rw [Memory.read_write_apart, Memory.read_write_apart]
    all_goals
      unfold Slice.Apart
      simp only
      omega
  constructor
  case blocks => rfl
  case readName =>
    rw [Memory.read_write_apart]
    · exact Memory.read_write_self _ _ _
    · exact Or.inr (Or.inl (by simp only; omega))
  case readValue => exact Memory.read_write_self _ _ _
  case shown =>
    intro x hx
    refine hapart ?_
    unfold Slice.Within Slice.Inside at hx
    unfold Slice.Apart
    simp only at hx ⊢
    omega
  case others =>
    intro x other hother hdistinct hx
    by_cases hlen : block.len = 0
    · have hname : name = [] := List.length_eq_zero_iff.mp (by omega)
      have hvalue : value = [] := List.length_eq_zero_iff.mp (by omega)
      rw [hname, hvalue, Memory.write_nil, Memory.write_nil]
    · refine hapart ?_
      by_cases hempty : x.len = 0
      · exact Or.inl hempty
      · have hne : other ≠ block := by
          rcases hdistinct with hzero | hzero | hne
          · unfold Slice.Within Slice.Inside at hx
            omega
          · exact absurd hzero hlen
          · exact hne
        have hblocks := Memory.apart_of_mem hother hblock hne
        unfold Slice.Within Slice.Inside at hx
        unfold Slice.Apart at hblocks ⊢
        simp only
        omega

theorem Decoded.name_ne_nil (field : Decoded) : field.name ≠ [] := by
  rcases field.valid with h | ⟨rest, h, -⟩
  · intro hnil
    rw [hnil] at h
    exact absurd h (by decide)
  · rw [h]
    exact List.cons_ne_nil _ _

/-- A state that holds a field behind its text, with nothing else changed. -/
structure Filed (config : Config) (state state' : State) (field : Decoded) (key text : Slice) :
    Prop where
  held : Held config state'
  metadata : state'.metadata = state.metadata
  head : state.stream.trailers = true → HeadKept state state'
  readKey : state'.memory.read key = field.name
  readText : state'.memory.read text = field.value
  within : if state.stream.trailers then
      key.Within ⟨state'.stream.storage.trailers.ptr, state'.stream.trailerLen⟩ ∧
        text.Within ⟨state'.stream.storage.trailers.ptr, state'.stream.trailerLen⟩
    else
      key.Within ⟨state'.stream.headBytes.ptr, state'.stream.headLen⟩ ∧
        text.Within ⟨state'.stream.headBytes.ptr, state'.stream.headLen⟩
  counters : ∃ headLen trailerLen, state'.stream.counters =
    { state.stream.counters with headLen, trailerLen }

theorem within_longer {x : Slice} {ptr n k : Nat} (h : x.Within ⟨ptr, n⟩) (hle : n ≤ k) :
    x.Within ⟨ptr, k⟩ := h.trans ⟨le_refl _, by simp only; omega⟩

theorem copy_filed {config : Config} {state : State} {field : Decoded} (hheld : Held config state)
    (hroom : if state.stream.trailers then
        state.stream.trailerLen + (field.name.length + field.value.length) ≤
            state.stream.storage.trailers.len ∧
          state.stream.trailerLen + (field.name.length + field.value.length) ≤ config.trailerBytes
      else
        state.stream.headLen + (field.name.length + field.value.length) ≤
            state.stream.headBytes.len ∧
          state.stream.headLen + (field.name.length + field.value.length) ≤
            2 * config.headerBytes) :
    Filed config state (copy state field).1 field (copy state field).2.1
      (copy state field).2.2 := by
  obtain ⟨memory, stream⟩ := state
  have hname := List.length_pos_iff.mpr field.name_ne_nil
  have hheadMem : stream.headBytes ∈ memory.blocks := hheld.owned.headBytes_mem
  have hheadLen : stream.headLen ≤ stream.headBytes.len := hheld.headLen_le
  have htrailerLen : stream.trailerLen ≤ stream.storage.trailers.len := hheld.trailerLen_le
  unfold copy
  cases htrailing : stream.trailers with
  | true =>
      rw [if_pos htrailing] at hroom
      simp only [if_pos htrailing] at hroom ⊢
      have hmem : stream.storage.trailers ∈ memory.blocks :=
        hheld.owned.trailers.resolve_left (by simp only; omega)
      have hcopied := write_copied hmem hroom.1
      generalize (memory.write (stream.storage.trailers.ptr + stream.trailerLen) field.name).write
        (stream.storage.trailers.ptr + (stream.trailerLen + field.name.length)) field.value =
          memory' at hcopied ⊢
      have hhead : ∀ x ∈ stream.headSlices, memory'.read x = memory.read x := fun x hx =>
        hcopied.others hheadMem hheld.owned.distinct.symm
          (within_longer (hheld.headText x hx) hheadLen)
      have htext : ∀ x ∈ stream.trailerSlices, memory'.read x = memory.read x := fun x hx =>
        hcopied.shown (hheld.trailerText x hx)
      refine ⟨?_, ?_, fun _ => ⟨rfl, rfl, hhead⟩, hcopied.readName, hcopied.readValue, ?_,
        ⟨stream.headLen, _, rfl⟩⟩
      · exact
          { owned :=
              { buffer := hcopied.blocks ▸ hheld.owned.buffer
                head := hcopied.blocks ▸ hheld.owned.head
                trailers := hcopied.blocks ▸ hheld.owned.trailers
                head_buffer := hheld.owned.head_buffer
                trailers_buffer := hheld.owned.trailers_buffer
                trailers_head := hheld.owned.trailers_head }
            headLen_le := hheld.headLen_le
            headLen_max := hheld.headLen_max
            trailerLen_le := by simp only; omega
            trailerLen_max := by simp only; omega
            fieldCount_le := hheld.fieldCount_le
            fieldCount_max := hheld.fieldCount_max
            trailerCount_le := hheld.trailerCount_le
            trailerCount_max := hheld.trailerCount_max
            published_le := hheld.published_le
            headText := hheld.headText
            trailerText := fun x hx =>
              within_longer (hheld.trailerText x hx) (by simp only; omega) }
      · refine (@metadata_trailers memory memory' stream { stream with
          trailerLen := stream.trailerLen + field.name.length + field.value.length }
            hhead rfl rfl rfl rfl rfl rfl rfl).trans ?_
        simp only
        rw [map_read_same htext]
        rfl
      · rw [if_pos htrailing]
        constructor <;> refine Or.inr ⟨?_, ?_⟩ <;> simp only <;> omega
  | false =>
      have hhead : ¬stream.trailers = true := by rw [htrailing]; exact Bool.false_ne_true
      simp only [if_neg hhead] at hroom ⊢
      have hcopied := write_copied hheadMem hroom.1
      generalize (memory.write (stream.headBytes.ptr + stream.headLen) field.name).write
        (stream.headBytes.ptr + (stream.headLen + field.name.length)) field.value =
          memory' at hcopied ⊢
      have hshown : ∀ x ∈ stream.headSlices, memory'.read x = memory.read x := fun x hx =>
        hcopied.shown (hheld.headText x hx)
      have htext : ∀ x ∈ stream.trailerSlices, memory'.read x = memory.read x := by
        intro x hx
        have hwithin := within_longer (hheld.trailerText x hx) htrailerLen
        rcases hheld.owned.trailers with hzero | hmem
        · have hx : x.len = 0 := by
            unfold Slice.Within Slice.Inside at hwithin
            simp only at hwithin hzero
            omega
          exact Memory.read_of_len hx hx
        · exact hcopied.others hmem hheld.owned.distinct hwithin
      refine ⟨?_, ?_, fun htrue => absurd htrue hhead, hcopied.readName, hcopied.readValue, ?_,
        ⟨_, stream.trailerLen, rfl⟩⟩
      · exact
          { owned :=
              { buffer := hcopied.blocks ▸ hheld.owned.buffer
                head := hcopied.blocks ▸ hheld.owned.head
                trailers := hcopied.blocks ▸ hheld.owned.trailers
                head_buffer := hheld.owned.head_buffer
                trailers_buffer := hheld.owned.trailers_buffer
                trailers_head := hheld.owned.trailers_head }
            headLen_le := by
              show stream.headLen + field.name.length + field.value.length ≤ stream.headBytes.len
              omega
            headLen_max := by simp only; omega
            trailerLen_le := hheld.trailerLen_le
            trailerLen_max := hheld.trailerLen_max
            fieldCount_le := hheld.fieldCount_le
            fieldCount_max := hheld.fieldCount_max
            trailerCount_le := hheld.trailerCount_le
            trailerCount_max := hheld.trailerCount_max
            published_le := hheld.published_le
            headText := fun x hx =>
              within_longer (hheld.headText x hx) (by simp only; omega)
            trailerText := hheld.trailerText }
      · refine (@metadata_trailers memory memory' stream { stream with
          headLen := stream.headLen + field.name.length + field.value.length }
            hshown rfl rfl rfl rfl rfl rfl rfl).trans ?_
        simp only
        rw [map_read_same htext]
        rfl
      · rw [if_neg hhead]
        constructor
        · refine Or.inr ⟨?_, ?_⟩
          · show stream.headBytes.ptr ≤ stream.headBytes.ptr + stream.headLen
            omega
          · show stream.headBytes.ptr + stream.headLen + field.name.length ≤
              stream.headBytes.ptr + (stream.headLen + field.name.length + field.value.length)
            omega
        · refine Or.inr ⟨?_, ?_⟩
          · show stream.headBytes.ptr ≤
              stream.headBytes.ptr + (stream.headLen + field.name.length)
            omega
          · show stream.headBytes.ptr + (stream.headLen + field.name.length) +
                field.value.length ≤
              stream.headBytes.ptr + (stream.headLen + field.name.length + field.value.length)
            omega

/-! ### Adding a field -/

theorem reserveFields_moved {config : Config} {alloc : Allocation} {memory : Memory UInt8}
    {stream stream' : Stream} (hheld : Held config ⟨memory, stream⟩)
    (h : reserveFields alloc stream = .ok stream') :
    Moved config ⟨memory, stream⟩ ⟨memory, stream'⟩ ∧
      HeadKept ⟨memory, stream⟩ ⟨memory, stream'⟩ ∧
      stream'.storage.trailers = stream.storage.trailers ∧
      (if stream.trailers then stream.trailerCount < stream'.storage.trailerFields.length
        else stream.fieldCount < stream'.fields.length) ∧
      (if stream.trailers then stream.trailerCount else stream.fieldCount) < 128 := by
  have hmax : (if stream.trailers then stream.trailerCount else stream.fieldCount) ≤ 128 := by
    split
    · exact hheld.trailerCount_max
    · exact hheld.fieldCount_max
  obtain ⟨-, htakeFields, htakeTrailers, hfields, htrailers, hroom, hcount⟩ :=
    reserveFields_spec hheld.fieldCount_le hheld.trailerCount_le hmax h
  obtain ⟨array, trailerArray, heq⟩ := reserveFields_eq h
  have hslices : stream'.headSlices = stream.headSlices := by
    have hcounts : stream'.fieldCount = stream.fieldCount := by rw [heq]
    rw [Stream.headSlices, hcounts, htakeFields, heq]
    rfl
  have htrailerSlices : stream'.trailerSlices = stream.trailerSlices := by
    have hcounts : stream'.trailerCount = stream.trailerCount := by rw [heq]
    rw [Stream.trailerSlices, hcounts, htakeTrailers]
    rfl
  have hbytes : stream'.headBytes = stream.headBytes := by
    rw [heq]
    rfl
  refine ⟨⟨?_, ?_, by rw [heq]; rfl⟩, ⟨hslices, hbytes, fun _ _ => rfl⟩, by rw [heq], hroom,
    hcount⟩
  · constructor
    case headText =>
      intro x hx
      show x.Within ⟨stream'.headBytes.ptr, stream'.headLen⟩
      rw [show stream'.headLen = stream.headLen by rw [heq], hbytes]
      exact hheld.headText x (hslices ▸ hx)
    case trailerText =>
      intro x hx
      show x.Within ⟨stream'.storage.trailers.ptr, stream'.trailerLen⟩
      rw [show stream'.trailerLen = stream.trailerLen by rw [heq],
        show stream'.storage.trailers = stream.storage.trailers by rw [heq]]
      exact hheld.trailerText x (htrailerSlices ▸ hx)
    case fieldCount_le =>
      show stream'.fieldCount ≤ stream'.fields.length
      rw [show stream'.fieldCount = stream.fieldCount by rw [heq]]
      exact hfields
    case trailerCount_le =>
      show stream'.trailerCount ≤ stream'.storage.trailerFields.length
      rw [show stream'.trailerCount = stream.trailerCount by rw [heq]]
      exact htrailers
    case headLen_le =>
      show stream'.headLen ≤ stream'.headBytes.len
      rw [hbytes, show stream'.headLen = stream.headLen by rw [heq]]
      exact hheld.headLen_le
    all_goals rw [heq]
    · exact
        { buffer := hheld.owned.buffer
          head := hheld.owned.head
          trailers := hheld.owned.trailers
          head_buffer := hheld.owned.head_buffer
          trailers_buffer := hheld.owned.trailers_buffer
          trailers_head := hheld.owned.trailers_head }
    · exact hheld.headLen_max
    · exact hheld.trailerLen_le
    · exact hheld.trailerLen_max
    · exact hheld.fieldCount_max
    · exact hheld.trailerCount_max
    · exact hheld.published_le
  · rw [State.metadata, State.metadata]
    simp only
    rw [show stream'.fieldCount = stream.fieldCount by rw [heq], htakeFields,
      show stream'.trailerCount = stream.trailerCount by rw [heq], htakeTrailers, heq]

theorem take_set_succ {α : Type*} {l : List α} {n : Nat} (h : n < l.length) (x : α) :
    (l.set n x).take (n + 1) = l.take n ++ [x] := by
  rw [List.take_add_one, List.take_set_of_le (le_refl n), List.getElem?_set_self h]
  rfl

theorem fieldSlices_append (fields : List Field) (field : Field) :
    Stream.fieldSlices (fields ++ [field]) =
      Stream.fieldSlices fields ++ [field.name, field.value] := by
  rw [Stream.fieldSlices, List.flatMap_append]
  rfl

/-- A trailer is added to the array. -/
def Stream.pushTrailer (stream : Stream) (field : Field) : Stream :=
  { stream with
    storage := { stream.storage with
      trailerFields := stream.storage.trailerFields.set stream.trailerCount field }
    trailerCount := stream.trailerCount + 1 }

theorem pushTrailer_held {config : Config} {memory : Memory UInt8} {stream : Stream} {field : Field}
    (hheld : Held config ⟨memory, stream⟩)
    (hroom : stream.trailerCount < stream.storage.trailerFields.length)
    (hmax : stream.trailerCount < 128)
    (hname : field.name.Within ⟨stream.storage.trailers.ptr, stream.trailerLen⟩)
    (hvalue : field.value.Within ⟨stream.storage.trailers.ptr, stream.trailerLen⟩) :
    Held config ⟨memory, stream.pushTrailer field⟩ ∧
      State.metadata ⟨memory, stream.pushTrailer field⟩ =
        { State.metadata ⟨memory, stream⟩ with
          trailers := (State.metadata ⟨memory, stream⟩).trailers ++ [field.read memory] } := by
  have htake := take_set_succ hroom field
  refine ⟨?_, ?_⟩
  · exact
      { owned :=
          { buffer := hheld.owned.buffer
            head := hheld.owned.head
            trailers := hheld.owned.trailers
            head_buffer := hheld.owned.head_buffer
            trailers_buffer := hheld.owned.trailers_buffer
            trailers_head := hheld.owned.trailers_head }
        headLen_le := hheld.headLen_le
        headLen_max := hheld.headLen_max
        trailerLen_le := hheld.trailerLen_le
        trailerLen_max := hheld.trailerLen_max
        fieldCount_le := hheld.fieldCount_le
        fieldCount_max := hheld.fieldCount_max
        trailerCount_le := by
          show stream.trailerCount + 1 ≤ (stream.storage.trailerFields.set _ field).length
          rw [List.length_set]
          exact hroom
        trailerCount_max := hmax
        published_le := hheld.published_le
        headText := hheld.headText
        trailerText := by
          intro x hx
          simp only [Stream.trailerSlices, Stream.pushTrailer] at hx
          rw [htake, fieldSlices_append, List.mem_append] at hx
          rcases hx with hx | hx
          · exact hheld.trailerText x hx
          · rcases List.mem_cons.mp hx with rfl | hx
            · exact hname
            · rw [List.mem_singleton.mp hx]
              exact hvalue }
  · simp only [State.metadata, Stream.pushTrailer]
    rw [htake, List.map_append]
    rfl

/-- A field of the head is added to the array. -/
def Stream.pushField (stream : Stream) (field : Field) : Stream :=
  let stream := stream.setFields (stream.fields.set stream.fieldCount field)
  { stream with fieldCount := stream.fieldCount + 1 }

theorem pushField_held {config : Config} {memory : Memory UInt8} {stream : Stream} {field : Field}
    (hheld : Held config ⟨memory, stream⟩) (hroom : stream.fieldCount < stream.fields.length)
    (hmax : stream.fieldCount < 128)
    (hname : field.name.Within ⟨stream.headBytes.ptr, stream.headLen⟩)
    (hvalue : field.value.Within ⟨stream.headBytes.ptr, stream.headLen⟩) :
    Held config ⟨memory, stream.pushField field⟩ ∧
      State.metadata ⟨memory, stream.pushField field⟩ =
        { State.metadata ⟨memory, stream⟩ with
          headers := (State.metadata ⟨memory, stream⟩).headers ++ [field.read memory] } := by
  have htake := take_set_succ hroom field
  have hfields := @setFields_fields stream (stream.fields.set stream.fieldCount field)
    (by rw [List.length_set])
  have hpushed : (stream.pushField field).fields = stream.fields.set stream.fieldCount field :=
    hfields
  obtain ⟨array, buffer, heq⟩ := setFields_eq stream (stream.fields.set stream.fieldCount field)
  have hstream : stream.pushField field = { stream with
      fieldBuffer := buffer
      storage := { stream.storage with fields := array }
      fieldCount := stream.fieldCount + 1 } := by
    rw [Stream.pushField, heq]
  have hcount : (stream.pushField field).fieldCount = stream.fieldCount + 1 := by rw [hstream]
  refine ⟨?_, ?_⟩
  · constructor
    case headText =>
      intro x hx
      simp only [Stream.headSlices] at hx
      rw [hpushed, hcount, htake, fieldSlices_append, ← List.append_assoc, List.mem_append] at hx
      show x.Within ⟨(stream.pushField field).headBytes.ptr, (stream.pushField field).headLen⟩
      rw [show (stream.pushField field).headBytes = stream.headBytes by rw [hstream]; rfl,
        show (stream.pushField field).headLen = stream.headLen by rw [hstream]]
      rcases hx with hx | hx
      · refine hheld.headText x ?_
        rw [hstream] at hx
        exact hx
      · rcases List.mem_cons.mp hx with rfl | hx
        · exact hname
        · rw [List.mem_singleton.mp hx]
          exact hvalue
    case fieldCount_le =>
      show (stream.pushField field).fieldCount ≤ (stream.pushField field).fields.length
      rw [hpushed, hcount, List.length_set]
      exact hroom
    all_goals rw [hstream]
    · exact
        { buffer := hheld.owned.buffer
          head := hheld.owned.head
          trailers := hheld.owned.trailers
          head_buffer := hheld.owned.head_buffer
          trailers_buffer := hheld.owned.trailers_buffer
          trailers_head := hheld.owned.trailers_head }
    · exact hheld.headLen_le
    · exact hheld.headLen_max
    · exact hheld.trailerLen_le
    · exact hheld.trailerLen_max
    · exact hmax
    · exact hheld.trailerCount_le
    · exact hheld.trailerCount_max
    · exact le_trans hheld.published_le (Nat.le_succ _)
    · exact hheld.trailerText
  · rw [State.metadata]
    simp only
    rw [hpushed, hcount, htake, List.map_append, hstream]
    rfl

end Http2

end Zhtps
