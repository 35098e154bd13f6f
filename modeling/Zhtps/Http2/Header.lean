import Zhtps.Http2.Metadata

/-!
What one call of `header` does to what a stream shows.

`Metadata` is what a stream is for: the fields that it was given, without storage.  A call either adds
its field to them or fails for a reason that they, or the allocator, tell.
-/

namespace Zhtps

namespace Http2

open Lib

/-! ### Fields and what becomes of them -/

/-- The pseudo fields of a request. -/
def pseudo : List Bytes := [ascii ":method", ascii ":path", ascii ":authority", ascii ":scheme"]

def Decoded.size (field : Decoded) : Nat := field.name.length + field.value.length

def Decoded.toHeader (field : Decoded) : Header := ⟨field.name, field.value⟩

namespace Metadata

/-- The request whose first `published` fields are shown. -/
def request (metadata : Metadata) (published : Nat) (bodyFollows : Bool) : Request :=
  { method := metadata.method
    target := metadata.target
    authority := metadata.authority
    scheme := metadata.scheme
    version := .http2
    headers := metadata.headers.take published
    contentLength := metadata.contentLength
    bodyFollows }

/-- A field that a block does not take. -/
def Breaks (metadata : Metadata) (request : Request) (field : Decoded) : Prop :=
  if metadata.trailing then
    field.name.head? = some 0x3a ∨ request.forbidsTrailer field.name = true
  else
    (field.name.head? = some 0x3a ∧ field.name ∉ pseudo) ∨
      (field.name = ascii "content-length" ∧ Fmt.parseInt field.value 10 = none)

/-- A field is taken. -/
def receive (metadata : Metadata) (field : Decoded) : Metadata :=
  if metadata.trailing then { metadata with trailers := metadata.trailers ++ [field.toHeader] }
  else if field.name = ascii ":method" then { metadata with method := field.value }
  else if field.name = ascii ":path" then { metadata with target := field.value }
  else if field.name = ascii ":authority" then { metadata with authority := field.value }
  else if field.name = ascii ":scheme" then { metadata with scheme := some field.value }
  else { metadata with
    headers := metadata.headers ++ [field.toHeader]
    contentLength :=
      if field.name = ascii "content-length" then Fmt.parseInt field.value 10
      else metadata.contentLength }

/-- A field is refused; a length that is no number stays among the fields. -/
def refuse (metadata : Metadata) (field : Decoded) (fault : Fault) : Metadata :=
  if metadata.trailing = false ∧ field.name = ascii "content-length" ∧ fault = .protocol ∧
      metadata.headers.length < 128 then
    { metadata with headers := metadata.headers ++ [field.toHeader] }
  else metadata

def next (metadata : Metadata) (field : Decoded) : Except Fault Unit → Metadata
  | .ok () => metadata.receive field
  | .error fault => metadata.refuse field fault

/-- How many fields the block that is being received has. -/
def count (metadata : Metadata) : Nat :=
  if metadata.trailing then metadata.trailers.length else metadata.headers.length

end Metadata

theorem Held.request_eq {config : Config} {state : State} (hheld : Held config state) :
    state.request =
      state.metadata.request state.stream.published state.stream.bodyFollows := by
  have htake : state.stream.headers =
      (state.stream.fields.take state.stream.fieldCount).take state.stream.published := by
    rw [List.take_take, min_eq_left hheld.published_le]
    rfl
  rw [State.request, htake, List.map_take]
  rfl

theorem Held.length_headers {config : Config} {state : State} (hheld : Held config state) :
    state.metadata.headers.length = state.stream.fieldCount := by
  rw [State.metadata, List.length_map, List.length_take]
  exact min_eq_left hheld.fieldCount_le

theorem Held.length_trailers {config : Config} {state : State} (hheld : Held config state) :
    state.metadata.trailers.length = state.stream.trailerCount := by
  rw [State.metadata, List.length_map, List.length_take]
  exact min_eq_left hheld.trailerCount_le

/-! ### Putting a field where it belongs -/

/-- A stream of which only the text of the head was set anew. -/
theorem retext_held {config : Config} {memory : Memory UInt8} {stream : Stream}
    {method target authority : Slice} {scheme : Option Slice} {contentLength : Option Nat}
    (hheld : Held config ⟨memory, stream⟩)
    (h : ∀ x ∈ [method, target, authority] ++ scheme.toList,
      x.Within ⟨stream.headBytes.ptr, stream.headLen⟩) :
    Held config
      ⟨memory, { stream with method, target, authority, scheme, contentLength }⟩ where
  owned :=
    { buffer := hheld.owned.buffer
      head := hheld.owned.head
      trailers := hheld.owned.trailers
      head_buffer := hheld.owned.head_buffer
      trailers_buffer := hheld.owned.trailers_buffer
      trailers_head := hheld.owned.trailers_head }
  headLen_le := hheld.headLen_le
  headLen_max := hheld.headLen_max
  trailerLen_le := hheld.trailerLen_le
  trailerLen_max := hheld.trailerLen_max
  fieldCount_le := hheld.fieldCount_le
  fieldCount_max := hheld.fieldCount_max
  trailerCount_le := hheld.trailerCount_le
  trailerCount_max := hheld.trailerCount_max
  published_le := hheld.published_le
  headText := by
    intro x hx
    rcases List.mem_append.mp hx with hx | hx
    · exact h x hx
    · exact hheld.headText x (List.mem_append_right _ hx)
  trailerText := hheld.trailerText

theorem headSlices_text {config : Config} {memory : Memory UInt8} {stream : Stream}
    (hheld : Held config ⟨memory, stream⟩) {x : Slice}
    (hx : x ∈ [stream.method, stream.target, stream.authority] ++ stream.scheme.toList) :
    x.Within ⟨stream.headBytes.ptr, stream.headLen⟩ :=
  hheld.headText x (List.mem_append_left _ hx)

/-- What a call of `place` does, and why it fails. -/
structure Placed (config : Config) (alloc : Allocation) (state : State) (field : Decoded)
    (state' : State) (result : Except Fault Unit) : Prop where
  held : Held config state'
  metadata : state'.metadata = state.metadata.next field result
  head : state.stream.trailers = true → HeadKept state state'
  counters : ∃ contentLength fieldCount trailerCount, state'.stream.counters =
    { state.stream.counters with contentLength, fieldCount, trailerCount }
  permitted : result = .ok () → ¬state.metadata.Breaks state.request field
  refused : ∀ fault, result = .error fault →
    fault = .outOfMemory ∧ alloc.fields = false ∨
      fault = .protocol ∧
        (state.metadata.Breaks state.request field ∨ state.metadata.count = 128)

theorem reserveFields_refused {alloc : Allocation} {stream : Stream} {fault : Fault}
    (h : reserveFields alloc stream = .error fault) :
    fault = .outOfMemory ∧ alloc.fields = false ∨
      fault = .protocol ∧
        (if stream.trailers then stream.trailerCount else stream.fieldCount) = 128 := by
  unfold reserveFields at h
  simp only at h
  generalize (if stream.trailers then stream.trailerCount else stream.fieldCount) = count at h ⊢
  generalize (if stream.trailers then stream.storage.trailerFields else stream.fields) = previous
    at h
  split at h
  next hfull => exact Or.inr ⟨(Except.error.inj h).symm, hfull⟩
  · split at h
    · exact absurd h nofun
    · split at h
      next hrefused =>
        exact Or.inl ⟨(Except.error.inj h).symm, by simpa using hrefused⟩
      · exact absurd h nofun

theorem Held.count_eq {config : Config} {state : State} (hheld : Held config state) :
    state.metadata.count =
      if state.stream.trailers then state.stream.trailerCount else state.stream.fieldCount := by
  rw [Metadata.count, hheld.length_headers, hheld.length_trailers]
  rfl

/-- A state that has not changed, because its field was refused before it was added. -/
theorem Placed.same {config : Config} {alloc : Allocation} {state : State} {field : Decoded}
    {fault : Fault} (hheld : Held config state)
    (hrefuse : state.metadata.refuse field fault = state.metadata)
    (hrefused : fault = .outOfMemory ∧ alloc.fields = false ∨
      fault = .protocol ∧
        (state.metadata.Breaks state.request field ∨ state.metadata.count = 128)) :
    Placed config alloc state field state (.error fault) where
  held := hheld
  metadata := hrefuse.symm
  head := fun _ => .refl state
  counters := ⟨_, _, _, rfl⟩
  permitted := nofun
  refused := by
    intro other hother
    rw [← Except.error.inj hother]
    exact hrefused

theorem head?_of_ne_nil {α : Type*} {l : List α} (h : l ≠ []) : ∃ x, l.head? = some x := by
  cases l with
  | nil => exact absurd rfl h
  | cons x l => exact ⟨x, rfl⟩

theorem addTrailer_placed {config : Config} {alloc : Allocation} {state : State} {field : Decoded}
    {key text : Slice} (hheld : Held config state) (htrailing : state.stream.trailers = true)
    (hkey : state.memory.read key = field.name) (htext : state.memory.read text = field.value)
    (hwithin : key.Within ⟨state.stream.storage.trailers.ptr, state.stream.trailerLen⟩ ∧
      text.Within ⟨state.stream.storage.trailers.ptr, state.stream.trailerLen⟩) :
    Placed config alloc state field (addTrailer alloc state field key text).1
      (addTrailer alloc state field key text).2 := by
  have hmode : state.metadata.trailing = true := htrailing
  have hsame : ∀ fault, state.metadata.refuse field fault = state.metadata := by
    intro fault
    rw [Metadata.refuse, if_neg]
    rw [hmode]
    exact fun h => Bool.noConfusion h.1
  unfold addTrailer
  obtain ⟨first, hfirst⟩ := head?_of_ne_nil field.name_ne_nil
  rw [hfirst]
  simp only
  split
  next hbreaks =>
    refine .same hheld (hsame _) (Or.inr ⟨rfl, Or.inl ?_⟩)
    rw [Metadata.Breaks, if_pos hmode, hfirst]
    simpa using hbreaks
  next hpermitted =>
    cases hreserve : reserveFields alloc state.stream with
    | error fault =>
        refine .same hheld (hsame _) ((reserveFields_refused hreserve).imp id fun h =>
          ⟨h.1, Or.inr ?_⟩)
        rw [hheld.count_eq]
        exact h.2
    | ok stream =>
        simp only
        obtain ⟨hmoved, hkept, hblock, hroom, hmax⟩ := reserveFields_moved hheld hreserve
        obtain ⟨array, trailerArray, heq⟩ := reserveFields_eq hreserve
        rw [if_pos htrailing] at hroom hmax
        have hcount : stream.trailerCount = state.stream.trailerCount := by rw [heq]
        have hlen : stream.trailerLen = state.stream.trailerLen := by rw [heq]
        have hpush := @pushTrailer_held config state.memory stream ⟨key, text⟩ hmoved.held
          (by rw [hcount]; exact hroom) (by rw [hcount]; exact hmax)
          (by rw [hblock, hlen]; exact hwithin.1) (by rw [hblock, hlen]; exact hwithin.2)
        exact
          { held := hpush.1
            metadata := by
              rw [Metadata.next, Metadata.receive, if_pos hmode]
              refine hpush.2.trans ?_
              rw [hmoved.metadata, Field.read, hkey, htext]
              rfl
            head := fun _ => hkept
            counters := by
              refine ⟨state.stream.contentLength, state.stream.fieldCount,
                stream.trailerCount + 1, ?_⟩
              show ({ stream.counters with trailerCount := stream.trailerCount + 1 } : Counters) = _
              rw [show stream.counters = state.stream.counters from hmoved.counters]
              rfl
            permitted := by
              intro _
              rw [Metadata.Breaks, if_pos hmode, hfirst]
              simpa using hpermitted
            refused := nofun }

theorem addField_placed {config : Config} {alloc : Allocation} {state : State} {field : Decoded}
    {key text : Slice} (hheld : Held config state) (htrailing : state.stream.trailers = false)
    (hpseudo : field.name ∉ pseudo)
    (hkey : state.memory.read key = field.name) (htext : state.memory.read text = field.value)
    (hwithin : key.Within ⟨state.stream.headBytes.ptr, state.stream.headLen⟩ ∧
      text.Within ⟨state.stream.headBytes.ptr, state.stream.headLen⟩) :
    Placed config alloc state field (addField alloc state field key text).1
      (addField alloc state field key text).2 := by
  have hmode : ¬state.metadata.trailing = true := by
    rw [show state.metadata.trailing = state.stream.trailers from rfl, htrailing]
    exact Bool.false_ne_true
  have hhead : ¬state.stream.trailers = true := hmode
  unfold addField
  obtain ⟨first, hfirst⟩ := head?_of_ne_nil field.name_ne_nil
  rw [hfirst]
  simp only
  split
  next hcolon =>
    have hname : field.name ≠ ascii "content-length" := by
      rintro hname
      rw [hname] at hfirst
      rw [← Option.some.inj hfirst] at hcolon
      exact absurd hcolon (by decide)
    refine .same hheld ?_ (Or.inr ⟨rfl, Or.inl ?_⟩)
    · rw [Metadata.refuse, if_neg fun h => hname h.2.1]
    · rw [Metadata.Breaks, if_neg hmode, hfirst]
      exact Or.inl ⟨by simpa using hcolon, hpseudo⟩
  next hcolon =>
    have hnotColon : field.name.head? ≠ some 0x3a := by
      rw [hfirst]
      simpa using hcolon
    cases hreserve : reserveFields alloc state.stream with
    | error fault =>
        have hrefused := reserveFields_refused hreserve
        rw [← hheld.count_eq] at hrefused
        refine .same hheld ?_ (hrefused.imp id fun h => ⟨h.1, Or.inr h.2⟩)
        rw [Metadata.refuse, if_neg]
        rintro ⟨-, -, hfault, hcount⟩
        rcases hrefused with h | h
        · exact absurd (h.1.symm.trans hfault) (by rintro ⟨⟩)
        · rw [Metadata.count, if_neg hmode] at h
          omega
    | ok stream =>
        simp only
        obtain ⟨hmoved, -, -, hroom, hmax⟩ := reserveFields_moved hheld hreserve
        obtain ⟨array, trailerArray, heq⟩ := reserveFields_eq hreserve
        rw [if_neg hhead] at hroom hmax
        have hcount : stream.fieldCount = state.stream.fieldCount := by rw [heq]
        have hlen : stream.headLen = state.stream.headLen := by rw [heq]
        have hbytes : stream.headBytes = state.stream.headBytes := by
          rw [heq]
          rfl
        obtain ⟨hpushed, hmetadata⟩ := @pushField_held config state.memory stream ⟨key, text⟩
          hmoved.held (by rw [hcount]; exact hroom) (by rw [hcount]; exact hmax)
          (by rw [hbytes, hlen]; exact hwithin.1) (by rw [hbytes, hlen]; exact hwithin.2)
        have hcounters : (stream.pushField ⟨key, text⟩).counters =
            { state.stream.counters with fieldCount := stream.fieldCount + 1 } := by
          obtain ⟨fields, buffer, hset⟩ := setFields_eq stream
            (stream.fields.set stream.fieldCount ⟨key, text⟩)
          rw [Stream.pushField, hset]
          show ({ stream.counters with fieldCount := stream.fieldCount + 1 } : Counters) = _
          rw [show stream.counters = state.stream.counters from hmoved.counters]
        have hadded : State.metadata ⟨state.memory, stream.pushField ⟨key, text⟩⟩ =
            { state.metadata with headers := state.metadata.headers ++ [field.toHeader] } := by
          rw [hmetadata, hmoved.metadata, Field.read, hkey, htext]
          rfl
        have hmaxHeaders : state.metadata.headers.length < 128 := by
          rw [hheld.length_headers]
          exact hmax
        have hreceive : ∀ contentLength, (contentLength =
            if field.name = ascii "content-length" then Fmt.parseInt field.value 10
            else state.metadata.contentLength) →
              { state.metadata with
                headers := state.metadata.headers ++ [field.toHeader]
                contentLength } = state.metadata.receive field := by
          rintro contentLength rfl
          simp only [pseudo, List.mem_cons, not_or] at hpseudo
          rw [Metadata.receive, if_neg hmode, if_neg hpseudo.1, if_neg hpseudo.2.1,
            if_neg hpseudo.2.2.1, if_neg hpseudo.2.2.2.1]
        by_cases hlength : field.name = ascii "content-length"
        · rw [if_pos hlength, htext]
          cases hparse : Fmt.parseInt field.value 10 with
          | none =>
              have hbreaks : state.metadata.Breaks state.request field := by
                rw [Metadata.Breaks, if_neg hmode]
                exact Or.inr ⟨hlength, hparse⟩
              exact
                { held := hpushed
                  metadata := by
                    rw [Metadata.next, Metadata.refuse,
                      if_pos ⟨htrailing, hlength, rfl, hmaxHeaders⟩]
                    exact hadded
                  head := fun htrue => absurd htrue hhead
                  counters := ⟨_, _, _, hcounters⟩
                  permitted := by rintro ⟨⟩
                  refused := fun fault hfault =>
                    Or.inr ⟨(Except.error.inj hfault).symm, Or.inl hbreaks⟩ }
          | some length =>
              exact
                { held := retext_held hpushed fun x hx => headSlices_text hpushed hx
                  metadata := by
                    rw [Metadata.next, ← hreceive (some length) (by rw [if_pos hlength, hparse])]
                    show ({ State.metadata ⟨state.memory, stream.pushField ⟨key, text⟩⟩ with
                      contentLength := some length } : Metadata) = _
                    rw [hadded]
                  head := fun htrue => absurd htrue hhead
                  counters := by
                    refine ⟨some length, stream.fieldCount + 1, state.stream.trailerCount, ?_⟩
                    show ({ (stream.pushField ⟨key, text⟩).counters with
                      contentLength := some length } : Counters) = _
                    rw [hcounters]
                    rfl
                  permitted := by
                    intro _ hbreaks
                    rw [Metadata.Breaks, if_neg hmode] at hbreaks
                    rcases hbreaks with h | h
                    · exact hnotColon h.1
                    · rw [hparse] at h
                      exact absurd h.2 (by rintro ⟨⟩)
                  refused := by rintro _ ⟨⟩ }
        · rw [if_neg hlength]
          exact
            { held := hpushed
              metadata := by
                rw [Metadata.next, ← hreceive state.metadata.contentLength (by rw [if_neg hlength])]
                exact hadded
              head := fun htrue => absurd htrue hhead
              counters := ⟨_, _, _, hcounters⟩
              permitted := by
                intro _ hbreaks
                rw [Metadata.Breaks, if_neg hmode] at hbreaks
                rcases hbreaks with h | h
                · exact hnotColon h.1
                · exact hlength h.1
              refused := by rintro _ ⟨⟩ }

/-- A pseudo field sets one slice of the head. -/
theorem pseudo_placed {config : Config} {alloc : Allocation} {state : State} {field : Decoded}
    {method target authority : Slice} {scheme : Option Slice} (hheld : Held config state)
    (htrailing : state.stream.trailers = false) (hpseudo : field.name ∈ pseudo)
    (hwithin : ∀ x ∈ [method, target, authority] ++ scheme.toList,
      x.Within ⟨state.stream.headBytes.ptr, state.stream.headLen⟩)
    (hmetadata : ({ state.metadata with
      method := state.memory.read method
      target := state.memory.read target
      authority := state.memory.read authority
      scheme := scheme.map state.memory.read } : Metadata) = state.metadata.receive field) :
    Placed config alloc state field
      ⟨state.memory, { state.stream with method, target, authority, scheme }⟩ (.ok ()) where
  held := @retext_held config state.memory state.stream method target authority scheme
    state.stream.contentLength hheld hwithin
  metadata := hmetadata
  head := fun htrue => by rw [htrailing] at htrue; exact Bool.noConfusion htrue
  counters := ⟨_, _, _, rfl⟩
  permitted := by
    intro _ hbreaks
    rw [Metadata.Breaks, if_neg] at hbreaks
    · rcases hbreaks with h | h
      · exact h.2 hpseudo
      · rw [h.1] at hpseudo
        exact absurd hpseudo (by decide)
    · rw [show state.metadata.trailing = state.stream.trailers from rfl, htrailing]
      exact Bool.false_ne_true
  refused := nofun

theorem place_placed {config : Config} {alloc : Allocation} {state : State} {field : Decoded}
    {key text : Slice} (hheld : Held config state)
    (hkey : state.memory.read key = field.name) (htext : state.memory.read text = field.value)
    (hwithin : if state.stream.trailers then
        key.Within ⟨state.stream.storage.trailers.ptr, state.stream.trailerLen⟩ ∧
          text.Within ⟨state.stream.storage.trailers.ptr, state.stream.trailerLen⟩
      else
        key.Within ⟨state.stream.headBytes.ptr, state.stream.headLen⟩ ∧
          text.Within ⟨state.stream.headBytes.ptr, state.stream.headLen⟩) :
    Placed config alloc state field (place alloc state field key text).1
      (place alloc state field key text).2 := by
  cases htrailing : state.stream.trailers with
  | true =>
      rw [if_pos htrailing] at hwithin
      rw [place, if_pos htrailing]
      exact addTrailer_placed hheld htrailing hkey htext hwithin
  | false =>
      have hhead : ¬state.stream.trailers = true := by rw [htrailing]; exact Bool.false_ne_true
      have hmode : ¬state.metadata.trailing = true := hhead
      rw [if_neg hhead] at hwithin
      have hmethod := hheld.headText state.stream.method (by simp [Stream.headSlices])
      have htarget := hheld.headText state.stream.target (by simp [Stream.headSlices])
      have hauthority := hheld.headText state.stream.authority (by simp [Stream.headSlices])
      have hscheme : ∀ x ∈ state.stream.scheme.toList,
          x.Within ⟨state.stream.headBytes.ptr, state.stream.headLen⟩ := fun x hx =>
        headSlices_text hheld (List.mem_append_right _ hx)
      have hother := hwithin.2
      unfold place
      simp only
      rw [if_neg hhead]
      split_ifs with h1 h2 h3 h4
      · refine pseudo_placed hheld htrailing (by rw [h1]; decide) ?_ ?_
        · simp only [List.mem_append, List.mem_cons, List.not_mem_nil, or_false]
          grind
        · rw [Metadata.receive, if_neg hmode, if_pos h1, ← htext]
          rfl
      · refine pseudo_placed hheld htrailing (by rw [h2]; decide) ?_ ?_
        · simp only [List.mem_append, List.mem_cons, List.not_mem_nil, or_false]
          grind
        · rw [Metadata.receive, if_neg hmode, if_neg h1, if_pos h2, ← htext]
          rfl
      · refine pseudo_placed hheld htrailing (by rw [h3]; decide) ?_ ?_
        · simp only [List.mem_append, List.mem_cons, List.not_mem_nil, or_false]
          grind
        · rw [Metadata.receive, if_neg hmode, if_neg h1, if_neg h2, if_pos h3, ← htext]
          rfl
      · refine pseudo_placed hheld htrailing (by rw [h4]; decide) ?_ ?_
        · simp only [List.mem_append, List.mem_cons, List.not_mem_nil, or_false]
          grind
        · rw [Metadata.receive, if_neg hmode, if_neg h1, if_neg h2, if_neg h3, if_pos h4, ← htext]
          rfl
      · refine addField_placed hheld htrailing ?_ hkey htext hwithin
        simp only [pseudo, List.mem_cons, List.not_mem_nil, or_false, not_or]
        exact ⟨h1, h2, h3, h4⟩

/-! ### A call -/

/-- The allocator refuses so many bytes, or an array of fields. -/
def Allocation.Refuses (alloc : Allocation) (memory : Memory UInt8) (asked : Nat) : Prop :=
  alloc.fields = false ∨ alloc.bytes memory asked = none

/-- How many bytes a head asks for that has no room for `extra` more. -/
def Stream.headAsked (config : Config) (stream : Stream) (extra : Nat) : Nat :=
  min (2 * config.headerBytes) (max (stream.headLen + extra) (stream.headBytes.len * 2))

/-- How many bytes the block asks for that is being received, to have room for a field. -/
def Stream.asked (config : Config) (stream : Stream) (field : Decoded) : Nat :=
  if stream.trailers then
    min config.trailerBytes
      (max (stream.trailerLen + field.size) (max 512 (stream.storage.trailers.len * 2)))
  else stream.headAsked config field.size

/-- How many bytes a block may take. -/
def limit (config : Config) (trailing : Bool) : Nat :=
  if trailing then config.trailerBytes else 2 * config.headerBytes

/-- Why a call fails, over a block that has taken `used` bytes and asks for `asked`. -/
inductive Refused (config : Config) (alloc : Allocation) (memory : Memory UInt8)
    (metadata : Metadata) (request : Request) (used asked : Nat) (field : Decoded) : Fault → Prop
  | bytes (h : limit config metadata.trailing < used + field.size) :
      Refused config alloc memory metadata request used asked field .headerListTooLarge
  | memory (h : alloc.Refuses memory asked) :
      Refused config alloc memory metadata request used asked field .outOfMemory
  | fields (h : metadata.count = 128) :
      Refused config alloc memory metadata request used asked field .protocol
  | rules (h : metadata.Breaks request field) :
      Refused config alloc memory metadata request used asked field .protocol

theorem Refused.mono {config : Config} {alloc : Allocation} {memory : Memory UInt8}
    {metadata : Metadata} {request : Request} {used used' asked : Nat} {field : Decoded}
    {fault : Fault} (h : Refused config alloc memory metadata request used asked field fault)
    (hle : used ≤ used') : Refused config alloc memory metadata request used' asked field fault := by
  cases h with
  | bytes h => exact .bytes (by omega)
  | memory h => exact .memory h
  | fields h => exact .fields h
  | rules h => exact .rules h

namespace Stream

/-- What is used of the block that is being received. -/
def used (stream : Stream) : Nat := if stream.trailers then stream.trailerLen else stream.headLen

/-- What is used of the other block. -/
def usedOther (stream : Stream) : Nat :=
  if stream.trailers then stream.headLen else stream.trailerLen

/-- A stream that the engine delivers fields to. -/
def Expects (stream : Stream) : Prop :=
  stream.trailers = true ∨ stream.headReady = false ∧ stream.busy = false

end Stream

theorem reserveHead_refused {config : Config} {alloc : Allocation} {state : State} {extra : Nat}
    {fault : Fault} (hready : state.stream.headReady = false) (hbusy : state.stream.busy = false)
    (h : reserveHead config alloc state extra = .error fault) :
    fault = .headerListTooLarge ∧ 2 * config.headerBytes < state.stream.headLen + extra ∨
      fault = .outOfMemory ∧
        alloc.bytes state.memory (state.stream.headAsked config extra) = none := by
  unfold reserveHead at h
  simp only [hready, hbusy, Bool.or_self, Bool.false_eq_true, if_false] at h
  split at h
  next hextra => exact Or.inl ⟨(Except.error.inj h).symm, by omega⟩
  · split at h
    · exact absurd h nofun
    · split at h
      next hgrow => exact Or.inr ⟨(Except.error.inj h).symm, growBytes_none hgrow⟩
      · exact absurd h nofun

theorem reserveTrailers_refused {config : Config} {alloc : Allocation} {state : State}
    {field : Decoded} {fault : Fault} (htrailing : state.stream.trailers = true)
    (h : reserveTrailers config alloc state field.size = .error fault) :
    fault = .headerListTooLarge ∧ config.trailerBytes < state.stream.trailerLen + field.size ∨
      fault = .outOfMemory ∧
        alloc.bytes state.memory (state.stream.asked config field) = none := by
  rw [Stream.asked, if_pos htrailing]
  unfold reserveTrailers at h
  simp only at h
  split at h
  next hextra => exact Or.inl ⟨(Except.error.inj h).symm, by omega⟩
  · split at h
    · exact absurd h nofun
    · split at h
      next hgrow => exact Or.inr ⟨(Except.error.inj h).symm, growBytes_none hgrow⟩
      · exact absurd h nofun

theorem reserve_refused {config : Config} {alloc : Allocation} {state : State} {field : Decoded}
    {fault : Fault} (hexpects : state.stream.Expects)
    (h : reserve config alloc state field.size = .error fault) :
    Refused config alloc state.memory state.metadata state.request state.stream.used
      (state.stream.asked config field) field fault := by
  have hlimit : limit config state.metadata.trailing = limit config state.stream.trailers := rfl
  unfold reserve at h
  split at h
  next htrailing =>
    rcases reserveTrailers_refused htrailing h with ⟨rfl, hlt⟩ | ⟨rfl, hrefuses⟩
    · refine .bytes ?_
      rw [hlimit, limit, if_pos htrailing, Stream.used, if_pos htrailing]
      exact hlt
    · exact .memory (Or.inr hrefuses)
  next hhead =>
    obtain ⟨hready, hbusy⟩ := hexpects.resolve_left hhead
    rcases reserveHead_refused hready hbusy h with ⟨rfl, hlt⟩ | ⟨rfl, hrefuses⟩
    · refine .bytes ?_
      rw [hlimit, limit, if_neg hhead, Stream.used, if_neg hhead]
      exact hlt
    · refine .memory (Or.inr ?_)
      rw [Stream.asked, if_neg hhead]
      exact hrefuses

theorem reserve_moved {config : Config} {alloc : Allocation} {state state' : State} {extra : Nat}
    (hheld : Held config state) (h : reserve config alloc state extra = .ok state') :
    Moved config state state' ∧ (state.stream.trailers = true → HeadKept state state') ∧
      (if state'.stream.trailers then
        state'.stream.trailerLen + extra ≤ state'.stream.storage.trailers.len ∧
          state'.stream.trailerLen + extra ≤ config.trailerBytes
      else
        state'.stream.headLen + extra ≤ state'.stream.headBytes.len ∧
          state'.stream.headLen + extra ≤ 2 * config.headerBytes) := by
  unfold reserve at h
  split at h
  next htrailing =>
    obtain ⟨hmoved, hkept, hroom, hmax⟩ := reserveTrailers_moved hheld h
    have hmode : state'.stream.trailers = true :=
      (congrArg Counters.trailers hmoved.counters).trans htrailing
    have hlen : state'.stream.trailerLen = state.stream.trailerLen :=
      congrArg Counters.trailerLen hmoved.counters
    rw [if_pos hmode, hlen]
    exact ⟨hmoved, fun _ => hkept, hroom, hmax⟩
  next hhead =>
    obtain ⟨hmoved, hroom, hmax⟩ := reserveHead_moved hheld h
    have hmode : ¬state'.stream.trailers = true := by
      rw [show state'.stream.trailers = state.stream.trailers from
        congrArg Counters.trailers hmoved.counters]
      exact hhead
    have hlen : state'.stream.headLen = state.stream.headLen :=
      congrArg Counters.headLen hmoved.counters
    rw [if_neg hmode, hlen]
    exact ⟨hmoved, fun htrue => absurd htrue hhead, hroom, hmax⟩

/-- What a call of `header` does, and why it fails. -/
structure Handled (config : Config) (alloc : Allocation) (state : State) (field : Decoded)
    (state' : State) (result : Except Fault Unit) : Prop where
  held : Held config state'
  metadata : state'.metadata = state.metadata.next field result
  head : state.stream.trailers = true → HeadKept state state'
  counters : ∃ contentLength fieldCount trailerCount headLen trailerLen,
    state'.stream.counters = { state.stream.counters with
      contentLength, fieldCount, trailerCount, headLen, trailerLen }
  used : state'.stream.used ≤ state.stream.used + field.size
  usedOther : state'.stream.usedOther = state.stream.usedOther
  permitted : result = .ok () → ¬state.metadata.Breaks state.request field
  refused : ∀ fault, result = .error fault →
    Refused config alloc state.memory state.metadata state.request state.stream.used
      (state.stream.asked config field) field fault

theorem copy_used (state : State) (field : Decoded) :
    (copy state field).1.stream.used = state.stream.used + field.size := by
  unfold copy Stream.used Decoded.size
  cases htrailing : state.stream.trailers
  · simp [htrailing, Nat.add_assoc]
  · simp [htrailing, Nat.add_assoc]

theorem copy_usedOther (state : State) (field : Decoded) :
    (copy state field).1.stream.usedOther = state.stream.usedOther := by
  unfold copy Stream.usedOther
  cases htrailing : state.stream.trailers
  · simp [htrailing]
  · simp [htrailing]

theorem used_of_counters {stream stream' : Stream} {contentLength : Option Nat}
    {fieldCount trailerCount : Nat} (h : stream'.counters = { stream.counters with
      contentLength, fieldCount, trailerCount }) :
    stream'.used = stream.used ∧ stream'.usedOther = stream.usedOther := by
  have htrailers : stream'.trailers = stream.trailers := congrArg Counters.trailers h
  have hhead : stream'.headLen = stream.headLen := congrArg Counters.headLen h
  have htrailer : stream'.trailerLen = stream.trailerLen := congrArg Counters.trailerLen h
  rw [Stream.used, Stream.usedOther, htrailers, hhead, htrailer]
  exact ⟨rfl, rfl⟩

theorem Held.request_of {config : Config} {state state' : State} (hheld : Held config state)
    (hheld' : Held config state') (hmetadata : state'.metadata = state.metadata)
    (hpublished : state'.stream.published = state.stream.published)
    (hbody : state'.stream.bodyFollows = state.stream.bodyFollows) :
    state'.request = state.request := by
  rw [hheld'.request_eq, hheld.request_eq, hmetadata, hpublished, hbody]

theorem header_handled {config : Config} (alloc : Allocation) {state : State} (field : Decoded)
    (hheld : Held config state) (hexpects : state.stream.Expects)
    (hclosed : state.stream.closed = false) :
    Handled config alloc state field (header config alloc state field).1
      (header config alloc state field).2 := by
  unfold header
  rw [hclosed, if_neg Bool.false_ne_true]
  cases hreserve : reserve config alloc state (field.name.length + field.value.length) with
  | error fault =>
      have hrefused := reserve_refused hexpects hreserve
      exact
        { held := hheld
          metadata := by
            rw [Metadata.next, Metadata.refuse, if_neg]
            rintro ⟨-, -, rfl, -⟩
            -- neither a lack of bytes nor one of memory is an error of the protocol
            unfold reserve at hreserve
            split at hreserve
            next htrailing =>
              rcases reserveTrailers_refused htrailing hreserve with h | h <;>
                exact absurd h.1 nofun
            next hhead =>
              obtain ⟨hready, hbusy⟩ := hexpects.resolve_left hhead
              rcases reserveHead_refused hready hbusy hreserve with h | h <;>
                exact absurd h.1 nofun
          head := fun _ => .refl state
          counters := ⟨_, _, _, _, _, rfl⟩
          used := Nat.le_add_right _ _
          usedOther := rfl
          permitted := nofun
          refused := fun other hother => by
            rw [← Except.error.inj hother]
            exact hrefused }
  | ok moved =>
      simp only
      obtain ⟨hmoved, hkept, hroom⟩ := reserve_moved hheld hreserve
      have hfits : ¬field.name.length + field.value.length >
          (if moved.stream.trailers then moved.stream.storage.trailers
            else moved.stream.headBytes).len -
          (if moved.stream.trailers then moved.stream.trailerLen else moved.stream.headLen) := by
        split at hroom
        next htrailing =>
          rw [if_pos htrailing, if_pos htrailing]
          omega
        next hhead =>
          rw [if_neg hhead, if_neg hhead]
          omega
      rw [if_neg hfits]
      have hfiled := @copy_filed _ _ field hmoved.held hroom
      have hused := copy_used moved field
      have hother := copy_usedOther moved field
      generalize copy moved field = copied at hfiled hused hother ⊢
      obtain ⟨filed, key, text⟩ := copied
      simp only at hfiled hused hother ⊢
      obtain ⟨headLen, trailerLen, hfiledCounters⟩ := hfiled.counters
      have htrailing : filed.stream.trailers = moved.stream.trailers :=
        congrArg Counters.trailers hfiledCounters
      have htrailingMoved : moved.stream.trailers = state.stream.trailers :=
        congrArg Counters.trailers hmoved.counters
      have hplaced := @place_placed _ alloc _ field _ _ hfiled.held hfiled.readKey
        hfiled.readText (by rw [htrailing]; exact hfiled.within)
      have hmetadata : filed.metadata = state.metadata :=
        hfiled.metadata.trans hmoved.metadata
      have hrequest : filed.request = state.request :=
        hheld.request_of hfiled.held hmetadata
          ((congrArg Counters.published hfiledCounters).trans
            (congrArg Counters.published hmoved.counters))
          ((congrArg Counters.bodyFollows hfiledCounters).trans
            (congrArg Counters.bodyFollows hmoved.counters))
      obtain ⟨contentLength, fieldCount, trailerCount, hcounters⟩ := hplaced.counters
      obtain ⟨husedMoved, hotherMoved⟩ :=
        @used_of_counters state.stream moved.stream _ _ _ hmoved.counters
      obtain ⟨husedPlaced, hotherPlaced⟩ := used_of_counters hcounters
      exact
        { held := hplaced.held
          metadata := by rw [hplaced.metadata, hmetadata]
          head := fun htrue =>
            ((hkept htrue).trans (hfiled.head (htrailingMoved.trans htrue))).trans
              (hplaced.head (htrailing.trans (htrailingMoved.trans htrue)))
          counters := by
            refine ⟨contentLength, fieldCount, trailerCount, headLen, trailerLen, ?_⟩
            rw [hcounters, hfiledCounters, hmoved.counters]
          used := by rw [husedPlaced, hused, husedMoved]
          usedOther := by rw [hotherPlaced, hother, hotherMoved]
          permitted := by
            rw [← hmetadata, ← hrequest]
            exact hplaced.permitted
          refused := by
            intro fault hfault
            rcases hplaced.refused fault hfault with ⟨rfl, hrefuses⟩ | ⟨rfl, hbreaks | hfull⟩
            · exact .memory (Or.inl hrefuses)
            · exact .rules (by rw [← hmetadata, ← hrequest]; exact hbreaks)
            · exact .fields (by rw [← hmetadata]; exact hfull) }

end Http2

end Zhtps
