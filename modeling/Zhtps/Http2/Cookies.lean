import Mathlib.Data.List.TakeWhile
import Zhtps.Http2.Header

/-!
Joining the cookies of a head.

`coalesce` says on headers what `headComplete` does in place: the array is compacted while it is read,
and the joined value is written behind the text of the fields that it is made of.
-/

namespace Zhtps

namespace Http2

open Lib

/-! ### On headers -/

def isCookie (header : Header) : Bool := header.name == cookie

/-- The headers with their cookies joined, at the place of the first. -/
def coalesce (headers : List Header) : List Header :=
  let cookies := headers.filter isCookie
  if cookies.length ≤ 1 then headers
  else
    headers.takeWhile (!isCookie ·) ++
      ⟨cookie, separator.intercalate (cookies.map Header.value)⟩ ::
        (headers.dropWhile (!isCookie ·)).filter (!isCookie ·)

theorem coalesce_of_le {headers : List Header} (h : (headers.filter isCookie).length ≤ 1) :
    coalesce headers = headers := if_pos h

/-- A list around its first member of a kind, when it has one. -/
theorem split_first {α : Type*} (p : α → Bool) {l : List α} (h : l.filter p ≠ []) :
    ∃ before first after, l = before ++ first :: after ∧ before.filter p = [] ∧ p first = true := by
  induction l with
  | nil => exact absurd rfl h
  | cons x l ih =>
      cases hx : p x with
      | true => exact ⟨[], x, l, rfl, rfl, hx⟩
      | false =>
          rw [List.filter_cons, if_neg (by simp [hx])] at h
          obtain ⟨before, first, after, rfl, hbefore, hfirst⟩ := ih h
          refine ⟨x :: before, first, after, rfl, ?_, hfirst⟩
          rw [List.filter_cons, if_neg (by simp [hx]), hbefore]

theorem not_of_filter {α : Type*} {p : α → Bool} {l : List α} (h : l.filter p = []) :
    ∀ x ∈ l, (!p x) = true := fun x hx => by simpa using List.filter_eq_nil_iff.mp h x hx

theorem coalesce_of_lt {before after : List Header} {first : Header}
    (hbefore : before.filter isCookie = []) (hfirst : isCookie first = true)
    (hafter : after.filter isCookie ≠ []) :
    coalesce (before ++ first :: after) =
      before ++
        ⟨cookie, separator.intercalate
          (((before ++ first :: after).filter isCookie).map Header.value)⟩ ::
          after.filter (!isCookie ·) := by
  have hnot := not_of_filter hbefore
  have htake : (before ++ first :: after).takeWhile (!isCookie ·) = before := by
    rw [List.takeWhile_append_of_pos hnot, List.takeWhile_cons, if_neg (by simp [hfirst]),
      List.append_nil]
  have hdrop : (before ++ first :: after).dropWhile (!isCookie ·) = first :: after := by
    rw [List.dropWhile_append_of_pos hnot, List.dropWhile_cons, if_neg (by simp [hfirst])]
  have hlength : 0 < (after.filter isCookie).length := List.length_pos_iff.mpr hafter
  unfold coalesce
  rw [if_neg, htake, hdrop, List.filter_cons, if_neg (by simp [hfirst])]
  rw [List.filter_append, List.filter_cons, if_pos hfirst, List.length_append, List.length_cons]
  omega

theorem coalesce_others (headers : List Header) :
    (coalesce headers).filter (!isCookie ·) = headers.filter (!isCookie ·) := by
  by_cases h : (headers.filter isCookie).length ≤ 1
  · rw [coalesce_of_le h]
  · obtain ⟨before, first, after, rfl, hbefore, hfirst⟩ := split_first isCookie (l := headers)
      (fun hnil => h (by rw [hnil]; decide))
    have hafter : after.filter isCookie ≠ [] := by
      intro hnil
      rw [List.filter_append, hbefore, List.filter_cons, if_pos hfirst, hnil] at h
      exact h (le_refl _)
    rw [coalesce_of_lt hbefore hfirst hafter, List.filter_append, List.filter_cons,
      if_neg (by simp [isCookie]), List.filter_filter, List.filter_append, List.filter_cons,
      if_neg (by simp [hfirst])]
    simp only [Bool.and_self]

/-! ### The loop -/

namespace Join

/-- The fields that stay, when so many cookies came before them. -/
def kept (p : Field → Bool) : Nat → List Field → List Field
  | _, [] => []
  | seen, field :: rest =>
      if p field then if seen = 0 then field :: kept p 1 rest else kept p (seen + 1) rest
      else field :: kept p seen rest

/-- The text that is written, when so many cookies came before. -/
def text (p : Field → Bool) (value : Field → Bytes) : Nat → List Field → Bytes
  | _, [] => []
  | seen, field :: rest =>
      if p field then
        (if seen = 0 then [] else separator) ++ value field ++ text p value (seen + 1) rest
      else text p value seen rest

/-- The text that has been written, in a memory in which nothing else has changed. -/
structure Written (base room : Nat) (memory : Memory UInt8) (text : Bytes) (join : Join) : Prop where
  blocks : join.memory.blocks = memory.blocks
  shown : ∀ x : Slice, x.len = 0 ∨ x.Apart ⟨base, room⟩ → join.memory.read x = memory.read x
  written : join.written = text.length
  read : join.memory.read ⟨base, text.length⟩ = text

theorem writeAll_written {base room : Nat} {memory : Memory UInt8} {text : Bytes} {join : Join}
    {bytes : Bytes} (h : Written base room memory text join)
    (hroom : text.length + bytes.length ≤ room) :
    ∃ memory', join.writeAll base room bytes =
        some { join with memory := memory', written := join.written + bytes.length } ∧
      Written base room memory (text ++ bytes)
        { join with memory := memory', written := join.written + bytes.length } := by
  refine ⟨join.memory.write (base + join.written) bytes, ?_, ?_⟩
  · rw [writeAll, if_pos (by rw [h.written]; exact hroom)]
  · constructor
    case blocks => exact h.blocks
    case shown =>
      intro x hx
      refine Eq.trans (Memory.read_write_apart _ ?_) (h.shown x hx)
      rw [h.written]
      unfold Slice.Apart at *
      simp only at *
      omega
    case written =>
      rw [List.length_append, ← h.written]
    case read =>
      rw [List.length_append, Memory.read_append, Memory.read_write_apart, h.read, h.written]
      · exact congrArg _ (Memory.read_write_self _ _ _)
      · rw [h.written]
        exact Or.inr (Or.inl (le_refl _))

/-- What a turn of the loop does to the array. -/
theorem keep_fields {join : Join} {field : Field} {rest : List Field} {index : Nat}
    (hdrop : join.fields.drop index = field :: rest) (hcount : join.count ≤ index) :
    (join.keep field).fields.drop (index + 1) = rest ∧
      (join.keep field).fields.take (join.keep field).count =
        join.fields.take join.count ++ [field] := by
  have hlt : index < join.fields.length := by
    by_contra hge
    rw [List.drop_eq_nil_of_le (by omega)] at hdrop
    exact absurd hdrop nofun
  constructor
  · show (join.fields.set join.count field).drop (index + 1) = rest
    rw [List.drop_set_of_lt (by omega), ← List.drop_drop, hdrop]
    rfl
  · exact take_set_succ (by omega) field

theorem getD_of_drop {l rest : List Field} {field default : Field} {index : Nat}
    (h : l.drop index = field :: rest) : l.getD index default = field := by
  have hget : (l.drop index)[0]? = some field := by rw [h]; rfl
  rw [List.getElem?_drop, Nat.add_zero] at hget
  rw [List.getD_eq_getElem?_getD, hget, Option.getD_some]

/-- A cookie is written, with a separator in front of it unless it is the first; the first stays. -/
theorem turn_cookie {base room : Nat} {memory : Memory UInt8} {written : Bytes} {join : Join}
    {field : Field} (hwritten : Written base room memory written join)
    (hname : field.name.len = 0 ∨ field.name.Apart ⟨base, room⟩)
    (hvalue : field.value.len = 0 ∨ field.value.Apart ⟨base, room⟩)
    (hcookie : (memory.read field.name == cookie) = true)
    (hroom : written.length + ((if join.seen = 0 then [] else separator) ++
      memory.read field.value).length ≤ room) :
    ∃ join', turn base room join field = some join' ∧
      Written base room memory (written ++ ((if join.seen = 0 then [] else separator) ++
        memory.read field.value)) join' ∧
      join'.seen = join.seen + 1 ∧
      (join'.fields, join'.count) =
        if join.seen = 0 then ((join.keep field).fields, (join.keep field).count)
        else (join.fields, join.count) := by
  have hread : join.memory.read field.name = cookie := by
    rw [hwritten.shown _ hname]
    exact beq_iff_eq.mp hcookie
  unfold turn
  rw [if_pos hread]
  by_cases hseen : join.seen = 0
  · rw [if_pos hseen, List.nil_append] at hroom ⊢
    have hshown := hwritten.shown _ hvalue
    obtain ⟨memory', hwrite, hwritten'⟩ := @writeAll_written _ _ _ _ _
      (join.memory.read field.value) hwritten (by rw [hshown]; exact hroom)
    rw [if_neg (by simpa using hseen)]
    simp only [Option.bind_eq_bind, Option.bind_some, Option.pure_def, hwrite, hseen, Nat.zero_add,
      gt_iff_lt, lt_self_iff_false, if_false, if_true]
    rw [hshown] at hwritten' ⊢
    exact ⟨_, rfl, ⟨hwritten'.blocks, hwritten'.shown, hwritten'.written, hwritten'.read⟩, rfl, rfl⟩
  · rw [if_neg hseen] at hroom ⊢
    rw [List.length_append] at hroom
    obtain ⟨memory₁, hfirst, hseparated⟩ := @writeAll_written _ _ _ _ _ separator hwritten
      (by omega)
    have hshown := hseparated.shown _ hvalue
    obtain ⟨memory₂, hsecond, hjoined⟩ := @writeAll_written _ _ _ _ _
      (memory₁.read field.value) hseparated
        (by rw [hshown, List.length_append]; omega)
    rw [if_pos hseen]
    simp only [Option.bind_eq_bind, Option.bind_some, Option.pure_def, hfirst, hsecond, if_neg hseen]
    rw [if_pos (by omega)]
    rw [hshown, List.append_assoc] at hjoined
    exact ⟨_, rfl, ⟨hjoined.blocks, hjoined.shown, by rw [hshown]; exact hjoined.written,
      hjoined.read⟩, rfl, rfl⟩

theorem loop_joins {base room : Nat} {memory : Memory UInt8} (rest : List Field) :
    ∀ {tail : List Field} {index : Nat} {join : Join} {written : Bytes},
      join.fields.drop index = rest ++ tail → join.count ≤ index →
      (∀ x ∈ Stream.fieldSlices rest, x.len = 0 ∨ x.Apart ⟨base, room⟩) →
      Written base room memory written join →
      written.length + (text (fun field => memory.read field.name == cookie)
        (fun field => memory.read field.value) join.seen rest).length ≤ room →
      ∃ join', loop base room rest.length index join = some join' ∧
        Written base room memory (written ++ text (fun field => memory.read field.name == cookie)
          (fun field => memory.read field.value) join.seen rest) join' ∧
        join'.fields.length = join.fields.length ∧ join'.count ≤ index + rest.length ∧
        join'.fields.take join'.count = join.fields.take join.count ++
          kept (fun field => memory.read field.name == cookie) join.seen rest := by
  induction rest with
  | nil =>
      intro tail index join written _ _ _ hwritten _
      exact ⟨join, rfl, by simpa [text] using hwritten, rfl, by omega, by simp [kept]⟩
  | cons field rest ih =>
      intro tail index join written hdrop hcount hslices hwritten hroom
      have hname := hslices field.name (List.mem_flatMap.mpr ⟨field, List.mem_cons_self, by simp⟩)
      have hvalue := hslices field.value (List.mem_flatMap.mpr ⟨field, List.mem_cons_self, by simp⟩)
      have hrest : ∀ x ∈ Stream.fieldSlices rest, x.len = 0 ∨ x.Apart ⟨base, room⟩ :=
        fun x hx => hslices x (List.mem_append_right _ hx)
      obtain ⟨hkeepDrop, hkeepTake⟩ := keep_fields hdrop hcount
      have hlength : (join.keep field).fields.length = join.fields.length := List.length_set
      rw [List.length_cons, loop, getD_of_drop hdrop, ← Nat.add_assoc, Nat.add_right_comm]
      cases hp : memory.read field.name == cookie with
      | false =>
          rw [text, kept, hp, if_neg Bool.false_ne_true, if_neg Bool.false_ne_true]
          rw [text, hp, if_neg Bool.false_ne_true] at hroom
          have hturn : turn base room join field = some (join.keep field) := by
            rw [turn, if_neg]
            rw [hwritten.shown _ hname]
            exact beq_eq_false_iff_ne.mp hp
          rw [hturn, Option.bind_some]
          obtain ⟨join', hloop, hjoined, hlen, hle, htake⟩ := @ih tail (index + 1) (join.keep field) _ hkeepDrop
            (Nat.succ_le_succ hcount) hrest
            ⟨hwritten.blocks, hwritten.shown, hwritten.written, hwritten.read⟩ hroom
          refine ⟨join', hloop, hjoined, hlen.trans hlength, hle, ?_⟩
          rw [htake, hkeepTake, List.append_assoc]
          rfl
      | true =>
          rw [text, kept, hp, if_pos rfl, if_pos rfl]
          rw [text, hp, if_pos rfl, List.length_append] at hroom
          obtain ⟨next, hturn, hnext, hseen, harray⟩ := turn_cookie hwritten hname hvalue hp
            (by omega)
          rw [hturn, Option.bind_some, ← List.append_assoc written]
          rw [← hseen] at hroom ⊢
          by_cases hzero : join.seen = 0
          · rw [if_pos hzero, Prod.mk.injEq] at harray
            obtain ⟨join', hloop, hjoined, hlen, hle, htake⟩ := @ih tail (index + 1) next _
              (by rw [harray.1]; exact hkeepDrop)
              (by rw [harray.2]; exact Nat.succ_le_succ hcount) hrest hnext
              (by rw [List.length_append]; omega)
            refine ⟨join', hloop, hjoined, hlen.trans (by rw [harray.1]; exact hlength), hle, ?_⟩
            rw [htake, harray.1, harray.2, hkeepTake, if_pos hzero, List.append_assoc, hseen, hzero]
            rfl
          · rw [if_neg hzero, Prod.mk.injEq] at harray
            obtain ⟨join', hloop, hjoined, hlen, hle, htake⟩ := @ih tail (index + 1) next _
              (by rw [harray.1, ← List.drop_drop, hdrop]; rfl)
              (by rw [harray.2]; omega) hrest hnext (by rw [List.length_append]; omega)
            refine ⟨join', hloop, hjoined, hlen.trans (by rw [harray.1]), hle, ?_⟩
            rw [htake, harray.1, harray.2, if_neg hzero]

theorem kept_succ (p : Field → Bool) (seen : Nat) (rest : List Field) :
    kept p (seen + 1) rest = rest.filter (!p ·) := by
  induction rest generalizing seen with
  | nil => rfl
  | cons field rest ih =>
      rw [kept, List.filter_cons, ih (seen + 1), ih seen]
      cases p field <;> rfl

theorem kept_zero {p : Field → Bool} {before after : List Field} {first : Field}
    (hbefore : before.filter p = []) (hfirst : p first = true) :
    kept p 0 (before ++ first :: after) = before ++ first :: after.filter (!p ·) := by
  induction before with
  | nil => rw [List.nil_append, kept, if_pos hfirst, if_pos rfl, kept_succ, List.nil_append]
  | cons field before ih =>
      have hfield : p field = false := by
        simpa using not_of_filter hbefore field List.mem_cons_self
      rw [List.filter_cons, if_neg (by simp [hfield])] at hbefore
      rw [List.cons_append, kept, hfield, if_neg Bool.false_ne_true, ih hbefore, List.cons_append]

theorem text_succ (p : Field → Bool) (value : Field → Bytes) (seen : Nat) (rest : List Field) :
    text p value (seen + 1) rest =
      ((rest.filter p).map value).flatMap fun bytes => separator ++ bytes := by
  induction rest generalizing seen with
  | nil => rfl
  | cons field rest ih =>
      rw [text, List.filter_cons, ih, ih]
      cases p field with
      | false => rfl
      | true =>
          rw [if_pos rfl, if_neg (Nat.succ_ne_zero seen), if_pos rfl, List.map_cons,
            List.flatMap_cons]

theorem intercalate_cons (sep x : Bytes) (xs : List Bytes) :
    sep.intercalate (x :: xs) = x ++ xs.flatMap fun bytes => sep ++ bytes := by
  induction xs generalizing x with
  | nil => rw [List.intercalate_singleton, List.flatMap_nil, List.append_nil]
  | cons y xs ih =>
      rw [List.intercalate_cons_cons, ih, List.flatMap_cons, List.append_assoc, List.append_assoc]

theorem text_zero (p : Field → Bool) (value : Field → Bytes) (rest : List Field) :
    text p value 0 rest = separator.intercalate ((rest.filter p).map value) := by
  induction rest with
  | nil => rfl
  | cons field rest ih =>
      rw [text, List.filter_cons, ih, text_succ]
      cases p field with
      | false => rfl
      | true => rw [if_pos rfl, if_pos rfl, if_pos rfl, List.map_cons, intercalate_cons,
          List.nil_append]

/-- How long cookies become when they are joined. -/
theorem length_intercalate (sep : Bytes) {values : List Bytes} (h : values ≠ []) :
    (sep.intercalate values).length =
      (values.map List.length).sum + (values.length - 1) * sep.length := by
  cases values with
  | nil => exact absurd rfl h
  | cons x xs =>
      rw [intercalate_cons, List.length_append, List.length_flatMap, List.map_cons, List.sum_cons,
        List.length_cons, Nat.add_sub_cancel]
      have hsum : (xs.map fun bytes => (sep ++ bytes).length).sum =
          (xs.map List.length).sum + xs.length * sep.length := by
        clear h
        induction xs with
        | nil => simp
        | cons y ys ih =>
            rw [List.map_cons, List.sum_cons, ih, List.map_cons, List.sum_cons, List.length_append,
              List.length_cons, Nat.succ_mul]
            omega
      rw [hsum]
      omega

end Join

/-! ### Completing a head -/

/-- A head that is complete, with its cookies joined. -/
structure Completed (config : Config) (state : State) (ended : Bool) (state' : State) : Prop where
  held : Held config state'
  metadata : state'.metadata =
    { state.metadata with headers := coalesce state.metadata.headers }
  published : state'.stream.published = state'.stream.fieldCount
  bodyFollows : state'.stream.bodyFollows = !ended
  headReady : state'.stream.headReady = true
  trailers : state'.stream.trailers = state.stream.trailers
  closed : state'.stream.closed = state.stream.closed
  busy : state'.stream.busy = state.stream.busy
  trailerLen : state'.stream.trailerLen = state.stream.trailerLen

/-- `headComplete` publishes the fields of a head. -/
def Stream.publish (stream : Stream) (ended : Bool) : Stream :=
  { stream with published := stream.fieldCount, bodyFollows := !ended, headReady := true }

theorem publish_completed {config : Config} {memory : Memory UInt8} {stream : Stream} (ended : Bool)
    (hheld : Held config ⟨memory, stream⟩) :
    Held config ⟨memory, stream.publish ended⟩ :=
  { owned :=
      { buffer := hheld.owned.buffer
        head := hheld.owned.head
        trailers := hheld.owned.trailers
        head_buffer := hheld.owned.head_buffer
        trailers_buffer := hheld.owned.trailers_buffer
        trailers_head := hheld.owned.trailers_head }
    headLen_le := hheld.headLen_le
    headLen_max := hheld.headLen_max
    trailerLen_le := hheld.trailerLen_le
    trailerLen_max := hheld.trailerLen_max
    fieldCount_le := hheld.fieldCount_le
    fieldCount_max := hheld.fieldCount_max
    trailerCount_le := hheld.trailerCount_le
    trailerCount_max := hheld.trailerCount_max
    published_le := le_refl _
    headText := hheld.headText
    trailerText := hheld.trailerText }

/-- The cookies of some headers, joined. -/
def joinedCookies (headers : List Header) : Bytes :=
  separator.intercalate ((headers.filter isCookie).map Header.value)

section Fields

variable (memory : Memory UInt8) (fields : List Field)

/-- The test that `headComplete` makes of a field. -/
def Field.isCookie (field : Field) : Bool := memory.read field.name == cookie

theorem filter_map_read :
    (fields.map (Field.read memory)).filter Http2.isCookie =
      (fields.filter (Field.isCookie memory)).map (Field.read memory) := by
  rw [List.filter_map]
  rfl

theorem filter_map_read_not :
    (fields.map (Field.read memory)).filter (!Http2.isCookie ·) =
      (fields.filter (!Field.isCookie memory ·)).map (Field.read memory) := by
  rw [List.filter_map]
  rfl

theorem findIdx_map_read :
    (fields.map (Field.read memory)).findIdx Http2.isCookie =
      fields.findIdx (Field.isCookie memory) := by
  rw [List.findIdx_map]
  rfl

theorem length_filter_read :
    (fields.filter (Field.isCookie memory)).length =
      ((fields.map (Field.read memory)).filter Http2.isCookie).length := by
  rw [filter_map_read, List.length_map]

theorem joined_text :
    Join.text (fun field => memory.read field.name == cookie)
        (fun field => memory.read field.value) 0 fields =
      joinedCookies (fields.map (Field.read memory)) := by
  rw [Join.text_zero, joinedCookies, filter_map_read, List.map_map]
  rfl

/-- The room that `headComplete` asks for is the length of the joined cookies. -/
theorem room_eq (h : 1 < (fields.filter (Field.isCookie memory)).length) :
    ((fields.filter (Field.isCookie memory)).map fun field => field.value.len).sum +
        ((fields.filter (Field.isCookie memory)).length - 1) * 2 =
      (joinedCookies (fields.map (Field.read memory))).length := by
  rw [joinedCookies, Join.length_intercalate, filter_map_read, List.map_map, List.map_map,
    List.length_map, List.length_map]
  · have hlen : (List.length ∘ Header.value) ∘ Field.read memory =
        fun field => field.value.len := by
      funext field
      exact Memory.length_read memory field.value
    rw [hlen]
    rfl
  · intro hnil
    rw [List.map_eq_nil_iff, filter_map_read, List.map_eq_nil_iff] at hnil
    rw [hnil] at h
    exact absurd h (by decide)

end Fields

/-- The stream whose array has been compacted, with the joined value at `base`. -/
def Stream.withCookies (stream : Stream) (join : Join) (first base room : Nat) : Stream :=
  { stream.setFields (join.fields.modify first fun field => { field with value := ⟨base, room⟩ }) with
    fieldCount := join.count
    headLen := (stream.setFields (join.fields.modify first fun field =>
      { field with value := ⟨base, room⟩ })).headLen + room }

theorem withCookies_eq {stream : Stream} {join : Join} {first base room : Nat}
    (hlength : join.fields.length = stream.fields.length) :
    ∃ buffer heap, stream.withCookies join first base room =
        { stream with
          fieldBuffer := buffer
          storage := { stream.storage with fields := heap }
          fieldCount := join.count
          headLen := stream.headLen + room } ∧
      (stream.withCookies join first base room).fields =
        join.fields.modify first fun field => { field with value := ⟨base, room⟩ } := by
  have hfields := @setFields_fields stream
    (join.fields.modify first fun field => { field with value := (⟨base, room⟩ : Slice) })
    (by rw [List.length_modify]; exact hlength)
  obtain ⟨heap, buffer, heq⟩ := setFields_eq stream
    (join.fields.modify first fun field => { field with value := (⟨base, room⟩ : Slice) })
  refine ⟨buffer, heap, ?_, hfields⟩
  rw [Stream.withCookies, heq]

/-- What is used of a block does not overlap the room behind it. -/
theorem used_apart {x : Slice} {base used room : Nat} (hx : x.Within ⟨base, used⟩) :
    x.len = 0 ∨ x.Apart ⟨base + used, room⟩ := by
  unfold Slice.Within Slice.Inside at hx
  unfold Slice.Apart
  simp only at hx ⊢
  omega

/-- The trailers have a block of their own, so the room behind the text of the head is apart from
them. -/
theorem Held.trailers_apart {config : Config} {memory : Memory UInt8} {stream : Stream} {room : Nat}
    (hheld : Held config ⟨memory, stream⟩) (hpos : 0 < room)
    (hroom : stream.headLen + room ≤ stream.headBytes.len) {x : Slice}
    (hx : x ∈ stream.trailerSlices) :
    x.len = 0 ∨ x.Apart ⟨stream.headBytes.ptr + stream.headLen, room⟩ := by
  have hwithin := within_longer (hheld.trailerText x hx) hheld.trailerLen_le
  by_cases hzero : x.len = 0
  · exact Or.inl hzero
  · have hlen : ¬stream.storage.trailers.len = 0 := by
      unfold Slice.Within Slice.Inside at hwithin
      simp only at hwithin
      omega
    have htrailers : stream.storage.trailers ∈ memory.blocks :=
      hheld.owned.trailers.resolve_left hlen
    have hdistinct := (hheld.owned.distinct.resolve_left hlen).resolve_left
      (show ¬stream.headBytes.len = 0 by omega)
    have hblocks := Memory.apart_of_mem htrailers hheld.owned.headBytes_mem hdistinct
    refine Or.inr ?_
    unfold Slice.Within Slice.Inside at hwithin
    unfold Slice.Apart at hblocks ⊢
    simp only at hwithin hblocks ⊢
    omega

section Compacted

variable {memory : Memory UInt8} {fields before after : List Field} {first : Field}

/-- Fields around their first cookie, which is not the only one. -/
structure Around (memory : Memory UInt8) (fields before : List Field) (first : Field)
    (after : List Field) : Prop where
  split : fields = before ++ first :: after
  before : before.filter (Field.isCookie memory) = []
  first : Field.isCookie memory first = true
  after : after.filter (Field.isCookie memory) ≠ []

theorem exists_around (h : 1 < (fields.filter (Field.isCookie memory)).length) :
    ∃ before first after, Around memory fields before first after := by
  obtain ⟨before, first, after, hsplit, hbefore, hfirst⟩ :=
    split_first (Field.isCookie memory) (l := fields) (by
      intro hnil
      rw [hnil] at h
      exact absurd h (by decide))
  refine ⟨before, first, after, hsplit, hbefore, hfirst, ?_⟩
  intro hnil
  rw [hsplit, List.filter_append, hbefore, List.filter_cons, if_pos hfirst, hnil] at h
  exact absurd h (lt_irrefl 1)

namespace Around

/-- The index that `headComplete` keeps is that of the first cookie. -/
theorem findIdx (h : Around memory fields before first after) :
    (fields.map (Field.read memory)).findIdx isCookie = before.length := by
  have hnone : before.findIdx (Field.isCookie memory) = before.length := by
    apply List.findIdx_eq_length.mpr
    intro x hx
    simpa using List.filter_eq_nil_iff.mp h.before x hx
  rw [findIdx_map_read, h.split, List.findIdx_append, hnone, if_neg (lt_irrefl _),
    List.findIdx_cons, h.first, cond_true, Nat.zero_add]

theorem kept (h : Around memory fields before first after) :
    Join.kept (Field.isCookie memory) 0 fields =
      before ++ first :: after.filter (!Field.isCookie memory ·) := by
  rw [h.split, Join.kept_zero h.before h.first]

/-- The fields that stay, apart from the first cookie, were there before. -/
theorem mem_kept (h : Around memory fields before first after) {field : Field}
    (hfield : field ∈ before ∨ field ∈ after.filter (!Field.isCookie memory ·)) : field ∈ fields := by
  rw [h.split]
  rcases hfield with hfield | hfield
  · exact List.mem_append_left _ hfield
  · exact List.mem_append_right _ (List.mem_cons_of_mem _ (List.mem_filter.mp hfield).1)

theorem first_mem (h : Around memory fields before first after) : first ∈ fields := by
  rw [h.split]
  exact List.mem_append_right _ List.mem_cons_self

/-- The array holds the slices that it held and the joined value. -/
theorem slices (h : Around memory fields before first after) {value x : Slice}
    (hx : x ∈ Stream.fieldSlices
      (before ++ { first with value := value } :: after.filter (!Field.isCookie memory ·))) :
    x ∈ Stream.fieldSlices fields ∨ x = value := by
  rw [Stream.fieldSlices, List.mem_flatMap] at hx ⊢
  obtain ⟨field, hfield, hx⟩ := hx
  rcases List.mem_append.mp hfield with hfield | hfield
  · exact Or.inl ⟨field, h.mem_kept (Or.inl hfield), hx⟩
  · rcases List.mem_cons.mp hfield with rfl | hfield
    · rcases List.mem_cons.mp hx with rfl | hx
      · exact Or.inl ⟨first, h.first_mem, List.mem_cons_self⟩
      · exact Or.inr (List.mem_singleton.mp hx)
    · exact Or.inl ⟨field, h.mem_kept (Or.inr hfield), hx⟩

/-- The array reads as the headers with their cookies joined, in a memory in which the joined value
has been written and the fields have not changed. -/
theorem read_coalesce (h : Around memory fields before first after) {memory' : Memory UInt8}
    {value : Slice} (hshown : ∀ x ∈ Stream.fieldSlices fields, memory'.read x = memory.read x)
    (hvalue : memory'.read value = joinedCookies (fields.map (Field.read memory))) :
    (before ++ { first with value := value } ::
        after.filter (!Field.isCookie memory ·)).map (Field.read memory') =
      coalesce (fields.map (Field.read memory)) := by
  have hmap : ∀ {others : List Field}, (∀ field ∈ others, field ∈ fields) →
      others.map (Field.read memory') = others.map (Field.read memory) := by
    intro others hothers
    apply map_read_same
    intro x hx
    obtain ⟨field, hfield, hx⟩ := List.mem_flatMap.mp hx
    exact hshown x (List.mem_flatMap.mpr ⟨field, hothers field hfield, hx⟩)
  have hbefore := @hmap before fun field hfield => h.mem_kept (Or.inl hfield)
  have hafter := @hmap (after.filter (!Field.isCookie memory ·)) fun field hfield =>
    h.mem_kept (Or.inr hfield)
  have hname : memory'.read first.name = cookie :=
    (hshown first.name (List.mem_flatMap.mpr ⟨first, h.first_mem, List.mem_cons_self⟩)).trans
      (beq_iff_eq.mp h.first)
  have hcoalesce := @coalesce_of_lt (before.map (Field.read memory)) (after.map (Field.read memory))
    (first.read memory) (by rw [filter_map_read, h.before]; rfl) h.first
    (by rw [filter_map_read]; simpa using h.after)
  rw [List.map_append, List.map_cons, hbefore, hafter, Field.read, hname, hvalue]
  rw [h.split, List.map_append, List.map_cons, hcoalesce, filter_map_read_not]
  rfl

end Around

/-- What the loop leaves: the text in the room, and the fields that stay in front of the array. -/
structure Compacted (memory : Memory UInt8) (stream : Stream) (base room : Nat) (text : Bytes)
    (kept : List Field) (join : Join) : Prop where
  written : Join.Written base room memory text join
  length : join.fields.length = stream.fields.length
  count_le : join.count ≤ stream.fieldCount
  take : join.fields.take join.count = kept

/-- The joined value takes the place of the first cookie's. -/
theorem Compacted.modify {stream : Stream} {base room : Nat} {text : Bytes} {rest : List Field}
    {join : Join} (h : Compacted memory stream base room text (before ++ first :: rest) join) :
    (join.fields.modify before.length fun field =>
        { field with value := (⟨base, room⟩ : Slice) }).take join.count =
      before ++ { first with value := ⟨base, room⟩ } :: rest := by
  rw [List.take_modify, h.take, List.modify_eq_take_cons_drop (by simp)]
  simp

/-- The loop, over the fields of a stream and into the room behind the text of its head. -/
theorem loop_compacts {config : Config} {stream : Stream} {room : Nat}
    (hheld : Held config ⟨memory, stream⟩)
    (hfields : stream.fields.take stream.fieldCount = fields)
    (haround : Around memory fields before first after)
    (hroom : room = (joinedCookies (fields.map (Field.read memory))).length) :
    ∃ join, Join.loop (stream.headBytes.ptr + stream.headLen) room stream.fieldCount 0
        { memory, fields := stream.fields } = some join ∧
      Compacted memory stream (stream.headBytes.ptr + stream.headLen) room
        (joinedCookies (fields.map (Field.read memory)))
        (before ++ first :: after.filter (!Field.isCookie memory ·)) join := by
  have hlen : fields.length = stream.fieldCount := by
    rw [← hfields, List.length_take]
    exact min_eq_left hheld.fieldCount_le
  have hslices : ∀ x ∈ Stream.fieldSlices fields,
      x.len = 0 ∨ x.Apart ⟨stream.headBytes.ptr + stream.headLen, room⟩ := by
    intro x hx
    rw [← hfields] at hx
    exact used_apart (hheld.headText x (List.mem_append_right _ hx))
  have htext := joined_text memory fields
  obtain ⟨join, hloop, hwritten, hlength, hle, htake⟩ :=
    @Join.loop_joins (stream.headBytes.ptr + stream.headLen) room memory fields
      (stream.fields.drop stream.fieldCount) 0 { memory, fields := stream.fields } []
      (by rw [← hfields, List.take_append_drop]; rfl) (le_refl 0) hslices
      ⟨rfl, fun _ _ => rfl, rfl, rfl⟩
      (by
        show 0 + _ ≤ room
        rw [htext, ← hroom, Nat.zero_add])
  rw [hlen] at hloop
  refine ⟨join, hloop, ?_, hlength, ?_, ?_⟩
  · rw [List.nil_append, htext] at hwritten
    exact hwritten
  · omega
  · rw [htake]
    show [] ++ Join.kept (Field.isCookie memory) 0 fields = _
    rw [List.nil_append, haround.kept]

/-- The compacted stream holds what a stream holds: only the room and the array have changed. -/
theorem Compacted.held {config : Config} {stream : Stream} {room : Nat} {text : Bytes} {join : Join}
    (h : Compacted memory stream (stream.headBytes.ptr + stream.headLen) room text
      (before ++ first :: after.filter (!Field.isCookie memory ·)) join)
    (hheld : Held config ⟨memory, stream⟩)
    (haround : Around memory (stream.fields.take stream.fieldCount) before first after)
    (hroom : stream.headLen + room ≤ stream.headBytes.len)
    (hmax : stream.headLen + room ≤ 2 * config.headerBytes) (hpublished : stream.published = 0) :
    Held config ⟨join.memory, stream.withCookies join before.length
      (stream.headBytes.ptr + stream.headLen) room⟩ := by
  obtain ⟨buffer, heap, hstream, hfields⟩ := @withCookies_eq stream join before.length
    (stream.headBytes.ptr + stream.headLen) room h.length
  have harray := h.modify
  rw [← hfields] at harray
  have hlength : (stream.withCookies join before.length (stream.headBytes.ptr + stream.headLen)
      room).fields.length = stream.fields.length := by
    rw [hfields, List.length_modify]
    exact h.length
  -- what is known of the new stream is its array, and that nothing else but two counts has changed
  generalize stream.withCookies join before.length (stream.headBytes.ptr + stream.headLen) room =
    stream' at hstream harray hlength ⊢
  have hbytes : stream'.headBytes = stream.headBytes := by
    rw [hstream]
    rfl
  have hcount : stream'.fieldCount = join.count := by rw [hstream]
  have hlen : stream'.headLen = stream.headLen + room := by rw [hstream]
  have hfieldCount : stream.fieldCount ≤ stream.fields.length := hheld.fieldCount_le
  have hle := h.count_le
  constructor
  case headText =>
    intro x hx
    show x.Within ⟨stream'.headBytes.ptr, stream'.headLen⟩
    rw [hbytes, hlen]
    rw [Stream.headSlices, hcount, harray, hstream] at hx
    -- the text that was there, which is now in a longer one, and the joined value behind it
    rcases List.mem_append.mp hx with hx | hx
    · exact within_longer (headSlices_text hheld hx) (Nat.le_add_right _ _)
    · rcases haround.slices hx with hx | rfl
      · exact within_longer (hheld.headText x (List.mem_append_right _ hx)) (Nat.le_add_right _ _)
      · exact Or.inr ⟨by simp only; omega, by simp only; omega⟩
  case fieldCount_le =>
    show stream'.fieldCount ≤ stream'.fields.length
    rw [hcount, hlength]
    omega
  case headLen_le =>
    show stream'.headLen ≤ stream'.headBytes.len
    rw [hbytes, hlen]
    exact hroom
  all_goals rw [hstream]
  · exact
      { buffer := h.written.blocks ▸ hheld.owned.buffer
        head := h.written.blocks ▸ hheld.owned.head
        trailers := h.written.blocks ▸ hheld.owned.trailers
        head_buffer := hheld.owned.head_buffer
        trailers_buffer := hheld.owned.trailers_buffer
        trailers_head := hheld.owned.trailers_head }
  · exact hmax
  · exact hheld.trailerLen_le
  · exact hheld.trailerLen_max
  · have hcountMax : stream.fieldCount ≤ 128 := hheld.fieldCount_max
    simp only
    omega
  · exact hheld.trailerCount_le
  · exact hheld.trailerCount_max
  · simp only
    rw [hpublished]
    exact Nat.zero_le _
  · exact hheld.trailerText

/-- The compacted stream reads as before, with its cookies joined. -/
theorem Compacted.metadata {config : Config} {stream : Stream} {room : Nat} {join : Join}
    (h : Compacted memory stream (stream.headBytes.ptr + stream.headLen) room
      (joinedCookies (State.metadata ⟨memory, stream⟩).headers)
      (before ++ first :: after.filter (!Field.isCookie memory ·)) join)
    (hheld : Held config ⟨memory, stream⟩)
    (haround : Around memory (stream.fields.take stream.fieldCount) before first after)
    (hlen : room = (joinedCookies (State.metadata ⟨memory, stream⟩).headers).length)
    (hpos : 0 < room) (hroom : stream.headLen + room ≤ stream.headBytes.len) :
    State.metadata ⟨join.memory, stream.withCookies join before.length
        (stream.headBytes.ptr + stream.headLen) room⟩ =
      { State.metadata ⟨memory, stream⟩ with
        headers := coalesce (State.metadata ⟨memory, stream⟩).headers } := by
  obtain ⟨buffer, heap, hstream, hfields⟩ := @withCookies_eq stream join before.length
    (stream.headBytes.ptr + stream.headLen) room h.length
  have harray := h.modify
  rw [← hfields] at harray
  generalize stream.withCookies join before.length (stream.headBytes.ptr + stream.headLen) room =
    stream' at hstream harray ⊢
  have hcount : stream'.fieldCount = join.count := by rw [hstream]
  have hheadShown : ∀ x ∈ stream.headSlices, join.memory.read x = memory.read x :=
    fun x hx => h.written.shown x (used_apart (hheld.headText x hx))
  have htrailersShown : ∀ x ∈ stream.trailerSlices, join.memory.read x = memory.read x :=
    fun x hx => h.written.shown x (hheld.trailers_apart hpos hroom hx)
  have hvalue : join.memory.read ⟨stream.headBytes.ptr + stream.headLen, room⟩ =
      joinedCookies (State.metadata ⟨memory, stream⟩).headers := by
    rw [hlen]
    exact h.written.read
  have hcoalesce := haround.read_coalesce
    (fun x hx => hheadShown x (List.mem_append_right _ hx)) hvalue
  rw [← harray, ← hcount] at hcoalesce
  rw [State.metadata, State.metadata]
  simp only
  rw [hcoalesce, hstream]
  simp only
  rw [hheadShown stream.method (by simp [Stream.headSlices]),
    hheadShown stream.target (by simp [Stream.headSlices]),
    hheadShown stream.authority (by simp [Stream.headSlices]), scheme_shown hheadShown,
    map_read_same htrailersShown]

end Compacted

theorem cookies_joined {config : Config} {memory : Memory UInt8} {stream : Stream} {room : Nat}
    (hheld : Held config ⟨memory, stream⟩)
    (hcookies : 1 < ((State.metadata ⟨memory, stream⟩).headers.filter isCookie).length)
    (hroomEq : room = (joinedCookies (State.metadata ⟨memory, stream⟩).headers).length)
    (hroom : stream.headLen + room ≤ stream.headBytes.len)
    (hmax : stream.headLen + room ≤ 2 * config.headerBytes) (hpublished : stream.published = 0) :
    ∃ join, Join.loop (stream.headBytes.ptr + stream.headLen) room stream.fieldCount 0
        { memory, fields := stream.fields } = some join ∧
      Held config ⟨join.memory, stream.withCookies join
        ((State.metadata ⟨memory, stream⟩).headers.findIdx isCookie)
        (stream.headBytes.ptr + stream.headLen) room⟩ ∧
      State.metadata ⟨join.memory, stream.withCookies join
        ((State.metadata ⟨memory, stream⟩).headers.findIdx isCookie)
        (stream.headBytes.ptr + stream.headLen) room⟩ =
          { State.metadata ⟨memory, stream⟩ with
            headers := coalesce (State.metadata ⟨memory, stream⟩).headers } := by
  have hmany : 1 < ((stream.fields.take stream.fieldCount).filter
      (Field.isCookie memory)).length := by
    rw [length_filter_read]
    exact hcookies
  obtain ⟨before, first, after, haround⟩ := exists_around hmany
  have hindex : (State.metadata ⟨memory, stream⟩).headers.findIdx isCookie = before.length :=
    haround.findIdx
  -- two cookies have a separator between them
  have hpos : 0 < room := by
    have hlength := room_eq memory (stream.fields.take stream.fieldCount) hmany
    change _ = (joinedCookies (State.metadata ⟨memory, stream⟩).headers).length at hlength
    omega
  obtain ⟨join, hloop, hjoin⟩ := loop_compacts hheld rfl haround hroomEq
  rw [hindex]
  exact ⟨join, hloop, hjoin.held hheld haround hroom hmax hpublished,
    hjoin.metadata hheld haround hroomEq hpos hroom⟩

/-- Why a head is not completed. -/
inductive Incomplete (config : Config) (alloc : Allocation) (state : State) : Fault → Prop
  | bytes (h : 2 * config.headerBytes <
        state.stream.headLen + (joinedCookies state.metadata.headers).length) :
      Incomplete config alloc state .headerListTooLarge
  | memory (h : alloc.bytes state.memory (state.stream.headAsked config
        (joinedCookies state.metadata.headers).length) = none) :
      Incomplete config alloc state .outOfMemory

theorem headComplete_spec {config : Config} (alloc : Allocation) {state : State} (ended : Bool)
    (hheld : Held config state) (hready : state.stream.headReady = false)
    (hbusy : state.stream.busy = false) (hpublished : state.stream.published = 0) :
    ((headComplete config alloc state false ended).2 = .ok () ∧
      Completed config state ended (headComplete config alloc state false ended).1) ∨
    ∃ fault, headComplete config alloc state false ended = (state, .error fault) ∧
      Incomplete config alloc state fault := by
  obtain ⟨memory, stream⟩ := state
  have hlength := length_filter_read memory (stream.fields.take stream.fieldCount)
  have hindex := findIdx_map_read memory (stream.fields.take stream.fieldCount)
  unfold headComplete
  rw [if_neg Bool.false_ne_true]
  simp only
  split
  next hcookies =>
    change 1 < ((stream.fields.take stream.fieldCount).filter (Field.isCookie memory)).length
      at hcookies
    -- what the loop is told of the cookies does not depend on where they are
    have hroom : _ = (joinedCookies (State.metadata ⟨memory, stream⟩).headers).length :=
      room_eq memory (stream.fields.take stream.fieldCount) hcookies
    change (State.metadata ⟨memory, stream⟩).headers.findIdx isCookie = _ at hindex
    rw [show ((stream.fields.take stream.fieldCount).filter fun field =>
      memory.read field.name == cookie) =
        (stream.fields.take stream.fieldCount).filter (Field.isCookie memory) from rfl,
      show ((stream.fields.take stream.fieldCount).findIdx fun field =>
        memory.read field.name == cookie) =
          (stream.fields.take stream.fieldCount).findIdx (Field.isCookie memory) from rfl,
      hroom, ← hindex]
    rw [hlength] at hcookies
    cases hreserve : reserveHead config alloc ⟨memory, stream⟩
        (joinedCookies (State.metadata ⟨memory, stream⟩).headers).length with
    | error fault =>
        refine Or.inr ⟨fault, rfl, ?_⟩
        rcases reserveHead_refused hready hbusy hreserve with ⟨rfl, hlt⟩ | ⟨rfl, hrefuses⟩
        · exact .bytes hlt
        · exact .memory hrefuses
    | ok moved =>
        refine Or.inl ?_
        simp only
        obtain ⟨hmoved, hfits, hmax⟩ := reserveHead_moved hheld hreserve
        obtain ⟨memory', stream'⟩ := moved
        have hcount : stream'.fieldCount = stream.fieldCount :=
          congrArg Counters.fieldCount hmoved.counters
        have hlen : stream'.headLen = stream.headLen := congrArg Counters.headLen hmoved.counters
        have hmetadata : State.metadata ⟨memory', stream'⟩ = State.metadata ⟨memory, stream⟩ :=
          hmoved.metadata
        obtain ⟨join, hloop, hjoined, hcoalesce⟩ := @cookies_joined config memory' stream'
          (joinedCookies (State.metadata ⟨memory, stream⟩).headers).length hmoved.held (by rw [hmetadata]; exact hcookies) (by rw [hmetadata])
          (by rw [hlen]; exact hfits) (by rw [hlen]; exact hmax)
          ((congrArg Counters.published hmoved.counters).trans hpublished)
        rw [hmetadata] at hjoined hcoalesce
        rw [hloop]
        refine ⟨rfl, ?_⟩
        obtain ⟨heap, buffer, heq⟩ := setFields_eq stream' (join.fields.modify
          ((State.metadata ⟨memory, stream⟩).headers.findIdx isCookie) fun field =>
            { field with value :=
              ⟨stream'.headBytes.ptr + stream'.headLen,
                (joinedCookies (State.metadata ⟨memory, stream⟩).headers).length⟩ })
        exact
          { held := publish_completed ended hjoined
            metadata := hcoalesce
            published := rfl
            bodyFollows := rfl
            headReady := rfl
            trailers := by
              simp only
              rw [heq]
              exact congrArg Counters.trailers hmoved.counters
            closed := by
              simp only
              rw [heq]
              exact congrArg Counters.closed hmoved.counters
            busy := by
              simp only
              rw [heq]
              exact congrArg Counters.busy hmoved.counters
            trailerLen := by
              simp only
              rw [heq]
              exact congrArg Counters.trailerLen hmoved.counters }
  next hcookies =>
    refine Or.inl ⟨rfl, ?_⟩
    have hle : ((State.metadata ⟨memory, stream⟩).headers.filter isCookie).length ≤ 1 := by
      rw [show (State.metadata ⟨memory, stream⟩).headers =
        (stream.fields.take stream.fieldCount).map (Field.read memory) from rfl, ← hlength]
      exact Nat.le_of_not_lt hcookies
    exact
      { held := publish_completed ended hheld
        metadata := by
          rw [coalesce_of_le hle]
          rfl
        published := rfl
        bodyFollows := rfl
        headReady := rfl
        trailers := rfl
        closed := rfl
        busy := rfl
        trailerLen := rfl }

end Http2

end Zhtps
