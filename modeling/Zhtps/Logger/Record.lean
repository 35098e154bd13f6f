import Zhtps.Endpoint.Access
import Zhtps.Http.Response
import Zhtps.Lib.Buffer
import Zhtps.Lib.Json
import Zhtps.Logger

/-!
The text of a log record, after `writeRecord` and its helpers in `src/Logger.zig`.  It is written
straight into the buffer of a slot, so a record that is too long leaves its beginning there.
-/

namespace Zhtps.Log

open Lib (Json)
open Response (digits)

/-- The fixed writer of the standard library: a buffer that is filled from the front. -/
abbrev Writer := Lib.Buffer UInt8

/-- A call on a writer.  The writer of a failed call is as the call left it. -/
abbrev Write := Writer → Except Writer Writer

/-- What fits is written; the rest is an error. -/
def writeAll (bytes : Bytes) : Write := fun w =>
  if bytes.length ≤ w.room then .ok (w.append bytes) else .error (w.append (bytes.take w.room))

/-! ### Strings -/

/-- A byte that the plain copy does not take. -/
def special (c : UInt8) : Bool :=
  c < 0x20 || 0x7f < c || c == Lib.Json.quote || c == Lib.Json.backslash

/-- The loop over blocks of 16 bytes, and what is left behind them. -/
def canCopyBlocks : Nat → Bytes → Bool
  | 0, rest => !rest.any special
  | blocks + 1, rest =>
      if (rest.take 16).any special then false else canCopyBlocks blocks (rest.drop 16)

def canCopyJsonString (value : Bytes) : Bool := canCopyBlocks (value.length / 16) value

/-- `std.json.Stringify.encodeJsonString` without options. -/
def encodeJsonString (value : Bytes) : Bytes := Json.encodeString value

/-- A string as the array of its bytes. -/
def byteArray (value : Bytes) : Json := .array (value.map fun c => .number (digits 10 c.toNat))

/-- `std.json.Stringify.value` of a string that is written as an array. -/
def stringifyArray (value : Bytes) : Bytes := (byteArray value).text

def writeJsonString (value : Bytes) : Write := fun w =>
  if canCopyJsonString value then
    -- the slice is granted whole or not at all
    if value.length + 2 ≤ w.room then .ok (w.append (Lib.Json.quote :: value ++ [Lib.Json.quote]))
    else .error w
  else if Lib.Utf8.validate value then writeAll (encodeJsonString value) w
  else writeAll (stringifyArray value) w

/-! ### Numbers -/

def signedDigits (value : Int) : Bytes :=
  (if value < 0 then [Json.minus] else []) ++ digits 10 value.natAbs

/-- `std.fmt.float.FloatDecimal` of a finite number; the decimal of zero is zero. -/
structure FloatDecimal where
  mantissa : Nat
  exponent : Int
  sign : Bool
  zero : mantissa = 0 → exponent = 0

/-- `std.fmt.float.formatDecimal` without a precision. -/
def FloatDecimal.format (f : FloatDecimal) : Bytes :=
  let digits := digits 10 f.mantissa
  let point := f.exponent + digits.length
  (if f.sign then [Json.minus] else []) ++
    if point ≤ 0 then
      [Json.zero, Json.dot] ++ List.replicate (-point).toNat Json.zero ++ digits
    else if digits.length ≤ point.toNat then
      digits ++ List.replicate (point.toNat - digits.length) Json.zero
    else digits.take point.toNat ++ Json.dot :: digits.drop point.toNat

/-- The exponent field of an infinity or of no number at all is all ones. -/
def isFinite (bits : UInt64) : Bool := (bits >>> 52) &&& 0x7ff != 0x7ff

def formatSpecial (bits : UInt64) : Bytes :=
  (if bits >>> 63 = 1 then [Json.minus] else []) ++
    if bits &&& 0xfffffffffffff != 0 then ascii "nan" else ascii "inf"

/-- The `{d}` format of a float.  `shortest` finds the shortest decimal that stands for it. -/
def formatFloat (shortest : UInt64 → FloatDecimal) (bits : UInt64) : Bytes :=
  if isFinite bits then (shortest bits).format else formatSpecial bits

/-! ### The record -/

/-- The identity of the server. -/
structure Source where
  host : Bytes
  instanceId : Bytes

structure Event where
  timestampNs : UInt64
  level : Logger.Level := .info
  event : Bytes
  worker : UInt32 := 0
  connection : Option UInt64 := none
  clientIp : Option Bytes := none
  userAgent : Option Bytes := none
  request : Option UInt64 := none
  status : Option UInt16 := none
  reason : Option Bytes := none
  method : Option Bytes := none
  durationNs : Option UInt64 := none
  bytes : Option UInt64 := none
  operation : Option Bytes := none
  phase : Option Bytes := none
  address : Option Bytes := none
  port : Option UInt16 := none
  result : Option Int32 := none
  route : Option Bytes := none
  fields : List (Access.Attribute Bytes) := []

def tagName : Logger.Level → Bytes
  | .debug => ascii "debug"
  | .info => ascii "info"
  | .warn => ascii "warn"
  | .error => ascii "error"

/-- What `writeRecord` calls the writer with. -/
inductive Call
  | all (bytes : Bytes)
  | string (value : Bytes)

def Call.write : Call → Write
  | .all bytes => writeAll bytes
  | .string value => writeJsonString value

/-- The call with the text `,"name":`. -/
def key (name : String) : Call := .all (ascii ",\"" ++ ascii name ++ ascii "\":")

def number (value : Nat) : Call := .all (digits 10 value)

def optionalString (name : String) : Option Bytes → List Call
  | none => []
  | some value => [key name, .string value]

def optionalNumber (name : String) : Option Nat → List Call
  | none => []
  | some value => [key name, number value]

def writeAttribute (shortest : UInt64 → FloatDecimal) : Access.Scalar Bytes → Call
  | .string item => .string item
  | .signed item => .all (signedDigits item)
  | .unsigned item => .all (digits 10 item)
  | .float item => .all (formatFloat shortest item)
  | .boolean item => .all (if item then ascii "true" else ascii "false")
  | .null => .all (ascii "null")

def attributeCalls (shortest : UInt64 → FloatDecimal) (field : Access.Attribute Bytes) : List Call :=
  [.string field.name, .all [Json.colon], writeAttribute shortest field.value]

/-- The attributes behind the first one. -/
def furtherAttributes (shortest : UInt64 → FloatDecimal) (fields : List (Access.Attribute Bytes)) :
    List Call :=
  fields.flatMap fun field => .all [Json.comma] :: attributeCalls shortest field

def fieldsCalls (shortest : UInt64 → FloatDecimal) : List (Access.Attribute Bytes) → List Call
  | [] => []
  | first :: rest =>
      [key "fields", .all [Json.openBrace]] ++ attributeCalls shortest first ++
        furtherAttributes shortest rest ++ [.all [Json.closeBrace]]

def sourceCalls : Option Source → List Call
  | none => []
  | some identity =>
      [.all (ascii ",\"app\":\"zhtps\",\"host\":"), .string identity.host, key "instance",
        .string identity.instanceId]

def connectionCalls : Option UInt64 → List Call
  | none => []
  | some value =>
      [key "conn_gen", number (value >>> 32).toNat, key "conn_slot",
        number ((value >>> 8) &&& 0xffffff).toNat]

/-- The calls of `writeRecord`, in their order. -/
def recordCalls (shortest : UInt64 → FloatDecimal) (record : Event) (source : Option Source) :
    List Call :=
  [.all (ascii "\x7b\"timestamp_ns\":"), number record.timestampNs.toNat,
    key "level", .string (tagName record.level), key "event", .string record.event,
    key "worker", number record.worker.toNat] ++
  sourceCalls source ++
  connectionCalls record.connection ++
  optionalString "client_ip" record.clientIp ++
  optionalString "user_agent" record.userAgent ++
  optionalNumber "request" (record.request.map UInt64.toNat) ++
  optionalNumber "status" (record.status.map UInt16.toNat) ++
  optionalString "reason" record.reason ++
  optionalString "method" record.method ++
  optionalNumber "duration_ns" (record.durationNs.map UInt64.toNat) ++
  optionalNumber "bytes" (record.bytes.map UInt64.toNat) ++
  optionalString "operation" record.operation ++
  optionalString "phase" record.phase ++
  optionalString "address" record.address ++
  optionalNumber "port" (record.port.map UInt16.toNat) ++
  (match record.result with
    | none => []
    | some value => [key "result", .all (signedDigits value.toInt)]) ++
  optionalString "route" record.route ++
  fieldsCalls shortest record.fields ++
  [.all [Json.closeBrace]]

def writeRecord (shortest : UInt64 → FloatDecimal) (record : Event) (source : Option Source) : Write :=
  fun w => (recordCalls shortest record source).foldlM (fun w call => call.write w) w

/-! ### What a call writes -/

/-- The text goes behind what was written where it fits, and the buffer keeps its size. -/
def Writes (f : Write) (text : Bytes) : Prop :=
  ∀ w : Writer, (text.length ≤ w.room → f w = .ok (w.append text)) ∧
    (w.room < text.length → ∃ left, f w = .error left ∧ left.capacity = w.capacity)

theorem room_append {w : Writer} {text : Bytes} (h : text.length ≤ w.room) :
    (w.append text).room = w.room - text.length := by
  have hle := w.len_le_capacity
  unfold Lib.Buffer.room at h ⊢
  rw [Lib.Buffer.capacity_append (by omega), Lib.Buffer.len_append]
  omega

theorem writes_nothing : Writes .ok [] :=
  fun w => ⟨fun _ => congrArg Except.ok (Lib.Buffer.append_nil w).symm,
    fun h => absurd h (Nat.not_lt_zero _)⟩

theorem Writes.bind {f g : Write} {first second : Bytes} (hf : Writes f first)
    (hg : Writes g second) : Writes (fun w => f w >>= g) (first ++ second) := by
  intro w
  obtain ⟨hfits, hfails⟩ := hf w
  have hle := w.len_le_capacity
  rw [List.length_append]
  by_cases hfirst : first.length ≤ w.room
  · have hroom := room_append hfirst
    obtain ⟨hfits', hfails'⟩ := hg (w.append first)
    have hrun : (f w >>= g) = g (w.append first) := by
      rw [hfits hfirst]
      rfl
    rw [hroom] at hfits' hfails'
    refine ⟨fun hall => ?_, fun hshort => ?_⟩
    · show (f w >>= g) = _
      rw [hrun, hfits' (by omega), Lib.Buffer.append_append]
    · obtain ⟨left, hleft, hcapacity⟩ := hfails' (by omega)
      unfold Lib.Buffer.room at hfirst
      exact ⟨left, hrun.trans hleft, hcapacity.trans (Lib.Buffer.capacity_append (by omega))⟩
  · obtain ⟨left, hleft, hcapacity⟩ := hfails (by omega)
    refine ⟨fun hall => absurd hall (by omega), fun _ => ⟨left, ?_, hcapacity⟩⟩
    show (f w >>= g) = _
    rw [hleft]
    rfl

theorem writeAll_writes (bytes : Bytes) : Writes (writeAll bytes) bytes := by
  intro w
  refine ⟨fun hfits => if_pos hfits, fun hshort => ?_⟩
  have hle := w.len_le_capacity
  refine ⟨w.append (bytes.take w.room), if_neg (by omega), Lib.Buffer.capacity_append ?_⟩
  rw [List.length_take]
  unfold Lib.Buffer.room at hshort ⊢
  omega

theorem canCopyBlocks_eq (blocks : Nat) (rest : Bytes) :
    canCopyBlocks blocks rest = !rest.any special := by
  induction blocks generalizing rest with
  | zero => rfl
  | succ blocks ih =>
      have hsplit : rest.any special = ((rest.take 16).any special || (rest.drop 16).any special) := by
        rw [← List.any_append, List.take_append_drop]
      rw [canCopyBlocks, ih, hsplit]
      cases (rest.take 16).any special <;> rfl

theorem canCopyJsonString_iff {value : Bytes} :
    canCopyJsonString value = true ↔ ∀ c ∈ value, special c = false := by
  rw [canCopyJsonString, canCopyBlocks_eq, Bool.not_eq_true', List.any_eq_false]
  simp only [Bool.not_eq_true]

/-- Outside the escaped bytes, the encoder copies; the plain copy takes the ASCII ones of these. -/
theorem special_iff : ∀ c : UInt8, special c = false ↔ Json.encodeChar c = [c] ∧ c ≤ 0x7f := by
  decide +kernel

theorem encodeChar_length : ∀ c : UInt8,
    1 ≤ (Json.encodeChar c).length ∧ ((Json.encodeChar c).length = 1 → Json.encodeChar c = [c]) := by
  decide +kernel

theorem length_flatMap_encodeChar (value : Bytes) :
    value.length ≤ (value.flatMap Json.encodeChar).length := by
  induction value with
  | nil => exact Nat.zero_le _
  | cons c rest ih =>
      have hc := (encodeChar_length c).1
      rw [List.flatMap_cons, List.length_append, List.length_cons]
      omega

theorem flatMap_encodeChar_iff {value : Bytes} :
    value.flatMap Json.encodeChar = value ↔ ∀ c ∈ value, Json.encodeChar c = [c] := by
  induction value with
  | nil => exact ⟨fun _ => nofun, fun _ => rfl⟩
  | cons c rest ih =>
      rw [List.flatMap_cons, List.forall_mem_cons]
      constructor
      · intro h
        -- no byte is written shorter than it is, so none is written longer
        have hlength := congrArg List.length h
        have hrest := length_flatMap_encodeChar rest
        have hc := encodeChar_length c
        rw [List.length_append, List.length_cons] at hlength
        have hplain := hc.2 (by omega)
        rw [hplain, List.singleton_append] at h
        exact ⟨hplain, ih.mp (List.cons.inj h).2⟩
      · rintro ⟨hplain, hall⟩
        rw [hplain, List.singleton_append, ih.mpr hall]

theorem encodeJsonString_plain {value : Bytes} :
    encodeJsonString value = Lib.Json.quote :: value ++ [Lib.Json.quote] ↔
      ∀ c ∈ value, Json.encodeChar c = [c] := by
  rw [encodeJsonString, Json.encodeString, ← flatMap_encodeChar_iff]
  constructor
  · intro h
    exact List.append_cancel_right (List.cons.inj h).2
  · intro h
    rw [h]

theorem canCopyJsonString_plain {value : Bytes} :
    canCopyJsonString value = true ↔
      encodeJsonString value = Lib.Json.quote :: value ++ [Lib.Json.quote] ∧ ∀ c ∈ value, c ≤ 0x7f := by
  rw [canCopyJsonString_iff, encodeJsonString_plain, ← forall₂_and]
  exact forall₂_congr fun c _ => special_iff c

/-- The value of a string field: the string, or its bytes where it is none. -/
def stringJson (value : Bytes) : Json :=
  if Lib.Utf8.validate value then .string value else byteArray value

theorem writeJsonString_writes (value : Bytes) :
    Writes (writeJsonString value) (stringJson value).text := by
  by_cases hcopy : canCopyJsonString value = true
  · obtain ⟨hplain, hascii⟩ := canCopyJsonString_plain.mp hcopy
    have hvalid : Lib.Utf8.validate value = true :=
      Lib.Utf8.validate_ascii fun c hc => Nat.lt_of_le_of_lt (hascii c hc) (by decide)
    have htext : (stringJson value).text = Lib.Json.quote :: value ++ [Lib.Json.quote] := by
      rw [stringJson, if_pos hvalid, Json.text, ← hplain, encodeJsonString]
    have hlength : (Lib.Json.quote :: value ++ [Lib.Json.quote]).length = value.length + 2 := by
      rw [List.length_append, List.length_cons, List.length_singleton]
    intro w
    rw [htext, hlength, writeJsonString, if_pos hcopy]
    exact ⟨fun hfits => if_pos hfits, fun hshort => ⟨w, if_neg (by omega), rfl⟩⟩
  · have hwrite : writeJsonString value = writeAll (stringJson value).text := by
      funext w
      rw [writeJsonString, if_neg hcopy, stringJson]
      split
      · rw [Json.text, encodeJsonString]
      · rw [stringifyArray]
    rw [hwrite]
    exact writeAll_writes _

def Call.text : Call → Bytes
  | .all bytes => bytes
  | .string value => (stringJson value).text

theorem Call.writes (call : Call) : Writes call.write call.text := by
  cases call with
  | all bytes => exact writeAll_writes bytes
  | string value => exact writeJsonString_writes value

theorem foldlM_writes (calls : List Call) :
    Writes (fun w => calls.foldlM (fun w call => call.write w) w) (calls.flatMap Call.text) := by
  induction calls with
  | nil => exact writes_nothing
  | cons call rest ih =>
      rw [List.flatMap_cons]
      simp only [List.foldlM_cons]
      exact call.writes.bind ih

/-- The text of a record. -/
def recordText (shortest : UInt64 → FloatDecimal) (record : Event) (source : Option Source) : Bytes :=
  (recordCalls shortest record source).flatMap Call.text

theorem writeRecord_writes (shortest : UInt64 → FloatDecimal) (record : Event)
    (source : Option Source) :
    Writes (writeRecord shortest record source) (recordText shortest record source) :=
  foldlM_writes _

end Zhtps.Log
