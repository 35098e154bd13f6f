import Zhtps.Logger.Queue

/-!
A queued record is one line, and the line is one JSON object whose members are those of the event.
-/

namespace Zhtps.Log

open Lib (Json)
open Response (digits digitByte)

variable {shortest : UInt64 → FloatDecimal} {n : Nat}

/-! ### The object of an event -/

def unsignedJson (value : Nat) : Json := .number (digits 10 value)

def signedJson (value : Int) : Json := .number (signedDigits value)

def scalarJson (shortest : UInt64 → FloatDecimal) : Access.Scalar Bytes → Json
  | .string item => stringJson item
  | .signed item => signedJson item
  | .unsigned item => unsignedJson item
  | .float item => .number (formatFloat shortest item)
  | .boolean item => .boolean item
  | .null => .null

def optionalMember (name : String) : Option Json → List (Bytes × Json)
  | none => []
  | some value => [(ascii name, value)]

def sourceMembers : Option Source → List (Bytes × Json)
  | none => []
  | some identity =>
      [(ascii "app", .string (ascii "zhtps")), (ascii "host", stringJson identity.host),
        (ascii "instance", stringJson identity.instanceId)]

def connectionMembers : Option UInt64 → List (Bytes × Json)
  | none => []
  | some value =>
      [(ascii "conn_gen", unsignedJson (value >>> 32).toNat),
        (ascii "conn_slot", unsignedJson ((value >>> 8) &&& 0xffffff).toNat)]

def attributeMembers (shortest : UInt64 → FloatDecimal) (fields : List (Access.Attribute Bytes)) :
    List (Bytes × Json) :=
  fields.map fun field => (field.name, scalarJson shortest field.value)

def fieldsMembers (shortest : UInt64 → FloatDecimal) : List (Access.Attribute Bytes) →
    List (Bytes × Json)
  | [] => []
  | first :: rest => [(ascii "fields", .object (attributeMembers shortest (first :: rest)))]

/-- The members behind the time. -/
def furtherMembers (shortest : UInt64 → FloatDecimal) (record : Event) (source : Option Source) :
    List (Bytes × Json) :=
  [(ascii "level", .string (tagName record.level)), (ascii "event", stringJson record.event),
    (ascii "worker", unsignedJson record.worker.toNat)] ++
  sourceMembers source ++
  connectionMembers record.connection ++
  optionalMember "client_ip" (record.clientIp.map stringJson) ++
  optionalMember "user_agent" (record.userAgent.map stringJson) ++
  optionalMember "request" (record.request.map fun value => unsignedJson value.toNat) ++
  optionalMember "status" (record.status.map fun value => unsignedJson value.toNat) ++
  optionalMember "reason" (record.reason.map stringJson) ++
  optionalMember "method" (record.method.map stringJson) ++
  optionalMember "duration_ns" (record.durationNs.map fun value => unsignedJson value.toNat) ++
  optionalMember "bytes" (record.bytes.map fun value => unsignedJson value.toNat) ++
  optionalMember "operation" (record.operation.map stringJson) ++
  optionalMember "phase" (record.phase.map stringJson) ++
  optionalMember "address" (record.address.map stringJson) ++
  optionalMember "port" (record.port.map fun value => unsignedJson value.toNat) ++
  optionalMember "result" (record.result.map fun value => signedJson value.toInt) ++
  optionalMember "route" (record.route.map stringJson) ++
  fieldsMembers shortest record.fields

def recordJson (shortest : UInt64 → FloatDecimal) (record : Event) (source : Option Source) : Json :=
  .object ((ascii "timestamp_ns", unsignedJson record.timestampNs.toNat) ::
    furtherMembers shortest record source)

/-! ### The text is that of the object -/

/-- The calls write the members, each behind a comma. -/
def Says (calls : List Call) (members : List (Bytes × Json)) : Prop :=
  calls.flatMap Call.text = Json.furtherMembers members

theorem furtherMembers_append (first second : List (Bytes × Json)) :
    Json.furtherMembers (first ++ second) =
      Json.furtherMembers first ++ Json.furtherMembers second := by
  induction first with
  | nil => rw [Json.furtherMembers, List.nil_append, List.nil_append]
  | cons member first ih =>
      obtain ⟨name, value⟩ := member
      rw [List.cons_append, Json.furtherMembers, Json.furtherMembers, ih]
      simp only [List.append_assoc, List.cons_append]

theorem says_nil : Says [] [] := by
  rw [Says, Json.furtherMembers]
  rfl

theorem Says.append {first second : List Call} {firstMembers secondMembers : List (Bytes × Json)}
    (h : Says first firstMembers) (h' : Says second secondMembers) :
    Says (first ++ second) (firstMembers ++ secondMembers) := by
  rw [Says, List.flatMap_append, h, h', furtherMembers_append]

/-- A name that is copied. -/
def Plain (name : String) : Prop :=
  Json.encodeString (ascii name) = Lib.Json.quote :: ascii name ++ [Lib.Json.quote]

instance (name : String) : Decidable (Plain name) :=
  inferInstanceAs (Decidable (Json.encodeString _ = _))

/-- The names of the members of a record. -/
def memberNames : List String :=
  ["timestamp_ns", "level", "event", "worker", "app", "host", "instance", "conn_gen", "conn_slot",
    "client_ip", "user_agent", "request", "status", "reason", "method", "duration_ns", "bytes",
    "operation", "phase", "address", "port", "result", "route", "fields"]

theorem memberNames_valid :
    ∀ name ∈ memberNames, Plain name ∧ Lib.Utf8.validate (ascii name) = true := by
  decide +kernel

theorem plain_memberName {name : String} (h : name ∈ memberNames) : Plain name :=
  (memberNames_valid name h).1

theorem valid_memberName {name : String} (h : name ∈ memberNames) :
    Lib.Utf8.validate (ascii name) = true :=
  (memberNames_valid name h).2

theorem tagName_valid (level : Logger.Level) : Lib.Utf8.validate (tagName level) = true := by
  cases level <;> decide +kernel

theorem key_text {name : String} (h : Plain name) :
    (key name).text = Json.comma :: Json.encodeString (ascii name) ++ [Json.colon] := by
  have hopen : ascii ",\"" = [Json.comma, Lib.Json.quote] := by decide
  have hclose : ascii "\":" = [Lib.Json.quote, Json.colon] := by decide
  rw [key, Call.text, h, hopen, hclose]
  simp

theorem says_member {name : String} {call : Call} {value : Json} (h : Plain name)
    (hcall : call.text = value.text) : Says [key name, call] [(ascii name, value)] := by
  rw [Says, List.flatMap_cons, List.flatMap_singleton, key_text h, hcall, Json.furtherMembers,
    Json.furtherMembers]
  simp

theorem says_string {name : String} (h : Plain name) (value : Option Bytes) :
    Says (optionalString name value) (optionalMember name (value.map stringJson)) := by
  cases value with
  | none => exact says_nil
  | some value => exact says_member h rfl

theorem number_text (value : Nat) : (number value).text = (unsignedJson value).text := by
  rw [unsignedJson, Json.text]
  rfl

theorem says_number {name : String} (h : Plain name) {α : Type} (toNat : α → Nat) (value : Option α) :
    Says (optionalNumber name (value.map toNat))
      (optionalMember name (value.map fun value => unsignedJson (toNat value))) := by
  cases value with
  | none => exact says_nil
  | some value => exact says_member h (number_text _)

theorem writeAttribute_text (shortest : UInt64 → FloatDecimal) (value : Access.Scalar Bytes) :
    (writeAttribute shortest value).text = (scalarJson shortest value).text := by
  have htrue : ascii "true" = Json.trueText := by decide
  have hfalse : ascii "false" = Json.falseText := by decide
  have hnull : ascii "null" = Json.nullText := by decide
  cases value with
  | string item => rfl
  | signed item =>
      rw [scalarJson, signedJson, Json.text]
      rfl
  | unsigned item => exact number_text item
  | float item =>
      rw [scalarJson, Json.text]
      rfl
  | boolean item =>
      rw [scalarJson, Json.text, writeAttribute, Call.text, htrue, hfalse]
  | null =>
      rw [scalarJson, Json.text, writeAttribute, Call.text, hnull]

/-- A name that is no string is written as an array, which is no name. -/
def NamesValid (fields : List (Access.Attribute Bytes)) : Prop :=
  ∀ field ∈ fields, Lib.Utf8.validate field.name = true

theorem attribute_text {field : Access.Attribute Bytes}
    (h : Lib.Utf8.validate field.name = true) :
    (attributeCalls shortest field).flatMap Call.text =
      Json.encodeString field.name ++ Json.colon :: (scalarJson shortest field.value).text := by
  have hname : (stringJson field.name).text = Json.encodeString field.name := by
    rw [stringJson, if_pos h, Json.text]
  rw [attributeCalls, List.flatMap_cons, List.flatMap_cons, List.flatMap_singleton,
    writeAttribute_text, Call.text, Call.text, hname]
  rfl

theorem attributeMembers_cons (shortest : UInt64 → FloatDecimal) (first : Access.Attribute Bytes)
    (rest : List (Access.Attribute Bytes)) :
    attributeMembers shortest (first :: rest) =
      (first.name, scalarJson shortest first.value) :: attributeMembers shortest rest := rfl

theorem says_attributes {fields : List (Access.Attribute Bytes)} (h : NamesValid fields) :
    Says (furtherAttributes shortest fields) (attributeMembers shortest fields) := by
  induction fields with
  | nil => exact says_nil
  | cons field rest ih =>
      have hrest := ih fun other hother => h other (List.mem_cons_of_mem _ hother)
      rw [Says, furtherAttributes] at hrest
      rw [Says, furtherAttributes, List.flatMap_cons, List.flatMap_append, hrest, List.flatMap_cons,
        attribute_text (h field List.mem_cons_self), attributeMembers_cons, Json.furtherMembers,
        Call.text]
      simp only [List.append_assoc, List.cons_append, List.nil_append]

theorem says_fields {fields : List (Access.Attribute Bytes)} (h : NamesValid fields) :
    Says (fieldsCalls shortest fields) (fieldsMembers shortest fields) := by
  cases fields with
  | nil => exact says_nil
  | cons first rest =>
      have hplain : Plain "fields" := plain_memberName (by simp [memberNames])
      have hrest := @says_attributes shortest rest
        fun other hother => h other (List.mem_cons_of_mem first hother)
      rw [Says] at hrest
      rw [Says, fieldsCalls, fieldsMembers, List.flatMap_append, List.flatMap_append,
        List.flatMap_append, hrest, attribute_text (h first List.mem_cons_self), List.flatMap_cons,
        List.flatMap_singleton, List.flatMap_singleton, key_text hplain, Json.furtherMembers,
        Json.furtherMembers, attributeMembers_cons, Json.text, Call.text, Call.text]
      simp only [List.append_assoc, List.cons_append, List.nil_append, List.append_nil]

theorem says_source (source : Option Source) : Says (sourceCalls source) (sourceMembers source) := by
  cases source with
  | none => exact says_nil
  | some identity =>
      have happ : Plain "app" := plain_memberName (by simp [memberNames])
      have hhost : Plain "host" := plain_memberName (by simp [memberNames])
      have hinstance : Plain "instance" := plain_memberName (by simp [memberNames])
      have hname : Json.text (.string (ascii "zhtps")) = Lib.Json.quote :: ascii "zhtps" ++ [Lib.Json.quote] := by
        rw [Json.text]
        decide +kernel
      have hcall : (Call.all (Lib.Json.quote :: ascii "zhtps" ++ [Lib.Json.quote])).text =
          Json.text (.string (ascii "zhtps")) := hname.symm
      have hbegins : ascii ",\"app\":\"zhtps\",\"host\":" =
          (key "app").text ++ (Lib.Json.quote :: ascii "zhtps" ++ [Lib.Json.quote]) ++ (key "host").text := by
        decide +kernel
      have hsplit : Says [key "app", .all (Lib.Json.quote :: ascii "zhtps" ++ [Lib.Json.quote]), key "host",
          .string identity.host, key "instance", .string identity.instanceId]
            (sourceMembers (some identity)) :=
        (says_member happ hcall).append
          ((says_member hhost rfl).append (says_member hinstance rfl))
      rw [Says] at hsplit ⊢
      rw [← hsplit, sourceCalls, List.flatMap_cons, Call.text, hbegins]
      simp only [List.flatMap_cons, List.flatMap_nil, List.append_assoc, Call.text]

theorem says_connection (connection : Option UInt64) :
    Says (connectionCalls connection) (connectionMembers connection) := by
  cases connection with
  | none => exact says_nil
  | some value =>
      exact (says_member (plain_memberName (by simp [memberNames])) (number_text _)).append
        (says_member (plain_memberName (by simp [memberNames])) (number_text _))

theorem says_level (level : Logger.Level) :
    Says [key "level", .string (tagName level)] [(ascii "level", .string (tagName level))] := by
  refine says_member (plain_memberName (by simp [memberNames])) ?_
  rw [Call.text, stringJson, if_pos (tagName_valid level)]

theorem says_result (result : Option Int32) :
    Says (match result with
      | none => []
      | some value => [key "result", .all (signedDigits value.toInt)])
      (optionalMember "result" (result.map fun value => signedJson value.toInt)) := by
  cases result with
  | none => exact says_nil
  | some value =>
      refine says_member (plain_memberName (by simp [memberNames])) ?_
      show _ = (signedJson value.toInt).text
      rw [signedJson, Json.text]
      rfl

/-- The calls between the time and the closing brace. -/
def furtherCalls (shortest : UInt64 → FloatDecimal) (record : Event) (source : Option Source) :
    List Call :=
  [key "level", .string (tagName record.level), key "event", .string record.event,
    key "worker", number record.worker.toNat] ++
  sourceCalls source ++
  connectionCalls record.connection ++
  optionalString "client_ip" record.clientIp ++
  optionalString "user_agent" record.userAgent ++
  optionalNumber "request" (record.request.map UInt64.toNat) ++
  optionalNumber "status" (record.status.map UInt16.toNat) ++
  optionalString "reason" record.reason ++
  optionalString "method" record.method ++
  optionalNumber "duration_ns" (record.durationNs.map UInt64.toNat) ++
  optionalNumber "bytes" (record.bytes.map UInt64.toNat) ++
  optionalString "operation" record.operation ++
  optionalString "phase" record.phase ++
  optionalString "address" record.address ++
  optionalNumber "port" (record.port.map UInt16.toNat) ++
  (match record.result with
    | none => []
    | some value => [key "result", .all (signedDigits value.toInt)]) ++
  optionalString "route" record.route ++
  fieldsCalls shortest record.fields

theorem append_group (time first a b c d e f g i j k l m n o p q r close : List Call) :
    (time ++ first) ++ a ++ b ++ c ++ d ++ e ++ f ++ g ++ i ++ j ++ k ++ l ++ m ++ n ++ o ++ p ++ q ++ r ++
        close =
      time ++ (first ++ a ++ b ++ c ++ d ++ e ++ f ++ g ++ i ++ j ++ k ++ l ++ m ++ n ++ o ++ p ++ q ++ r) ++
        close := by
  simp only [List.append_assoc]

theorem recordCalls_eq (record : Event) (source : Option Source) :
    recordCalls shortest record source =
      [.all (ascii "\x7b\"timestamp_ns\":"), number record.timestampNs.toNat] ++
        furtherCalls shortest record source ++ [.all [Json.closeBrace]] := by
  exact append_group [.all (ascii "\x7b\"timestamp_ns\":"), number record.timestampNs.toNat]
    [key "level", .string (tagName record.level), key "event", .string record.event,
      key "worker", number record.worker.toNat]
    (sourceCalls source) (connectionCalls record.connection) (optionalString "client_ip" record.clientIp)
    (optionalString "user_agent" record.userAgent)
    (optionalNumber "request" (record.request.map UInt64.toNat))
    (optionalNumber "status" (record.status.map UInt16.toNat)) (optionalString "reason" record.reason)
    (optionalString "method" record.method)
    (optionalNumber "duration_ns" (record.durationNs.map UInt64.toNat))
    (optionalNumber "bytes" (record.bytes.map UInt64.toNat)) (optionalString "operation" record.operation)
    (optionalString "phase" record.phase) (optionalString "address" record.address)
    (optionalNumber "port" (record.port.map UInt16.toNat)) _ (optionalString "route" record.route)
    (fieldsCalls shortest record.fields) [.all [Json.closeBrace]]

theorem furtherCalls_text {record : Event} {source : Option Source} (h : NamesValid record.fields) :
    Says (furtherCalls shortest record source) (furtherMembers shortest record source) := by
  have hfront : Says [key "level", .string (tagName record.level), key "event", .string record.event,
        key "worker", number record.worker.toNat]
      [(ascii "level", .string (tagName record.level)), (ascii "event", stringJson record.event),
        (ascii "worker", unsignedJson record.worker.toNat)] :=
    (says_level record.level).append ((says_member (plain_memberName (by simp [memberNames])) rfl).append
      (says_member (plain_memberName (by simp [memberNames])) (number_text _)))
  unfold furtherCalls furtherMembers
  refine Says.append ?_ (@says_fields shortest _ h)
  refine Says.append ?_ (@says_string "route" (plain_memberName (by simp [memberNames])) record.route)
  refine Says.append ?_ (says_result record.result)
  refine Says.append ?_ (@says_number "port" (plain_memberName (by simp [memberNames])) _ UInt16.toNat record.port)
  refine Says.append ?_ (@says_string "address" (plain_memberName (by simp [memberNames])) record.address)
  refine Says.append ?_ (@says_string "phase" (plain_memberName (by simp [memberNames])) record.phase)
  refine Says.append ?_ (@says_string "operation" (plain_memberName (by simp [memberNames])) record.operation)
  refine Says.append ?_ (@says_number "bytes" (plain_memberName (by simp [memberNames])) _ UInt64.toNat record.bytes)
  refine Says.append ?_ (@says_number "duration_ns" (plain_memberName (by simp [memberNames])) _ UInt64.toNat record.durationNs)
  refine Says.append ?_ (@says_string "method" (plain_memberName (by simp [memberNames])) record.method)
  refine Says.append ?_ (@says_string "reason" (plain_memberName (by simp [memberNames])) record.reason)
  refine Says.append ?_ (@says_number "status" (plain_memberName (by simp [memberNames])) _ UInt16.toNat record.status)
  refine Says.append ?_ (@says_number "request" (plain_memberName (by simp [memberNames])) _ UInt64.toNat record.request)
  refine Says.append ?_ (@says_string "user_agent" (plain_memberName (by simp [memberNames])) record.userAgent)
  refine Says.append ?_ (@says_string "client_ip" (plain_memberName (by simp [memberNames])) record.clientIp)
  exact (hfront.append (says_source source)).append (says_connection record.connection)

theorem recordText_eq {record : Event} {source : Option Source} (h : NamesValid record.fields) :
    recordText shortest record source = (recordJson shortest record source).text := by
  have hsays := @furtherCalls_text shortest record source h
  have hstart : ascii "\x7b\"timestamp_ns\":" =
      Json.openBrace :: Json.encodeString (ascii "timestamp_ns") ++ [Json.colon] := by
    decide +kernel
  rw [Says] at hsays
  rw [recordText, recordCalls_eq, List.flatMap_append, List.flatMap_append, hsays, List.flatMap_cons,
    List.flatMap_singleton, List.flatMap_singleton, number_text, recordJson, Json.text, Call.text,
    Call.text, hstart]
  simp only [List.append_assoc, List.cons_append, List.nil_append]

/-! ### The object is well formed -/

theorem isDigit_digits {c : UInt8} (h : c ∈ digits 10 n) : Json.isDigit c = true := by
  have hall : ∀ c : UInt8, Ascii.isDigit c = true → Json.isDigit c = true := by decide +kernel
  exact hall c (Response.isDigit_of_mem_digits h)

theorem head?_digits (h : 0 < n) : (digits 10 n).head? ≠ some Json.zero := by
  induction n using Nat.strongRecOn with
  | ind n ih =>
      by_cases hlt : n < 10
      · have hall : ∀ d : Fin 10, 0 < d.val → digitByte d ≠ Json.zero := by decide
        rw [Response.digits_of_lt hlt]
        exact fun heq => hall ⟨n, hlt⟩ h (Option.some.inj heq)
      · rw [Response.digits_of_le (by decide) (by omega), List.head?_append_of_ne_nil _
          (Response.digits_ne_nil _ _)]
        exact ih (n / 10) (Nat.div_lt_self h (by decide)) (Nat.div_pos (by omega) (by decide))

theorem head?_digits_zero (h : (digits 10 n).head? = some Json.zero) : (digits 10 n).length = 1 := by
  rcases Nat.eq_zero_or_pos n with rfl | hpos
  · decide
  · exact absurd h (head?_digits hpos)

theorem decimal_digits (n : Nat) : Json.Decimal [] (digits 10 n) [] where
  sign := Or.inl rfl
  ne := Response.digits_ne_nil 10 n
  digits _ hc := isDigit_digits hc
  zero := head?_digits_zero
  part := Or.inl rfl

theorem unsignedJson_valid (value : Nat) : (unsignedJson value).Valid := by
  have hvalid := Json.Valid.number (decimal_digits value)
  rwa [List.nil_append, List.append_nil] at hvalid

theorem decimal_sign (negative : Prop) [Decidable negative] :
    (if negative then [Json.minus] else []) = [] ∨
      (if negative then [Json.minus] else []) = [Json.minus] := by
  split
  · exact Or.inr rfl
  · exact Or.inl rfl

theorem signedJson_valid (value : Int) : (signedJson value).Valid := by
  have hdigits := decimal_digits value.natAbs
  have hvalid := Json.Valid.number { hdigits with sign := decimal_sign (value < 0) }
  rwa [List.append_nil] at hvalid

theorem byteArray_valid (value : Bytes) : (byteArray value).Valid := by
  refine .array fun v hv => ?_
  obtain ⟨c, -, rfl⟩ := List.mem_map.mp hv
  exact unsignedJson_valid c.toNat

theorem stringJson_valid (value : Bytes) : (stringJson value).Valid := by
  unfold stringJson
  split
  · rename_i h
    exact .string h
  · exact byteArray_valid value

theorem zeros_digits (k : Nat) : ∀ c ∈ List.replicate k Json.zero, Json.isDigit c = true := by
  intro c hc
  obtain ⟨-, rfl⟩ := List.mem_replicate.mp hc
  decide

theorem append_digits {first second : Bytes} (h : ∀ c ∈ first, Json.isDigit c = true)
    (h' : ∀ c ∈ second, Json.isDigit c = true) : ∀ c ∈ first ++ second, Json.isDigit c = true := by
  intro c hc
  rcases List.mem_append.mp hc with hc | hc
  · exact h c hc
  · exact h' c hc

/-- A finite number is spelled without an exponent. -/
theorem FloatDecimal.format_valid (f : FloatDecimal) : (Json.number f.format).Valid := by
  have hsign := decimal_sign (f.sign = true)
  have hne := Response.digits_ne_nil 10 f.mantissa
  have hlength := List.length_pos_iff.mpr hne
  have hdigits : ∀ c ∈ digits 10 f.mantissa, Json.isDigit c = true := fun c hc => isDigit_digits hc
  have hzero : (digits 10 f.mantissa).head? = some Json.zero →
      (digits 10 f.mantissa).length = 1 ∧ f.exponent = 0 := by
    intro hhead
    rcases Nat.eq_zero_or_pos f.mantissa with hmantissa | hpos
    · exact ⟨head?_digits_zero hhead, f.zero hmantissa⟩
    · exact absurd hhead (head?_digits hpos)
  unfold FloatDecimal.format
  dsimp only
  generalize (if f.sign = true then [Json.minus] else []) = sign at hsign ⊢
  generalize digits 10 f.mantissa = ds at *
  by_cases hpoint : f.exponent + ds.length ≤ 0
  · -- nothing stands in front of the point
    have hvalid := Json.Valid.number (Json.Decimal.mk hsign (List.cons_ne_nil Json.zero [])
      (zeros_digits 1) (fun _ => rfl) (Or.inr ⟨List.replicate (-(f.exponent + ds.length)).toNat
        Json.zero ++ ds, rfl, List.append_ne_nil_of_right_ne_nil _ hne,
        append_digits (zeros_digits _) hdigits⟩))
    rw [if_pos hpoint]
    rwa [List.append_assoc] at hvalid
  rw [if_neg hpoint]
  by_cases hle : ds.length ≤ (f.exponent + ds.length).toNat
  · -- zeros stand in front of the point; zero itself has none
    have hhead : (ds ++ List.replicate ((f.exponent + ds.length).toNat - ds.length) Json.zero).head? =
        some Json.zero → (ds ++ List.replicate ((f.exponent + ds.length).toNat - ds.length)
          Json.zero).length = 1 := by
      intro hhead
      rw [List.head?_append_of_ne_nil _ hne] at hhead
      obtain ⟨hone, hexponent⟩ := hzero hhead
      rw [List.length_append, List.length_replicate]
      omega
    have hvalid := Json.Valid.number (Json.Decimal.mk hsign
      (List.append_ne_nil_of_left_ne_nil hne _) (append_digits hdigits (zeros_digits _)) hhead
      (Or.inl rfl))
    rw [if_pos hle]
    rwa [List.append_nil] at hvalid
  · have htake : ds.take (f.exponent + ds.length).toNat ≠ [] := by
      refine List.ne_nil_of_length_pos ?_
      rw [List.length_take]
      omega
    have hdrop : ds.drop (f.exponent + ds.length).toNat ≠ [] := by
      refine List.ne_nil_of_length_pos ?_
      rw [List.length_drop]
      omega
    have hhead : (ds.take (f.exponent + ds.length).toNat).head? = some Json.zero →
        (ds.take (f.exponent + ds.length).toNat).length = 1 := by
      intro hhead
      rw [List.head?_take, if_neg (by omega)] at hhead
      obtain ⟨hone, -⟩ := hzero hhead
      rw [List.length_take]
      omega
    have hvalid := Json.Valid.number (Json.Decimal.mk hsign htake
      (fun c hc => hdigits c (List.mem_of_mem_take hc)) hhead
      (Or.inr ⟨_, rfl, hdrop, fun c hc => hdigits c (List.mem_of_mem_drop hc)⟩))
    rw [if_neg hle]
    rwa [List.append_assoc] at hvalid

/-- Every number among the attributes is finite. -/
def Finite (fields : List (Access.Attribute Bytes)) : Prop :=
  ∀ field ∈ fields, ∀ bits, field.value = .float bits → isFinite bits = true

theorem scalarJson_valid {value : Access.Scalar Bytes}
    (h : ∀ bits, value = .float bits → isFinite bits = true) :
    (scalarJson shortest value).Valid := by
  cases value with
  | string item => exact stringJson_valid item
  | signed item => exact signedJson_valid item
  | unsigned item => exact unsignedJson_valid item
  | float item =>
      rw [scalarJson, formatFloat, if_pos (h item rfl)]
      exact (shortest item).format_valid
  | boolean item => exact .boolean item
  | null => exact .null

/-- Members with names and values that can be written. -/
def Sound (members : List (Bytes × Json)) : Prop :=
  ∀ m ∈ members, Lib.Utf8.validate m.1 = true ∧ m.2.Valid

theorem sound_nil : Sound [] := nofun

theorem Sound.append {first second : List (Bytes × Json)} (h : Sound first) (h' : Sound second) :
    Sound (first ++ second) := by
  intro m hm
  rcases List.mem_append.mp hm with hm | hm
  · exact h m hm
  · exact h' m hm

theorem sound_member {name : Bytes} {value : Json} (h : Lib.Utf8.validate name = true)
    (hvalue : value.Valid) : Sound [(name, value)] := by
  intro m hm
  obtain rfl := List.mem_singleton.mp hm
  exact ⟨h, hvalue⟩

theorem sound_optional {name : String} (h : Lib.Utf8.validate (ascii name) = true) {α : Type}
    {json : α → Json} (hvalid : ∀ value, (json value).Valid) (value : Option α) :
    Sound (optionalMember name (value.map json)) := by
  cases value with
  | none => exact sound_nil
  | some value => exact sound_member h (hvalid value)

theorem Sound.object {members : List (Bytes × Json)} (h : Sound members) :
    (Json.object members).Valid :=
  .object (fun m hm => (h m hm).1) fun m hm => (h m hm).2

theorem sound_source (source : Option Source) : Sound (sourceMembers source) := by
  cases source with
  | none => exact sound_nil
  | some identity =>
      exact (sound_member (valid_memberName (by simp [memberNames])) (.string (by decide +kernel))).append
        ((sound_member (valid_memberName (by simp [memberNames])) (stringJson_valid _)).append
          (sound_member (valid_memberName (by simp [memberNames])) (stringJson_valid _)))

theorem sound_connection (connection : Option UInt64) : Sound (connectionMembers connection) := by
  cases connection with
  | none => exact sound_nil
  | some value =>
      exact (sound_member (valid_memberName (by simp [memberNames])) (unsignedJson_valid _)).append
        (sound_member (valid_memberName (by simp [memberNames])) (unsignedJson_valid _))

theorem sound_fields {fields : List (Access.Attribute Bytes)} (hnames : NamesValid fields)
    (hfinite : Finite fields) : Sound (fieldsMembers shortest fields) := by
  cases fields with
  | nil => exact sound_nil
  | cons first rest =>
      refine sound_member (valid_memberName (by simp [memberNames])) (Sound.object fun m hm => ?_)
      obtain ⟨field, hfield, rfl⟩ := List.mem_map.mp hm
      exact ⟨hnames field hfield, scalarJson_valid (hfinite field hfield)⟩

theorem sound_furtherMembers {record : Event} {source : Option Source}
    (hnames : NamesValid record.fields) (hfinite : Finite record.fields) :
    Sound (furtherMembers shortest record source) := by
  have hstring {name : String} (h : Lib.Utf8.validate (ascii name) = true) (value : Option Bytes) :
      Sound (optionalMember name (value.map stringJson)) :=
    sound_optional h stringJson_valid value
  have hnumber {name : String} (h : Lib.Utf8.validate (ascii name) = true) {α : Type}
      (toNat : α → Nat) (value : Option α) :
      Sound (optionalMember name (value.map fun value => unsignedJson (toNat value))) :=
    sound_optional h (fun value => unsignedJson_valid (toNat value)) value
  have hresult : Sound (optionalMember "result" (record.result.map fun value => signedJson value.toInt)) :=
    @sound_optional "result" (valid_memberName (by simp [memberNames])) Int32 (fun value => signedJson value.toInt)
      (fun value => signedJson_valid value.toInt) record.result
  unfold furtherMembers
  refine Sound.append ?_ (sound_fields hnames hfinite)
  refine Sound.append ?_ (hstring (valid_memberName (by simp [memberNames])) record.route)
  refine Sound.append ?_ hresult
  refine Sound.append ?_ (hnumber (valid_memberName (by simp [memberNames])) UInt16.toNat record.port)
  refine Sound.append ?_ (hstring (valid_memberName (by simp [memberNames])) record.address)
  refine Sound.append ?_ (hstring (valid_memberName (by simp [memberNames])) record.phase)
  refine Sound.append ?_ (hstring (valid_memberName (by simp [memberNames])) record.operation)
  refine Sound.append ?_ (hnumber (valid_memberName (by simp [memberNames])) UInt64.toNat record.bytes)
  refine Sound.append ?_ (hnumber (valid_memberName (by simp [memberNames])) UInt64.toNat record.durationNs)
  refine Sound.append ?_ (hstring (valid_memberName (by simp [memberNames])) record.method)
  refine Sound.append ?_ (hstring (valid_memberName (by simp [memberNames])) record.reason)
  refine Sound.append ?_ (hnumber (valid_memberName (by simp [memberNames])) UInt16.toNat record.status)
  refine Sound.append ?_ (hnumber (valid_memberName (by simp [memberNames])) UInt64.toNat record.request)
  refine Sound.append ?_ (hstring (valid_memberName (by simp [memberNames])) record.userAgent)
  refine Sound.append ?_ (hstring (valid_memberName (by simp [memberNames])) record.clientIp)
  refine Sound.append ?_ (sound_connection record.connection)
  refine Sound.append ?_ (sound_source source)
  exact (sound_member (valid_memberName (by simp [memberNames])) (.string (tagName_valid record.level))).append
    ((sound_member (valid_memberName (by simp [memberNames])) (stringJson_valid record.event)).append
      (sound_member (valid_memberName (by simp [memberNames])) (unsignedJson_valid record.worker.toNat)))

theorem recordJson_valid {record : Event} {source : Option Source}
    (hnames : NamesValid record.fields) (hfinite : Finite record.fields) :
    (recordJson shortest record source).Valid := by
  unfold recordJson
  refine Sound.object fun m hm => ?_
  rcases List.mem_cons.mp hm with rfl | hm
  · exact ⟨valid_memberName (by simp [memberNames]), unsignedJson_valid _⟩
  · exact sound_furtherMembers hnames hfinite m hm

/-! ### The line -/

/-- The text of a record is one line, which reads as the members of the event. -/
theorem record_line {record : Event} {source : Option Source} (hnames : NamesValid record.fields)
    (hfinite : Finite record.fields) :
    Ascii.lf ∉ recordText shortest record source ∧
      Json.parse (recordText shortest record source) = some (recordJson shortest record source) := by
  have hvalid : (recordJson shortest record source).Valid := recordJson_valid hnames hfinite
  rw [recordText_eq hnames]
  exact ⟨fun hlf => hvalid.printable _ hlf (by decide), Json.parse_text hvalid⟩

theorem emitted_line {line : Event → Option Bytes} : ∀ (actions : List Action)
    (fifo after : Lib.Fifo UInt8) (answers : List Answer),
      Lib.trace (fifoStep line) fifo actions = some (after, answers) →
        ∀ record, .emitted (some record) ∈ answers →
          ∃ event, .emit event ∈ actions ∧ line event = some record
  | [], fifo, after, answers, htrace, record, hmem => by
      obtain ⟨-, rfl⟩ := Prod.mk.inj (Option.some.inj htrace)
      cases hmem
  | action :: actions, fifo, after, answers, htrace, record, hmem => by
      obtain ⟨⟨middle, answer⟩, hstep, hrest⟩ := Option.bind_eq_some_iff.mp htrace
      obtain ⟨⟨last, others⟩, hrun, hlast⟩ := Option.map_eq_some_iff.mp hrest
      obtain ⟨-, rfl⟩ := Prod.mk.inj hlast
      rcases List.mem_cons.mp hmem with hfirst | hlater
      · obtain rfl : answer = .emitted (some record) := hfirst.symm
        cases action with
        | emit event =>
            refine ⟨event, List.mem_cons_self, ?_⟩
            rw [fifoStep] at hstep
            split at hstep
            · cases hstep
            · rename_i record' hline
              split at hstep
              · obtain ⟨-, hanswer⟩ := Prod.mk.inj (Option.some.inj hstep)
                rw [hline, Option.some.inj (Answer.emitted.inj hanswer)]
              · cases hstep
        | peekAt offset => cases hstep
        | consume =>
            rw [fifoStep] at hstep
            split at hstep <;> cases hstep
        | consumeBytes written =>
            rw [fifoStep] at hstep
            split at hstep <;> cases hstep
      · obtain ⟨event, hevent, hline⟩ := emitted_line actions middle last others hrun record hlater
        exact ⟨event, List.mem_cons_of_mem _ hevent, hline⟩

open Log.Ring in
/-- In every run of a logger, each record that is queued is a text without line feeds and a line feed,
and the text reads as the members of its event, a string field that is not UTF-8 as its bytes.  The
plain copy is made of the ASCII strings that the encoder copies. -/
theorem log_lines_whole (shortest : UInt64 → FloatDecimal) {slots : List Slot}
    (hslots : ∀ slot ∈ slots, slot.Sized) (verbose enabled : Bool) (worker : UInt32)
    (source : Option Source) (actions : List Action) {fifo : Lib.Fifo UInt8} {answers : List Answer}
    (hnames : ∀ event, .emit event ∈ actions → NamesValid event.fields)
    (hfinite : ∀ event, .emit event ∈ actions → Finite event.fields)
    (hrun : Lib.trace (fifoStep ((start slots verbose enabled worker source).line shortest))
      { capacity := slots.length } actions = some (fifo, answers)) :
    (∃ ring, Lib.trace (Ring.step shortest) (start slots verbose enabled worker source) actions =
      some (ring, answers)) ∧
    (∀ record, .emitted (some record) ∈ answers → ∃ event line, .emit event ∈ actions ∧
      record = line ++ [Ascii.lf] ∧ Ascii.lf ∉ line ∧
      Json.parse line = some (recordJson shortest { event with worker := worker } source)) ∧
    ∀ value, canCopyJsonString value = true ↔
      encodeJsonString value = Lib.Json.quote :: value ++ [Lib.Json.quote] ∧ ∀ c ∈ value, c ≤ 0x7f := by
  have hstart := @start_refines shortest slots hslots verbose enabled worker source
  obtain ⟨ring, htrace, -⟩ := trace_ring actions hstart hrun
  refine ⟨⟨ring, htrace⟩, fun record hrecord => ?_, fun value => canCopyJsonString_plain⟩
  obtain ⟨event, hevent, hline⟩ := emitted_line actions _ _ _ hrun record hrecord
  rw [line] at hline
  split at hline
  · have hvalid : NamesValid ({ event with worker := worker } : Event).fields := hnames event hevent
    obtain ⟨hlf, hparse⟩ := @record_line shortest _ source hvalid (hfinite event hevent)
    exact ⟨event, _, hevent, (Option.some.inj hline).symm, hlf, hparse⟩
  · cases hline

/-- Requests with a quote, a line feed and a byte that is not UTF-8. -/
def awkwardActions : List Action :=
  [.emit { timestampNs := 1, event := ascii "a", reason := some (ascii "quote\"\nline") },
    .emit { timestampNs := 2, event := [0xff], fields := [⟨ascii "n", .unsigned 12⟩] }]

theorem log_lines_whole_awkward :
    ∃ answers, (∃ ring, Lib.trace (Ring.step noDecimal)
        (Ring.start (List.replicate 2 ⟨List.replicate 2048 0, 0, 0⟩) false true 7 none)
        awkwardActions = some (ring, answers)) ∧ answers.length = 2 ∧
      ∀ record, .emitted (some record) ∈ answers → ∃ event line, .emit event ∈ awkwardActions ∧
        record = line ++ [Ascii.lf] ∧ Ascii.lf ∉ line ∧
        Json.parse line = some (recordJson noDecimal { event with worker := 7 } none) := by
  have hslots : ∀ slot ∈ List.replicate 2 (Slot.mk (List.replicate 2048 0) 0 0), slot.Sized := by
    intro slot hslot
    obtain ⟨-, rfl⟩ := List.mem_replicate.mp hslot
    exact List.length_replicate
  have hevents : ∀ event, .emit event ∈ awkwardActions →
      event.fields = [] ∨ event.fields = [⟨ascii "n", .unsigned 12⟩] := by
    intro event hevent
    rcases List.mem_cons.mp hevent with heq | hevent
    · obtain rfl := Action.emit.inj heq
      exact Or.inl rfl
    · obtain rfl := Action.emit.inj (List.mem_singleton.mp hevent)
      exact Or.inr rfl
  have hnames : ∀ event, .emit event ∈ awkwardActions → NamesValid event.fields := by
    intro event hevent
    rcases hevents event hevent with hnone | hone
    · exact hnone ▸ nofun
    · rw [hone]
      intro field hfield
      obtain rfl := List.mem_singleton.mp hfield
      decide +kernel
  have hfinite : ∀ event, .emit event ∈ awkwardActions → Finite event.fields := by
    intro event hevent
    rcases hevents event hevent with hnone | hone
    · exact hnone ▸ nofun
    · rw [hone]
      intro field hfield bits hbits
      obtain rfl := List.mem_singleton.mp hfield
      cases hbits
  obtain ⟨⟨fifo, answers⟩, hrun, hlength⟩ : ∃ read, Lib.trace (fifoStep
      ((Ring.start (List.replicate 2 ⟨List.replicate 2048 0, 0, 0⟩) false true 7 none).line noDecimal))
        { capacity := (List.replicate 2 (Slot.mk (List.replicate 2048 0) 0 0)).length } awkwardActions =
          some read ∧ read.2.length = 2 :=
    ⟨_, (Option.some_get (by decide +kernel)).symm, by decide +kernel⟩
  obtain ⟨hring, hlines, -⟩ := log_lines_whole noDecimal hslots false true 7 none awkwardActions hnames
    hfinite hrun
  exact ⟨answers, hring, hlength, hlines⟩

/-- A string beyond ASCII is rejected although the encoder copies it, and an attribute whose name is
no string leaves no object. -/
theorem log_line_broken :
    canCopyJsonString [0xc3, 0xa9] = false ∧
      encodeJsonString [0xc3, 0xa9] = Lib.Json.quote :: [0xc3, 0xa9] ++ [Lib.Json.quote] ∧
      (Json.parse (recordText noDecimal
        { timestampNs := 1, event := [], fields := [⟨[0xff], .null⟩] } none)).isNone = true := by
  decide +kernel

end Zhtps.Log
