import Zhtps.Http.Chunked
import Zhtps.Http.Grammar
import Zhtps.Http.ResponseHead

/-!
A response as its recipient reads it.

The recipient knows the method of its request.  It reads lines up to the empty one, decides from
the status and the fields how the body is delimited, and takes the body off what it has received.
-/

namespace Zhtps

open Response

namespace Recipient

/-! ### Reading -/

/-- The lines up to the empty one, and what follows; the line in progress comes reversed. -/
def readLines (line : Bytes) : Bytes → Option (List Bytes × Bytes)
  | c :: d :: rest =>
      if c = Ascii.cr ∧ d = Ascii.lf then
        if line = [] then some ([], rest)
        else (readLines [] rest).map fun (lines, rest) => (line.reverse :: lines, rest)
      else readLines (c :: line) (d :: rest)
  | _ => none

/-- One line, and what follows. -/
def readLine : Bytes → Option (Bytes × Bytes)
  | c :: d :: rest =>
      if c = Ascii.cr ∧ d = Ascii.lf then some ([], rest)
      else (readLine (d :: rest)).map fun (line, rest) => (c :: line, rest)
  | _ => none

def readNumber (base : Nat) (text : Bytes) : Option Nat :=
  if text ≠ [] ∧ (text.all fun c => (Fmt.charToDigit c base).isSome) = true then
    some (Grammar.numeral base text)
  else none

/-- The status behind `HTTP/1.` and one digit. -/
def readStatus (line : Bytes) : Option Nat :=
  if line.take 7 = ascii "HTTP/1." then readNumber 10 ((line.drop 9).take 3) else none

def readFields : List Bytes → Option (List Header)
  | [] => some []
  | line :: lines =>
      match Request.parseHeader line, readFields lines with
      | .ok field, some fields => some (field :: fields)
      | _, _ => none

structure Head where
  status : Nat
  fields : List Header

/-- The head of a response, and what follows. -/
def readHead (wire : Bytes) : Option (Head × Bytes) :=
  match readLines [] wire with
  | some (line :: lines, rest) =>
      match readStatus line, readFields lines with
      | some status, some fields => some (⟨status, fields⟩, rest)
      | _, _ => none
  | _ => none

/-- How a body ends. -/
inductive Delimiter
  | nothing
  | length (n : Nat)
  | chunked
  /-- The body goes on until the connection is closed. -/
  | closure
  deriving DecidableEq, Repr

def values (name : Bytes) (fields : List Header) : List Bytes :=
  (fields.filter fun field => Syntax.eql field.name name).map Header.value

/-- The last coding of a list. -/
def lastCoding (value : Bytes) : Bytes :=
  Syntax.trim ((Mem.splitScalar 0x2c value).getLastD [])

/-- The rules in their order: what has no body, transfer codings, lengths, closure.  A successful
CONNECT is a tunnel and has no delimiter. -/
def delimiter (method : Bytes) (head : Head) : Option Delimiter :=
  if method = ascii "HEAD" ∨ head.status < 200 ∨ head.status = 204 ∨ head.status = 304 then
    some .nothing
  else if method = ascii "CONNECT" ∧ head.status < 300 then none
  else
    match (values (ascii "Transfer-Encoding") head.fields).getLast? with
    | some codings =>
        if Syntax.eql (lastCoding codings) (ascii "chunked") then some .chunked else some .closure
    | none =>
        match values (ascii "Content-Length") head.fields with
        | [] => some .closure
        | [value] => (readNumber 10 value).map .length
        | _ => none

/-- The chunks up to the last one, and what follows the trailers. -/
def readChunks : Nat → Bytes → Option (Bytes × Bytes)
  | 0, _ => none
  | fuel + 1, wire =>
      match readLine wire with
      | none => none
      | some (line, rest) =>
          match readNumber 16 (line.takeWhile (· != 0x3b)) with
          | none => none
          | some 0 => (readLines [] rest).map fun (_, rest) => ([], rest)
          | some n =>
              if (rest.drop n).take 2 = crlf then
                (readChunks fuel (rest.drop (n + 2))).map fun (bytes, rest') =>
                  (rest.take n ++ bytes, rest')
              else none

/-- The body of the response at the front of what was received, and what follows it. -/
def receive (method wire : Bytes) (closed : Bool) : Option (Bytes × Bytes) :=
  match readHead wire with
  | none => none
  | some (head, rest) =>
      match delimiter method head with
      | none => none
      | some .nothing => some ([], rest)
      | some (.length n) => if n ≤ rest.length then some (rest.take n, rest.drop n) else none
      | some .chunked => readChunks (rest.length + 1) rest
      | some .closure => if closed then some (rest, []) else none

example :
    receive (ascii "GET") (ascii
      "HTTP/1.1 200 OK\r\nTransfer-Encoding: chunked\r\n\r\n3\r\nabc\r\n0\r\n\r\nHTTP") false =
      some (ascii "abc", ascii "HTTP") := by decide +kernel

/-! ### Reading what was written -/

theorem readLine_line {line : Bytes} (h : plain line = true) (rest : Bytes) :
    readLine (line ++ crlf ++ rest) = some (line, rest) := by
  induction line with
  | nil => simp [crlf, readLine]
  | cons c line ih =>
      simp only [plain, List.all_cons, Bool.and_eq_true] at h
      have htail := ih h.2
      have hcr : ¬c = Ascii.cr := by simpa using h.1.1
      cases hrest : line ++ crlf ++ rest with
      | nil => simp [crlf] at hrest
      | cons d more =>
          rw [hrest] at htail
          rw [List.cons_append, List.cons_append, hrest, readLine, if_neg (fun h => hcr h.1), htail]
          rfl

theorem readLines_line {line : Bytes} (h : plain line = true) (front rest : Bytes) :
    readLines front (line ++ crlf ++ rest) =
      if front.reverse ++ line = [] then some ([], rest)
      else (readLines [] rest).map fun (lines, rest) =>
        ((front.reverse ++ line) :: lines, rest) := by
  induction line generalizing front with
  | nil =>
      rw [List.append_nil, List.nil_append]
      simp [crlf, readLines]
  | cons c line ih =>
      simp only [plain, List.all_cons, Bool.and_eq_true] at h
      have htail := ih h.2 (c :: front)
      have hcr : ¬c = Ascii.cr := by simpa using h.1.1
      cases hrest : line ++ crlf ++ rest with
      | nil => simp [crlf] at hrest
      | cons d more =>
          rw [hrest] at htail
          rw [List.cons_append, List.cons_append, hrest, readLines, if_neg (fun h => hcr h.1), htail]
          simp

/-- Lines that are not empty come apart again at the empty one. -/
theorem readLines_flatMap {lines : List Bytes} (hplain : ∀ line ∈ lines, plain line = true)
    (hne : ∀ line ∈ lines, line ≠ []) (rest : Bytes) :
    readLines [] (lines.flatMap (· ++ crlf) ++ (crlf ++ rest)) = some (lines, rest) := by
  induction lines with
  | nil => simp [crlf, readLines]
  | cons line lines ih =>
      obtain ⟨hline, hlines⟩ := List.forall_mem_cons.mp hplain
      obtain ⟨hne, hrest⟩ := List.forall_mem_cons.mp hne
      rw [List.flatMap_cons, List.append_assoc, readLines_line hline, List.reverse_nil,
        List.nil_append, if_neg hne, ih hlines hrest]
      rfl

theorem numeral_digits {base n : Nat} (hone : 1 < base) (hbase : base ≤ 16) :
    Grammar.numeral base (digits base n) = n := by
  induction n using Nat.strongRecOn with
  | ind n ih =>
      by_cases hlt : n < base
      · rw [digits_of_lt hlt, Grammar.numeral, List.foldl_cons, List.foldl_nil,
          (charToDigit_digitByte hbase hlt).1, Option.getD_some, Nat.zero_mul, Nat.zero_add]
      · have hmod : n % base < base := Nat.mod_lt _ (by omega)
        have hfront := ih (n / base) (Nat.div_lt_self (by omega) hone)
        rw [Grammar.numeral] at hfront ⊢
        rw [digits_of_le hone (by omega), List.foldl_append, hfront, List.foldl_cons,
          List.foldl_nil, (charToDigit_digitByte hbase hmod).1, Option.getD_some, Nat.mul_comm]
        exact Nat.div_add_mod n base

theorem readNumber_digits {base : Nat} (hone : 1 < base) (hbase : base ≤ 16) (n : Nat) :
    readNumber base (digits base n) = some n := by
  rw [readNumber, if_pos, numeral_digits hone hbase]
  refine ⟨digits_ne_nil base n, List.all_eq_true.mpr fun c hc => ?_⟩
  obtain ⟨d, hd, rfl⟩ := mem_digits hone hc
  rw [(charToDigit_digitByte hbase hd).1]
  rfl

theorem plain_hex (n : Nat) : plain (digits 16 n) = true := by
  have hall : ∀ d : Fin 16, (digitByte d != Ascii.cr && digitByte d != Ascii.lf) = true := by decide
  rw [plain, List.all_eq_true]
  intro c hc
  obtain ⟨d, hd, rfl⟩ := mem_digits (by decide) hc
  exact hall ⟨d, hd⟩

/-- The size of a chunk, on a line of its own. -/
theorem readSize (n : Nat) (rest : Bytes) :
    readLine (digits 16 n ++ crlf ++ rest) = some (digits 16 n, rest) ∧
      readNumber 16 ((digits 16 n).takeWhile (· != 0x3b)) = some n := by
  have hall : ∀ d : Fin 16, (digitByte d != 0x3b) = true := by decide
  refine ⟨readLine_line (plain_hex n) rest, ?_⟩
  rw [List.takeWhile_eq_self_iff.mpr, readNumber_digits (by decide) (by decide)]
  intro c hc
  obtain ⟨d, hd, rfl⟩ := mem_digits (by decide) hc
  exact hall ⟨d, hd⟩

/-- Chunks are read back, up to what follows the last one. -/
theorem readChunks_chunks {fragments : List Bytes} {rest : Bytes} :
    ∀ {fuel : Nat}, (fragments.flatMap chunk).length < fuel →
      readChunks fuel (fragments.flatMap chunk ++ (ascii "0\r\n\r\n" ++ rest)) =
        some (fragments.flatten, rest) := by
  induction fragments with
  | nil =>
      intro fuel hfuel
      obtain ⟨hline, hsize⟩ := readSize 0 (crlf ++ rest)
      have hend : ascii "0\r\n\r\n" ++ rest = digits 16 0 ++ crlf ++ (crlf ++ rest) := by
        rw [show ascii "0\r\n\r\n" = digits 16 0 ++ crlf ++ crlf by decide, List.append_assoc]
      cases fuel with
      | zero => exact absurd hfuel (Nat.not_lt_zero _)
      | succ fuel =>
          rw [List.flatMap_nil, List.nil_append, hend, readChunks, hline]
          simp only
          rw [hsize]
          simp [crlf, readLines]
  | cons fragment fragments ih =>
      intro fuel hfuel
      rw [List.flatMap_cons] at hfuel ⊢
      by_cases hempty : fragment = []
      · rw [hempty, chunk, if_pos rfl, List.nil_append] at hfuel ⊢
        exact ih hfuel
      · obtain ⟨hline, hsize⟩ := readSize fragment.length
          (fragment ++ (crlf ++ (fragments.flatMap chunk ++ (ascii "0\r\n\r\n" ++ rest))))
        have hchunk : chunk fragment ++ fragments.flatMap chunk ++ (ascii "0\r\n\r\n" ++ rest) =
            digits 16 fragment.length ++ crlf ++ (fragment ++ (crlf ++
              (fragments.flatMap chunk ++ (ascii "0\r\n\r\n" ++ rest)))) := by
          rw [chunk, if_neg hempty]
          simp only [List.append_assoc]
        obtain ⟨k, hk⟩ := Nat.exists_eq_succ_of_ne_zero
          (fun h => hempty (List.length_eq_zero_iff.mp h))
        cases fuel with
        | zero => exact absurd hfuel (Nat.not_lt_zero _)
        | succ fuel =>
            have hshorter : (fragments.flatMap chunk).length < fuel := by
              rw [List.length_append, chunk, if_neg hempty] at hfuel
              simp only [List.length_append, crlf, List.length_cons] at hfuel
              omega
            rw [hchunk, readChunks, hline]
            simp only
            rw [hsize, hk]
            simp only
            rw [← hk, List.drop_left, ← List.drop_drop, List.drop_left, List.take_left]
            have hends : ∀ more : Bytes, (crlf ++ more).take 2 = crlf ∧ (crlf ++ more).drop 2 = more :=
              fun more => ⟨rfl, rfl⟩
            rw [(hends _).1, (hends _).2, if_pos rfl, ih hshorter]
            rfl

/-! ### The head of a response -/

def connectionFields (version : Version) (status : Nat) (closing : Bool) : List Header :=
  if status < 200 then []
  else if closing then [⟨ascii "Connection", ascii "close"⟩]
  else if version = .http10 then [⟨ascii "Connection", ascii "keep-alive"⟩]
  else []

def framingFields (plan : Framing) (chunked : Bool) : List Header :=
  match plan.contentLength with
  | some length => [⟨ascii "Content-Length", digits 10 length⟩]
  | none => if chunked then [⟨ascii "Transfer-Encoding", ascii "chunked"⟩] else []

/-- The fields of a head, those of the server first. -/
def allFields (response : Response) (request : Request) (date : Bytes) (plan : Framing) :
    List Header :=
  ⟨ascii "Date", date⟩ ::
    (connectionFields request.version response.status (closes response request plan) ++
      framingFields plan (chunks request plan) ++ response.headers)

theorem headLines_fields (response : Response) (request : Request) (date : Bytes)
    (plan : Framing) :
    headLines response request date plan =
      (statusText request.version response.status ::
        (allFields response request date plan).map fieldText) ++ [[]] := by
  have hdate : fieldText ⟨ascii "Date", date⟩ = ascii "Date: " ++ date := by
    rw [fieldText, show ascii "Date: " = ascii "Date" ++ ascii ": " by decide]
  have hconnection (version : Version) (status : Nat) (closing : Bool) :
      (connectionFields version status closing).map fieldText =
        connectionTexts version status closing := by
    unfold connectionFields connectionTexts
    split
    · rfl
    · split
      · decide
      · split
        · decide
        · rfl
  have hframing (chunked : Bool) :
      (framingFields plan chunked).map fieldText = framingTexts plan chunked := by
    unfold framingFields framingTexts
    cases plan.contentLength with
    | some length =>
        rw [List.map_singleton, fieldText,
          show ascii "Content-Length: " = ascii "Content-Length" ++ ascii ": " by decide]
    | none =>
        cases chunked with
        | true => decide
        | false => rfl
  rw [headLines, allFields, List.map_cons, List.map_append, List.map_append, hdate, hconnection,
    hframing]
  simp only [List.cons_append, List.append_assoc]

theorem isField_append (xs ys : Bytes) :
    Syntax.isField (xs ++ ys) = (Syntax.isField xs && Syntax.isField ys) := by
  rw [isField_eq, isField_eq, isField_eq, List.all_append]

theorem isField_twoDigits (n : Nat) : Syntax.isField (twoDigits n) = true := by
  rw [twoDigits, isField_append, isField_digits, Bool.and_true, isField_eq, List.all_eq_true]
  intro c hc
  rw [List.eq_of_mem_replicate hc]
  decide

theorem isField_getD {texts : List Bytes} (h : texts.all Syntax.isField = true) (n : Nat) :
    Syntax.isField (texts.getD n []) = true := by
  rw [List.getD_eq_getElem?_getD]
  cases hget : texts[n]? with
  | none => rfl
  | some text => exact List.all_eq_true.mp h text (List.mem_of_getElem? hget)

theorem isField_formatDate (arm : Bool) (seconds : Nat) :
    Syntax.isField (formatDate arm seconds) = true := by
  have hweekdays : Zeit.weekdays.all Syntax.isField = true := by decide
  have hmonths : Zeit.months.all Syntax.isField = true := by decide
  have htexts : Syntax.isField (ascii ", ") = true ∧ Syntax.isField (ascii " ") = true ∧
      Syntax.isField (ascii ":") = true ∧ Syntax.isField (ascii " GMT") = true := by decide
  simp only [formatDate, isField_append, isField_getD hweekdays, isField_getD hmonths,
    isField_twoDigits, isField_digits, htexts, Bool.and_self]

/-- Every field of an accepted head is well formed. -/
theorem allFields_valid {response : Response} {request : Request} {plan : Framing} {arm : Bool}
    {seconds : Nat} (h : framing response request = .ok plan) :
    ∀ field ∈ allFields response request (formatDate arm seconds) plan,
      Syntax.isToken field.name = true ∧ Syntax.isField field.value = true := by
  intro field hfield
  rw [allFields, List.mem_cons, List.mem_append, List.mem_append] at hfield
  have hlength : Syntax.isToken (ascii "Content-Length") = true := by decide
  have hname : Syntax.isToken (ascii "Date") = true := by decide
  rcases hfield with rfl | (hfield | hfield) | hfield
  · exact ⟨hname, isField_formatDate arm seconds⟩
  · unfold connectionFields at hfield
    split at hfield
    · cases hfield
    · split at hfield
      · rw [List.mem_singleton.mp hfield]
        decide
      · split at hfield
        · rw [List.mem_singleton.mp hfield]
          decide
        · cases hfield
  · unfold framingFields at hfield
    split at hfield
    · rw [List.mem_singleton.mp hfield]
      exact ⟨hlength, isField_digits _⟩
    · split at hfield
      · rw [List.mem_singleton.mp hfield]
        decide
      · cases hfield
  · obtain ⟨hname, hvalue, -⟩ := framing_fields h hfield
    exact ⟨hname, hvalue⟩

def trimmed (field : Header) : Header := ⟨field.name, Syntax.trim field.value⟩

theorem readFields_map {fields : List Header}
    (h : ∀ field ∈ fields, Syntax.isToken field.name = true ∧ Syntax.isField field.value = true) :
    readFields (fields.map fieldText) = some (fields.map trimmed) := by
  induction fields with
  | nil => rfl
  | cons field fields ih =>
      obtain ⟨hfield, hfields⟩ := List.forall_mem_cons.mp h
      rw [List.map_cons, List.map_cons, readFields, ih hfields,
        parseHeader_fieldText hfield.1 hfield.2]
      rfl

theorem readStatus_statusText {version : Version} {status : Nat} (hlow : 100 ≤ status)
    (hhigh : status ≤ 599) : readStatus (statusText version status) = some status := by
  have hthree := length_digits_status hlow hhigh
  obtain ⟨minor, hminor⟩ : ∃ minor, digits 10 (if version = .http10 then 0 else 1) = [minor] :=
    ⟨_, digits_of_lt (by split <;> decide)⟩
  have htext : statusText version status =
      ascii "HTTP/1." ++ (minor :: 0x20 :: (digits 10 status ++ (ascii " " ++ reason status))) := by
    rw [statusText, hminor]
    simp only [List.append_assoc]
    rfl
  have htake : (ascii "HTTP/1." ++
      (minor :: 0x20 :: (digits 10 status ++ (ascii " " ++ reason status)))).take 7 =
        ascii "HTTP/1." := rfl
  have hdrop : (ascii "HTTP/1." ++
      (minor :: 0x20 :: (digits 10 status ++ (ascii " " ++ reason status)))).drop 9 =
        digits 10 status ++ (ascii " " ++ reason status) := rfl
  rw [readStatus, htext, if_pos htake, hdrop, ← hthree, List.take_left,
    readNumber_digits (by decide) (by decide)]

theorem append_ne_nil_left {xs : Bytes} (h : xs ≠ []) (ys : Bytes) : xs ++ ys ≠ [] := by
  cases xs with
  | nil => exact absurd rfl h
  | cons x xs => exact nofun

/-- The recipient reads the status and the fields that were written. -/
theorem readHead_head {response : Response} {request : Request} {plan : Framing} {arm : Bool}
    {seconds : Nat} (h : framing response request = .ok plan) (rest : Bytes) :
    readHead (head response request (formatDate arm seconds) plan ++ rest) =
      some (⟨response.status,
        (allFields response request (formatDate arm seconds) plan).map trimmed⟩, rest) := by
  have hplain := plain_headLines h (plain_formatDate arm seconds)
  have hvalid := @allFields_valid response request plan arm seconds h
  obtain ⟨hlow, hhigh, -⟩ := framing_ok h
  rw [headLines_fields] at hplain
  have hne : ∀ line ∈ statusText request.version response.status ::
      (allFields response request (formatDate arm seconds) plan).map fieldText, line ≠ [] := by
    intro line hline
    rcases List.mem_cons.mp hline with rfl | hline
    · rw [statusText, List.append_assoc, List.append_assoc, List.append_assoc, List.append_assoc]
      rintro ⟨⟩
    · obtain ⟨field, hfield, rfl⟩ := List.mem_map.mp hline
      have hname := (hvalid field hfield).1
      rw [fieldText, List.append_assoc]
      refine append_ne_nil_left (fun hnil => ?_) _
      rw [hnil] at hname
      exact absurd hname (by decide)
  rw [head_eq, headLines_fields, List.flatMap_append, List.append_assoc]
  have hlast : ([[]] : List Bytes).flatMap (· ++ crlf) = crlf := rfl
  rw [hlast, readHead, readLines_flatMap (fun line hline => hplain line
    (List.mem_append_left _ hline)) hne]
  simp only
  rw [readStatus_statusText hlow hhigh, readFields_map hvalid]

theorem values_append (name : Bytes) (xs ys : List Header) :
    values name (xs ++ ys) = values name xs ++ values name ys := by
  rw [values, List.filter_append, List.map_append]
  rfl

theorem values_none {name : Bytes} {fields : List Header}
    (h : ∀ field ∈ fields, Syntax.eql field.name name = false) : values name fields = [] := by
  rw [values, List.filter_eq_nil_iff.mpr, List.map_nil]
  intro field hfield
  rw [h field hfield]
  exact Bool.false_ne_true

theorem values_singleton {name : Bytes} {field : Header}
    (h : Syntax.eql field.name name = true) : values name [field] = [field.value] := by
  rw [values, List.filter_cons, if_pos h]
  rfl

/-- Only the server sets the fields that frame a body. -/
theorem values_allFields {response : Response} {request : Request} {date name : Bytes}
    {plan : Framing} (hdate : Syntax.eql (ascii "Date") name = false)
    (hconnection : Syntax.eql (ascii "Connection") name = false)
    (hsupplied : ∀ field ∈ response.headers, Syntax.eql field.name name = false) :
    values name ((allFields response request date plan).map trimmed) =
      values name ((framingFields plan (chunks request plan)).map trimmed) := by
  have hfields : values name (response.headers.map trimmed) = [] := by
    refine values_none fun field hfield => ?_
    obtain ⟨supplied, hmem, rfl⟩ := List.mem_map.mp hfield
    exact hsupplied supplied hmem
  have hclosing (version : Version) (status : Nat) (closing : Bool) :
      values name ((connectionFields version status closing).map trimmed) = [] := by
    refine values_none fun field hfield => ?_
    obtain ⟨written, hmem, rfl⟩ := List.mem_map.mp hfield
    unfold connectionFields at hmem
    split at hmem
    · cases hmem
    · split at hmem
      · rw [List.mem_singleton.mp hmem]
        exact hconnection
      · split at hmem
        · rw [List.mem_singleton.mp hmem]
          exact hconnection
        · cases hmem
  rw [allFields, List.map_cons, List.map_append, List.map_append, ← List.singleton_append,
    values_append, values_append, values_append, hfields, hclosing, List.append_nil,
    List.nil_append, values_none, List.nil_append]
  intro field hfield
  rw [List.mem_singleton.mp hfield]
  exact hdate

theorem eql_reserved {response : Response} {request : Request} {plan : Framing} {name : Bytes}
    (h : framing response request = .ok plan)
    (hname : ∃ reserved ∈ reservedFields, reserved = name.map Ascii.toLower ∧
      reserved.map Ascii.toLower = reserved) :
    ∀ field ∈ response.headers, Syntax.eql field.name name = false := by
  intro field hfield
  obtain ⟨-, -, hreserved⟩ := framing_fields h hfield
  obtain ⟨reserved, hmem, rfl, hlower⟩ := hname
  have heql := List.any_eq_false.mp hreserved _ hmem
  rw [Bool.not_eq_true, Syntax.eql, Ascii.eqlIgnoreCase, hlower] at heql
  exact heql

theorem trim_digits (n : Nat) : Syntax.trim (digits 10 n) = digits 10 n := by
  have hall : ∀ d : Fin 10, Grammar.isBlank (digitByte d) = false := by decide
  have hstops : ∀ bytes : Bytes, (∀ c ∈ bytes, c ∈ digits 10 n) → Grammar.Stops Grammar.isBlank bytes := by
    intro bytes hbytes c hc
    obtain ⟨d, hd, rfl⟩ := mem_digits (by decide) (hbytes c (List.mem_of_mem_head? hc))
    exact hall ⟨d, hd⟩
  rw [Syntax.trim, Mem.trim, Grammar.trimStart_of_stops (hstops _ fun c hc => hc),
    Grammar.trimStart_of_stops (hstops _ fun c hc => List.mem_reverse.mp hc), List.reverse_reverse]

/-- How the recipient of an accepted head finds the end of the body. -/
theorem delimiter_head {response : Response} {request : Request} {plan : Framing} {date : Bytes}
    (h : framing response request = .ok plan) :
    delimiter request.method
        ⟨response.status, (allFields response request date plan).map trimmed⟩ =
      some (if request.method = ascii "HEAD" ∨ response.status < 200 ∨ response.status = 204 ∨
          response.status = 304 then .nothing
        else match plan.contentLength with
          | some n => .length n
          | none => if chunks request plan then .chunked else .closure) := by
  have hlengths := @values_allFields response request date (ascii "Content-Length") plan
    (by decide) (by decide) (eql_reserved h ⟨ascii "content-length", by decide, by decide, by decide⟩)
  have hcodings := @values_allFields response request date (ascii "Transfer-Encoding") plan
    (by decide) (by decide)
    (eql_reserved h ⟨ascii "transfer-encoding", by decide, by decide, by decide⟩)
  obtain ⟨-, -, hconnect, -⟩ := framing_ok h
  unfold delimiter
  simp only
  split
  · rfl
  next hbody =>
    rw [if_neg (fun htunnel => hconnect ⟨htunnel.1, by omega, htunnel.2⟩), hlengths, hcodings]
    unfold framingFields
    cases plan.contentLength with
    | some n =>
        have hcoding : values (ascii "Transfer-Encoding")
            [trimmed ⟨ascii "Content-Length", digits 10 n⟩] = [] := by
          refine values_none fun field hfield => ?_
          rw [List.mem_singleton.mp hfield]
          show Syntax.eql (ascii "Content-Length") _ = false
          decide
        have hlength : values (ascii "Content-Length")
            [trimmed ⟨ascii "Content-Length", digits 10 n⟩] = [digits 10 n] := by
          have heql : Syntax.eql (ascii "Content-Length") (ascii "Content-Length") = true := by
            decide
          rw [values_singleton heql, trimmed, trim_digits]
        simp only [List.map_singleton]
        rw [hcoding, hlength]
        simp only [List.getLast?_nil]
        rw [readNumber_digits (by decide) (by decide)]
        rfl
    | none =>
        cases chunks request plan with
        | true => decide
        | false => decide

/-! ### Writing a body -/

/-- What a sequence of writes has emitted so far, and which fragments were taken. -/
structure Sent where
  encoder : Encoder
  wire : Bytes := []
  fragments : List Bytes := []
  /-- A writer was full, after which the caller closes the transport. -/
  broken : Bool := false

/-- One write, to a writer with so much room. -/
def Sent.write (sent : Sent) (call : Nat × Bytes) : Sent :=
  if sent.broken then sent
  else
    match sent.encoder.write call.2 with
    | .error _ => sent
    | .ok (encoder, bytes) =>
        if bytes.length ≤ call.1 then
          { sent with
            encoder, wire := sent.wire ++ bytes, fragments := sent.fragments ++ [call.2] }
        else { sent with wire := sent.wire ++ bytes.take call.1, broken := true }

def writes (encoder : Encoder) (calls : List (Nat × Bytes)) : Sent :=
  calls.foldl Sent.write { encoder }

/-- What the writes of an encoder amount to, by the mode that it began in. -/
def Sent.Encoded (mode : Mode) (sent : Sent) : Prop :=
  match mode with
  | .fixed n => sent.wire.length ≤ n ∧ (sent.broken = false →
      sent.encoder.mode = .fixed (n - sent.wire.length) ∧ sent.wire = sent.fragments.flatten)
  | .chunked => sent.broken = false →
      sent.encoder.mode = .chunked ∧ sent.wire = sent.fragments.flatMap chunk
  | .closing => sent.broken = false →
      sent.encoder.mode = .closing ∧ sent.wire = sent.fragments.flatten
  | .suppressed => sent.broken = false → sent.encoder.mode = .suppressed ∧ sent.wire = []
  | .finished => sent.encoder.mode = .finished

theorem write_encoded {mode : Mode} {sent : Sent} (h : sent.Encoded mode) (call : Nat × Bytes) :
    (sent.write call).Encoded mode := by
  unfold Sent.write
  cases hbroken : sent.broken with
  | true => exact h
  | false =>
      rw [if_neg Bool.false_ne_true]
      cases mode with
      | fixed n =>
          obtain ⟨hle, hshown⟩ := h
          obtain ⟨hmode, hwire⟩ := hshown hbroken
          rw [Encoder.write, hmode]
          simp only
          split
          next heq =>
            split at heq
            · exact ⟨hle, fun _ => ⟨hmode, hwire⟩⟩
            · cases heq
          next heq =>
            split at heq
            · cases heq
            next hfits =>
              cases heq
              split
              · refine ⟨by simp only [List.length_append]; omega, fun _ => ⟨?_, ?_⟩⟩
                · simp only [List.length_append, Nat.sub_add_eq]
                · simp only [List.flatten_append, List.flatten_singleton, hwire]
              · refine ⟨?_, by rintro ⟨⟩⟩
                simp only [List.length_append, List.length_take]
                omega
      | chunked =>
          obtain ⟨hmode, hwire⟩ := h hbroken
          rw [Encoder.write, hmode]
          simp only
          by_cases hempty : call.2 = []
          · rw [if_pos hempty]
            simp only [List.length_nil, Nat.zero_le, if_true, List.append_nil]
            refine fun _ => ⟨hmode, ?_⟩
            rw [List.flatMap_append, List.flatMap_singleton, chunk, if_pos hempty, List.append_nil,
              hwire]
          · rw [if_neg hempty]
            simp only
            split
            · refine fun _ => ⟨hmode, ?_⟩
              rw [List.flatMap_append, List.flatMap_singleton, chunk, if_neg hempty, hwire]
            · rintro ⟨⟩
      | closing =>
          obtain ⟨hmode, hwire⟩ := h hbroken
          rw [Encoder.write, hmode]
          simp only
          split
          · refine fun _ => ⟨hmode, ?_⟩
            rw [List.flatten_append, List.flatten_singleton, hwire]
          · rintro ⟨⟩
      | suppressed =>
          obtain ⟨hmode, hwire⟩ := h hbroken
          rw [Encoder.write, hmode]
          simp only [List.length_nil, Nat.zero_le, if_true, List.append_nil]
          exact fun _ => ⟨hmode, hwire⟩
      | finished =>
          rw [Encoder.write, show sent.encoder.mode = .finished from h]
          exact h

theorem writes_encoded (encoder : Encoder) (calls : List (Nat × Bytes)) :
    (writes encoder calls).Encoded encoder.mode := by
  have hloop : ∀ sent : Sent, sent.Encoded encoder.mode →
      (calls.foldl Sent.write sent).Encoded encoder.mode := by
    induction calls with
    | nil => exact fun sent h => h
    | cons call calls ih => exact fun sent h => ih _ (write_encoded h call)
  apply hloop
  unfold Sent.Encoded
  cases encoder.mode with
  | fixed n => exact ⟨Nat.zero_le _, fun _ => ⟨rfl, rfl⟩⟩
  | chunked => exact fun _ => ⟨rfl, rfl⟩
  | closing => exact fun _ => ⟨rfl, rfl⟩
  | suppressed => exact fun _ => ⟨rfl, rfl⟩
  | finished => rfl


/-! ### Recovering it -/

/-- The delimiters that the modes of an encoder stand for.  A body that is suppressed has none, or is
empty. -/
def Delimits (mode : Mode) (d : Delimiter) : Prop :=
  match mode with
  | .fixed n => d = .length n
  | .chunked => d = .chunked
  | .closing => d = .closure
  | .suppressed => d = .nothing ∨ d = .length 0
  | .finished => False

theorem delimiter_delimits {response : Response} {request : Request} {plan : Framing} {date : Bytes}
    (h : framing response request = .ok plan) :
    ∃ d, delimiter request.method
        ⟨response.status, (allFields response request date plan).map trimmed⟩ = some d ∧
      Delimits (mode request plan) d := by
  obtain ⟨-, -, -, hempty, hplan⟩ := framing_ok h
  refine ⟨_, delimiter_head h, ?_⟩
  have hsuppressed := congrArg Response.Framing.suppressed hplan
  have hlength := congrArg Response.Framing.contentLength hplan
  simp only at hsuppressed hlength
  unfold mode
  by_cases hnone : request.method = ascii "HEAD" ∨ response.status < 200 ∨ response.status = 204 ∨
      response.status = 304
  · have : plan.suppressed = true := by
      rw [hsuppressed, prohibitsFraming]
      simp only [Bool.or_eq_true, beq_iff_eq, decide_eq_true_eq]
      rcases hnone with h | h | h | h <;> simp [h]
    rw [if_pos hnone, if_pos this]
    exact Or.inl rfl
  · obtain ⟨hhead, hinterim, h204, h304⟩ := by
      simpa only [not_or] using hnone
    have hframed : prohibitsFraming response.status = false := by
      simp [prohibitsFraming, hinterim, h204]
    have hbare : plan.suppressed = (response.status == 205) := by
      rw [hsuppressed, hframed, beq_false_of_ne h304, beq_false_of_ne hhead]
      simp
    rw [hframed, if_neg Bool.false_ne_true] at hlength
    rw [if_neg hnone, hbare]
    by_cases h205 : response.status = 205
    · -- the length of this body has been checked, and is announced
      have hzero := hempty (by rw [h205]; rfl)
      rw [hlength, hzero, h205]
      exact Or.inr rfl
    · rw [beq_false_of_ne h205, if_neg Bool.false_ne_true]
      cases plan.contentLength with
      | some n => rfl
      | none =>
          cases chunks request plan with
          | true => rfl
          | false => rfl

/-- What the recipient takes off the wire behind a head. -/
theorem receive_head {response : Response} {request : Request} {plan : Framing} {arm : Bool}
    {seconds : Nat} (h : framing response request = .ok plan) (rest : Bytes) (closed : Bool) :
    receive request.method (head response request (formatDate arm seconds) plan ++ rest) closed =
      match delimiter request.method ⟨response.status,
        (allFields response request (formatDate arm seconds) plan).map trimmed⟩ with
      | none => none
      | some .nothing => some ([], rest)
      | some (.length n) => if n ≤ rest.length then some (rest.take n, rest.drop n) else none
      | some .chunked => readChunks (rest.length + 1) rest
      | some .closure => if closed then some (rest, []) else none := by
  rw [receive, readHead_head h]

/-- The payload that a recipient can get. -/
def payload (encoder : Encoder) (sent : Sent) : Bytes :=
  if encoder.mode = .suppressed then [] else sent.fragments.flatten

theorem receive_sent {response : Response} {request : Request} {plan : Framing} {arm : Bool}
    {seconds : Nat} {sent : Sent} {encoder last : Encoder} {bytes : Bytes}
    (h : framing response request = .ok plan) (hmode : encoder.mode = mode request plan)
    (hsent : sent.Encoded encoder.mode) (hbroken : sent.broken = false)
    (hfinish : sent.encoder.finish = .ok (last, bytes)) (rest : Bytes) (closed : Bool) :
    receive request.method (head response request (formatDate arm seconds) plan ++
        (sent.wire ++ (bytes ++ rest))) closed =
      if encoder.mode = .closing then
        if closed then some (payload encoder sent ++ rest, []) else none
      else some (payload encoder sent, rest) := by
  obtain ⟨d, hdelimiter, hdelimits⟩ := @delimiter_delimits response request plan
    (formatDate arm seconds) h
  rw [receive_head h, hdelimiter, payload]
  rw [← hmode] at hdelimits
  unfold Encoder.finish at hfinish
  cases hcase : encoder.mode with
  | fixed n =>
      rw [hcase] at hsent hdelimits
      obtain ⟨hle, hshown⟩ := hsent
      obtain ⟨hencoder, hwire⟩ := hshown hbroken
      rw [hencoder] at hfinish
      simp only at hfinish
      split at hfinish
      · cases hfinish
      next hzero =>
        cases hfinish
        have hlength : sent.wire.length = n := by omega
        rw [show d = .length n from hdelimits]
        simp only [List.nil_append, List.length_append, reduceCtorEq, if_false]
        rw [if_pos (by omega), ← hlength, List.take_left, List.drop_left, hwire]
  | chunked =>
      rw [hcase] at hsent hdelimits
      obtain ⟨hencoder, hwire⟩ := hsent hbroken
      rw [hencoder] at hfinish
      cases hfinish
      rw [show d = .chunked from hdelimits]
      simp only [reduceCtorEq, if_false]
      rw [hwire]
      exact readChunks_chunks (by rw [List.length_append]; omega)
  | closing =>
      rw [hcase] at hsent hdelimits
      obtain ⟨hencoder, hwire⟩ := hsent hbroken
      rw [hencoder] at hfinish
      cases hfinish
      rw [show d = .closure from hdelimits]
      simp only [reduceCtorEq, if_false, if_true, List.nil_append]
      rw [hwire]
  | suppressed =>
      rw [hcase] at hsent hdelimits
      obtain ⟨hencoder, hwire⟩ := hsent hbroken
      rw [hencoder] at hfinish
      cases hfinish
      simp only [reduceCtorEq, if_false, if_true, List.nil_append, hwire]
      rcases (show d = .nothing ∨ d = .length 0 from hdelimits) with rfl | rfl
      · rfl
      · simp
  | finished =>
      rw [hcase] at hdelimits
      exact hdelimits.elim

theorem begin_eq {response : Response} {request : Request} {date bytes : Bytes} {capacity : Nat}
    {encoder : Encoder} (h : Response.begin response request date capacity = .ok (bytes, encoder)) :
    ∃ plan, framing response request = .ok plan ∧ bytes = head response request date plan ∧
      encoder = { mode := mode request plan, close := closes response request plan } := by
  unfold Response.begin at h
  split at h
  · cases h
  next plan hplan =>
    split at h
    · cases h
      exact ⟨plan, hplan, rfl, rfl⟩
    · cases h

theorem begin_fits {response : Response} {request : Request} {date : Bytes} {capacity : Nat}
    {plan : Framing} (h : framing response request = .ok plan)
    (hfits : (head response request date plan).length ≤ capacity) :
    Response.begin response request date capacity = .ok (head response request date plan,
      { mode := mode request plan, close := closes response request plan }) := by
  rw [Response.begin, h]
  exact if_pos hfits

/-- Over HTTP/1, a body that only closure can end comes with closure. -/
theorem closes_of_closing {response : Response} {request : Request} {plan : Framing}
    (hversion : request.version ≠ .http2) (hmode : mode request plan = .closing) :
    closes response request plan = true := by
  unfold mode at hmode
  split at hmode
  · cases hmode
  next hsuppressed =>
    split at hmode
    · cases hmode
    next hlength =>
      have hchunks : chunks request plan = false := by
        cases hchunks : chunks request plan with
        | true => rw [hchunks] at hmode; cases hmode
        | false => rfl
      have hten : request.version = .http10 := by
        cases hcase : request.version with
        | http10 => rfl
        | http11 => simp [chunks, hlength, hsuppressed, hcase] at hchunks
        | http2 => exact absurd hcase hversion
      simp [closes, hlength, hsuppressed, hten]

/-- **Length discipline.**  Whatever is written behind an accepted head: a declared length is never
exceeded, and the end succeeds exactly when it is reached.  If the end succeeds, a recipient that
applies the rules of HTTP/1 gets the payload once the connection is closed.  To a request of HTTP/1
the connection stays open only if the recipient finds the end of the body without closure, whatever
follows. -/
theorem begin_discipline {response : Response} {request : Request} {arm : Bool}
    {seconds capacity : Nat} {bytes : Bytes} {encoder : Encoder}
    (h : Response.begin response request (formatDate arm seconds) capacity = .ok (bytes, encoder))
    (calls : List (Nat × Bytes)) :
    let sent := writes encoder calls
    (∀ n, encoder.mode = .fixed n → sent.wire.length ≤ n ∧ (sent.broken = false →
      ((∃ result, sent.encoder.finish = .ok result) ↔ sent.fragments.flatten.length = n))) ∧
    (sent.broken = false → ∀ last final, sent.encoder.finish = .ok (last, final) →
      receive request.method (bytes ++ (sent.wire ++ final)) true =
        some (payload encoder sent, []) ∧
      (encoder.close = false → request.version ≠ .http2 → ∀ rest closed,
        receive request.method (bytes ++ (sent.wire ++ (final ++ rest))) closed =
          some (payload encoder sent, rest))) ∧
    (encoder.close = false → request.version ≠ .http2 → ∃ parsed d,
      readHead bytes = some (parsed, []) ∧ delimiter request.method parsed = some d ∧
        d ≠ .closure) := by
  intro sent
  obtain ⟨plan, hplan, rfl, hencoder⟩ := begin_eq h
  have hmode : encoder.mode = mode request plan := congrArg Encoder.mode hencoder
  have hclose : encoder.close = closes response request plan := congrArg Encoder.close hencoder
  have hencoded : sent.Encoded encoder.mode := writes_encoded encoder calls
  have hopen : encoder.close = false → request.version ≠ .http2 → encoder.mode ≠ .closing := by
    intro hfalse hversion hclosing
    rw [hclose, closes_of_closing hversion (hmode.symm.trans hclosing)] at hfalse
    cases hfalse
  refine ⟨fun n hfixed => ?_, fun hbroken last final hfinish => ⟨?_, ?_⟩, fun hfalse hversion => ?_⟩
  · rw [hfixed] at hencoded
    obtain ⟨hle, hshown⟩ := hencoded
    refine ⟨hle, fun hbroken => ?_⟩
    obtain ⟨hlast, hwire⟩ := hshown hbroken
    rw [← hwire, Encoder.finish, hlast]
    simp only
    by_cases hzero : n - sent.wire.length = 0
    · rw [if_neg (not_not_intro hzero)]
      exact ⟨fun _ => by omega, fun _ => ⟨_, rfl⟩⟩
    · rw [if_pos hzero]
      refine ⟨?_, fun hlength => by omega⟩
      rintro ⟨_, hresult⟩
      cases hresult
  · have hall := @receive_sent response request plan arm seconds sent encoder last final hplan hmode
      hencoded hbroken hfinish [] true
    rw [List.append_nil, List.append_nil, if_pos rfl] at hall
    rw [hall]
    split <;> rfl
  · intro hfalse hversion rest closed
    rw [receive_sent hplan hmode hencoded hbroken hfinish rest closed,
      if_neg (hopen hfalse hversion)]
  · obtain ⟨d, hdelimiter, hdelimits⟩ := @delimiter_delimits response request plan
      (formatDate arm seconds) hplan
    have hread := @readHead_head response request plan arm seconds hplan []
    rw [List.append_nil] at hread
    refine ⟨_, d, hread, hdelimiter, ?_⟩
    rintro rfl
    rw [← hmode] at hdelimits
    have hne := hopen hfalse hversion
    cases hcase : encoder.mode with
    | closing => exact hne hcase
    | suppressed =>
        rw [hcase] at hdelimits
        exact hdelimits.elim (by rintro ⟨⟩) (by rintro ⟨⟩)
    | _ =>
        rw [hcase] at hdelimits
        cases hdelimits

/-- A body of unknown length. -/
def unknownLength : Response := { body := .stream none }

theorem begin_discipline_chunked : ∃ bytes encoder,
    Response.begin unknownLength { method := ascii "GET" } (formatDate false 0) 256 =
        .ok (bytes, encoder) ∧
      receive (ascii "GET") (bytes ++ ((writes encoder [(64, ascii "abc")]).wire ++
        ascii "0\r\n\r\n")) true = some (ascii "abc", []) := by
  have hplan : framing unknownLength { method := ascii "GET" } = .ok ⟨none, false⟩ := by rfl
  have hroom : (head unknownLength { method := ascii "GET" } (formatDate false 0)
      ⟨none, false⟩).length ≤ 256 := by decide +kernel
  have hbegin := begin_fits hplan hroom
  exact ⟨_, _, hbegin, ((begin_discipline hbegin [(64, ascii "abc")]).2.1 rfl _ _ rfl).1⟩

/-- `begin` takes a request of HTTP/2 for one that needs no closure, and still leaves the end of the
body to closure. -/
theorem begin_http2_closure : ∃ bytes encoder parsed,
    Response.begin unknownLength { method := ascii "GET", version := .http2 } (formatDate false 0) 256 =
        .ok (bytes, encoder) ∧
      encoder.close = false ∧ readHead bytes = some (parsed, []) ∧
      delimiter (ascii "GET") parsed = some .closure := by
  have hplan : framing unknownLength { method := ascii "GET", version := .http2 } =
      .ok ⟨none, false⟩ := by rfl
  have hroom : (head unknownLength { method := ascii "GET", version := .http2 } (formatDate false 0)
      ⟨none, false⟩).length ≤ 256 := by decide +kernel
  have hread := @readHead_head _ _ _ false 0 hplan []
  rw [List.append_nil] at hread
  exact ⟨_, _, _, begin_fits hplan hroom, rfl, hread, delimiter_head hplan⟩

end Recipient

end Zhtps
