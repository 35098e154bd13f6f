import Zhtps.Http.Response
import Zhtps.Http.Scan

/-!
The head of a response on the wire.

`begin` writes the head piece by piece into a fixed writer, after `framing` has accepted the whole
metadata.  No piece can smuggle a line: the fixed texts, the numbers and the date hold no CR or LF,
and names and values were checked byte by byte, in blocks or one at a time.  So splitting the head at
CRLF gives back the lines it was put together from.
-/

namespace Zhtps

/-! ### The date -/

namespace Zeit

/-- `zeit.civilFromDays` over 64-bit words: year, month and day of a day count since 1970.  The
constants depend on the processor. -/
def civilFromDays (arm : Bool) (days : Nat) : Nat × Nat × Nat :=
  let word := 2 ^ 64
  let eras := 4726498270
  let scale := if arm then 1 else 32
  let shift0 := 30556 * scale
  let rev := (146097 * eras - 719469 + word - days) % word
  let cen := 505054698555331 * rev / word
  let jul := (rev + cen + word - cen / 4) % word
  let num := 50504432782230121 * jul
  let yrs := (400 * eras - 1 + word - num / word) % word
  let ypt := 24451 * scale * (num % word) / word
  let n (shift : Nat) : Nat := (yrs % 4 * (16 * scale) + shift + word - ypt) % word
  let late := 12 < n shift0 / (2048 * scale)
  let early := ypt < 3952 * scale
  let bump := if arm then if late then 1 else 0 else if early then 1 else 0
  let shift := if !arm && early then 5980 * scale else shift0
  let month :=
    if arm then if late then n shift0 / (2048 * scale) - 12 else n shift0 / (2048 * scale)
    else n shift / (2048 * scale)
  let day := 8619973866219416 * 32 / scale * (n shift % (2048 * scale)) / word
  (yrs + bump, month, day + 1)

/-- `zeit.daysFromCivil`, for dates from 1970 on. -/
def daysFromCivil (year month day : Nat) : Nat :=
  let bump := if month ≤ 2 then 1 else 0
  let yrs := year + 5880000 - bump
  let cen := yrs / 100
  let monthDays := if bump = 1 then (979 * month + 8829) / 32 else (979 * month - 2919) / 32
  (yrs * 365 + yrs / 4 - cen + cen / 4 + monthDays + day + 2 ^ 32 - 2148345369) % 2 ^ 32

def weekdayFromDays (days : Nat) : Nat := (days + 4) % 7

def weekdays : List Bytes := ["Sun", "Mon", "Tue", "Wed", "Thu", "Fri", "Sat"].map ascii

def months : List Bytes :=
  ["Jan", "Feb", "Mar", "Apr", "May", "Jun", "Jul", "Aug", "Sep", "Oct", "Nov", "Dec"].map ascii

end Zeit

namespace Response

/-- The `{d:0>2}` format. -/
def twoDigits (n : Nat) : Bytes :=
  List.replicate (2 - (digits 10 n).length) 0x30 ++ digits 10 n

/-- `formatDate`: Unix seconds as an HTTP date in GMT, `%a, %d %b %Y %H:%M:%S GMT`. -/
def formatDate (arm : Bool) (seconds : Nat) : Bytes :=
  let date := Zeit.civilFromDays arm (seconds / 86400)
  let weekday := Zeit.weekdayFromDays (Zeit.daysFromCivil date.1 date.2.1 date.2.2)
  let rest := seconds % 86400
  Zeit.weekdays.getD weekday [] ++ ascii ", " ++ twoDigits date.2.2 ++ ascii " " ++
    Zeit.months.getD (date.2.1 - 1) [] ++ ascii " " ++ digits 10 date.1 ++ ascii " " ++
    twoDigits (rest / 3600) ++ ascii ":" ++ twoDigits (rest % 3600 / 60) ++ ascii ":" ++
    twoDigits (rest % 60) ++ ascii " GMT"

example : formatDate false 951827696 = ascii "Tue, 29 Feb 2000 12:34:56 GMT" := by decide +kernel

example : formatDate true 253402300799 = ascii "Fri, 31 Dec 9999 23:59:59 GMT" := by decide +kernel

/-! ### Bytes that end no line -/

/-- No CR and no LF. -/
def plain (bytes : Bytes) : Bool := bytes.all fun c => c != Ascii.cr && c != Ascii.lf

@[simp] theorem plain_append (xs ys : Bytes) : plain (xs ++ ys) = (plain xs && plain ys) := by
  simp [plain]

theorem plain_digits (n : Nat) : plain (digits 10 n) = true := by
  have hall : ∀ d : Fin 10, (digitByte d != Ascii.cr && digitByte d != Ascii.lf) = true := by decide
  rw [plain, List.all_eq_true]
  intro c hc
  obtain ⟨d, hd, rfl⟩ := mem_digits (by decide) hc
  exact hall ⟨d, hd⟩

theorem length_digits_status {status : Nat} (h : 100 ≤ status) (hle : status ≤ 599) :
    (digits 10 status).length = 3 := by
  rw [digits_of_le (by omega) (by omega), digits_of_le (by omega) (by omega),
    digits_of_lt (by omega)]
  rfl

theorem plain_twoDigits (n : Nat) : plain (twoDigits n) = true := by
  have hzeros : ∀ k, plain (List.replicate k 0x30) = true := by
    intro k
    rw [plain, List.all_eq_true]
    intro c hc
    rw [List.eq_of_mem_replicate hc]
    decide
  rw [twoDigits, plain_append, hzeros, plain_digits, Bool.and_self]

theorem plain_getD {texts : List Bytes} (h : texts.all plain = true) (n : Nat) :
    plain (texts.getD n []) = true := by
  rw [List.getD_eq_getElem?_getD]
  cases hget : texts[n]? with
  | none => rfl
  | some text => exact List.all_eq_true.mp h text (List.mem_of_getElem? hget)

theorem plain_formatDate (arm : Bool) (seconds : Nat) : plain (formatDate arm seconds) = true := by
  have hweekdays : Zeit.weekdays.all plain = true := by decide
  have hmonths : Zeit.months.all plain = true := by decide
  have htexts : plain (ascii ", ") = true ∧ plain (ascii " ") = true ∧ plain (ascii ":") = true ∧
      plain (ascii " GMT") = true := by decide
  simp only [formatDate, plain_append, plain_getD hweekdays, plain_getD hmonths, plain_twoDigits,
    plain_digits, htexts, Bool.and_self]

theorem plain_reason (status : Nat) : plain (reason status) = true := by
  unfold reason
  split
  all_goals first
    | (rw [ascii_ofList]; decide)
    | rfl

theorem plain_of_isToken {name : Bytes} (h : Syntax.isToken name = true) : plain name = true := by
  simp only [Syntax.isToken, Bool.and_eq_true, List.all_eq_true] at h
  rw [plain, List.all_eq_true]
  intro c hc
  have hbyte := h.2 c hc
  have hcr : c ≠ Ascii.cr := by
    rintro rfl
    revert hbyte
    decide
  have hlf : c ≠ Ascii.lf := by
    rintro rfl
    revert hbyte
    decide
  simp [hcr, hlf]

/-- The wide loops only skip blocks of field bytes. -/
theorem fieldBlocks_any (width fuel : Nat) (bytes : Bytes) :
    (Syntax.fieldBlocks width fuel bytes).any (·.all Syntax.isFieldByte) =
      bytes.all Syntax.isFieldByte := by
  induction fuel generalizing bytes with
  | zero => rfl
  | succ fuel ih =>
      have hsplit : bytes.all Syntax.isFieldByte =
          ((bytes.take width).all Syntax.isFieldByte &&
            (bytes.drop width).all Syntax.isFieldByte) := by
        rw [← List.all_append, List.take_append_drop]
      have hblock : (bytes.take width).any (fun c => !Syntax.isFieldByte c) =
          !(bytes.take width).all Syntax.isFieldByte := by
        rw [List.not_all_eq_any_not]
      rw [Syntax.fieldBlocks, hblock]
      by_cases hwidth : width ≤ bytes.length
      · rw [if_pos hwidth, hsplit]
        cases (bytes.take width).all Syntax.isFieldByte with
        | false => rfl
        | true => exact ih (bytes.drop width)
      · rw [if_neg hwidth]
        rfl

/-- The block-wise check accepts exactly the lists of field bytes. -/
theorem isField_eq (bytes : Bytes) : Syntax.isField bytes = bytes.all Syntax.isFieldByte := by
  rw [← fieldBlocks_any 64 bytes.length bytes, Syntax.isField]
  cases Syntax.fieldBlocks 64 bytes.length bytes with
  | none => rfl
  | some rest =>
      rw [Option.any_some, ← fieldBlocks_any 32 rest.length rest]
      dsimp only
      cases Syntax.fieldBlocks 32 rest.length rest with
      | none => rfl
      | some last => rfl

theorem isField_digits (n : Nat) : Syntax.isField (digits 10 n) = true := by
  have hall : ∀ d : Fin 10, Syntax.isFieldByte (digitByte d) = true := by decide
  rw [isField_eq, List.all_eq_true]
  intro c hc
  obtain ⟨d, hd, rfl⟩ := mem_digits (by decide) hc
  exact hall ⟨d, hd⟩

theorem plain_of_isField {value : Bytes} (h : Syntax.isField value = true) :
    plain value = true := by
  rw [isField_eq, List.all_eq_true] at h
  rw [plain, List.all_eq_true]
  intro c hc
  have hbyte := h c hc
  have hcr : c ≠ Ascii.cr := by
    rintro rfl
    revert hbyte
    decide
  have hlf : c ≠ Ascii.lf := by
    rintro rfl
    revert hbyte
    decide
  simp [hcr, hlf]

/-! ### Splitting at CRLF -/

theorem splitLines_line (line rest : Bytes) (h : plain line = true) :
    Mem.splitLines (line ++ crlf ++ rest) = line :: Mem.splitLines rest := by
  induction line with
  | nil => simp [crlf, Mem.splitLines]
  | cons c line ih =>
      simp only [plain, List.all_cons, Bool.and_eq_true] at h
      have htail := ih h.2
      have hcr : (c == Ascii.cr) = false := by simpa using h.1.1
      cases hrest : line ++ crlf ++ rest with
      | nil => simp [crlf] at hrest
      | cons d more =>
          rw [hrest] at htail
          rw [List.cons_append, List.cons_append, hrest, Mem.splitLines, hcr, Bool.false_and,
            if_neg (by simp), htail]

/-- Lines put together with CRLF come apart again; nothing follows the last CRLF. -/
theorem splitLines_flatMap (lines : List Bytes) (h : ∀ line ∈ lines, plain line = true) :
    Mem.splitLines (lines.flatMap (· ++ crlf)) = lines ++ [[]] := by
  induction lines with
  | nil => rfl
  | cons line lines ih =>
      rw [List.flatMap_cons, splitLines_line line _ (h line (List.mem_cons_self ..)),
        ih fun other hother => h other (List.mem_cons_of_mem _ hother)]
      rfl

/-! ### The lines of a head -/

/-- The status line, without its CRLF. -/
def statusText (version : Version) (status : Nat) : Bytes :=
  ascii "HTTP/1." ++ digits 10 (if version = .http10 then 0 else 1) ++ ascii " " ++
    digits 10 status ++ ascii " " ++ reason status

/-- The Connection field, when there is one. -/
def connectionTexts (version : Version) (status : Nat) (closing : Bool) : List Bytes :=
  if status < 200 then []
  else if closing then [ascii "Connection: close"]
  else if version = .http10 then [ascii "Connection: keep-alive"]
  else []

/-- The framing field, when there is one. -/
def framingTexts (plan : Framing) (chunked : Bool) : List Bytes :=
  match plan.contentLength with
  | some length => [ascii "Content-Length: " ++ digits 10 length]
  | none => if chunked then [ascii "Transfer-Encoding: chunked"] else []

def fieldText (field : Header) : Bytes := field.name ++ ascii ": " ++ field.value

/-- The lines of a head, the empty one included. -/
def headLines (response : Response) (request : Request) (date : Bytes) (plan : Framing) :
    List Bytes :=
  statusText request.version response.status :: (ascii "Date: " ++ date) ::
    (connectionTexts request.version response.status (closes response request plan) ++
      framingTexts plan (chunks request plan) ++ response.headers.map fieldText ++ [[]])

theorem statusLine_eq (version : Version) (status : Nat) :
    statusLine version status = statusText version status ++ crlf ++ ascii "Date: " := by
  unfold statusLine
  by_cases hstatus : status = 200
  · subst hstatus
    cases version <;> decide
  · rw [if_neg hstatus, statusText]
    simp only [List.append_assoc]
    rfl

theorem connectionLine_eq (version : Version) (status : Nat) (closing : Bool) :
    connectionLine version status closing =
      (connectionTexts version status closing).flatMap (· ++ crlf) := by
  unfold connectionLine connectionTexts
  split
  · rfl
  · split
    · decide
    · split
      · decide
      · rfl

theorem framingLine_eq (plan : Framing) (chunked : Bool) :
    framingLine plan chunked = (framingTexts plan chunked).flatMap (· ++ crlf) := by
  unfold framingLine framingTexts
  cases plan.contentLength with
  | some length => simp
  | none =>
      cases chunked with
      | true => decide
      | false => rfl

theorem head_eq (response : Response) (request : Request) (date : Bytes) (plan : Framing) :
    head response request date plan =
      (headLines response request date plan).flatMap (· ++ crlf) := by
  have hfields : response.headers.flatMap fieldLine =
      (response.headers.map fieldText).flatMap (· ++ crlf) := by
    rw [List.flatMap_map]
    rfl
  rw [head, statusLine_eq, connectionLine_eq, framingLine_eq, hfields]
  simp only [headLines, List.flatMap_cons, List.flatMap_append, List.flatMap_nil, List.append_assoc,
    List.nil_append, List.append_nil]

/-- What `framing` has checked of the status and the body, and what it plans. -/
theorem framing_ok {response : Response} {request : Request} {plan : Framing}
    (h : framing response request = .ok plan) :
    100 ≤ response.status ∧ response.status ≤ 599 ∧
      ¬(request.method = ascii "CONNECT" ∧ 200 ≤ response.status ∧ response.status < 300) ∧
      ((prohibitsFraming response.status || response.status == 205) = true →
        Body.length response.body = some 0) ∧
      plan =
        { contentLength :=
            if prohibitsFraming response.status then none else Body.length response.body
          suppressed := prohibitsFraming response.status || response.status == 304 ||
            response.status == 205 || request.method == ascii "HEAD" } := by
  unfold framing at h
  split at h
  · cases h
  · split at h
    · cases h
    · split at h
      · cases h
      · split at h
        · cases h
        · split at h
          · cases h
          next hconnect _ _ hbody =>
            refine ⟨by omega, by omega, hconnect, fun hempty => ?_, (Except.ok.inj h).symm⟩
            rw [hempty, Bool.true_and] at hbody
            simpa using hbody

/-- What `framing` has checked of every supplied field. -/
theorem framing_fields {response : Response} {request : Request} {plan : Framing} {field : Header}
    (h : framing response request = .ok plan) (hfield : field ∈ response.headers) :
    Syntax.isToken field.name = true ∧ Syntax.isField field.value = true ∧
      reservedFields.any (Syntax.eql field.name) = false := by
  have hcheck : checkField field = none := by
    unfold framing at h
    split at h
    · cases h
    · split at h
      · cases h
      · split at h
        · cases h
        · split at h
          · cases h
          · rename_i hnone
            exact List.findSome?_eq_none_iff.mp hnone field hfield
  unfold checkField at hcheck
  split at hcheck
  · cases hcheck
  · rename_i hgrammar
    split at hcheck
    · cases hcheck
    · rename_i hreserved
      simp only [Bool.or_eq_true, Bool.not_eq_eq_eq_not, Bool.not_true, not_or,
        Bool.not_eq_false] at hgrammar
      exact ⟨hgrammar.1, hgrammar.2, by simpa using hreserved⟩

theorem plain_headLines {response : Response} {request : Request} {date : Bytes} {plan : Framing}
    (h : framing response request = .ok plan) (hdate : plain date = true) :
    ∀ line ∈ headLines response request date plan, plain line = true := by
  have htexts : plain (ascii "HTTP/1.") = true ∧ plain (ascii " ") = true ∧
      plain (ascii "Date: ") = true ∧ plain (ascii "Content-Length: ") = true ∧
      plain (ascii ": ") = true := by decide
  have hconnection : ∀ line ∈ connectionTexts request.version response.status
      (closes response request plan), plain line = true := by
    unfold connectionTexts
    split
    · simp
    · split
      · decide
      · split
        · decide
        · simp
  have hframing : ∀ line ∈ framingTexts plan (chunks request plan), plain line = true := by
    unfold framingTexts
    split
    · simp only [List.mem_singleton, forall_eq, plain_append, htexts, plain_digits, Bool.and_self]
    · split
      · decide
      · simp
  intro line hline
  simp only [headLines, List.mem_cons, List.mem_append, List.mem_map, List.not_mem_nil,
    or_false] at hline
  rcases hline with rfl | rfl | ((hline | hline) | ⟨field, hfield, rfl⟩) | rfl
  · simp only [statusText, plain_append, htexts, plain_digits, plain_reason, Bool.and_self]
  · rw [plain_append, hdate, Bool.and_true]
    exact htexts.2.2.1
  · exact hconnection line hline
  · exact hframing line hline
  · obtain ⟨hname, hvalue, _⟩ := framing_fields h hfield
    simp only [fieldText, plain_append, plain_of_isToken hname, plain_of_isField hvalue, htexts,
      Bool.and_self]
  · rfl

/-! ### Reading a field line back -/

theorem mem_of_mem_trim {value : Bytes} {c : UInt8} (h : c ∈ Syntax.trim value) : c ∈ value := by
  have hstart (bytes : Bytes) (hc : c ∈ Mem.trimStart bytes) : c ∈ bytes :=
    (List.dropWhile_sublist _).mem hc
  rw [Syntax.trim, Mem.trim, List.mem_reverse] at h
  exact hstart value (List.mem_reverse.mp (hstart _ h))

/-- A field written as name, colon, space and value parses to the name and the trimmed value. -/
theorem parseHeader_fieldText {field : Header} (hname : Syntax.isToken field.name = true)
    (hvalue : Syntax.isField field.value = true) :
    Request.parseHeader (fieldText field) = .ok ⟨field.name, Syntax.trim field.value⟩ := by
  have hcolon : (0x3a : UInt8) ∉ field.name := by
    intro hmem
    simp only [Syntax.isToken, Bool.and_eq_true, List.all_eq_true] at hname
    have hbyte := hname.2 0x3a hmem
    revert hbyte
    decide
  have htext : fieldText field = field.name ++ 0x3a :: 0x20 :: field.value := by
    rw [fieldText, List.append_assoc]
    rfl
  have hdrop : (fieldText field).drop (field.name.length + 1) = 0x20 :: field.value := by
    rw [htext, ← List.drop_drop, List.drop_left]
    rfl
  have htrim : Syntax.trim (0x20 :: field.value) = Syntax.trim field.value := by
    simp [Syntax.trim, Mem.trim, Mem.trimStart, Ascii.sp]
  have hfield : Syntax.isField (Syntax.trim field.value) = true := by
    rw [isField_eq, List.all_eq_true] at hvalue ⊢
    exact fun c hc => hvalue c (mem_of_mem_trim hc)
  unfold Request.parseHeader
  rw [show Mem.indexOfScalar (fieldText field) 0x3a = some field.name.length by
    rw [htext]; exact Mem.indexOfScalar_first hcolon]
  dsimp only
  rw [hdrop, htrim, htext, List.take_left, hname, hfield]
  rfl

theorem parseHeader_connectionTexts {version : Version} {status : Nat} {closing : Bool}
    {line : Bytes} (h : line ∈ connectionTexts version status closing) :
    ∃ value, Request.parseHeader line = .ok ⟨ascii "Connection", value⟩ := by
  have hparse (value : Bytes) (hvalue : Syntax.isField value = true) :
      Request.parseHeader (fieldText ⟨ascii "Connection", value⟩) =
        .ok ⟨ascii "Connection", Syntax.trim value⟩ :=
    parseHeader_fieldText (show Syntax.isToken (ascii "Connection") = true by decide) hvalue
  unfold connectionTexts at h
  split at h
  · cases h
  · split at h
    · rw [List.mem_singleton.mp h]
      exact ⟨_, hparse (ascii "close") (by decide)⟩
    · split at h
      · rw [List.mem_singleton.mp h]
        exact ⟨_, hparse (ascii "keep-alive") (by decide)⟩
      · cases h

theorem parseHeader_framingTexts {plan : Framing} {chunked : Bool} {line : Bytes}
    (h : line ∈ framingTexts plan chunked) :
    ∃ name value, (name = ascii "Content-Length" ∨ name = ascii "Transfer-Encoding") ∧
      Request.parseHeader line = .ok ⟨name, value⟩ := by
  unfold framingTexts at h
  split at h
  · rename_i length _
    rw [List.mem_singleton.mp h]
    have hname : Syntax.isToken (ascii "Content-Length") = true := by decide
    have hparse : Request.parseHeader (fieldText ⟨ascii "Content-Length", digits 10 length⟩) = _ :=
      parseHeader_fieldText hname (isField_digits length)
    exact ⟨_, _, .inl rfl, hparse⟩
  · split at h
    · rw [List.mem_singleton.mp h]
      have hname : Syntax.isToken (ascii "Transfer-Encoding") = true := by decide
      have hvalue : Syntax.isField (ascii "chunked") = true := by decide
      have hparse : Request.parseHeader (fieldText ⟨ascii "Transfer-Encoding", ascii "chunked"⟩) = _ :=
        parseHeader_fieldText hname hvalue
      exact ⟨_, _, .inr rfl, hparse⟩
    · cases h

/-! ### Writing the head -/

/-- `std.Io.Writer.fixed`: a buffer and the bytes written into it. -/
structure Writer where
  capacity : Nat
  buffered : Bytes := []
  fits : buffered.length ≤ capacity := by simp

/-- `writeAll`: what fits is copied, and the call fails unless everything did. -/
def Writer.writeAll (writer : Writer) (bytes : Bytes) : Writer × Bool :=
  ({ writer with
      buffered := writer.buffered ++ bytes.take (writer.capacity - writer.buffered.length)
      fits := by
        have := writer.fits
        simp only [List.length_append, List.length_take]
        omega },
    bytes.length ≤ writer.capacity - writer.buffered.length)

/-- A sequence of writes, each behind a `try`. -/
def Writer.writeEach : Writer → List Bytes → Writer × Bool
  | writer, [] => (writer, true)
  | writer, piece :: pieces =>
      match writer.writeAll piece with
      | (next, true) => next.writeEach pieces
      | (next, false) => (next, false)

/-- The writes of `begin` behind the framing check, in their order.  A field that is left out is an
empty piece. -/
def pieces (response : Response) (request : Request) (date : Bytes) (plan : Framing) : List Bytes :=
  [statusLine request.version response.status, date, crlf,
    connectionLine request.version response.status (closes response request plan),
    framingLine plan (chunks request plan)] ++
    response.headers.flatMap (fun field => [field.name, ascii ": ", field.value, crlf]) ++ [crlf]

/-- `begin` on the writer it is handed. -/
def beginTo (response : Response) (writer : Writer) (request : Request) (date : Bytes) :
    Writer × Except Failure Encoder :=
  match framing response request with
  | .error failure => (writer, .error failure)
  | .ok plan =>
      match writer.writeEach (pieces response request date plan) with
      | (next, true) =>
          (next, .ok { mode := mode request plan, close := closes response request plan })
      | (next, false) => (next, .error .writeFailed)

theorem flatten_pieces (response : Response) (request : Request) (date : Bytes) (plan : Framing) :
    (pieces response request date plan).flatten = head response request date plan := by
  have hfields (fields : List Header) :
      (fields.flatMap fun field => [field.name, ascii ": ", field.value, crlf]).flatten =
        fields.flatMap fieldLine := by
    induction fields with
    | nil => rfl
    | cons field fields ih => simp [List.flatMap_cons, fieldLine, ih]
  rw [pieces, List.flatten_append, List.flatten_append, hfields]
  simp [head]

theorem writeAll_spec (writer : Writer) (bytes : Bytes) :
    ((writer.writeAll bytes).2 = true ↔
      writer.buffered.length + bytes.length ≤ writer.capacity) ∧
    (writer.writeAll bytes).1.capacity = writer.capacity ∧
    ((writer.writeAll bytes).2 = true →
      (writer.writeAll bytes).1.buffered = writer.buffered ++ bytes) := by
  have hroom := writer.fits
  simp only [Writer.writeAll, decide_eq_true_eq]
  refine ⟨by omega, trivial, fun hfits => ?_⟩
  rw [List.take_of_length_le hfits]

/-- A sequence of writes succeeds exactly when all of it fits, and then appends all of it. -/
theorem writeEach_spec (writer : Writer) (pieces : List Bytes) :
    ((writer.writeEach pieces).2 = true ↔
      writer.buffered.length + pieces.flatten.length ≤ writer.capacity) ∧
    ((writer.writeEach pieces).2 = true →
      (writer.writeEach pieces).1.buffered = writer.buffered ++ pieces.flatten) := by
  induction pieces generalizing writer with
  | nil => simp [Writer.writeEach, writer.fits]
  | cons piece pieces ih =>
      obtain ⟨hfits, hcapacity, happend⟩ := writeAll_spec writer piece
      rw [Writer.writeEach]
      cases hwrite : writer.writeAll piece with
      | mk next ok =>
          rw [hwrite] at hfits hcapacity happend
          dsimp only at hfits hcapacity happend ⊢
          rw [List.flatten_cons, List.length_append]
          cases ok with
          | true =>
              obtain ⟨hiff, hrest⟩ := ih next
              have hbuffered := happend rfl
              rw [hbuffered, List.length_append, hcapacity] at hiff
              refine ⟨hiff.trans (by omega), fun hok => ?_⟩
              rw [hrest hok, hbuffered, List.append_assoc]
          | false =>
              have hfull := fun h => Bool.false_ne_true (hfits.mpr h)
              exact ⟨⟨nofun, fun h => absurd (by omega) hfull⟩, nofun⟩

/-- The two readings of `begin` agree: over an empty writer it succeeds with the same head and the
same encoder. -/
theorem beginTo_begin (response : Response) (request : Request) (date : Bytes) (capacity : Nat)
    (encoder : Encoder) :
    ((beginTo response { capacity := capacity } request date).2 = .ok encoder ↔
      begin response request date capacity =
        .ok ((beginTo response { capacity := capacity } request date).1.buffered, encoder)) := by
  unfold beginTo begin
  cases framing response request with
  | error failure => simp
  | ok plan =>
      obtain ⟨hiff, happend⟩ := writeEach_spec { capacity := capacity }
        (pieces response request date plan)
      rw [flatten_pieces] at hiff happend
      dsimp only at hiff happend ⊢
      rw [List.length_nil, Nat.zero_add] at hiff
      cases hwritten : Writer.writeEach { capacity := capacity }
        (pieces response request date plan) with
      | mk next ok =>
          rw [hwritten] at hiff happend
          cases ok with
          | true =>
              rw [if_pos (hiff.mp rfl), happend rfl]
              simp
          | false =>
              rw [if_neg (fun h => by simpa using hiff.mpr h)]
              simp

/-- **Head integrity.**  Whatever the response, the request and the writer: when `framing` rejects
the response nothing is written.  When `begin` succeeds with a date of `formatDate`, what it wrote
splits at CRLF into the status line, one Date line, at most one Connection line, at most one of
Content-Length and Transfer-Encoding, one line for each supplied field that parses back to its name
and trimmed value, one empty line, and nothing more.  No supplied field is one of the others. -/
theorem beginTo_lines (response : Response) (request : Request) (writer : Writer) (arm : Bool)
    (seconds : Nat) :
    (∀ failure, framing response request = .error failure →
      beginTo response writer request (formatDate arm seconds) = (writer, .error failure)) ∧
    ∀ next encoder, beginTo response writer request (formatDate arm seconds) = (next, .ok encoder) →
      ∃ written connection framingField,
        next.buffered = writer.buffered ++ written ∧
        Mem.splitLines written =
          statusText request.version response.status ::
            (ascii "Date: " ++ formatDate arm seconds) ::
            (connection ++ framingField ++ response.headers.map fieldText ++ [[], []]) ∧
        connection.length ≤ 1 ∧
        (∀ line ∈ connection, ∃ value,
          Request.parseHeader line = .ok ⟨ascii "Connection", value⟩) ∧
        framingField.length ≤ 1 ∧
        (∀ line ∈ framingField, ∃ name value,
          (name = ascii "Content-Length" ∨ name = ascii "Transfer-Encoding") ∧
            Request.parseHeader line = .ok ⟨name, value⟩) ∧
        ∀ field ∈ response.headers,
          Request.parseHeader (fieldText field) = .ok ⟨field.name, Syntax.trim field.value⟩ ∧
            reservedFields.any (Syntax.eql field.name) = false := by
  refine ⟨fun failure h => by simp only [beginTo, h], fun next encoder h => ?_⟩
  unfold beginTo at h
  cases hplan : framing response request with
  | error failure => simp [hplan] at h
  | ok plan =>
      rw [hplan] at h
      obtain ⟨_, happend⟩ := writeEach_spec writer
        (pieces response request (formatDate arm seconds) plan)
      rw [flatten_pieces, head_eq] at happend
      cases hwritten : writer.writeEach (pieces response request (formatDate arm seconds) plan) with
      | mk last ok =>
          dsimp only at h
          rw [hwritten] at h happend
          cases ok with
          | false => simp at h
          | true =>
              obtain ⟨rfl, _⟩ := Prod.mk.inj h
              refine ⟨_, connectionTexts request.version response.status
                (closes response request plan), framingTexts plan (chunks request plan),
                happend rfl, ?_, ?_, fun line hline => parseHeader_connectionTexts hline, ?_,
                fun line hline => parseHeader_framingTexts hline, fun field hfield => ?_⟩
              · rw [splitLines_flatMap _ (plain_headLines hplan (plain_formatDate arm seconds))]
                simp only [headLines, List.cons_append, List.append_assoc, List.nil_append]
              · unfold connectionTexts
                split
                · simp
                · split
                  · simp
                  · split <;> simp
              · unfold framingTexts
                split
                · simp
                · split <;> simp
              · obtain ⟨hname, hvalue, hreserved⟩ := framing_fields hplan hfield
                exact ⟨parseHeader_fieldText hname hvalue, hreserved⟩

/-- A response with a field that carries a line of its own. -/
def injecting : Response := { headers := [⟨ascii "X-Test", ascii "a\r\nInjected: yes"⟩] }

/-- A response with one plain field. -/
def ordinary : Response := { headers := [⟨ascii "X-Test", ascii " a "⟩] }

/-- The injected field is rejected before anything is written; the plain one is read back. -/
theorem beginTo_lines_field :
    beginTo injecting { capacity := 256 } {} (formatDate false 0) =
        ({ capacity := 256 }, .error .invalidHeader) ∧
      Request.parseHeader (fieldText ⟨ascii "X-Test", ascii " a "⟩) =
        .ok ⟨ascii "X-Test", ascii "a"⟩ := by
  refine ⟨(beginTo_lines injecting {} { capacity := 256 } false 0).1 .invalidHeader (by rfl), ?_⟩
  have hok : (beginTo ordinary { capacity := 256 } {} (formatDate false 0)).2.toBool = true := by
    decide +kernel
  cases hbegin : beginTo ordinary { capacity := 256 } {} (formatDate false 0) with
  | mk next result =>
      rw [hbegin] at hok
      cases result with
      | error failure => simp [Except.toBool] at hok
      | ok encoder =>
          obtain ⟨_, _, _, _, _, _, _, _, _, hfields⟩ :=
            (beginTo_lines ordinary {} { capacity := 256 } false 0).2 next encoder hbegin
          exact (hfields ⟨ascii "X-Test", ascii " a "⟩ (List.mem_singleton.mpr rfl)).1

end Response

end Zhtps
