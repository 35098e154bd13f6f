import Zhtps.Http.Request

/-!
Response metadata and framing, after `src/http/Response.zig`.

A fixed `std.Io.Writer` is its capacity and the bytes written so far; a write that does not fit fails
and the caller discards what it wrote.  `begin` therefore builds the whole head and compares its
length with the room once.
-/

namespace Zhtps

inductive Body
  | bytes (bytes : Bytes)
  /-- A known length uses `Content-Length`. -/
  | stream (length : Option Nat)
  deriving DecidableEq, Repr

structure Response where
  status : Nat := 200
  headers : List Header := []
  body : Body := .bytes []
  close : Bool := false
  deriving DecidableEq, Repr

namespace Response

inductive Failure
  | invalidStatus
  | invalidHeader
  | reservedHeader
  | invalidBody
  | lengthMismatch
  | writeFailed
  deriving DecidableEq, Repr

structure Framing where
  contentLength : Option Nat
  suppressed : Bool
  deriving DecidableEq, Repr

inductive Mode
  | fixed (remaining : Nat)
  | chunked
  | closing
  | suppressed
  | finished
  deriving DecidableEq, Repr

structure Encoder where
  mode : Mode
  close : Bool
  deriving DecidableEq, Repr

def crlf : Bytes := [Ascii.cr, Ascii.lf]

/-- The `{d}` and `{x}` formats of an unsigned number. -/
def digits (base n : Nat) : Bytes := (Nat.toDigits base n).map fun c => c.toUInt8

/-- The byte of one digit, as the formatter writes it. -/
def digitByte (d : Nat) : UInt8 := (Nat.digitChar d).toUInt8

theorem digits_of_lt {base n : Nat} (h : n < base) : digits base n = [digitByte n] := by
  simp [digits, Nat.toDigits_of_lt_base h, digitByte]

theorem digits_of_le {base n : Nat} (hbase : 1 < base) (h : base ≤ n) :
    digits base n = digits base (n / base) ++ [digitByte (n % base)] := by
  simp [digits, Nat.toDigits_of_base_le hbase h, digitByte]

theorem digits_ne_nil (base n : Nat) : digits base n ≠ [] := by
  simp [digits, Nat.toDigits_ne_nil]

/-- Every byte of a number is a digit of its base. -/
theorem mem_digits {base n : Nat} {c : UInt8} (hbase : 1 < base) (h : c ∈ digits base n) :
    ∃ d, d < base ∧ c = digitByte d := by
  induction n using Nat.strongRecOn with
  | ind n ih =>
      by_cases hlt : n < base
      · rw [digits_of_lt hlt, List.mem_singleton] at h
        exact ⟨n, hlt, h⟩
      · rw [digits_of_le hbase (by omega), List.mem_append, List.mem_singleton] at h
        rcases h with h | h
        · exact ih (n / base) (Nat.div_lt_self (by omega) hbase) h
        · exact ⟨n % base, Nat.mod_lt _ (by omega), h⟩

theorem isDigit_of_mem_digits {n : Nat} {c : UInt8} (h : c ∈ digits 10 n) :
    Ascii.isDigit c = true := by
  have hall : ∀ d : Fin 10, Ascii.isDigit (digitByte d) = true := by decide
  obtain ⟨d, hd, rfl⟩ := mem_digits (by decide) h
  exact hall ⟨d, hd⟩

/-- Encodes one body fragment; HEAD and bodyless statuses suppress payload. -/
def Encoder.write (encoder : Encoder) (bytes : Bytes) : Except Failure (Encoder × Bytes) :=
  match encoder.mode with
  | .fixed remaining =>
      if bytes.length > remaining then .error .lengthMismatch
      else .ok ({ encoder with mode := .fixed (remaining - bytes.length) }, bytes)
  | .chunked =>
      if bytes = [] then .ok (encoder, [])
      else .ok (encoder, digits 16 bytes.length ++ crlf ++ bytes ++ crlf)
  | .closing => .ok (encoder, bytes)
  | .suppressed => .ok (encoder, [])
  | .finished => .error .invalidBody

def Encoder.finish (encoder : Encoder) : Except Failure (Encoder × Bytes) :=
  match encoder.mode with
  | .fixed remaining =>
      if remaining ≠ 0 then .error .lengthMismatch
      else .ok ({ encoder with mode := .finished }, [])
  | .chunked => .ok ({ encoder with mode := .finished }, ascii "0\r\n\r\n")
  | .closing | .suppressed => .ok ({ encoder with mode := .finished }, [])
  | .finished => .error .invalidBody

def reservedFields : List Bytes :=
  [ascii "content-length", ascii "transfer-encoding", ascii "connection", ascii "date",
    ascii "trailer"]

def checkField (field : Header) : Option Failure :=
  if !Syntax.isToken field.name || !Syntax.isField field.value then some .invalidHeader
  else if reservedFields.any (Syntax.eql field.name) then some .reservedHeader
  else none

def Body.length : Body → Option Nat
  | .bytes bytes => some bytes.length
  | .stream length => length

/-- Statuses that carry no framing fields. -/
def prohibitsFraming (status : Nat) : Bool := status < 200 || status == 204

def framing (response : Response) (request : Request) : Except Failure Framing :=
  if response.status < 100 ∨ response.status > 599 ∨ response.status = 101 then
    .error .invalidStatus
  else if request.version = .http10 ∧ response.status < 200 then .error .invalidStatus
  else if request.method = ascii "CONNECT" ∧ 200 ≤ response.status ∧ response.status < 300 then
    .error .invalidStatus
  else
    match response.headers.findSome? checkField with
    | some failure => .error failure
    | none =>
        if (prohibitsFraming response.status || response.status == 205) &&
            Body.length response.body != some 0 then .error .invalidBody
        else .ok
          { contentLength :=
              if prohibitsFraming response.status then none else Body.length response.body
            suppressed := prohibitsFraming response.status || response.status == 304 ||
              response.status == 205 || request.method == ascii "HEAD" }

def reason : Nat → Bytes
  | 100 => ascii "Continue"
  | 103 => ascii "Early Hints"
  | 200 => ascii "OK"
  | 201 => ascii "Created"
  | 202 => ascii "Accepted"
  | 204 => ascii "No Content"
  | 205 => ascii "Reset Content"
  | 206 => ascii "Partial Content"
  | 301 => ascii "Moved Permanently"
  | 302 => ascii "Found"
  | 303 => ascii "See Other"
  | 304 => ascii "Not Modified"
  | 307 => ascii "Temporary Redirect"
  | 308 => ascii "Permanent Redirect"
  | 400 => ascii "Bad Request"
  | 401 => ascii "Unauthorized"
  | 403 => ascii "Forbidden"
  | 404 => ascii "Not Found"
  | 405 => ascii "Method Not Allowed"
  | 406 => ascii "Not Acceptable"
  | 408 => ascii "Request Timeout"
  | 409 => ascii "Conflict"
  | 411 => ascii "Length Required"
  | 412 => ascii "Precondition Failed"
  | 413 => ascii "Content Too Large"
  | 414 => ascii "URI Too Long"
  | 415 => ascii "Unsupported Media Type"
  | 416 => ascii "Range Not Satisfiable"
  | 417 => ascii "Expectation Failed"
  | 421 => ascii "Misdirected Request"
  | 422 => ascii "Unprocessable Content"
  | 429 => ascii "Too Many Requests"
  | 431 => ascii "Request Header Fields Too Large"
  | 500 => ascii "Internal Server Error"
  | 501 => ascii "Not Implemented"
  | 503 => ascii "Service Unavailable"
  | 505 => ascii "HTTP Version Not Supported"
  | _ => []

/-- A bounded explanation for built-in errors; overload responses stay empty. -/
def errorBody : Nat → Bytes
  | 400 => ascii "400 Bad Request: the request syntax or parameters are invalid.\n"
  | 404 => ascii "404 Not Found: no resource matches this path.\n"
  | 405 => ascii "405 Method Not Allowed: use a method listed in Allow.\n"
  | 408 => ascii "408 Request Timeout: the request did not arrive before its deadline.\n"
  | 412 => ascii "412 Precondition Failed: a request condition does not match the resource.\n"
  | 413 => ascii "413 Content Too Large: the request exceeds the configured body limit.\n"
  | 414 => ascii "414 URI Too Long: the request target exceeds the configured limit.\n"
  | 417 => ascii "417 Expectation Failed: the request expectation is unsupported.\n"
  | 421 => ascii
      "421 Misdirected Request: this cleartext listener cannot serve an HTTPS target.\n"
  | 431 => ascii
      "431 Request Header Fields Too Large: request fields exceed configured limits.\n"
  | 500 => ascii "500 Internal Server Error: the server could not produce the response.\n"
  | 501 => ascii "501 Not Implemented: the method or transfer coding is unsupported.\n"
  | 505 => ascii "505 HTTP Version Not Supported: use HTTP/1.0 or HTTP/1.1.\n"
  | _ => []

def statusLine (version : Version) (status : Nat) : Bytes :=
  if status = 200 then
    if version = .http10 then ascii "HTTP/1.0 200 OK\r\nDate: "
    else ascii "HTTP/1.1 200 OK\r\nDate: "
  else
    ascii "HTTP/1." ++ digits 10 (if version = .http10 then 0 else 1) ++ ascii " " ++
      digits 10 status ++ ascii " " ++ reason status ++ ascii "\r\nDate: "

def connectionLine (version : Version) (status : Nat) (closing : Bool) : Bytes :=
  if status < 200 then []
  else if closing then ascii "Connection: close\r\n"
  else if version = .http10 then ascii "Connection: keep-alive\r\n"
  else []

def framingLine (plan : Framing) (chunked : Bool) : Bytes :=
  match plan.contentLength with
  | some length => ascii "Content-Length: " ++ digits 10 length ++ crlf
  | none => if chunked then ascii "Transfer-Encoding: chunked\r\n" else []

def fieldLine (field : Header) : Bytes := field.name ++ ascii ": " ++ field.value ++ crlf

/-- Whether the transport has to be closed after this response. -/
def closes (response : Response) (request : Request) (plan : Framing) : Bool :=
  response.close || !request.keepAlive ||
    (plan.contentLength.isNone && request.version == .http10 && !plan.suppressed)

def chunks (request : Request) (plan : Framing) : Bool :=
  plan.contentLength.isNone && !plan.suppressed && request.version == .http11

def mode (request : Request) (plan : Framing) : Mode :=
  if plan.suppressed then .suppressed
  else match plan.contentLength with
    | some length => .fixed length
    | none => if chunks request plan then .chunked else .closing

def head (response : Response) (request : Request) (date : Bytes) (plan : Framing) : Bytes :=
  statusLine request.version response.status ++ date ++ crlf ++
    connectionLine request.version response.status (closes response request plan) ++
    framingLine plan (chunks request plan) ++ response.headers.flatMap fieldLine ++ crlf

/-- Validates all field metadata and then writes the head into `capacity` bytes. -/
def begin (response : Response) (request : Request) (date : Bytes) (capacity : Nat) :
    Except Failure (Bytes × Encoder) :=
  match framing response request with
  | .error failure => .error failure
  | .ok plan =>
      if (head response request date plan).length ≤ capacity then
        .ok (head response request date plan,
          { mode := mode request plan, close := closes response request plan })
      else .error .writeFailed

/-- A response that asks for closure, or to a request that does, closes the transport. -/
theorem begin_close {response : Response} {request : Request} {date bytes : Bytes} {capacity : Nat}
    {encoder : Encoder} (h : begin response request date capacity = .ok (bytes, encoder))
    (hclose : response.close = true) : encoder.close = true := by
  unfold begin at h
  split at h
  · cases h
  · split at h
    · cases h
      simp [closes, hclose]
    · cases h

/-- A head is never empty. -/
theorem begin_ne_nil {response : Response} {request : Request} {date bytes : Bytes} {capacity : Nat}
    {encoder : Encoder} (h : begin response request date capacity = .ok (bytes, encoder)) :
    bytes ≠ [] := by
  unfold begin at h
  split at h
  · cases h
  · split at h
    · cases h
      simp [head, crlf]
    · cases h

end Response

end Zhtps
