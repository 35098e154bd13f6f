import Zhtps.Lib.Buffer
import Zhtps.Http.Request

/-!
Incremental request framing, after `src/http/Parser.zig`.

`feed` is the Zig loop: each turn of `while (true) switch (phase)` is one
`turn`, which ends the call with an event, ends it with an error, or
continues. The per-byte arms of the switch are functions of their own, so
the head arm can be seen to consist of two block copies in front of the
same byte function.
-/

namespace Zhtps

open Lib

def maxFields : Nat := 128
def maxChunkLine : Nat := 4096

theorem maxFields_le : maxFields ≤ maxFields :=
  Nat.le_refl maxFields

/-- Parser limits. `init` asserts that the field limits fit the built-in
tables; here a value that breaks the assertion cannot be built. -/
structure Limits where
  maxTargetBytes : Nat := 8192
  maxBodyBytes : Nat := 64 * 1024 * 1024
  /-- Cumulative size lines, extensions, and chunk delimiters, excluding trailers. -/
  maxChunkFramingBytes : Nat := 64 * 1024
  maxHeaderCount : Nat := maxFields
  maxTrailerCount : Nat := maxFields
  header_le : maxHeaderCount ≤ maxFields := by first | exact maxFields_le | decide
  trailer_le : maxTrailerCount ≤ maxFields := by first | exact maxFields_le | decide

inductive Phase
  | head
  | fixedBody
  | chunkSize
  | chunkBody
  | chunkCr
  | chunkLf
  | trailers
  | ending
  | complete
  | invalid
  deriving DecidableEq, Repr

inductive Event
  | needInput
  | head (request : Request)
  | body (bytes : Bytes)
  | trailer (field : Header)
  | end
  deriving DecidableEq, Repr

structure Step where
  consumed : Nat
  event : Event
  deriving DecidableEq, Repr

structure Parser where
  headStorage : Buffer UInt8
  trailerStorage : Buffer UInt8
  limits : Limits
  request : Request := {}
  phase : Phase := .head
  leadingLines : Nat := 0
  firstLine : Bool := true
  spaces : Nat := 0
  targetLen : Nat := 0
  trailerFields : List Header := []
  trailerStart : Nat := 0
  chunkLine : Buffer UInt8 := .ofStorage (List.replicate maxChunkLine 0)
  remaining : Nat := 0
  bodyBytes : Nat := 0
  chunkFramingBytes : Nat := 0

namespace Parser

/-- Starts a parser over caller-owned head and trailer storage. -/
def init (headStorage trailerStorage : Bytes) (limits : Limits) : Parser :=
  { headStorage := .ofStorage headStorage, trailerStorage := .ofStorage trailerStorage, limits := limits }

/-- The outcome of one byte: keep looping, return an event, or fail. The
parser after a failure is kept, because `errdefer` leaves it readable. -/
inductive Outcome
  | go (parser : Parser)
  | emit (parser : Parser) (event : Event)
  | fail (parser : Parser) (err : Error)

def countChunkFramingByte (parser : Parser) : Option Parser :=
  if parser.chunkFramingBytes = parser.limits.maxChunkFramingBytes then none
  else some { parser with chunkFramingBytes := parser.chunkFramingBytes + 1 }

/-- One extension of a chunk-size line, its semicolon already seen. -/
def chunkExtension (rest : Bytes) : Option Bytes :=
  let rest := Mem.trimStart rest
  let length := Request.tokenLength rest
  if length = 0 then none
  else
    let rest := rest.drop length
    match Mem.trimStart rest with
    | 0x3d :: value =>
        let value := Mem.trimStart value
        let length :=
          if value.head? = some 0x22 then Syntax.quotedLength value
          else if Request.tokenLength value = 0 then none
          else some (Request.tokenLength value)
        length.map fun length => value.drop length
    | _ => some rest

/-- The extension loop: whether it accepts, or `none` when it is cut off
before its end. Each turn consumes its semicolon, so the length of the rest
is enough fuel. -/
def chunkExtensions : Nat → Bytes → Option Bool
  | 0, rest => if rest.isEmpty then some true else none
  | fuel + 1, rest =>
      if rest.isEmpty then some true
      else match Mem.trimStart rest with
        | 0x3b :: after =>
            match chunkExtension after with
            | none => some false
            | some rest => chunkExtensions fuel rest
        | _ => some false

def parseChunkSize (bytes : Bytes) : Except Error Nat :=
  let digits := bytes.takeWhile Syntax.isHex
  if digits.isEmpty then .error .invalidChunk
  else match Fmt.parseInt digits 16 with
    | none => .error .invalidChunk
    | some size =>
        let rest := bytes.drop digits.length
        if chunkExtensions rest.length rest = some true then .ok size else .error .invalidChunk

/-- The phase behind a head without chunked framing. -/
def afterHead (remaining : Nat) : Phase := if remaining = 0 then .ending else .fixedBody

/-- The complete head has been stored: parse it and enter the body phase. -/
def finishHead (parser : Parser) : Outcome :=
  match Request.parse parser.headStorage.used parser.limits.maxHeaderCount with
  | .error err => .fail parser err
  | .ok request =>
      let parser := { parser with request := request }
      if request.chunked then .emit { parser with phase := .chunkSize } (.head request)
      else
        let parser := { parser with remaining := request.contentLength.getD 0 }
        if parser.remaining > parser.limits.maxBodyBytes then .fail parser .bodyTooLarge
        else .emit { parser with phase := afterHead parser.remaining } (.head request)

/-- The byte belongs to the request target: it stands between the first and
the second space of the first line. -/
def inTarget (parser : Parser) (c : UInt8) : Bool :=
  parser.firstLine && c != Ascii.sp && parser.spaces == 1

/-- The counters kept on the first line. -/
def countTarget (parser : Parser) (c : UInt8) : Parser :=
  if parser.inTarget c then { parser with targetLen := parser.targetLen + 1 }
  else if parser.firstLine && c == Ascii.sp then { parser with spaces := parser.spaces + 1 }
  else parser

/-- A head line has been completed by its LF. Up to eight empty lines in
front of the request line are skipped. -/
def endHeadLine (parser : Parser) : Outcome :=
  if parser.headStorage.len = 2 then
    let parser := { parser with leadingLines := parser.leadingLines + 1 }
    if parser.leadingLines > 8 then .fail parser .invalidRequestLine
    else .go { parser with headStorage := parser.headStorage.clear }
  else
    let parser := { parser with firstLine := false }
    if (ascii "\r\n\r\n").isSuffixOf parser.headStorage.used then finishHead parser
    else .go parser

/-- A head byte that passed the storage and line-ending checks is stored,
counted against the target limit on the first line, and may end a line. -/
def storeHeadByte (parser : Parser) (c : UInt8) : Outcome :=
  let stored := countTarget { parser with headStorage := parser.headStorage.push c } c
  if parser.inTarget c && stored.targetLen > stored.limits.maxTargetBytes then
    .fail stored .targetTooLong
  else if c ≠ Ascii.lf then .go stored
  else endHeadLine stored

/-- The checks every head byte meets before it is stored. -/
def headCheck (parser : Parser) (c : UInt8) : Option Error :=
  if parser.headStorage.len = parser.headStorage.capacity then some .headersTooLarge
  else if parser.headStorage.last? = some Ascii.cr ∧ c ≠ Ascii.lf then some .invalidHeader
  else if c = Ascii.lf ∧ parser.headStorage.last? ≠ some Ascii.cr then some .invalidHeader
  else none

/-- The phase behind a chunk-size line. -/
def afterChunkSize (remaining : Nat) : Phase := if remaining = 0 then .trailers else .chunkBody

/-- A complete chunk-size line, without its CRLF. -/
def endChunkLine (parser : Parser) (line : Bytes) : Outcome :=
  match parseChunkSize line with
  | .error err => .fail parser err
  | .ok size =>
      let parser := { parser with remaining := size, chunkLine := parser.chunkLine.clear }
      if parser.remaining > parser.limits.maxBodyBytes - parser.bodyBytes then
        .fail parser .bodyTooLarge
      else .go { parser with phase := afterChunkSize parser.remaining }

/-- One byte of a chunk-size line, already counted as framing. -/
def storeChunkByte (parser : Parser) (c : UInt8) : Outcome :=
  let last := parser.chunkLine.last?
  let stored := { parser with chunkLine := parser.chunkLine.push c }
  if parser.chunkLine.len = parser.chunkLine.capacity then .fail parser .chunkExtensionTooLarge
  else if last = some Ascii.cr ∧ c ≠ Ascii.lf then .fail parser .invalidChunk
  else if c ≠ Ascii.lf then .go stored
  else if last ≠ some Ascii.cr then .fail stored .invalidChunk
  else endChunkLine stored parser.chunkLine.used.dropLast

def chunkSizeByte (parser : Parser) (c : UInt8) : Outcome :=
  match countChunkFramingByte parser with
  | none => .fail parser .chunkFramingTooLarge
  | some parser => storeChunkByte parser c

/-- The byte a chunk delimiter phase waits for, and the phase behind it. -/
def delimiter : Phase → UInt8 × Phase
  | .chunkCr => (Ascii.cr, .chunkLf)
  | _ => (Ascii.lf, .chunkSize)

def chunkDelimiterByte (parser : Parser) (c : UInt8) : Outcome :=
  match countChunkFramingByte parser with
  | none => .fail parser .chunkFramingTooLarge
  | some parser =>
      if c ≠ (delimiter parser.phase).1 then .fail parser .invalidChunk
      else .go { parser with phase := (delimiter parser.phase).2 }

/-- The byte before the write position, if it belongs to the current
trailer line. -/
def trailerLast (parser : Parser) : Option UInt8 :=
  if parser.trailerStorage.len > parser.trailerStart then parser.trailerStorage.last? else none

/-- A complete trailer line, without its CRLF. -/
def endTrailerLine (parser : Parser) (line : Bytes) : Outcome :=
  let parser := { parser with trailerStart := parser.trailerStorage.len }
  if line.isEmpty then .go { parser with phase := .ending }
  else if parser.trailerFields.length = parser.limits.maxTrailerCount then
    .fail parser .tooManyTrailers
  else match Request.parseHeader line with
    | .error err => .fail parser err
    | .ok field =>
        if parser.request.forbidsTrailer field.name then .fail parser .forbiddenTrailer
        else
          let fields := parser.trailerFields ++ [field]
          .emit { parser with
            trailerFields := fields
            request := { parser.request with trailers := fields } } (.trailer field)

def trailerByte (parser : Parser) (c : UInt8) : Outcome :=
  let last := parser.trailerLast
  let stored := { parser with trailerStorage := parser.trailerStorage.push c }
  if parser.trailerStorage.len = parser.trailerStorage.capacity then .fail parser .trailersTooLarge
  else if last = some Ascii.cr ∧ c ≠ Ascii.lf then .fail parser .invalidHeader
  else if c ≠ Ascii.lf then .go stored
  else if last ≠ some Ascii.cr then .fail stored .invalidHeader
  else endTrailerLine stored (parser.trailerStorage.used.dropLast.drop parser.trailerStart)

/-- The phase behind body bytes that leave this many outstanding. -/
def afterBody (phase : Phase) (remaining : Nat) : Phase :=
  if remaining = 0 then if phase = .fixedBody then .ending else .chunkCr else phase

/-- The body arm: everything up to the end of the fixed body or chunk. -/
def takeBody (parser : Parser) (bytes : Bytes) : Parser :=
  { parser with
    remaining := parser.remaining - bytes.length
    bodyBytes := parser.bodyBytes + bytes.length
    phase := afterBody parser.phase (parser.remaining - bytes.length) }

def isDelimiter (c : UInt8) : Bool := c == Ascii.cr || c == Ascii.lf

/-- The bytes of one vector block in front of its first CR or LF: `@ctz` of
the comparison mask, or the whole width when the mask is empty. -/
def blockLength (width : Nat) (rest : Bytes) : Nat := (rest.take width).findIdx isDelimiter

/-- What one turn of the loop does: continue with less input, return an
event together with the unconsumed input, or fail. -/
inductive Turn
  | again (parser : Parser) (rest : Bytes)
  | done (parser : Parser) (rest : Bytes) (event : Event)
  | fail (parser : Parser) (err : Error)

/-- A byte outcome in front of the input behind that byte. -/
def Outcome.turn (rest : Bytes) : Outcome → Turn
  | .go parser => .again parser rest
  | .emit parser event => .done parser rest event
  | .fail parser err => .fail parser err

/-- Copies one block of the given width into the head storage. -/
def copyBlock (parser : Parser) (width : Nat) (rest : Bytes) : Turn :=
  let length := blockLength width rest
  .again { parser with headStorage := parser.headStorage.append (rest.take length) }
    (rest.drop length)

def headTurn (parser : Parser) (c : UInt8) (rest : Bytes) : Turn :=
  match headCheck parser c with
  | some err => .fail parser err
  | none =>
      let scalar := (storeHeadByte parser c).turn rest
      if !parser.firstLine && !isDelimiter c then
        let available := min (rest.length + 1) parser.headStorage.room
        if 64 ≤ available then copyBlock parser 64 (c :: rest)
        else if 16 ≤ available then copyBlock parser 16 (c :: rest)
        else scalar
      else scalar

/-- One turn of `while (true) switch (parser.phase)`. -/
def turn (parser : Parser) (input : Bytes) : Turn :=
  match parser.phase with
  | .ending => .done { parser with phase := .complete } input .end
  -- Unreachable in the source: `feed` asserts neither phase on entry.
  | .complete | .invalid => .done parser input .needInput
  | phase =>
      match input with
      | [] => .done parser [] .needInput
      | c :: rest =>
          match phase with
          | .head => headTurn parser c rest
          | .chunkSize => (chunkSizeByte parser c).turn rest
          | .chunkCr | .chunkLf => (chunkDelimiterByte parser c).turn rest
          | .trailers => (trailerByte parser c).turn rest
          | _ =>
              let count := min parser.remaining (rest.length + 1)
              let body := (c :: rest).take count
              .done (takeBody parser body) ((c :: rest).drop count) (.body body)

/-- The loop. Every turn that continues has consumed input, so its length
is enough fuel; `feed_turns` shows that the last case is never reached. -/
def loop : Nat → Parser → Bytes → Turn
  | 0, parser, input => turn parser input
  | fuel + 1, parser, input =>
      match turn parser input with
      | .again parser rest => loop fuel parser rest
      | result => result

/-- Consumes at most one event. `errdefer` marks a failed parser invalid. -/
def feed (parser : Parser) (input : Bytes) : Parser × Except Error Step :=
  match loop input.length parser input with
  | .again parser _ => (parser, .ok ⟨input.length, .needInput⟩)
  | .done parser rest event => (parser, .ok ⟨input.length - rest.length, event⟩)
  | .fail parser err => ({ parser with phase := .invalid }, .error err)

/-- Distinguishes a clean idle EOF from a truncated request or body. -/
def eof (parser : Parser) : Except Error Unit :=
  if parser.phase = .complete ∨ (parser.phase = .head ∧ parser.headStorage.len = 0) then .ok ()
  else .error .unexpectedEof

/-- Maps a parsing failure to the HTTP status used to reject the request. -/
def status : Error → Nat
  | .headersTooLarge | .tooManyHeaders | .trailersTooLarge | .tooManyTrailers => 431
  | .targetTooLong => 414
  | .bodyTooLarge | .chunkFramingTooLarge => 413
  | .unsupportedVersion => 505
  | .unsupportedTransferCoding => 501
  | .expectationUnsupported => 417
  | _ => 400

end Parser

end Zhtps
