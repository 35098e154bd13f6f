import Zhtps.Http.Syntax

/-!
Request heads, after `src/http/Request.zig`.

`parse` works on one complete CRLF-delimited head. The field lines are
folded over an explicit record of the local variables the Zig loop keeps,
so that each line's effect is one function and the loop is the fold.
-/

namespace Zhtps

structure Header where
  name : Bytes
  value : Bytes
  deriving DecidableEq, Repr

inductive Version | http10 | http11 | http2
  deriving DecidableEq, Repr

/-- The failures of `Request.parse` and of the incremental parser: Zig
merges the two error sets, and so does this type. -/
inductive Error
  | expectationUnsupported
  | invalidRequestLine
  | invalidMethod
  | invalidTarget
  | unsupportedVersion
  | invalidHeader
  | tooManyHeaders
  | missingHost
  | invalidHost
  | duplicateHost
  | invalidContentLength
  | ambiguousFraming
  | invalidTransferEncoding
  | unsupportedTransferCoding
  | unexpectedEof
  | headersTooLarge
  | targetTooLong
  | bodyTooLarge
  | invalidChunk
  | chunkExtensionTooLarge
  | chunkFramingTooLarge
  | trailersTooLarge
  | forbiddenTrailer
  | tooManyTrailers
  deriving DecidableEq, Repr

structure Request where
  method : Bytes := []
  target : Bytes := []
  path : Bytes := []
  query : Bytes := []
  authority : Bytes := []
  scheme : Option Bytes := none
  version : Version := .http11
  headers : List Header := []
  trailers : List Header := []
  contentLength : Option Nat := none
  chunked : Bool := false
  bodyFollows : Bool := false
  keepAlive : Bool := true
  expectContinue : Bool := false
  deriving DecidableEq, Repr

namespace Request

/-- Parses one field line without CRLF. -/
def parseHeader (line : Bytes) : Except Error Header :=
  match Mem.indexOfScalar line 0x3a with
  | none => .error .invalidHeader
  | some colon =>
      let name := line.take colon
      let value := Syntax.trim (line.drop (colon + 1))
      if !Syntax.isToken name || !Syntax.isField value then .error .invalidHeader
      else .ok ⟨name, value⟩

/-- Validates one Expect field, ignoring empty list members. -/
def parseExpect (value : Bytes) : Except Error Bool :=
  (Mem.splitScalar 0x2c value).foldlM (m := Except Error) (fun expectContinue part =>
    let expectation := Syntax.trim part
    if expectation.isEmpty then .ok expectContinue
    else if !Syntax.eql expectation (ascii "100-continue") then .error .expectationUnsupported
    else .ok true) false

/-- The first field with this case-insensitive name. -/
def getHeader (request : Request) (name : Bytes) : Option Bytes :=
  (request.headers.find? fun field => Syntax.eql field.name name).map (·.value)

def forbiddenTrailers : List Bytes :=
  ["content-length", "transfer-encoding", "host", "connection", "trailer", "te", "upgrade",
    "expect", "authorization", "proxy-authorization", "cookie", "if-match", "if-none-match",
    "if-modified-since", "if-unmodified-since", "if-range", "range", "max-forwards",
    "cache-control", "pragma", "content-encoding", "content-type", "content-range",
    "content-disposition", "content-language", "content-location"].map ascii

/-- Rejects framing, routing, authentication and representation policy
fields that cannot safely be supplied after body processing starts. -/
def forbidsTrailer (request : Request) (name : Bytes) : Bool :=
  forbiddenTrailers.any (Syntax.eql name) ||
    request.headers.any fun field =>
      Syntax.eql field.name (ascii "connection") &&
        (Mem.splitScalar 0x2c field.value).any fun token => Syntax.eql name (Syntax.trim token)

/-- `parseTarget`: fills authority, scheme, path and query from the target. -/
def parseTarget (request : Request) : Except Error Request :=
  let target := request.target
  match target with
  | [] => .error .invalidTarget
  | first :: _ =>
      if request.method == ascii "CONNECT" then
        if !Syntax.isAuthority target true false then .error .invalidTarget
        else .ok { request with authority := target }
      else if target == ascii "*" then
        if request.method != ascii "OPTIONS" then .error .invalidTarget
        else .ok { request with path := target }
      else
        -- The path and query of an origin-form or absolute-form target.
        let finish (request : Request) (pathQuery : Bytes) : Except Error Request :=
          if !Syntax.isUriComponent true pathQuery then .error .invalidTarget
          else
            let question := Mem.indexOfScalar pathQuery 0x3f
            let path := pathQuery.take (question.getD pathQuery.length)
            .ok { request with
              path := if path.isEmpty then ascii "/" else path
              query := match question with
                | some at_ => pathQuery.drop (at_ + 1)
                | none => request.query }
        if first == 0x2f then finish request target
        else match Mem.indexOf target (ascii "://") with
          | none => .error .invalidTarget
          | some schemeEnd =>
              let scheme := target.take schemeEnd
              if !Syntax.eql scheme (ascii "http") && !Syntax.eql scheme (ascii "https") then
                .error .invalidTarget
              else
                let rest := target.drop (schemeEnd + 3)
                let end_ := (Mem.indexOfAny rest (ascii "/?")).getD rest.length
                if !Syntax.isAuthority (rest.take end_) false false then .error .invalidTarget
                else
                  finish { request with authority := rest.take end_, scheme := some scheme }
                    (rest.drop end_)

/-- The two flags `parseTransfer` is handed by reference. -/
structure Codings where
  chunked : Bool := false
  unsupported : Bool := false
  deriving DecidableEq

/-- The length of the token a list starts with. -/
def tokenLength (bytes : Bytes) : Nat := (bytes.takeWhile Syntax.isTokenByte).length

/-- The parameters behind one transfer coding. Each turn of the loop
consumes its semicolon, so the length of the rest is enough fuel. -/
def parseParameters (isChunked : Bool) : Nat → Bytes → Except Error Bytes
  | 0, rest => .ok rest
  | fuel + 1, rest =>
      match rest with
      | 0x3b :: after =>
          if isChunked then .error .invalidTransferEncoding
          else
            let rest := Syntax.trim after
            let end_ := tokenLength rest
            if end_ == 0 then .error .invalidTransferEncoding
            else match Syntax.trim (rest.drop end_) with
              | 0x3d :: after =>
                  let rest := Syntax.trim after
                  let length :=
                    if rest.head? == some 0x22 then Syntax.quotedLength rest
                    else if tokenLength rest == 0 then none
                    else some (tokenLength rest)
                  match length with
                  | none => .error .invalidTransferEncoding
                  | some end_ => parseParameters isChunked fuel (Syntax.trim (rest.drop end_))
              | _ => .error .invalidTransferEncoding
      | _ => .ok rest

/-- One Transfer-Encoding field value. -/
def parseTransferLoop : Nat → Bytes → Codings → Except Error Codings
  | 0, _, codings => .ok codings
  | fuel + 1, rest, codings =>
      match rest with
      | [] => .ok codings
      | first :: after =>
          if first == 0x2c then parseTransferLoop fuel (Syntax.trim after) codings
          else if codings.chunked then .error .invalidTransferEncoding
          else
            let end_ := tokenLength rest
            if end_ == 0 then .error .invalidTransferEncoding
            else
              let isChunked := Syntax.eql (rest.take end_) (ascii "chunked")
              match parseParameters isChunked rest.length (Syntax.trim (rest.drop end_)) with
              | .error err => .error err
              | .ok rest =>
                  let codings :=
                    if isChunked then { codings with chunked := true }
                    else { codings with unsupported := true }
                  match rest with
                  | [] => .ok codings
                  | next :: after =>
                      if next != 0x2c then .error .invalidTransferEncoding
                      else parseTransferLoop fuel (Syntax.trim after) codings

def parseTransfer (bytes : Bytes) (codings : Codings) : Except Error Codings :=
  parseTransferLoop (bytes.length + 1) (Syntax.trim bytes) codings

/-- The local variables of the field loop of `parse`. -/
structure Fields where
  request : Request
  slots : List Header := []
  host : Option Bytes := none
  connectionClose : Bool := false
  connectionKeepAlive : Bool := false
  transferSeen : Bool := false
  codings : Codings := {}
  deriving DecidableEq

/-- The members of one Connection field. -/
def parseConnection (value : Bytes) (fields : Fields) : Except Error Fields :=
  (Mem.splitScalar 0x2c value).foldlM (m := Except Error) (fun fields part =>
    let token := Syntax.trim part
    if token.isEmpty then .ok fields
    else if !Syntax.isToken token then .error .invalidHeader
    else .ok { fields with
      connectionClose := fields.connectionClose || Syntax.eql token (ascii "close")
      connectionKeepAlive :=
        fields.connectionKeepAlive || Syntax.eql token (ascii "keep-alive") }) fields

/-- One field line, already parsed into name and value. -/
def addField (fields : Fields) (header : Header) : Except Error Fields :=
  let fields := { fields with slots := fields.slots ++ [header] }
  let value := header.value
  if Syntax.eql header.name (ascii "host") then
    if fields.host.isSome then .error .duplicateHost
    else if !Syntax.isAuthority value false true then .error .invalidHost
    else .ok { fields with host := some value }
  else if Syntax.eql header.name (ascii "content-length") then
    if fields.request.contentLength.isSome then .error .ambiguousFraming
    else if value.isEmpty then .error .invalidContentLength
    else if !value.all Ascii.isDigit then .error .invalidContentLength
    else match Fmt.parseInt value 10 with
      | none => .error .invalidContentLength
      | some length =>
          .ok { fields with request := { fields.request with contentLength := some length } }
  else if Syntax.eql header.name (ascii "transfer-encoding") then
    if fields.request.version == .http10 then .error .invalidTransferEncoding
    else match parseTransfer value fields.codings with
      | .error err => .error err
      | .ok codings => .ok { fields with transferSeen := true, codings := codings }
  else if Syntax.eql header.name (ascii "connection") then parseConnection value fields
  else if Syntax.eql header.name (ascii "expect") then
    match parseExpect value with
    | .error err => .error err
    | .ok expectContinue =>
        .ok { fields with request := { fields.request with
          expectContinue := fields.request.expectContinue ||
            (fields.request.version == .http11 && expectContinue) } }
  else .ok fields

/-- The field lines up to the empty one. Running out of lines before it is
an unterminated head. -/
def parseFields (slots : Nat) : Fields → List Bytes → Except Error Fields
  | _, [] => .error .invalidHeader
  | fields, line :: lines =>
      if line.isEmpty then .ok fields
      else if fields.slots.length == slots then .error .tooManyHeaders
      else match parseHeader line with
        | .error err => .error err
        | .ok header =>
            match addField fields header with
            | .error err => .error err
            | .ok fields => parseFields slots fields lines

/-- The request line: method, target and version. -/
def parseRequestLine (first : Bytes) : Except Error Request :=
  match Mem.indexOfScalar first 0x20 with
  | none => .error .invalidRequestLine
  | some space =>
      let method := first.take space
      if !Syntax.isToken method then .error .invalidMethod
      else match Mem.indexOfScalarPos first (space + 1) 0x20 with
        | none => .error .invalidRequestLine
        | some last =>
            let target := (first.take last).drop (space + 1)
            let version := first.drop (last + 1)
            let digit (index : Nat) : Bool := (version[index]?.map Ascii.isDigit).getD false
            if version.length != 8 || !(ascii "HTTP/").isPrefixOf version || !digit 5 ||
                version[6]? != some 0x2e || !digit 7 then .error .invalidRequestLine
            else if version[5]? != some 0x31 then .error .unsupportedVersion
            else
              let v : Version := if version[7]? == some 0x30 then .http10 else .http11
              .ok { method := method, target := target, version := v, keepAlive := v == .http11 }

/-- What `parse` concludes from the fields once the empty line is seen. -/
def conclude (fields : Fields) : Except Error Request :=
  let v := fields.request.version
  let request := { fields.request with
    headers := fields.slots
    chunked := fields.codings.chunked
    authority :=
      if fields.request.scheme.isNone && fields.request.method != ascii "CONNECT" then
        fields.host.getD []
      else fields.request.authority }
  if v == .http11 && fields.host.isNone then .error .missingHost
  else if fields.transferSeen && request.contentLength.isSome then .error .ambiguousFraming
  else if fields.transferSeen && !request.chunked then .error .invalidTransferEncoding
  else if fields.codings.unsupported then .error .unsupportedTransferCoding
  else .ok { request with
    keepAlive := !fields.connectionClose && (v == .http11 || fields.connectionKeepAlive) }

/-- Parses a complete CRLF-delimited request head into at most `slots`
header slots. -/
def parse (bytes : Bytes) (slots : Nat) : Except Error Request :=
  match Mem.splitLines bytes with
  | [] => .error .invalidRequestLine
  | first :: lines =>
      match parseRequestLine first with
      | .error err => .error err
      | .ok request =>
          match parseTarget request with
          | .error err => .error err
          | .ok request =>
              match parseFields slots { request := request } lines with
              | .error err => .error err
              | .ok fields => conclude fields

/-- True when request framing permits body bytes after the initial headers. -/
def hasBody (request : Request) : Bool :=
  request.chunked || request.bodyFollows || 0 < request.contentLength.getD 0

example : (parse (ascii "GET / HTTP/1.1\r\nHost: a\r\n\r\n") 8).toOption.map (·.path) =
    some (ascii "/") := by decide +kernel

end Request

end Zhtps
