import Mathlib

/-!
HTTP field and URI grammar, after `src/http/syntax.zig`, together with the
pieces of the Zig standard library it rests on (`std.mem`, `std.ascii`,
`std.fmt.parseInt` and the IPv6 literal parser).

Slices are byte lists. Every function here is a total function of the
bytes, written over their recursion so that it can be evaluated.
-/

namespace Zhtps

abbrev Bytes := List UInt8

/-- The bytes of an ASCII literal. -/
def ascii (s : String) : Bytes := s.toList.map fun c => c.toUInt8

/-- The bytes of a literal by its characters, which are faster to evaluate. -/
theorem ascii_ofList (text : List Char) : ascii (.ofList text) = text.map Char.toUInt8 := by
  rw [ascii, String.toList_ofList]

namespace Ascii

def cr : UInt8 := 13
def lf : UInt8 := 10
def sp : UInt8 := 32
def tab : UInt8 := 9

def isDigit (c : UInt8) : Bool := 48 ≤ c && c ≤ 57

def isUpper (c : UInt8) : Bool := 65 ≤ c && c ≤ 90

def isAlphanumeric (c : UInt8) : Bool :=
  isDigit c || isUpper c || (97 ≤ c && c ≤ 122)

def toLower (c : UInt8) : UInt8 := if isUpper c then c + 32 else c

def isLower (c : UInt8) : Bool := 97 ≤ c && c ≤ 122

def toUpper (c : UInt8) : UInt8 := if isLower c then c - 32 else c

/-- `std.ascii.eqlIgnoreCase`. -/
def eqlIgnoreCase (a b : Bytes) : Bool := a.map toLower == b.map toLower

end Ascii

namespace Mem

/-- `std.mem.indexOfScalar`. -/
def indexOfScalar (bytes : Bytes) (c : UInt8) : Option Nat := bytes.findIdx? (· == c)

/-- `std.mem.indexOfScalarPos`: the search starts at an offset, the answer
does not. -/
def indexOfScalarPos (bytes : Bytes) (start : Nat) (c : UInt8) : Option Nat :=
  ((bytes.drop start).findIdx? (· == c)).map (start + ·)

/-- `std.mem.lastIndexOfScalar`. -/
def lastIndexOfScalar (bytes : Bytes) (c : UInt8) : Option Nat :=
  (bytes.reverse.findIdx? (· == c)).map fun i => bytes.length - 1 - i

/-- `std.mem.indexOfAny`. -/
def indexOfAny (bytes set : Bytes) : Option Nat := bytes.findIdx? (set.contains ·)

/-- `std.mem.indexOf`. -/
def indexOf : Bytes → Bytes → Option Nat
  | [], needle => if needle.isEmpty then some 0 else none
  | c :: rest, needle =>
      if needle.isPrefixOf (c :: rest) then some 0
      else (indexOf rest needle).map (· + 1)

/-- `std.mem.trimStart` over spaces and tabs. -/
def trimStart (bytes : Bytes) : Bytes :=
  bytes.dropWhile fun c => c == Ascii.sp || c == Ascii.tab

/-- `std.mem.trim` over spaces and tabs. -/
def trim (bytes : Bytes) : Bytes := (trimStart (trimStart bytes).reverse).reverse

/-- `std.mem.splitScalar`, run to its end. -/
def splitScalar (c : UInt8) : Bytes → List Bytes
  | [] => [[]]
  | x :: rest =>
      if x == c then [] :: splitScalar c rest
      else match splitScalar c rest with
        | [] => [[x]]
        | part :: parts => (x :: part) :: parts

/-- `std.mem.splitSequence` over CRLF, run to its end. -/
def splitLines : Bytes → List Bytes
  | [] => [[]]
  | [x] => [[x]]
  | x :: y :: rest =>
      if x == Ascii.cr && y == Ascii.lf then [] :: splitLines rest
      else match splitLines (y :: rest) with
        | [] => [[x]]
        | line :: lines => (x :: line) :: lines

end Mem

namespace Fmt

/-- `std.fmt.charToDigit`. -/
def charToDigit (c : UInt8) (base : Nat) : Option Nat :=
  let value :=
    if Ascii.isDigit c then some (c.toNat - 48)
    else if Ascii.isUpper c then some (c.toNat - 55)
    else if 97 ≤ c && c ≤ 122 then some (c.toNat - 87)
    else none
  value.filter (· < base)

/-- Digits most significant first, underscores skipped, overflow past
`2 ^ 64` reported at the digit that causes it. -/
def accumulate (base : Nat) : Nat → Bytes → Option Nat
  | acc, [] => some acc
  | acc, c :: rest =>
      if c == 95 then accumulate base acc rest
      else match charToDigit c base with
        | none => none
        | some d =>
            if acc * base + d < 2 ^ 64 then accumulate base (acc * base + d) rest else none

/-- `std.fmt.parseInt(u64, …)`. A minus sign is accepted in front of zero
only; an underscore may stand between digits. -/
def parseInt (bytes : Bytes) (base : Nat) : Option Nat :=
  let digits (rest : Bytes) : Option Nat :=
    if rest.isEmpty || rest.head? == some 95 || rest.getLast? == some 95 then none
    else accumulate base 0 rest
  match bytes with
  | [] => none
  | c :: rest =>
      if c == 43 then digits rest
      else if c == 45 then (digits rest).filter (· == 0)
      else digits (c :: rest)

end Fmt

namespace Syntax

/-- Accepts one HTTP token character; separators and controls are rejected. -/
def isTokenByte (c : UInt8) : Bool :=
  Ascii.isAlphanumeric c ||
    [0x21, 0x23, 0x24, 0x25, 0x26, 0x27, 0x2a, 0x2b, 0x2d, 0x2e, 0x5e, 0x5f, 0x60, 0x7c,
      0x7e].contains c

def isToken (bytes : Bytes) : Bool := !bytes.isEmpty && bytes.all isTokenByte

/-- One byte of a field value: tab, or anything but a control. -/
def isFieldByte (c : UInt8) : Bool := !((c < 0x20 && c != Ascii.tab) || c == 0x7f)

/-- The wide loops of `isField` over blocks of one width: while a whole
block is left it is tested at once, and the rest is returned. -/
def fieldBlocks (width : Nat) : Nat → Bytes → Option Bytes
  | 0, bytes => some bytes
  | fuel + 1, bytes =>
      if width ≤ bytes.length then
        if (bytes.take width).any (fun c => !isFieldByte c) then none
        else fieldBlocks width fuel (bytes.drop width)
      else some bytes

/-- Accepts field-value bytes including tabs and obs-text, rejecting other
controls: 64-byte blocks, then 32-byte blocks, then single bytes. -/
def isField (bytes : Bytes) : Bool :=
  match fieldBlocks 64 bytes.length bytes with
  | none => false
  | some rest =>
      match fieldBlocks 32 rest.length rest with
      | none => false
      | some rest => rest.all isFieldByte

def trim (bytes : Bytes) : Bytes := Mem.trim bytes

def eql (a b : Bytes) : Bool := Ascii.eqlIgnoreCase a b

def isHex (c : UInt8) : Bool :=
  Ascii.isDigit c || (97 ≤ c && c ≤ 102) || (65 ≤ c && c ≤ 70)

def isUnreserved (c : UInt8) : Bool :=
  Ascii.isAlphanumeric c || (ascii "-._~").contains c

def isSubDelimiter (c : UInt8) : Bool :=
  [0x21, 0x24, 0x26, 0x27, 0x28, 0x29, 0x2a, 0x2b, 0x2c, 0x3b, 0x3d].contains c

/-- Validates a URI reg-name or a path/query component without decoding it. -/
def isUriComponent (path : Bool) : Bytes → Bool
  | [] => true
  | 0x25 :: x :: y :: rest => isHex x && isHex y && isUriComponent path rest
  | c :: rest =>
      if c == 0x25 then false
      else if !isUnreserved c && !isSubDelimiter c &&
          (!path || !(ascii ":@/?").contains c) then false
      else isUriComponent path rest

end Syntax

namespace Ip6

/-- One decimal octet of a dotted quad: one to three digits, no leading
zero, at most 255. -/
def isOctet (bytes : Bytes) : Bool :=
  !bytes.isEmpty && bytes.length ≤ 3 && bytes.all Ascii.isDigit &&
    (bytes.length == 1 || bytes.head? != some 48) &&
    bytes.foldl (fun acc c => acc * 10 + (c.toNat - 48)) 0 ≤ 255

def isIp4 (bytes : Bytes) : Bool :=
  let parts := Mem.splitScalar 0x2e bytes
  parts.length == 4 && parts.all isOctet

def isGroup (bytes : Bytes) : Bool :=
  !bytes.isEmpty && bytes.length ≤ 4 && bytes.all Syntax.isHex

/-- Colon-separated hexadecimal groups, none of them empty. -/
def groups (bytes : Bytes) : Option Nat :=
  if bytes.isEmpty then some 0
  else
    let parts := Mem.splitScalar 0x3a bytes
    if parts.all isGroup then some parts.length else none

/-- `std.Io.net.Ip6Address.parse` as a yes-or-no answer: eight groups, or
fewer around one `::`, or an IPv4-mapped literal. Scope identifiers are
not accepted by this entry point. -/
def parse (text : Bytes) : Bool :=
  let mapped := ascii "::ffff:"
  if Ascii.eqlIgnoreCase (text.take mapped.length) mapped && (text.drop mapped.length).contains 0x2e
  then isIp4 (text.drop mapped.length)
  else match Mem.indexOf text (ascii "::") with
    | none => groups text == some 8
    | some at_ =>
        match groups (text.take at_), groups (text.drop (at_ + 2)) with
        | some before, some after => before + after ≤ 7
        | _, _ => false

end Ip6

namespace Syntax

/-- The text between the brackets of an IP literal. -/
def isLiteral (literal : Bytes) : Bool :=
  match literal with
  | [] => false
  | first :: _ =>
      if first == 0x76 || first == 0x56 then
        match Mem.indexOfScalar literal 0x2e with
        | none => false
        | some dot =>
            !(dot < 2 || dot + 1 == literal.length) &&
              ((literal.take dot).drop 1).all isHex &&
              (literal.drop (dot + 1)).all fun c =>
                isUnreserved c || isSubDelimiter c || c == 0x3a
      else Ip6.parse literal

/-- Empty authority is valid for Host, but not for an absolute HTTP URI or
CONNECT. -/
def isAuthority (bytes : Bytes) (requirePort allowEmpty : Bool) : Bool :=
  let checkPort (port : Option Bytes) : Bool :=
    match port with
    | some digits => !(requirePort && digits.isEmpty) && digits.all Ascii.isDigit
    | none => !requirePort
  match bytes with
  | [] => allowEmpty && !requirePort
  | first :: _ =>
      if first == 0x5b then
        match Mem.indexOfScalar bytes 0x5d with
        | none => false
        | some end_ =>
            isLiteral ((bytes.take end_).drop 1) &&
              (if end_ + 1 < bytes.length then
                bytes[end_ + 1]? == some 0x3a && checkPort (some (bytes.drop (end_ + 2)))
              else checkPort none)
      else
        let colon := Mem.indexOfScalar bytes 0x3a
        let host := bytes.take (colon.getD bytes.length)
        !host.isEmpty && isUriComponent false host &&
          checkPort (colon.map fun at_ => bytes.drop (at_ + 1))

/-- The tail of a quoted string after its opening quote: the number of
bytes up to and including the closing one. -/
def quotedTail : Bytes → Option Nat
  | [] => none
  | 0x22 :: _ => some 1
  | [0x5c] => none
  | 0x5c :: c :: rest => if isFieldByte c then (quotedTail rest).map (· + 2) else none
  | c :: rest => if isFieldByte c then (quotedTail rest).map (· + 1) else none

/-- Consumes one quoted-string, including escapes, or returns null for
invalid syntax. -/
def quotedLength (bytes : Bytes) : Option Nat :=
  match bytes with
  | 0x22 :: rest => (quotedTail rest).map (· + 1)
  | _ => none

end Syntax

end Zhtps
