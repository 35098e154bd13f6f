import Mathlib.Data.List.Basic
import Zhtps.Lib.Byte

/-!
JSON texts over bytes: a reader of the whole grammar, a writer that puts no white space, and that the
reader gives back what was written.  A number is kept as it is spelled.
-/

namespace Lib

/-! ### UTF-8 -/

namespace Utf8

def isContinuation (c : UInt8) : Bool := 0x80 ≤ c && c ≤ 0xbf

/-- The first two bytes of a sequence of three: none is longer than needed, and none is a surrogate. -/
def begins3 (a b : UInt8) : Bool :=
  (a == 0xe0 && 0xa0 ≤ b && b ≤ 0xbf) || (0xe1 ≤ a && a ≤ 0xec && isContinuation b) ||
    (a == 0xed && 0x80 ≤ b && b ≤ 0x9f) || (0xee ≤ a && a ≤ 0xef && isContinuation b)

/-- The first two bytes of a sequence of four: none is longer than needed, and none is past the last
code point. -/
def begins4 (a b : UInt8) : Bool :=
  (a == 0xf0 && 0x90 ≤ b && b ≤ 0xbf) || (0xf1 ≤ a && a ≤ 0xf3 && isContinuation b) ||
    (a == 0xf4 && 0x80 ≤ b && b ≤ 0x8f)

def validate : List UInt8 → Bool
  | [] => true
  | a :: rest =>
      if a < 0x80 then validate rest
      else match rest with
        | [] => false
        | b :: rest =>
            if 0xc2 ≤ a && a ≤ 0xdf then isContinuation b && validate rest
            else match rest with
              | [] => false
              | c :: rest =>
                  if begins3 a b then isContinuation c && validate rest
                  else match rest with
                    | [] => false
                    | d :: rest =>
                        begins4 a b && isContinuation c && isContinuation d && validate rest

/-- The bytes of a code point. -/
def encode (code : Nat) : List UInt8 :=
  if code < 0x80 then [UInt8.ofNat code]
  else if code < 0x800 then
    [UInt8.ofNat (0xc0 + code / 0x40), UInt8.ofNat (0x80 + code % 0x40)]
  else if code < 0x10000 then
    [UInt8.ofNat (0xe0 + code / 0x1000), UInt8.ofNat (0x80 + code / 0x40 % 0x40),
      UInt8.ofNat (0x80 + code % 0x40)]
  else
    [UInt8.ofNat (0xf0 + code / 0x40000), UInt8.ofNat (0x80 + code / 0x1000 % 0x40),
      UInt8.ofNat (0x80 + code / 0x40 % 0x40), UInt8.ofNat (0x80 + code % 0x40)]

theorem validate_ascii {bytes : List UInt8} (h : ∀ c ∈ bytes, c < 0x80) : validate bytes = true := by
  induction bytes with
  | nil => rfl
  | cons c rest ih =>
      rw [validate.eq_def]
      simp only [if_pos (h c List.mem_cons_self)]
      exact ih fun c hc => h c (List.mem_cons_of_mem _ hc)

end Utf8

inductive Json
  | null
  | boolean (value : Bool)
  | number (spelling : List UInt8)
  | string (value : List UInt8)
  | array (elements : List Json)
  | object (members : List (List UInt8 × Json))

namespace Json

def quote : UInt8 := 0x22
def backslash : UInt8 := 0x5c
def comma : UInt8 := 0x2c
def colon : UInt8 := 0x3a
def openBracket : UInt8 := 0x5b
def closeBracket : UInt8 := 0x5d
def openBrace : UInt8 := 0x7b
def closeBrace : UInt8 := 0x7d
def minus : UInt8 := 0x2d
def plus : UInt8 := 0x2b
def dot : UInt8 := 0x2e
def zero : UInt8 := 0x30
def letterU : UInt8 := 0x75

def nullText : List UInt8 := [0x6e, 0x75, 0x6c, 0x6c]
def trueText : List UInt8 := [0x74, 0x72, 0x75, 0x65]
def falseText : List UInt8 := [0x66, 0x61, 0x6c, 0x73, 0x65]

/-! ### The reader -/

def isSpace (c : UInt8) : Bool := c == 0x20 || c == 0x09 || c == 0x0a || c == 0x0d

def skip (text : List UInt8) : List UInt8 := text.dropWhile isSpace

def isDigit (c : UInt8) : Bool := 0x30 ≤ c && c ≤ 0x39

def hexValue (c : UInt8) : Option Nat :=
  if isDigit c then some (c.toNat - 0x30)
  else if 0x61 ≤ c && c ≤ 0x66 then some (c.toNat - 0x57)
  else if 0x41 ≤ c && c ≤ 0x46 then some (c.toNat - 0x37)
  else none

def hex4 (a b c d : UInt8) : Option Nat := do
  return (((← hexValue a) * 16 + (← hexValue b)) * 16 + (← hexValue c)) * 16 + (← hexValue d)

/-- What a byte behind a backslash stands for. -/
def escaped (c : UInt8) : Option UInt8 :=
  if c = quote ∨ c = backslash ∨ c = 0x2f then some c
  else if c = 0x62 then some 0x08
  else if c = 0x66 then some 0x0c
  else if c = 0x6e then some 0x0a
  else if c = 0x72 then some 0x0d
  else if c = 0x74 then some 0x09
  else none

def prepend (bytes : List UInt8) (read : List UInt8 × List UInt8) : List UInt8 × List UInt8 :=
  (bytes ++ read.1, read.2)

/-- The characters of a string up to its closing quote, and the text behind it.  Code points beyond
the first plane are escaped as a pair of surrogates, and a surrogate alone stands for nothing. -/
def readChars : List UInt8 → Option (List UInt8 × List UInt8)
  | [] => none
  | c :: rest =>
      if c = quote then some ([], rest)
      else if c = backslash then
        match rest with
        | [] => none
        | e :: rest =>
            if e = letterU then
              match rest with
              | h₁ :: h₂ :: h₃ :: h₄ :: rest =>
                  match hex4 h₁ h₂ h₃ h₄ with
                  | none => none
                  | some code =>
                      if code < 0xd800 ∨ 0xe000 ≤ code then
                        (readChars rest).map (prepend (Utf8.encode code))
                      else match rest with
                        | b :: u :: l₁ :: l₂ :: l₃ :: l₄ :: rest =>
                            match hex4 l₁ l₂ l₃ l₄ with
                            | none => none
                            | some low =>
                                if code < 0xdc00 ∧ b = backslash ∧ u = letterU ∧ 0xdc00 ≤ low ∧
                                    low < 0xe000 then
                                  (readChars rest).map (prepend (Utf8.encode
                                    (0x10000 + (code - 0xd800) * 0x400 + (low - 0xdc00))))
                                else none
                        | _ => none
              | _ => none
            else match escaped e with
              | none => none
              | some value => (readChars rest).map (prepend [value])
      else if c < 0x20 then none
      else (readChars rest).map (prepend [c])

/-- A string behind its opening quote. -/
def readString (text : List UInt8) : Option (List UInt8 × List UInt8) :=
  (readChars text).filter fun read => Utf8.validate read.1

/-- The fraction of a number, with its dot, if there is one. -/
def readFraction (text : List UInt8) : Option (List UInt8 × List UInt8) :=
  match text with
  | [] => some ([], [])
  | c :: rest =>
      if c = dot then
        if rest.takeWhile isDigit = [] then none
        else some (dot :: rest.takeWhile isDigit, rest.dropWhile isDigit)
      else some ([], c :: rest)

def isExponentMark (c : UInt8) : Bool := c == 0x65 || c == 0x45

/-- The exponent of a number, with its mark and sign, if there is one. -/
def readExponent (text : List UInt8) : Option (List UInt8 × List UInt8) :=
  match text with
  | [] => some ([], [])
  | c :: rest =>
      if isExponentMark c then
        let signed : Bool := rest.head? = some minus ∨ rest.head? = some plus
        let sign := if signed then rest.take 1 else []
        let rest := if signed then rest.drop 1 else rest
        if rest.takeWhile isDigit = [] then none
        else some (c :: sign ++ rest.takeWhile isDigit, rest.dropWhile isDigit)
      else some ([], c :: rest)

/-- The whole part of a number has no zero in front. -/
def readNumber (text : List UInt8) : Option (List UInt8 × List UInt8) := do
  let sign := if text.head? = some minus then [minus] else []
  let text := if text.head? = some minus then text.tail else text
  let whole := text.takeWhile isDigit
  if whole = [] ∨ (whole.head? = some zero ∧ 1 < whole.length) then none
  else
    let (part, text) ← readFraction (text.dropWhile isDigit)
    let (power, text) ← readExponent text
    return (sign ++ whole ++ part ++ power, text)

def readLiteral (name : List UInt8) (value : Json) (text : List UInt8) : Option (Json × List UInt8) :=
  if name.isPrefixOf text then some (value, text.drop name.length) else none

def readScalar (text : List UInt8) : Option (Json × List UInt8) :=
  readLiteral nullText .null text <|> readLiteral trueText (.boolean true) text <|>
    readLiteral falseText (.boolean false) text <|>
    (readNumber text).map fun read => (.number read.1, read.2)

mutual

/-- A value at the front of a text, and the text behind it. -/
def readValue : Nat → List UInt8 → Option (Json × List UInt8)
  | 0, _ => none
  | fuel + 1, text =>
      match skip text with
      | [] => none
      | c :: rest =>
          if c = quote then (readString rest).map fun read => (.string read.1, read.2)
          else if c = openBracket then
            if (skip rest).head? = some closeBracket then some (.array [], (skip rest).tail)
            else (readElements fuel rest).map fun read => (.array read.1, read.2)
          else if c = openBrace then
            if (skip rest).head? = some closeBrace then some (.object [], (skip rest).tail)
            else (readMembers fuel rest).map fun read => (.object read.1, read.2)
          else readScalar (c :: rest)

/-- The elements of an array that has some, up to its end. -/
def readElements : Nat → List UInt8 → Option (List Json × List UInt8)
  | 0, _ => none
  | fuel + 1, text =>
      match readValue fuel text with
      | none => none
      | some (first, text) =>
          match skip text with
          | [] => none
          | c :: rest =>
              if c = comma then (readElements fuel rest).map fun read => (first :: read.1, read.2)
              else if c = closeBracket then some ([first], rest)
              else none

/-- The members of an object that has some, up to its end. -/
def readMembers : Nat → List UInt8 → Option (List (List UInt8 × Json) × List UInt8)
  | 0, _ => none
  | fuel + 1, text =>
      match skip text with
      | [] => none
      | q :: rest =>
          if q = quote then
            match readString rest with
            | none => none
            | some (name, rest) =>
                match skip rest with
                | [] => none
                | s :: rest =>
                    if s = colon then
                      match readValue fuel rest with
                      | none => none
                      | some (first, rest) =>
                          match skip rest with
                          | [] => none
                          | c :: rest =>
                              if c = comma then
                                (readMembers fuel rest).map fun read => ((name, first) :: read.1, read.2)
                              else if c = closeBrace then some ([(name, first)], rest)
                              else none
                    else none
          else none

end

/-- Every value, element and member takes a byte, so twice the length is enough fuel. -/
def parse (text : List UInt8) : Option Json :=
  match readValue (2 * text.length) text with
  | none => none
  | some (json, rest) => if skip rest = [] then some json else none

/-! ### The writer -/

def hexDigit (n : Nat) : UInt8 := if n < 10 then UInt8.ofNat (0x30 + n) else UInt8.ofNat (0x57 + n)

/-- The bytes that must be escaped are; the others stand as they are. -/
def encodeChar (c : UInt8) : List UInt8 :=
  if c = backslash then [backslash, backslash]
  else if c = quote then [backslash, quote]
  else if c = 0x08 then [backslash, 0x62]
  else if c = 0x0c then [backslash, 0x66]
  else if c = 0x0a then [backslash, 0x6e]
  else if c = 0x0d then [backslash, 0x72]
  else if c = 0x09 then [backslash, 0x74]
  else if c < 0x20 then
    [backslash, letterU, zero, zero, hexDigit (c.toNat / 16), hexDigit (c.toNat % 16)]
  else [c]

def encodeString (bytes : List UInt8) : List UInt8 :=
  quote :: bytes.flatMap encodeChar ++ [quote]

mutual

def text : Json → List UInt8
  | .null => nullText
  | .boolean value => if value then trueText else falseText
  | .number spelling => spelling
  | .string bytes => encodeString bytes
  | .array [] => [openBracket, closeBracket]
  | .array (first :: rest) => openBracket :: text first ++ furtherElements rest ++ [closeBracket]
  | .object [] => [openBrace, closeBrace]
  | .object ((name, first) :: rest) =>
      openBrace :: encodeString name ++ colon :: text first ++ furtherMembers rest ++ [closeBrace]

def furtherElements : List Json → List UInt8
  | [] => []
  | first :: rest => comma :: text first ++ furtherElements rest

def furtherMembers : List (List UInt8 × Json) → List UInt8
  | [] => []
  | (name, first) :: rest =>
      comma :: encodeString name ++ colon :: text first ++ furtherMembers rest

end

/-! ### What is written is read -/

variable {c : UInt8} {bytes rest spelling : List UInt8}

theorem skip_cons (h : isSpace c = false) : skip (c :: rest) = c :: rest := by
  rw [skip, List.dropWhile_cons_of_neg (by rw [h]; exact Bool.false_ne_true)]

theorem readChars_plain (hquote : c ≠ quote) (hbackslash : c ≠ backslash) (hcontrol : ¬c < 0x20) :
    readChars (c :: rest) = (readChars rest).map (prepend [c]) := by
  rw [readChars.eq_def]
  simp only [if_neg hquote, if_neg hbackslash, if_neg hcontrol]

theorem readChars_escaped {value : UInt8} (hletter : c ≠ letterU) (h : escaped c = some value) :
    readChars (backslash :: c :: rest) = (readChars rest).map (prepend [value]) := by
  have hne : backslash ≠ quote := by decide
  rw [readChars.eq_def]
  simp only [if_neg hne, if_true, if_neg hletter, h]

theorem readChars_code {h₁ h₂ h₃ h₄ : UInt8} {code : Nat} (h : hex4 h₁ h₂ h₃ h₄ = some code)
    (hcode : code < 0xd800) :
    readChars (backslash :: letterU :: h₁ :: h₂ :: h₃ :: h₄ :: rest) =
      (readChars rest).map (prepend (Utf8.encode code)) := by
  have hne : backslash ≠ quote := by decide
  rw [readChars.eq_def]
  simp only [if_neg hne, if_true, h, hcode, true_or]

theorem hex4_control : ∀ c : UInt8, c < 0x20 →
    hex4 zero zero (hexDigit (c.toNat / 16)) (hexDigit (c.toNat % 16)) = some c.toNat ∧
      c.toNat < 0xd800 ∧ Utf8.encode c.toNat = [c] := by
  decide +kernel

theorem readChars_encodeChar (c : UInt8) (rest : List UInt8) :
    readChars (encodeChar c ++ rest) = (readChars rest).map (prepend [c]) := by
  unfold encodeChar
  split_ifs with hbackslash hquote h08 h0c h0a h0d h09 hcontrol
  · subst hbackslash
    exact readChars_escaped (by decide) (by decide)
  · subst hquote
    exact readChars_escaped (by decide) (by decide)
  · subst h08
    exact readChars_escaped (by decide) (by decide)
  · subst h0c
    exact readChars_escaped (by decide) (by decide)
  · subst h0a
    exact readChars_escaped (by decide) (by decide)
  · subst h0d
    exact readChars_escaped (by decide) (by decide)
  · subst h09
    exact readChars_escaped (by decide) (by decide)
  · -- the other control characters are escaped as code points
    obtain ⟨hhex, hcode, hencode⟩ := hex4_control c hcontrol
    have hread := @readChars_code rest _ _ _ _ _ hhex hcode
    rwa [hencode] at hread
  · exact readChars_plain hquote hbackslash hcontrol

theorem readChars_encode (bytes rest : List UInt8) :
    readChars (bytes.flatMap encodeChar ++ quote :: rest) = some (bytes, rest) := by
  induction bytes with
  | nil =>
      show readChars (quote :: rest) = _
      rw [readChars.eq_def]
      simp only [if_true]
  | cons c bytes ih =>
      rw [List.flatMap_cons, List.append_assoc, readChars_encodeChar, ih]
      rfl

theorem readString_encode (h : Utf8.validate bytes = true) (rest : List UInt8) :
    readString (bytes.flatMap encodeChar ++ quote :: rest) = some (bytes, rest) := by
  rw [readString, readChars_encode]
  exact if_pos h

/-- No byte of a number may follow. -/
def Delimited (rest : List UInt8) : Prop :=
  ∀ c, rest.head? = some c → isDigit c = false ∧ c ≠ dot ∧ isExponentMark c = false

theorem delimited_nil : Delimited [] := nofun

theorem delimited_cons (h : isDigit c = false ∧ c ≠ dot ∧ isExponentMark c = false) :
    Delimited (c :: rest) :=
  fun _ hc => Option.some.inj hc ▸ h

/-- The spelling of a number without an exponent. -/
structure Decimal (sign whole part : List UInt8) : Prop where
  sign : sign = [] ∨ sign = [minus]
  ne : whole ≠ []
  digits : ∀ c ∈ whole, isDigit c = true
  zero : whole.head? = some zero → whole.length = 1
  part : part = [] ∨ ∃ digits, part = dot :: digits ∧ digits ≠ [] ∧ ∀ c ∈ digits, isDigit c = true

theorem Delimited.takeWhile (h : Delimited rest) : rest.takeWhile isDigit = [] := by
  cases rest with
  | nil => rfl
  | cons c rest => exact List.takeWhile_cons_of_neg (by rw [(h c rfl).1]; exact Bool.false_ne_true)

theorem Delimited.dropWhile (h : Delimited rest) : rest.dropWhile isDigit = rest := by
  cases rest with
  | nil => rfl
  | cons c rest => exact List.dropWhile_cons_of_neg (by rw [(h c rfl).1]; exact Bool.false_ne_true)

theorem Delimited.readExponent (h : Delimited rest) : readExponent rest = some ([], rest) := by
  cases rest with
  | nil => rfl
  | cons c rest => exact if_neg (by rw [(h c rfl).2.2]; exact Bool.false_ne_true)

theorem Decimal.readFraction {sign whole part : List UInt8} (h : Decimal sign whole part)
    (hrest : Delimited rest) : readFraction (part ++ rest) = some (part, rest) := by
  rcases h.part with rfl | ⟨digits, rfl, hne, hdigits⟩
  · rw [List.nil_append]
    cases rest with
    | nil => rfl
    | cons c rest => exact if_neg (hrest c rfl).2.1
  · have htake : (digits ++ rest).takeWhile isDigit = digits := by
      rw [List.takeWhile_append_of_pos hdigits, hrest.takeWhile, List.append_nil]
    have hdrop : (digits ++ rest).dropWhile isDigit = rest := by
      rw [List.dropWhile_append_of_pos hdigits, hrest.dropWhile]
    rw [List.cons_append, Json.readFraction]
    simp only [if_true, htake, hdrop, if_neg hne]

/-- What follows the digits of the whole part is no digit. -/
theorem Decimal.delimits {sign whole part : List UInt8} (h : Decimal sign whole part)
    (hrest : Delimited rest) (c : UInt8) (hc : (part ++ rest).head? = some c) : isDigit c = false := by
  rcases h.part with rfl | ⟨digits, rfl, -, -⟩
  · exact (hrest c hc).1
  · obtain rfl := Option.some.inj hc
    decide

theorem Decimal.readNumber {sign whole part : List UInt8} (h : Decimal sign whole part)
    (hrest : Delimited rest) :
    readNumber (sign ++ whole ++ part ++ rest) = some (sign ++ whole ++ part, rest) := by
  obtain ⟨first, others, rfl⟩ := List.exists_cons_of_ne_nil h.ne
  have hfirst := h.digits first List.mem_cons_self
  have hminus : first ≠ minus := by
    rintro rfl
    cases hfirst
  have htake : (first :: others ++ (part ++ rest)).takeWhile isDigit = first :: others := by
    rw [List.takeWhile_append_of_pos h.digits]
    cases htail : part ++ rest with
    | nil => exact List.append_nil _
    | cons c tail =>
        rw [List.takeWhile_cons_of_neg, List.append_nil]
        rw [h.delimits hrest c (by rw [htail]; rfl)]
        exact Bool.false_ne_true
  have hdrop : (first :: others ++ (part ++ rest)).dropWhile isDigit = part ++ rest := by
    rw [List.dropWhile_append_of_pos h.digits]
    cases htail : part ++ rest with
    | nil => rfl
    | cons c tail =>
        rw [List.dropWhile_cons_of_neg]
        rw [h.delimits hrest c (by rw [htail]; rfl)]
        exact Bool.false_ne_true
  have hwhole : ¬(first :: others = [] ∨
      ((first :: others).head? = some Json.zero ∧ 1 < (first :: others).length)) := by
    rintro (hnil | ⟨hzero, hlength⟩)
    · cases hnil
    · rw [h.zero hzero] at hlength
      exact absurd hlength (Nat.lt_irrefl 1)
  have hsign : (sign ++ (first :: others ++ (part ++ rest))).head? = some minus ↔ sign = [minus] := by
    rcases h.sign with rfl | rfl
    · refine ⟨fun hhead => absurd (Option.some.inj hhead) hminus, nofun⟩
    · exact ⟨fun _ => rfl, fun _ => rfl⟩
  have hbehind : (if sign = [minus] then (sign ++ (first :: others ++ (part ++ rest))).tail
      else sign ++ (first :: others ++ (part ++ rest))) = first :: others ++ (part ++ rest) := by
    rcases h.sign with rfl | rfl
    · rw [if_neg nofun, List.nil_append]
    · rw [if_pos rfl, List.singleton_append, List.tail_cons]
  have hfront : (if sign = [minus] then [minus] else []) = sign := by
    rcases h.sign with rfl | rfl <;> rfl
  rw [List.append_assoc, List.append_assoc, Json.readNumber]
  simp only [hsign, hbehind, hfront, htake, hdrop, if_neg hwhole, h.readFraction hrest,
    hrest.readExponent, Option.bind_eq_bind, Option.bind_some, List.append_nil]
  rfl

theorem readLiteral_self (value : Json) (name rest : List UInt8) :
    readLiteral name value (name ++ rest) = some (value, rest) := by
  rw [readLiteral, if_pos (List.isPrefixOf_iff_prefix.mpr (List.prefix_append name rest)),
    List.drop_left]

theorem readLiteral_none {value : Json} {first : UInt8} {name : List UInt8} (h : first ≠ c) :
    readLiteral (first :: name) value (c :: rest) = none := by
  refine if_neg fun hbegins => ?_
  obtain ⟨tail, htail⟩ := List.isPrefixOf_iff_prefix.mp hbegins
  exact h (List.cons.inj htail).1

theorem Decimal.readScalar {sign whole part : List UInt8} (h : Decimal sign whole part)
    (hrest : Delimited rest) :
    readScalar (sign ++ whole ++ part ++ rest) =
      some (.number (sign ++ whole ++ part), rest) := by
  obtain ⟨c, tail, htext, hc⟩ : ∃ c tail, sign ++ whole ++ part ++ rest = c :: tail ∧
      (c = minus ∨ isDigit c = true) := by
    rcases h.sign with rfl | rfl
    · obtain ⟨first, others, rfl⟩ := List.exists_cons_of_ne_nil h.ne
      exact ⟨first, _, rfl, Or.inr (h.digits first List.mem_cons_self)⟩
    · exact ⟨minus, _, rfl, Or.inl rfl⟩
  have hletters : ∀ c : UInt8, c = minus ∨ isDigit c = true → 0x6e ≠ c ∧ 0x74 ≠ c ∧ 0x66 ≠ c := by
    decide +kernel
  obtain ⟨hn, ht, hf⟩ := hletters c hc
  have hnumber := h.readNumber hrest
  rw [htext] at hnumber ⊢
  rw [Json.readScalar, nullText, trueText, falseText, readLiteral_none hn, readLiteral_none ht,
    readLiteral_none hf, hnumber]
  rfl

/-! ### Values -/

/-- Strings are UTF-8, and numbers are spelled without exponents. -/
inductive Valid : Json → Prop
  | null : Valid .null
  | boolean (value : Bool) : Valid (.boolean value)
  | number {sign whole part : List UInt8} (h : Decimal sign whole part) :
      Valid (.number (sign ++ whole ++ part))
  | string {bytes : List UInt8} (h : Utf8.validate bytes = true) : Valid (.string bytes)
  | array {elements : List Json} (h : ∀ v ∈ elements, Valid v) : Valid (.array elements)
  | object {members : List (List UInt8 × Json)} (hnames : ∀ m ∈ members, Utf8.validate m.1 = true)
      (h : ∀ m ∈ members, Valid m.2) : Valid (.object members)

/-- With enough fuel the reader takes what is written for a value and stops behind it. -/
def Reads (v : Json) : Prop :=
  ∀ fuel rest, 2 * (text v).length ≤ fuel → Delimited rest →
    readValue fuel (text v ++ rest) = some (v, rest)

/-- The first byte of a value is not white space. -/
def Begins (v : Json) : Prop := ∃ c tail, text v = c :: tail ∧ isSpace c = false ∧ c ≠ closeBracket

theorem readElements_text {first : Json} {others : List Json} (hfirst : Reads first)
    (hothers : ∀ v ∈ others, Reads v) (fuel : Nat) (rest : List UInt8)
    (hfuel : 2 * (text first ++ furtherElements others).length < fuel) :
    readElements fuel (text first ++ furtherElements others ++ closeBracket :: rest) =
      some (first :: others, rest) := by
  induction others generalizing first fuel with
  | nil =>
      obtain ⟨fuel, rfl⟩ : ∃ f, fuel = f + 1 := ⟨fuel - 1, by omega⟩
      rw [furtherElements, List.append_nil] at hfuel ⊢
      rw [readElements, hfirst fuel _ (by omega) (delimited_cons (by decide))]
      simp only [skip_cons (show isSpace closeBracket = false by decide),
        if_neg (show closeBracket ≠ comma by decide), if_true]
  | cons second others ih =>
      obtain ⟨fuel, rfl⟩ : ∃ f, fuel = f + 1 := ⟨fuel - 1, by omega⟩
      have hsecond := hothers second List.mem_cons_self
      rw [furtherElements, List.length_append, List.cons_append, List.length_cons] at hfuel
      rw [furtherElements, List.append_assoc, List.cons_append, List.cons_append, readElements,
        hfirst fuel _ (by omega) (delimited_cons (by decide))]
      simp only [skip_cons (show isSpace comma = false by decide), if_true]
      rw [ih hsecond (fun v hv => hothers v (List.mem_cons_of_mem _ hv)) fuel (by omega)]
      rfl

theorem readMembers_text {name : List UInt8} {first : Json} {others : List (List UInt8 × Json)}
    (hname : Utf8.validate name = true) (hfirst : Reads first)
    (hnames : ∀ m ∈ others, Utf8.validate m.1 = true) (hothers : ∀ m ∈ others, Reads m.2)
    (fuel : Nat) (rest : List UInt8)
    (hfuel : 2 * (encodeString name ++ colon :: text first ++ furtherMembers others).length < fuel) :
    readMembers fuel
        (encodeString name ++ colon :: text first ++ furtherMembers others ++ closeBrace :: rest) =
      some ((name, first) :: others, rest) := by
  induction others generalizing name first fuel with
  | nil =>
      obtain ⟨fuel, rfl⟩ : ∃ f, fuel = f + 1 := ⟨fuel - 1, by omega⟩
      rw [furtherMembers, List.append_nil] at hfuel ⊢
      rw [List.length_append, List.length_cons] at hfuel
      rw [encodeString, readMembers]
      simp only [List.cons_append, List.append_assoc, List.nil_append,
        skip_cons (show isSpace quote = false by decide), if_true, readString_encode hname,
        skip_cons (show isSpace colon = false by decide)]
      rw [hfirst fuel _ (by omega) (delimited_cons (by decide))]
      simp only [skip_cons (show isSpace closeBrace = false by decide),
        if_neg (show closeBrace ≠ comma by decide), if_true]
  | cons second others ih =>
      obtain ⟨fuel, rfl⟩ : ∃ f, fuel = f + 1 := ⟨fuel - 1, by omega⟩
      obtain ⟨second, value⟩ := second
      have hvalue := hothers _ List.mem_cons_self
      have hsecond := hnames _ List.mem_cons_self
      have hstep := ih hsecond hvalue (fun m hm => hnames m (List.mem_cons_of_mem _ hm))
        (fun m hm => hothers m (List.mem_cons_of_mem _ hm)) fuel
      rw [furtherMembers, List.length_append, List.cons_append, List.cons_append,
        List.length_cons] at hfuel
      rw [furtherMembers, encodeString, readMembers]
      simp only [List.cons_append, List.append_assoc, List.nil_append,
        skip_cons (show isSpace quote = false by decide), if_true, readString_encode hname,
        skip_cons (show isSpace colon = false by decide)]
      rw [hfirst fuel _ (by rw [List.length_append, List.length_cons] at hfuel; omega)
        (delimited_cons (by decide))]
      simp only [skip_cons (show isSpace comma = false by decide), if_true]
      simp only [List.append_assoc, List.cons_append] at hstep
      rw [hstep (by
        simp only [List.length_append, List.length_cons] at hfuel ⊢
        omega)]
      rfl

/-- The first byte of a number. -/
theorem Decimal.begins {sign whole part : List UInt8} (h : Decimal sign whole part) :
    ∃ c tail, sign ++ whole ++ part = c :: tail ∧ (c = minus ∨ isDigit c = true) := by
  rcases h.sign with rfl | rfl
  · obtain ⟨first, others, hwhole⟩ := List.exists_cons_of_ne_nil h.ne
    exact ⟨first, others ++ part, by rw [hwhole]; rfl, Or.inr (h.digits first (by simp [hwhole]))⟩
  · exact ⟨minus, whole ++ part, rfl, Or.inl rfl⟩

theorem numeral_byte : ∀ c : UInt8, c = minus ∨ isDigit c = true →
    isSpace c = false ∧ c ≠ quote ∧ c ≠ openBracket ∧ c ≠ openBrace ∧ c ≠ closeBracket := by
  decide +kernel

theorem Valid.begins {v : Json} (h : Valid v) : Begins v := by
  cases h with
  | null => exact ⟨0x6e, [0x75, 0x6c, 0x6c], by rw [text, nullText], by decide, by decide⟩
  | boolean value =>
      cases value with
      | true => exact ⟨0x74, [0x72, 0x75, 0x65], by rw [text]; rfl, by decide, by decide⟩
      | false => exact ⟨0x66, [0x61, 0x6c, 0x73, 0x65], by rw [text]; rfl, by decide, by decide⟩
  | number h =>
      obtain ⟨c, tail, hspelling, hc⟩ := h.begins
      obtain ⟨hspace, -, -, -, hclose⟩ := numeral_byte c hc
      exact ⟨c, tail, by rw [text, hspelling], hspace, hclose⟩
  | string h => exact ⟨quote, _, by rw [text, encodeString]; rfl, by decide, by decide⟩
  | @array elements h =>
      cases elements with
      | nil => exact ⟨openBracket, [closeBracket], by rw [text], by decide, by decide⟩
      | cons first others => exact ⟨openBracket, _, by rw [text]; rfl, by decide, by decide⟩
  | @object members hnames h =>
      cases members with
      | nil => exact ⟨openBrace, [closeBrace], by rw [text], by decide, by decide⟩
      | cons first others => exact ⟨openBrace, _, by rw [text]; rfl, by decide, by decide⟩

theorem readValue_scalar {text : List UInt8} {fuel : Nat} (hfuel : 2 * text.length ≤ fuel)
    (htext : text = c :: bytes) (hspace : isSpace c = false) (hquote : c ≠ quote)
    (hbracket : c ≠ openBracket) (hbrace : c ≠ openBrace) :
    readValue fuel (text ++ rest) = readScalar (text ++ rest) := by
  subst htext
  rw [List.length_cons] at hfuel
  obtain ⟨fuel, rfl⟩ : ∃ f, fuel = f + 1 := ⟨fuel - 1, by omega⟩
  rw [List.cons_append, readValue]
  simp only [skip_cons hspace, if_neg hquote, if_neg hbracket, if_neg hbrace]

theorem reads_literal {v : Json} (htext : text v = c :: bytes) (hspace : isSpace c = false)
    (hquote : c ≠ quote) (hbracket : c ≠ openBracket) (hbrace : c ≠ openBrace)
    (hscalar : ∀ rest, readScalar (text v ++ rest) = some (v, rest)) : Reads v := by
  intro fuel rest hfuel _
  rw [readValue_scalar hfuel htext hspace hquote hbracket hbrace, hscalar]

theorem reads_array {first : Json} {others : List Json} (hbegins : Begins first)
    (hfirst : Reads first) (hothers : ∀ v ∈ others, Reads v) : Reads (.array (first :: others)) := by
  intro fuel rest hfuel _
  rw [text, List.length_append, List.cons_append, List.length_cons, List.length_singleton] at hfuel
  obtain ⟨fuel, rfl⟩ : ∃ f, fuel = f + 1 := ⟨fuel - 1, by omega⟩
  obtain ⟨c, tail, htext, hspace, hclose⟩ := hbegins
  have hread := readElements_text hfirst hothers fuel rest (by omega)
  have hne : ¬(some c = some closeBracket) := fun h => hclose (Option.some.inj h)
  rw [text, List.append_assoc, List.cons_append, List.cons_append, List.singleton_append, readValue]
  rw [htext] at hread ⊢
  simp only [List.cons_append, skip_cons (show isSpace openBracket = false by decide),
    if_neg (show openBracket ≠ quote by decide), if_true, skip_cons hspace, List.head?_cons,
    if_neg hne] at hread ⊢
  rw [hread]
  rfl

theorem reads_object {name : List UInt8} {first : Json} {others : List (List UInt8 × Json)}
    (hname : Utf8.validate name = true) (hfirst : Reads first)
    (hnames : ∀ m ∈ others, Utf8.validate m.1 = true) (hothers : ∀ m ∈ others, Reads m.2) :
    Reads (.object ((name, first) :: others)) := by
  intro fuel rest hfuel _
  rw [text, List.length_append, List.cons_append, List.cons_append, List.length_cons,
    List.length_singleton] at hfuel
  obtain ⟨fuel, rfl⟩ : ∃ f, fuel = f + 1 := ⟨fuel - 1, by omega⟩
  have hread := readMembers_text hname hfirst hnames hothers fuel rest (by omega)
  have hne : ¬(some quote = some closeBrace) := by decide
  rw [text, List.append_assoc, List.cons_append, List.cons_append, List.cons_append,
    List.singleton_append, readValue]
  rw [encodeString] at hread ⊢
  simp only [List.cons_append, skip_cons (show isSpace openBrace = false by decide),
    if_neg (show openBrace ≠ quote by decide), if_neg (show openBrace ≠ openBracket by decide),
    if_true, skip_cons (show isSpace quote = false by decide), List.head?_cons,
    if_neg hne] at hread ⊢
  rw [hread]
  rfl

theorem Valid.reads {v : Json} (h : Valid v) : Reads v := by
  induction h with
  | null =>
      refine @reads_literal 0x6e [0x75, 0x6c, 0x6c] .null (by rw [text, nullText]) (by decide)
        (by decide) (by decide) (by decide) fun rest => ?_
      rw [text, readScalar, readLiteral_self]
      rfl
  | boolean value =>
      cases value with
      | true =>
          refine @reads_literal 0x74 [0x72, 0x75, 0x65] (.boolean true) (by rw [text]; rfl)
            (by decide) (by decide) (by decide) (by decide) fun rest => ?_
          rw [text, if_pos rfl, readScalar, readLiteral_self]
          rfl
      | false =>
          refine @reads_literal 0x66 [0x61, 0x6c, 0x73, 0x65] (.boolean false) (by rw [text]; rfl)
            (by decide) (by decide) (by decide) (by decide) fun rest => ?_
          rw [text, if_neg Bool.false_ne_true, readScalar, readLiteral_self]
          rfl
  | number h =>
      intro fuel rest hfuel hrest
      obtain ⟨c, tail, hspelling, hc⟩ := h.begins
      obtain ⟨hspace, hquote, hbracket, hbrace, -⟩ := numeral_byte c hc
      rw [text] at hfuel ⊢
      rw [readValue_scalar hfuel hspelling hspace hquote hbracket hbrace, h.readScalar hrest]
  | @string bytes h =>
      intro fuel rest hfuel _
      rw [text, encodeString, List.length_append, List.length_cons] at hfuel
      obtain ⟨fuel, rfl⟩ : ∃ f, fuel = f + 1 := ⟨fuel - 1, by omega⟩
      rw [text, encodeString, List.append_assoc, List.cons_append, List.singleton_append, readValue]
      simp only [skip_cons (show isSpace quote = false by decide), if_true, readString_encode h]
      rfl
  | @array elements h ih =>
      cases elements with
      | nil =>
          intro fuel rest hfuel _
          rw [text] at hfuel ⊢
          obtain ⟨fuel, rfl⟩ : ∃ f, fuel = f + 1 := ⟨fuel - 1, by simp at hfuel; omega⟩
          rw [List.cons_append, List.singleton_append, readValue]
          simp only [skip_cons (show isSpace openBracket = false by decide),
            if_neg (show openBracket ≠ quote by decide), if_true,
            skip_cons (show isSpace closeBracket = false by decide), List.head?_cons, List.tail_cons]
      | cons first others =>
          exact reads_array (h first List.mem_cons_self).begins (ih first List.mem_cons_self)
            fun v hv => ih v (List.mem_cons_of_mem _ hv)
  | @object members hnames h ih =>
      cases members with
      | nil =>
          intro fuel rest hfuel _
          rw [text] at hfuel ⊢
          obtain ⟨fuel, rfl⟩ : ∃ f, fuel = f + 1 := ⟨fuel - 1, by simp at hfuel; omega⟩
          rw [List.cons_append, List.singleton_append, readValue]
          simp only [skip_cons (show isSpace openBrace = false by decide),
            if_neg (show openBrace ≠ quote by decide), if_neg (show openBrace ≠ openBracket by decide),
            if_true, skip_cons (show isSpace closeBrace = false by decide), List.head?_cons,
            List.tail_cons]
      | cons first others =>
          obtain ⟨name, first⟩ := first
          exact reads_object (hnames _ List.mem_cons_self) (ih _ List.mem_cons_self)
            (fun m hm => hnames m (List.mem_cons_of_mem _ hm))
            fun m hm => ih m (List.mem_cons_of_mem _ hm)

theorem parse_text {v : Json} (h : Valid v) : parse (text v) = some v := by
  have hread := h.reads (2 * (text v).length) [] (Nat.le_refl _) delimited_nil
  rw [List.append_nil] at hread
  rw [parse, hread]
  rfl

/-! ### Lines -/

theorem encodeChar_printable (c : UInt8) : ∀ d ∈ encodeChar c, ¬d < 0x20 := by
  have hall : ∀ c : UInt8, ((encodeChar c).all fun d => !decide (d < 0x20)) = true := by decide +kernel
  intro d hd
  have h := List.all_eq_true.mp (hall c) d hd
  rwa [Bool.not_eq_true', decide_eq_false_iff_not] at h

theorem digit_printable : ∀ c : UInt8, isDigit c = true → ¬c < 0x20 := by decide +kernel

theorem encodeString_printable (bytes : List UInt8) : ∀ c ∈ encodeString bytes, ¬c < 0x20 := by
  intro c hc
  rw [encodeString, List.cons_append, List.mem_cons, List.mem_append, List.mem_singleton,
    List.mem_flatMap] at hc
  rcases hc with rfl | ⟨d, -, hd⟩ | rfl
  · decide
  · exact encodeChar_printable d c hd
  · decide

theorem Decimal.printable {sign whole part : List UInt8} (h : Decimal sign whole part) :
    ∀ c ∈ sign ++ whole ++ part, ¬c < 0x20 := by
  intro c hc
  rw [List.mem_append, List.mem_append] at hc
  rcases hc with (hc | hc) | hc
  · rcases h.sign with rfl | rfl
    · cases hc
    · obtain rfl := List.mem_singleton.mp hc
      decide
  · exact digit_printable c (h.digits c hc)
  · rcases h.part with rfl | ⟨digits, rfl, -, hdigits⟩
    · cases hc
    · rcases List.mem_cons.mp hc with rfl | hc
      · decide
      · exact digit_printable c (hdigits c hc)

theorem furtherElements_printable {vs : List Json} (h : ∀ v ∈ vs, ∀ c ∈ text v, ¬c < 0x20) :
    ∀ c ∈ furtherElements vs, ¬c < 0x20 := by
  induction vs with
  | nil =>
      rw [furtherElements]
      exact nofun
  | cons first others ih =>
      intro c hc
      rw [furtherElements, List.cons_append, List.mem_cons, List.mem_append] at hc
      rcases hc with rfl | hc | hc
      · decide
      · exact h first List.mem_cons_self c hc
      · exact ih (fun v hv => h v (List.mem_cons_of_mem _ hv)) c hc

theorem furtherMembers_printable {ms : List (List UInt8 × Json)}
    (h : ∀ m ∈ ms, ∀ c ∈ text m.2, ¬c < 0x20) : ∀ c ∈ furtherMembers ms, ¬c < 0x20 := by
  induction ms with
  | nil =>
      rw [furtherMembers]
      exact nofun
  | cons first others ih =>
      intro c hc
      rw [furtherMembers, List.cons_append, List.cons_append, List.mem_cons, List.mem_append,
        List.mem_append, List.mem_cons] at hc
      rcases hc with rfl | (hc | rfl | hc) | hc
      · decide
      · exact encodeString_printable first.1 c hc
      · decide
      · exact h first List.mem_cons_self c hc
      · exact ih (fun v hv => h v (List.mem_cons_of_mem _ hv)) c hc

/-- No control character is written, so a written value is a line. -/
theorem Valid.printable {v : Json} (h : Valid v) : ∀ c ∈ text v, ¬c < 0x20 := by
  induction h with
  | null =>
      rw [text]
      decide +kernel
  | boolean value =>
      rw [text]
      cases value <;> decide +kernel
  | number h =>
      rw [text]
      exact h.printable
  | @string bytes h =>
      rw [text]
      exact encodeString_printable bytes
  | @array elements h ih =>
      cases elements with
      | nil =>
          rw [text]
          decide +kernel
      | cons first others =>
          intro c hc
          rw [text, List.mem_append, List.cons_append, List.mem_cons, List.mem_append,
            List.mem_singleton] at hc
          rcases hc with (rfl | hc | hc) | rfl
          · decide
          · exact ih first List.mem_cons_self c hc
          · exact furtherElements_printable (fun v hv => ih v (List.mem_cons_of_mem _ hv)) c hc
          · decide
  | @object members hnames h ih =>
      cases members with
      | nil =>
          rw [text]
          decide +kernel
      | cons first others =>
          obtain ⟨name, first⟩ := first
          intro c hc
          rw [text, List.mem_append, List.cons_append, List.cons_append, List.mem_cons,
            List.mem_append, List.mem_append, List.mem_cons, List.mem_singleton] at hc
          rcases hc with (rfl | (hc | rfl | hc) | hc) | rfl
          · decide
          · exact encodeString_printable name c hc
          · decide
          · exact ih _ List.mem_cons_self c hc
          · exact furtherMembers_printable (fun m hm => ih m (List.mem_cons_of_mem _ hm)) c hc
          · decide

end Json

end Lib
