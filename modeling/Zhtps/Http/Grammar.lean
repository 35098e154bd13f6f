import Mathlib.Data.List.Basic
import Mathlib.Data.List.TakeWhile
import Zhtps.Lib.Byte
import Zhtps.Lib.DotSegments
import Zhtps.Http.Request

/-!
Lexical grammar of HTTP fields: blanks, tokens, quoted strings and numbers, as languages, and what
the scanners of `src/http/syntax.zig` do on a text that begins with a word of one of them.
-/

namespace Zhtps

namespace Grammar

def isBlank (c : UInt8) : Bool := c == Ascii.sp || c == Ascii.tab

/-- Optional whitespace. -/
def Blank (s : Bytes) : Prop := ∀ c ∈ s, isBlank c = true

def IsToken (s : Bytes) : Prop := s ≠ [] ∧ ∀ c ∈ s, Syntax.isTokenByte c = true

/-- What follows the opening quote: text, pairs and the closing quote. -/
inductive QuotedTail : Bytes → Prop
  | close : QuotedTail [0x22]
  | text {c : UInt8} {rest : Bytes} : c ≠ 0x22 → c ≠ 0x5c → Syntax.isFieldByte c = true →
      QuotedTail rest → QuotedTail (c :: rest)
  | pair {c : UInt8} {rest : Bytes} : Syntax.isFieldByte c = true → QuotedTail rest →
      QuotedTail (0x5c :: c :: rest)

def IsQuotedString (s : Bytes) : Prop := ∃ tail, s = 0x22 :: tail ∧ QuotedTail tail

/-- The number that digits name. -/
def numeral (base : Nat) (digits : Bytes) : Nat :=
  digits.foldl (fun n c => n * base + (Fmt.charToDigit c base).getD 0) 0

/-- A text that is over, or goes on with a byte outside a class. -/
def Stops (p : UInt8 → Bool) (s : Bytes) : Prop := ∀ c ∈ s.head?, p c = false

/-! ### Blanks -/

theorem stops_nil (p : UInt8 → Bool) : Stops p [] := nofun

theorem stops_cons {p : UInt8 → Bool} {c : UInt8} (h : p c = false) (rest : Bytes) :
    Stops p (c :: rest) := by
  intro d hd
  rwa [← Option.some.inj hd]

theorem trimStart_append {l : Bytes} (hl : Blank l) (x : Bytes) :
    Mem.trimStart (l ++ x) = Mem.trimStart x :=
  List.dropWhile_append_of_pos hl

theorem trimStart_of_stops {x : Bytes} (h : Stops isBlank x) : Mem.trimStart x = x := by
  cases x with
  | nil => rfl
  | cons c x =>
      have hc := h c rfl
      exact List.dropWhile_cons_of_neg (by rw [isBlank] at hc; simpa using hc)

theorem trimStart_split (x : Bytes) :
    ∃ l, Blank l ∧ x = l ++ Mem.trimStart x ∧ Stops isBlank (Mem.trimStart x) := by
  refine ⟨x.takeWhile isBlank, fun c hc => List.mem_takeWhile_imp hc,
    List.takeWhile_append_dropWhile.symm, ?_⟩
  intro c hc
  have hnot := List.head?_dropWhile_not isBlank x
  have heq : (x.dropWhile isBlank).head? = some c := hc
  rw [heq] at hnot
  simpa using hnot

/-- `trim` takes blanks off both ends, and nothing else. -/
theorem trim_split (x : Bytes) :
    ∃ l r, Blank l ∧ Blank r ∧ x = l ++ (Syntax.trim x ++ r) := by
  obtain ⟨l, hl, hx, -⟩ := trimStart_split x
  obtain ⟨r, hr, hback, -⟩ := trimStart_split (Mem.trimStart x).reverse
  refine ⟨l, r.reverse, hl, fun c hc => hr c (List.mem_reverse.mp hc), ?_⟩
  have hforth : Mem.trimStart x = Syntax.trim x ++ r.reverse := by
    rw [Syntax.trim, Mem.trim, ← List.reverse_append, ← hback, List.reverse_reverse]
  rw [← hforth, ← hx]

theorem length_trim_le (x : Bytes) : (Syntax.trim x).length ≤ x.length := by
  obtain ⟨l, r, -, -, hx⟩ := trim_split x
  have hlength := congrArg List.length hx
  simp only [List.length_append] at hlength
  omega

theorem trimStart_eq_nil {x : Bytes} : Mem.trimStart x = [] ↔ Blank x :=
  List.dropWhile_eq_nil_iff

theorem trim_blank_left {l : Bytes} (hl : Blank l) (x : Bytes) :
    Syntax.trim (l ++ x) = Syntax.trim x := by
  rw [Syntax.trim, Syntax.trim, Mem.trim, Mem.trim, trimStart_append hl]

theorem trim_blank_right {r : Bytes} (hr : Blank r) (x : Bytes) :
    Syntax.trim (x ++ r) = Syntax.trim x := by
  have hback : Blank r.reverse := fun c hc => hr c (List.mem_reverse.mp hc)
  rw [Syntax.trim, Syntax.trim, Mem.trim, Mem.trim]
  by_cases hx : Blank x
  · have hboth : Blank (x ++ r) := by
      intro c hc
      exact (List.mem_append.mp hc).elim (hx c) (hr c)
    rw [trimStart_eq_nil.mpr hx, trimStart_eq_nil.mpr hboth]
  · have hsplit : Mem.trimStart (x ++ r) = Mem.trimStart x ++ r := by
      obtain ⟨l, hl, hlx, hstops⟩ := trimStart_split x
      conv_lhs => rw [hlx, List.append_assoc, trimStart_append hl]
      refine trimStart_of_stops ?_
      cases htrim : Mem.trimStart x with
      | nil => exact absurd (trimStart_eq_nil.mp htrim) hx
      | cons c rest =>
          rw [htrim] at hstops
          exact stops_cons (hstops c rfl) _
    rw [hsplit, List.reverse_append, trimStart_append hback]

/-- A text without blanks is left as it is. -/
theorem trim_solid {s : Bytes} (h : ∀ c ∈ s, isBlank c = false) : Syntax.trim s = s := by
  have hstops : ∀ t : Bytes, (∀ c ∈ t, c ∈ s) → Mem.trimStart t = t := fun t ht =>
    trimStart_of_stops fun c hc => h c (ht c (List.mem_of_mem_head? hc))
  rw [Syntax.trim, Mem.trim, hstops s fun c hc => hc,
    hstops s.reverse fun c hc => List.mem_reverse.mp hc, List.reverse_reverse]

/-! ### Tokens -/

theorem isTokenByte_not_blank {c : UInt8} (h : Syntax.isTokenByte c = true) :
    isBlank c = false := by
  have hall : ∀ c, Syntax.isTokenByte c = true → isBlank c = false := by decide +kernel
  exact hall c h

theorem takeWhile_append {p : UInt8 → Bool} {s x : Bytes} (hs : ∀ c ∈ s, p c = true)
    (hx : Stops p x) : (s ++ x).takeWhile p = s := by
  rw [List.takeWhile_append_of_pos hs]
  cases x with
  | nil => rw [List.takeWhile_nil, List.append_nil]
  | cons c x => rw [List.takeWhile_cons_of_neg (by simp [hx c rfl]), List.append_nil]

theorem tokenLength_append {s x : Bytes} (hs : IsToken s) (hx : Stops Syntax.isTokenByte x) :
    Request.tokenLength (s ++ x) = s.length := by
  rw [Request.tokenLength, takeWhile_append hs.2 hx]

/-- The token a text begins with. -/
theorem tokenLength_split {x : Bytes} (h : Request.tokenLength x ≠ 0) :
    ∃ s rest, x = s ++ rest ∧ IsToken s ∧ Request.tokenLength x = s.length ∧
      Stops Syntax.isTokenByte rest := by
  refine ⟨x.takeWhile Syntax.isTokenByte, x.dropWhile Syntax.isTokenByte,
    List.takeWhile_append_dropWhile.symm, ⟨?_, fun c hc => List.mem_takeWhile_imp hc⟩, rfl, ?_⟩
  · intro hnil
    rw [Request.tokenLength, hnil] at h
    exact h rfl
  · intro c hc
    have hnot := List.head?_dropWhile_not Syntax.isTokenByte x
    have heq : (x.dropWhile Syntax.isTokenByte).head? = some c := hc
    rw [heq] at hnot
    simpa using hnot

/-! ### Quoted strings -/

theorem quotedTail_append {tail : Bytes} (h : QuotedTail tail) (x : Bytes) :
    Syntax.quotedTail (tail ++ x) = some tail.length := by
  induction h with
  | close => rfl
  | @text c rest hquote hslash hfield _ ih =>
      have hstep : Syntax.quotedTail (c :: (rest ++ x)) =
          (Syntax.quotedTail (rest ++ x)).map (· + 1) := by
        rw [Syntax.quotedTail, if_pos hfield]
        · exact fun h => absurd h hquote
        · exact fun h _ => absurd h hslash
        · exact fun _ _ h _ => absurd h hslash
      rw [List.cons_append, hstep, ih]
      rfl
  | @pair c rest hfield _ ih =>
      have hstep : Syntax.quotedTail (0x5c :: c :: (rest ++ x)) =
          (Syntax.quotedTail (rest ++ x)).map (· + 2) := by
        rw [Syntax.quotedTail, if_pos hfield]
      rw [List.cons_append, List.cons_append, hstep, ih]
      rfl

theorem quotedTail_some {x : Bytes} {n : Nat} (h : Syntax.quotedTail x = some n) :
    ∃ tail rest, x = tail ++ rest ∧ QuotedTail tail ∧ n = tail.length := by
  fun_induction Syntax.quotedTail x generalizing n with
  | case1 => exact absurd h nofun
  | case2 rest => exact ⟨[0x22], rest, rfl, .close, (Option.some.inj h).symm⟩
  | case3 => exact absurd h nofun
  | case4 c rest hfield ih =>
      obtain ⟨m, hm, rfl⟩ := Option.map_eq_some_iff.mp h
      obtain ⟨tail, rest', rfl, htail, rfl⟩ := ih hm
      exact ⟨0x5c :: c :: tail, rest', rfl, .pair hfield htail, rfl⟩
  | case5 => exact absurd h nofun
  | case6 c rest hquote hslash hpair hfield ih =>
      obtain ⟨m, hm, rfl⟩ := Option.map_eq_some_iff.mp h
      obtain ⟨tail, rest', rfl, htail, rfl⟩ := ih hm
      refine ⟨c :: tail, rest', rfl, .text hquote ?_ hfield htail, rfl⟩
      rintro rfl
      cases hrest : tail ++ rest' with
      | nil => exact hslash rfl hrest
      | cons d after => exact hpair d after rfl hrest
  | case7 => exact absurd h nofun

theorem quotedLength_append {s : Bytes} (h : IsQuotedString s) (x : Bytes) :
    Syntax.quotedLength (s ++ x) = some s.length := by
  obtain ⟨tail, rfl, htail⟩ := h
  rw [List.cons_append, Syntax.quotedLength, quotedTail_append htail]
  rfl

theorem quotedLength_some {x : Bytes} {n : Nat} (h : Syntax.quotedLength x = some n) :
    ∃ s rest, x = s ++ rest ∧ IsQuotedString s ∧ n = s.length := by
  unfold Syntax.quotedLength at h
  split at h
  · obtain ⟨m, hm, rfl⟩ := Option.map_eq_some_iff.mp h
    obtain ⟨tail, rest, rfl, htail, rfl⟩ := quotedTail_some hm
    exact ⟨0x22 :: tail, rest, rfl, ⟨tail, rfl, htail⟩, rfl⟩
  · exact absurd h nofun

/-! ### Lists -/

theorem splitScalar_eq (c : UInt8) (bytes : Bytes) : Mem.splitScalar c bytes = bytes.splitOn c := by
  induction bytes with
  | nil => rfl
  | cons x rest ih =>
      rw [Mem.splitScalar, ih]
      by_cases hx : x = c
      · rw [hx, if_pos (beq_self_eq_true c), Lib.splitOn_cons_self]
      · rw [if_neg (by simpa using hx), Lib.splitOn_cons_ne hx]
        cases hsplit : rest.splitOn c with
        | nil => exact absurd hsplit (List.splitOn_ne_nil c rest)
        | cons part parts => rfl

/-! ### Numbers -/

/-- A digit of the base, and nothing that the number parser treats in another way. -/
def IsDigit (base : Nat) (c : UInt8) : Prop :=
  (Fmt.charToDigit c base).isSome = true ∧ c ≠ 95 ∧ c ≠ 43 ∧ c ≠ 45

theorem isDigit_of_isHex {c : UInt8} (h : Syntax.isHex c = true) : IsDigit 16 c := by
  have hall : ∀ c, Syntax.isHex c = true →
      (Fmt.charToDigit c 16).isSome = true ∧ c ≠ 95 ∧ c ≠ 43 ∧ c ≠ 45 := by decide +kernel
  exact hall c h

theorem isDigit_of_isDecimal {c : UInt8} (h : Ascii.isDigit c = true) : IsDigit 10 c := by
  have hall : ∀ c, Ascii.isDigit c = true →
      (Fmt.charToDigit c 10).isSome = true ∧ c ≠ 95 ∧ c ≠ 43 ∧ c ≠ 45 := by decide +kernel
  exact hall c h

/-- The digits are read from the front, and overflow is noticed at the digit that causes it. -/
theorem accumulate_eq {base : Nat} (hbase : 0 < base) {digits : Bytes}
    (h : ∀ c ∈ digits, IsDigit base c) (n : Nat) (hn : n < 2 ^ 64) :
    Fmt.accumulate base n digits =
      let value := digits.foldl (fun n c => n * base + (Fmt.charToDigit c base).getD 0) n
      if value < 2 ^ 64 then some value else none := by
  induction digits generalizing n with
  | nil => exact (if_pos hn).symm
  | cons c digits ih =>
      obtain ⟨hsome, hunder, -, -⟩ := h c List.mem_cons_self
      obtain ⟨d, hd⟩ := Option.isSome_iff_exists.mp hsome
      have hrest : ∀ c ∈ digits, IsDigit base c := fun c hc => h c (List.mem_cons_of_mem _ hc)
      -- the value only grows from here on
      have hgrows : ∀ (digits : Bytes) (m : Nat),
          m ≤ digits.foldl (fun n c => n * base + (Fmt.charToDigit c base).getD 0) m := by
        intro digits
        induction digits with
        | nil => exact Nat.le_refl
        | cons c digits ih =>
            intro m
            refine Nat.le_trans ?_ (ih _)
            exact Nat.le_add_right_of_le (Nat.le_mul_of_pos_right m hbase)
      rw [Fmt.accumulate, if_neg (by simpa using hunder), hd]
      simp only [List.foldl_cons, hd, Option.getD_some]
      split
      · rename_i hlt
        exact ih hrest _ hlt
      · rename_i hge
        have hmore := hgrows digits (n * base + d)
        rw [if_neg (by omega)]

theorem parseInt_eq {base : Nat} (hbase : 0 < base) {digits : Bytes} (hne : digits ≠ [])
    (h : ∀ c ∈ digits, IsDigit base c) :
    Fmt.parseInt digits base =
      if numeral base digits < 2 ^ 64 then some (numeral base digits) else none := by
  cases digits with
  | nil => exact absurd rfl hne
  | cons c rest =>
      obtain ⟨-, hunder, hplus, hminus⟩ := h c List.mem_cons_self
      have hlast : (c :: rest).getLast? ≠ some 95 := by
        intro hlast
        exact (h 95 (List.mem_of_getLast? hlast)).2.1 rfl
      have haccumulate := accumulate_eq hbase h 0 (by decide)
      simp only [Fmt.parseInt, hplus, hminus, hunder, hlast, beq_iff_eq, if_false,
        List.isEmpty_cons, Bool.false_or, List.head?_cons, Option.some.injEq, Bool.or_eq_true,
        or_self]
      exact haccumulate

end Grammar

end Zhtps
