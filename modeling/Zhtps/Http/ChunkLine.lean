import Zhtps.Http.Bounds
import Zhtps.Http.Grammar

/-!
The grammar of chunk-size lines, and that `parseChunkSize` accepts it.  A line is a hexadecimal
number and extensions, each a name with or without a value, with optional whitespace around the
separators.
-/

namespace Zhtps

namespace ChunkLine

open Grammar

/-- A token, or a quoted string. -/
def IsValue (s : Bytes) : Prop := IsToken s ∨ IsQuotedString s

/-- What stands behind the semicolon: `BWS token [ BWS "=" BWS ( token / quoted-string ) ]`. -/
inductive Named : Bytes → Prop
  | bare {before name : Bytes} : Blank before → IsToken name → Named (before ++ name)
  | valued {before name left right value : Bytes} : Blank before → IsToken name → Blank left →
      Blank right → IsValue value → Named (before ++ (name ++ (left ++ 0x3d :: (right ++ value))))

def Extension (s : Bytes) : Prop :=
  ∃ before named, s = before ++ 0x3b :: named ∧ Blank before ∧ Named named

/-- A chunk-size line, without its CRLF, that names a size of 64 bits. -/
def Line (line : Bytes) (size : Nat) : Prop :=
  ∃ (digits : Bytes) (extensions : List Bytes), line = digits ++ extensions.flatten ∧
    digits ≠ [] ∧ (∀ c ∈ digits, Syntax.isHex c = true) ∧ (∀ e ∈ extensions, Extension e) ∧
    size = numeral 16 digits ∧ size < 2 ^ 64

/-! ### What the extension loop accepts -/

theorem valueLength_some {x : Bytes} {n : Nat}
    (h : (if x.head? = some 0x22 then Syntax.quotedLength x
      else if Request.tokenLength x = 0 then none else some (Request.tokenLength x)) = some n) :
    ∃ value rest, x = value ++ rest ∧ IsValue value ∧ n = value.length := by
  split at h
  · obtain ⟨value, rest, hx, hvalue, hn⟩ := quotedLength_some h
    exact ⟨value, rest, hx, Or.inr hvalue, hn⟩
  · split at h
    · exact absurd h nofun
    · rename_i hlength
      obtain ⟨value, rest, hx, hvalue, hn, -⟩ := tokenLength_split hlength
      exact ⟨value, rest, hx, Or.inl hvalue, (Option.some.inj h).symm.trans hn⟩

theorem chunkExtension_some {after rest : Bytes} (h : Parser.chunkExtension after = some rest) :
    ∃ named, after = named ++ rest ∧ Named named := by
  obtain ⟨before, hbefore, hsplit, -⟩ := trimStart_split after
  unfold Parser.chunkExtension at h
  simp only at h
  split at h
  · exact absurd h nofun
  · rename_i hlength
    obtain ⟨name, rest', htrim, hname, hlen, -⟩ := tokenLength_split hlength
    have hdrop : (Mem.trimStart after).drop (Request.tokenLength (Mem.trimStart after)) = rest' := by
      rw [hlen]
      conv_lhs => rw [htrim]
      exact List.drop_left
    rw [hdrop] at h
    obtain ⟨left, hleft, hsplitLeft, -⟩ := trimStart_split rest'
    split at h
    · rename_i value hequals
      obtain ⟨right, hright, hsplitRight, -⟩ := trimStart_split value
      obtain ⟨n, hn, rfl⟩ := Option.map_eq_some_iff.mp h
      obtain ⟨text, rest, htext, hvalue, rfl⟩ := valueLength_some hn
      refine ⟨before ++ (name ++ (left ++ 0x3d :: (right ++ text))), ?_,
        .valued hbefore hname hleft hright hvalue⟩
      rw [htext, List.drop_left]
      rw [hsplit, htrim, hsplitLeft, hequals, hsplitRight, htext]
      simp
    · rw [← Option.some.inj h]
      refine ⟨before ++ name, ?_, .bare hbefore hname⟩
      rw [hsplit, htrim, List.append_assoc]

theorem chunkExtensions_sound {fuel : Nat} {rest : Bytes}
    (h : Parser.chunkExtensions fuel rest = some true) :
    ∃ extensions : List Bytes, rest = extensions.flatten ∧ ∀ e ∈ extensions, Extension e := by
  induction fuel generalizing rest with
  | zero =>
      rw [Parser.chunkExtensions, Option.ite_none_right_eq_some, List.isEmpty_iff] at h
      exact ⟨[], h.1, fun _ he => absurd he List.not_mem_nil⟩
  | succ fuel ih =>
      rw [Parser.chunkExtensions] at h
      split at h
      · rename_i hempty
        rw [List.isEmpty_iff] at hempty
        exact ⟨[], hempty, fun _ he => absurd he List.not_mem_nil⟩
      · obtain ⟨before, hbefore, hsplit, -⟩ := trimStart_split rest
        split at h
        · rename_i after htrim
          split at h
          · exact absurd h nofun
          · rename_i rest' hextension
            obtain ⟨named, rfl, hnamed⟩ := chunkExtension_some hextension
            obtain ⟨extensions, rfl, hall⟩ := ih h
            refine ⟨(before ++ 0x3b :: named) :: extensions, ?_, ?_⟩
            · rw [hsplit, htrim, List.flatten_cons]
              simp
            · intro e he
              rcases List.mem_cons.mp he with rfl | he
              · exact ⟨before, named, rfl, hbefore, hnamed⟩
              · exact hall e he
        · exact absurd h nofun

/-- The loop ends on every rest: each turn consumes at least its semicolon, and the answer is the
same with any fuel that the length bounds. -/
theorem chunkExtensions_ends (rest : Bytes) :
    ∃ accepted, ∀ fuel, rest.length ≤ fuel →
      Parser.chunkExtensions fuel rest = some accepted := by
  induction hlength : rest.length using Nat.strong_induction_on generalizing rest with
  | h length ih =>
      subst hlength
      by_cases hempty : rest.isEmpty = true
      · refine ⟨true, fun fuel _ => ?_⟩
        cases fuel <;> rw [Parser.chunkExtensions, if_pos hempty]
      · -- a rest that is not empty meets at least one turn
        have hturn : ∀ fuel, rest.length ≤ fuel → ∃ n, fuel = n + 1 := by
          intro fuel hfuel
          have hne : rest.length ≠ 0 := fun hzero =>
            hempty (List.isEmpty_iff.mpr (List.length_eq_zero_iff.mp hzero))
          exact ⟨fuel - 1, by omega⟩
        obtain ⟨before, -, hsplit, -⟩ := trimStart_split rest
        -- what a turn answers: a rejection, or the loop over what it leaves
        have hanswer (accepted : Bool) (h : ∀ fuel, rest.length ≤ fuel + 1 →
            Parser.chunkExtensions (fuel + 1) rest = some accepted) :
            ∃ accepted, ∀ fuel, rest.length ≤ fuel →
              Parser.chunkExtensions fuel rest = some accepted := by
          refine ⟨accepted, fun fuel hfuel => ?_⟩
          obtain ⟨n, rfl⟩ := hturn fuel hfuel
          exact h n hfuel
        by_cases hsemicolon : ∃ after, Mem.trimStart rest = 0x3b :: after
        · obtain ⟨after, htrim⟩ := hsemicolon
          cases hextension : Parser.chunkExtension after with
          | none =>
              refine hanswer false fun fuel _ => ?_
              simp only [Parser.chunkExtensions, if_neg hempty, htrim, hextension]
          | some left =>
              obtain ⟨named, hafter, -⟩ := chunkExtension_some hextension
              have hless : left.length < rest.length := by
                rw [hsplit, htrim, hafter]
                simp only [List.length_append, List.length_cons]
                omega
              obtain ⟨accepted, haccepted⟩ := ih left.length hless left rfl
              refine hanswer accepted fun fuel hfuel => ?_
              simp only [Parser.chunkExtensions, if_neg hempty, htrim, hextension]
              exact haccepted fuel (by omega)
        · refine hanswer false fun fuel _ => ?_
          rw [Parser.chunkExtensions, if_neg hempty]
          split
          · rename_i after htrim
            exact absurd ⟨after, htrim⟩ hsemicolon
          · rfl

/-! ### What it must accept -/

/-- Extensions begin with a blank or a semicolon. -/
theorem extensions_stop {extensions : List Bytes} (h : ∀ e ∈ extensions, Extension e)
    {p : UInt8 → Bool} (hp : ∀ c, isBlank c = true ∨ c = 0x3b → p c = false) :
    Stops p extensions.flatten := by
  cases extensions with
  | nil => exact stops_nil p
  | cons e extensions =>
      obtain ⟨before, named, rfl, hbefore, -⟩ := h e List.mem_cons_self
      rw [List.flatten_cons]
      cases before with
      | nil => exact stops_cons (hp 0x3b (Or.inr rfl)) _
      | cons c before => exact stops_cons (hp c (Or.inl (hbefore c List.mem_cons_self))) _

/-- Behind the blanks of extensions stands a semicolon. -/
theorem extensions_trim {e : Bytes} (h : Extension e) (x : Bytes) :
    ∃ named, Named named ∧ Mem.trimStart (e ++ x) = 0x3b :: (named ++ x) := by
  obtain ⟨before, named, rfl, hbefore, hnamed⟩ := h
  refine ⟨named, hnamed, ?_⟩
  rw [List.append_assoc, trimStart_append hbefore, trimStart_of_stops]
  · rfl
  · exact stops_cons (by decide) _

theorem isToken_stops {s : Bytes} (h : IsToken s) (x : Bytes) : Stops isBlank (s ++ x) := by
  cases s with
  | nil => exact absurd rfl h.1
  | cons c s => exact stops_cons (isTokenByte_not_blank (h.2 c List.mem_cons_self)) _

theorem isBlank_not_token {c : UInt8} (h : isBlank c = true) : Syntax.isTokenByte c = false := by
  rw [← Bool.not_eq_true]
  intro htoken
  rw [isTokenByte_not_blank htoken] at h
  exact absurd h nofun

theorem valueLength_append {value : Bytes} (h : IsValue value) {x : Bytes}
    (hx : Stops Syntax.isTokenByte x) :
    (if (value ++ x).head? = some 0x22 then Syntax.quotedLength (value ++ x)
      else if Request.tokenLength (value ++ x) = 0 then none
      else some (Request.tokenLength (value ++ x))) = some value.length := by
  rcases h with htoken | hquoted
  · have hhead : (value ++ x).head? ≠ some 0x22 := by
      cases value with
      | nil => exact absurd rfl htoken.1
      | cons c value =>
          intro hquote
          have hc := htoken.2 c List.mem_cons_self
          rw [Option.some.inj hquote] at hc
          exact absurd hc (by decide)
    rw [if_neg hhead, tokenLength_append htoken hx, if_neg]
    exact fun hzero => htoken.1 (List.length_eq_zero_iff.mp hzero)
  · have hhead : (value ++ x).head? = some 0x22 := by
      obtain ⟨tail, rfl, -⟩ := hquoted
      rfl
    rw [if_pos hhead, quotedLength_append hquoted]

theorem isValue_stops {value : Bytes} (h : IsValue value) (x : Bytes) :
    Stops isBlank (value ++ x) := by
  rcases h with htoken | ⟨tail, rfl, -⟩
  · exact isToken_stops htoken x
  · exact stops_cons (by decide) _

theorem chunkExtension_complete {named : Bytes} (h : Named named) {rest : Bytes}
    (hrest : Stops Syntax.isTokenByte rest) (hequals : Stops (· == 0x3d) (Mem.trimStart rest)) :
    Parser.chunkExtension (named ++ rest) = some rest := by
  have hname : ∀ {before name x : Bytes}, Blank before → IsToken name →
      Stops Syntax.isTokenByte x → Mem.trimStart (before ++ (name ++ x)) = name ++ x ∧
        Request.tokenLength (name ++ x) = name.length ∧ name.length ≠ 0 := by
    intro before name x hbefore hname hx
    refine ⟨?_, tokenLength_append hname hx, ?_⟩
    · rw [trimStart_append hbefore, trimStart_of_stops (isToken_stops hname x)]
    · exact fun hzero => hname.1 (List.length_eq_zero_iff.mp hzero)
  cases h with
  | @bare before name hbefore htoken =>
      obtain ⟨htrim, hlength, hne⟩ := hname hbefore htoken hrest
      simp only [Parser.chunkExtension, List.append_assoc, htrim, hlength, if_neg hne,
        List.drop_left]
      split
      · rename_i value hvalue
        rw [hvalue] at hequals
        exact absurd (hequals 0x3d rfl) (by decide)
      · rfl
  | @valued before name left right value hbefore htoken hleft hright hvalue =>
      have hx : Stops Syntax.isTokenByte (left ++ 0x3d :: (right ++ (value ++ rest))) := by
        cases left with
        | nil => exact stops_cons (by decide) _
        | cons c left =>
            exact stops_cons (isBlank_not_token (hleft c List.mem_cons_self)) _
      obtain ⟨htrim, hlength, hne⟩ := hname hbefore htoken hx
      have hleftTrim : Mem.trimStart (left ++ 0x3d :: (right ++ (value ++ rest))) =
          0x3d :: (right ++ (value ++ rest)) := by
        rw [trimStart_append hleft, trimStart_of_stops (stops_cons (by decide) _)]
      have hrightTrim : Mem.trimStart (right ++ (value ++ rest)) = value ++ rest := by
        rw [trimStart_append hright, trimStart_of_stops (isValue_stops hvalue rest)]
      simp only [Parser.chunkExtension, List.append_assoc, List.cons_append, htrim, hlength,
        if_neg hne, List.drop_left, hleftTrim, hrightTrim, valueLength_append hvalue hrest,
        Option.map_some]

theorem chunkExtensions_complete {extensions : List Bytes} (h : ∀ e ∈ extensions, Extension e)
    {fuel : Nat} (hfuel : extensions.flatten.length ≤ fuel) :
    Parser.chunkExtensions fuel extensions.flatten = some true := by
  induction extensions generalizing fuel with
  | nil => cases fuel <;> rfl
  | cons e extensions ih =>
      have hrest : ∀ e ∈ extensions, Extension e := fun e he => h e (List.mem_cons_of_mem _ he)
      have hstop := extensions_stop hrest (p := Syntax.isTokenByte) (by
        rintro c (hblank | rfl)
        · exact isBlank_not_token hblank
        · decide)
      have hequals : Stops (· == 0x3d) (Mem.trimStart extensions.flatten) := by
        cases extensions with
        | nil => exact stops_nil _
        | cons e' extensions =>
            obtain ⟨named, -, htrim⟩ := extensions_trim (hrest e' List.mem_cons_self)
              extensions.flatten
            rw [List.flatten_cons, htrim]
            exact stops_cons (by decide) _
      obtain ⟨named, hnamed, htrim⟩ := extensions_trim (h e List.mem_cons_self) extensions.flatten
      have hne : (e ++ extensions.flatten).isEmpty = false := by
        obtain ⟨before, named, rfl, -, -⟩ := h e List.mem_cons_self
        simp
      have hlong : 1 ≤ e.length := by
        obtain ⟨before, named, rfl, -, -⟩ := h e List.mem_cons_self
        rw [List.length_append, List.length_cons]
        omega
      rw [List.flatten_cons, List.length_append] at hfuel
      obtain ⟨fuel, rfl⟩ : ∃ n, fuel = n + 1 := ⟨fuel - 1, by omega⟩
      rw [List.flatten_cons, Parser.chunkExtensions, hne, if_neg Bool.false_ne_true, htrim]
      simp only [chunkExtension_complete hnamed hstop hequals]
      exact ih hrest (by omega)

/-! ### The line -/

theorem isBlank_not_hex {c : UInt8} (h : isBlank c = true) : Syntax.isHex c = false := by
  have hall : ∀ c, isBlank c = true → Syntax.isHex c = false := by decide +kernel
  exact hall c h

theorem parseChunkSize_sound {line : Bytes} {size : Nat}
    (h : Parser.parseChunkSize line = .ok size) : Line line size := by
  have hhex : ∀ c ∈ line.takeWhile Syntax.isHex, Syntax.isHex c = true :=
    fun c hc => List.mem_takeWhile_imp hc
  simp only [Parser.parseChunkSize] at h
  split at h
  · exact absurd h nofun
  · rename_i hempty
    have hne : line.takeWhile Syntax.isHex ≠ [] := fun hnil => hempty (by rw [hnil]; rfl)
    rw [parseInt_eq (by decide) hne fun c hc => isDigit_of_isHex (hhex c hc)] at h
    split at h
    · exact absurd h nofun
    · rename_i value hvalue
      obtain ⟨hlt, hsome⟩ := Option.ite_none_right_eq_some.mp hvalue
      obtain rfl := Option.some.inj hsome
      split at h
      · rename_i hextensions
        obtain ⟨extensions, hflatten, hall⟩ := chunkExtensions_sound hextensions
        refine ⟨_, extensions, ?_, hne, hhex, hall, ?_, ?_⟩
        · rw [← hflatten]
          exact List.prefix_iff_eq_append.mp (List.takeWhile_prefix _) |>.symm
        · exact (Except.ok.inj h).symm
        · rwa [← Except.ok.inj h]
      · exact absurd h nofun

theorem parseChunkSize_complete {line : Bytes} {size : Nat} (h : Line line size) :
    Parser.parseChunkSize line = .ok size := by
  obtain ⟨digits, extensions, rfl, hne, hhex, hall, rfl, hlt⟩ := h
  -- neither a blank nor a semicolon is a hexadecimal digit
  have hstop : Stops Syntax.isHex extensions.flatten := extensions_stop hall (by
    rintro c (hblank | rfl)
    · exact isBlank_not_hex hblank
    · decide)
  have hvalue := @parseInt_eq 16 (by decide) digits hne fun c hc => isDigit_of_isHex (hhex c hc)
  rw [if_pos hlt] at hvalue
  simp only [Parser.parseChunkSize, takeWhile_append hhex hstop, hvalue, List.drop_left,
    chunkExtensions_complete hall (Nat.le_refl _), List.isEmpty_iff, hne, if_false, if_true]

/-- The parser accepts exactly the lines of the grammar, with their number, and answers every other
one with one error.  Its loop ends on whatever stands behind the digits: it is not cut off with the
fuel it gets, and more fuel does not change its answer. -/
theorem parseChunkSize_grammar (line : Bytes) :
    (∀ size, Parser.parseChunkSize line = .ok size ↔ Line line size) ∧
      ((¬∃ size, Line line size) → Parser.parseChunkSize line = .error .invalidChunk) ∧
      ∀ rest : Bytes, ∃ accepted, ∀ fuel, rest.length ≤ fuel →
        Parser.chunkExtensions fuel rest = some accepted := by
  refine ⟨fun size => ⟨parseChunkSize_sound, parseChunkSize_complete⟩, fun hnone => ?_,
    chunkExtensions_ends⟩
  cases hparse : Parser.parseChunkSize line with
  | error err => rw [Parser.parseChunkSize_error hparse]
  | ok size => exact absurd ⟨size, parseChunkSize_sound hparse⟩ hnone

end ChunkLine

end Zhtps
