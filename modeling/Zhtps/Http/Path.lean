import Zhtps.Http.Syntax
import Zhtps.Lib.Byte
import Zhtps.Lib.DotSegments

/-!
Path normalization, after `src/http/path.zig`.  The first pass writes the path into the caller's
buffer with its escapes normalized, the second one removes dot segments within that buffer.
-/

namespace Zhtps

namespace Path

def slash : UInt8 := 47

def dot : UInt8 := 46

def percent : UInt8 := 37

inductive Error
  | noSpaceLeft
  | invalidPath
  deriving DecidableEq, Repr

/-- The byte that two hexadecimal digits name. -/
def hexByte (high low : UInt8) : Option UInt8 :=
  match Fmt.charToDigit high 16, Fmt.charToDigit low 16 with
  | some high, some low => some (.ofNat (high * 16 + low))
  | _, _ => none

/-! ### The first pass -/

/-- The first loop, from `path[read..]` on. -/
def decode : Bytes → Bytes → Nat → Except Error (Bytes × Nat)
  | [], buffer, len => .ok (buffer, len)
  | c :: rest, buffer, len =>
      if c ≠ percent then decode rest (buffer.set len c) (len + 1)
      else
        match rest with
        | high :: low :: rest =>
            match hexByte high low with
            | some byte =>
                if Syntax.isUnreserved byte then decode rest (buffer.set len byte) (len + 1)
                else
                  decode rest
                    (((buffer.set len percent).set (len + 1) (Ascii.toUpper high)).set (len + 2)
                      (Ascii.toUpper low)) (len + 3)
            | none => .error .invalidPath
        | _ => .error .invalidPath

/-! ### The second pass -/

/-- Where the second pass reads and writes. -/
structure Pass where
  buffer : Bytes
  read : Nat := 0
  written : Nat := 0
  deriving DecidableEq, Repr

/-- `std.mem.copyForwards` within one buffer, byte after byte. -/
def copyForwards (buffer : Bytes) (target source : Nat) : Nat → Bytes
  | 0 => buffer
  | count + 1 =>
      copyForwards (buffer.set target (buffer.getD source 0)) (target + 1) (source + 1) count

/-- `buffer[read..len]`. -/
def Pass.unread (len : Nat) (s : Pass) : Bytes := (s.buffer.take len).drop s.read

/-- `buffer[0..written]`. -/
def Pass.output (s : Pass) : Bytes := s.buffer.take s.written

/-- One round of the second loop, and whether the loop goes on. -/
def round (len : Nat) (s : Pass) : Pass × Bool :=
  let rest := s.unread len
  if (ascii "/./").isPrefixOf rest then ({ s with read := s.read + 2 }, true)
  else if rest = ascii "/." then
    ({ s with buffer := s.buffer.set s.written slash, written := s.written + 1 }, false)
  else if (ascii "/../").isPrefixOf rest ∨ rest = ascii "/.." then
    let written := (Mem.lastIndexOfScalar s.output slash).getD 0
    if s.read + 3 = len then
      ({ buffer := s.buffer.set written slash, read := s.read + 3, written := written + 1 }, true)
    else ({ s with read := s.read + 3, written := written }, true)
  else
    let stop := (Mem.indexOfScalarPos (s.buffer.take len) (s.read + 1) slash).getD len
    ({ buffer := copyForwards s.buffer s.written s.read (stop - s.read)
       read := stop
       written := s.written + (stop - s.read) }, true)

/-- The second loop; every round reads at least one byte. -/
def rounds (len : Nat) : Nat → Pass → Pass
  | 0, s => s
  | fuel + 1, s =>
      if s.read < len then
        if (round len s).2 then rounds len fuel (round len s).1 else (round len s).1
      else s

/-- Where the second loop stands each time it looks at its condition. -/
def heads (len : Nat) : Nat → Pass → List Pass
  | 0, s => [s]
  | fuel + 1, s =>
      s :: if s.read < len ∧ (round len s).2 = true then heads len fuel (round len s).1 else []

/-- Normalizes an absolute path, or `*`, into the caller's buffer. -/
def normalize (buffer path : Bytes) : Except Error Bytes :=
  if buffer.length < path.length then .error .noSpaceLeft
  else if path ≠ [] ∧ path.head? ≠ some slash ∧ path ≠ ascii "*" then .error .invalidPath
  else (decode path buffer 0).map fun (buffer, len) => (rounds len len { buffer }).output

/-! ### What the first pass does -/

/-- Every percent sign is followed by two hexadecimal digits. -/
def WellFormed (path : Bytes) : Prop :=
  ∀ before after, path = before ++ percent :: after →
    ∃ high low rest, after = high :: low :: rest ∧ Syntax.isHex high = true ∧
      Syntax.isHex low = true

/-- Escapes of unreserved characters are decoded, the other ones written in upper case. -/
def normalizeEscapes : Bytes → Bytes
  | [] => []
  | c :: rest =>
      if c ≠ percent then c :: normalizeEscapes rest
      else
        match rest with
        | high :: low :: rest =>
            match hexByte high low with
            | some byte =>
                if Syntax.isUnreserved byte then byte :: normalizeEscapes rest
                else percent :: Ascii.toUpper high :: Ascii.toUpper low :: normalizeEscapes rest
            | none => []
        | _ => []

theorem charToDigit_isHex (c : UInt8) :
    (Fmt.charToDigit c 16).isSome = Syntax.isHex c := by
  revert c
  decide +kernel

theorem hexByte_isSome (high low : UInt8) :
    (hexByte high low).isSome = (Syntax.isHex high && Syntax.isHex low) := by
  rw [← charToDigit_isHex, ← charToDigit_isHex, hexByte]
  cases Fmt.charToDigit high 16 with
  | none => rfl
  | some high => cases Fmt.charToDigit low 16 <;> rfl

theorem isHex_ne_percent {c : UInt8} (h : Syntax.isHex c = true) : c ≠ percent := by
  rintro rfl
  exact absurd h (by decide)

theorem wellFormed_nil : WellFormed [] := by
  intro before after h
  exact absurd h (by simp)

theorem wellFormed_cons {c : UInt8} (hc : c ≠ percent) (rest : Bytes) :
    WellFormed (c :: rest) ↔ WellFormed rest := by
  constructor
  · intro h before after heq
    exact h (c :: before) after (by rw [heq]; rfl)
  · intro h before after heq
    cases before with
    | nil =>
        rw [List.nil_append, List.cons.injEq] at heq
        exact absurd heq.1 hc
    | cons b before =>
        rw [List.cons_append, List.cons.injEq] at heq
        exact h before after heq.2

theorem wellFormed_escape {high low : UInt8} (rest : Bytes) :
    WellFormed (percent :: high :: low :: rest) ↔
      (hexByte high low).isSome = true ∧ WellFormed rest := by
  rw [hexByte_isSome, Bool.and_eq_true]
  have hrest : Syntax.isHex high = true → Syntax.isHex low = true →
      (WellFormed (high :: low :: rest) ↔ WellFormed rest) := by
    intro hhigh hlow
    rw [wellFormed_cons (isHex_ne_percent hhigh), wellFormed_cons (isHex_ne_percent hlow)]
  constructor
  · intro h
    obtain ⟨high', low', rest', heq, hhigh, hlow⟩ := h [] (high :: low :: rest) rfl
    rw [List.cons.injEq, List.cons.injEq] at heq
    obtain ⟨rfl, rfl, rfl⟩ := heq
    refine ⟨⟨hhigh, hlow⟩, (hrest hhigh hlow).mp ?_⟩
    intro before after heq
    exact h (percent :: before) after (by rw [heq]; rfl)
  · rintro ⟨⟨hhigh, hlow⟩, h⟩ before after heq
    cases before with
    | nil =>
        rw [List.nil_append, List.cons.injEq] at heq
        exact ⟨high, low, rest, heq.2.symm, hhigh, hlow⟩
    | cons b before =>
        rw [List.cons_append, List.cons.injEq] at heq
        exact (hrest hhigh hlow).mpr h before after heq.2

theorem normalizeEscapes_plain {c : UInt8} (hc : c ≠ percent) (rest : Bytes) :
    normalizeEscapes (c :: rest) = c :: normalizeEscapes rest := by
  conv_lhs => rw [normalizeEscapes.eq_def]
  exact if_pos hc

theorem normalizeEscapes_escape {high low byte : UInt8} (hbyte : hexByte high low = some byte)
    (rest : Bytes) :
    normalizeEscapes (percent :: high :: low :: rest) =
      if Syntax.isUnreserved byte then byte :: normalizeEscapes rest
      else percent :: Ascii.toUpper high :: Ascii.toUpper low :: normalizeEscapes rest := by
  rw [normalizeEscapes, if_neg (by simp), hbyte]

theorem normalizeEscapes_length (path : Bytes) :
    (normalizeEscapes path).length ≤ path.length := by
  fun_induction normalizeEscapes path with
  | case1 => exact Nat.le_refl _
  | case2 c rest hc ih =>
      rw [List.length_cons, List.length_cons]
      omega
  | case3 | case4 =>
      simp only [List.length_cons]
      omega
  | case5 | case6 => exact Nat.zero_le _

theorem take_set_succ {buffer : Bytes} {n : Nat} (c : UInt8) (h : n < buffer.length) :
    (buffer.set n c).take (n + 1) = buffer.take n ++ [c] := by
  rw [List.take_succ_eq_append_getElem (by simpa using h), List.getElem_set_self,
    List.take_set_of_le (Nat.le_refl n)]

/-- The first pass writes the normalized escapes behind what it has written. -/
theorem decode_ok {path buffer : Bytes} {len : Nat} (hw : WellFormed path)
    (hfit : len + path.length ≤ buffer.length) :
    decode path buffer len =
      .ok (buffer.take len ++ normalizeEscapes path ++
        buffer.drop (len + (normalizeEscapes path).length),
        len + (normalizeEscapes path).length) := by
  fun_induction decode path buffer len with
  | case1 buffer len => simp [normalizeEscapes]
  | case2 c rest buffer len hc ih =>
      rw [List.length_cons] at hfit
      have ih := ih ((wellFormed_cons hc rest).mp hw) (by rw [List.length_set]; omega)
      rw [ih, take_set_succ c (by omega), normalizeEscapes_plain hc, List.length_cons,
        List.drop_set_of_lt (by omega)]
      simp [Nat.add_assoc, Nat.add_comm 1]
  | case3 c buffer len hc high low rest byte hbyte hun ih =>
      rw [Decidable.not_not] at hc
      subst hc
      simp only [List.length_cons] at hfit
      have ih := ih ((wellFormed_escape rest).mp hw).2 (by rw [List.length_set]; omega)
      rw [ih, take_set_succ byte (by omega), normalizeEscapes_escape hbyte, if_pos hun,
        List.length_cons, List.drop_set_of_lt (by omega)]
      simp [Nat.add_assoc, Nat.add_comm 1]
  | case4 c buffer len hc high low rest byte hbyte hun ih =>
      rw [Decidable.not_not] at hc
      subst hc
      simp only [List.length_cons] at hfit
      have ih := ih ((wellFormed_escape rest).mp hw).2 (by simp only [List.length_set]; omega)
      rw [ih, take_set_succ (n := len + 2) (Ascii.toUpper low)
          (by simp only [List.length_set]; omega),
        take_set_succ (n := len + 1) (Ascii.toUpper high) (by rw [List.length_set]; omega),
        take_set_succ percent (by omega), normalizeEscapes_escape hbyte, if_neg hun]
      simp only [List.length_cons]
      rw [List.drop_set_of_lt (by omega), List.drop_set_of_lt (by omega),
        List.drop_set_of_lt (by omega)]
      simp [Nat.add_assoc, Nat.add_comm 3]
  | case5 c buffer len hc high low rest hbyte =>
      rw [Decidable.not_not] at hc
      subst hc
      rw [wellFormed_escape, hbyte] at hw
      exact absurd hw.1 (by simp)
  | case6 c rest buffer len hc hshort =>
      rw [Decidable.not_not] at hc
      subst hc
      obtain ⟨high, low, tail, rfl, -, -⟩ := hw [] rest rfl
      exact absurd rfl (hshort high low tail)

theorem decode_error {path buffer : Bytes} {len : Nat} (hw : ¬WellFormed path) :
    decode path buffer len = .error .invalidPath := by
  fun_induction decode path buffer len with
  | case1 buffer len => exact absurd wellFormed_nil hw
  | case2 c rest buffer len hc ih => exact ih fun h => hw ((wellFormed_cons hc rest).mpr h)
  | case3 c buffer len hc high low rest byte hbyte hun ih =>
      rw [Decidable.not_not] at hc
      subst hc
      exact ih fun h => hw ((wellFormed_escape rest).mpr ⟨by rw [hbyte]; rfl, h⟩)
  | case4 c buffer len hc high low rest byte hbyte hun ih =>
      rw [Decidable.not_not] at hc
      subst hc
      exact ih fun h => hw ((wellFormed_escape rest).mpr ⟨by rw [hbyte]; rfl, h⟩)
  | case5 => rfl
  | case6 => rfl

/-! ### What the second pass does -/

/-- The bytes move down one after another, each before its place is written. -/
theorem copyForwards_eq {buffer : Bytes} {target source count : Nat} (hle : target ≤ source)
    (hfit : source + count ≤ buffer.length) :
    copyForwards buffer target source count =
      buffer.take target ++ (buffer.drop source).take count ++ buffer.drop (target + count) := by
  induction count generalizing buffer target source with
  | zero => simp [copyForwards]
  | succ count ih =>
      have hsource : source < buffer.length := by omega
      have hread : buffer.drop source = buffer.getD source 0 :: buffer.drop (source + 1) := by
        rw [List.drop_eq_getElem_cons hsource, List.getD_eq_getElem?_getD,
          List.getElem?_eq_getElem hsource, Option.getD_some]
      rw [copyForwards, ih (by omega) (by rw [List.length_set]; omega),
        take_set_succ _ (by omega), List.drop_set_of_lt (by omega),
        List.drop_set_of_lt (by omega), hread, List.take_succ_cons, Nat.add_right_comm target 1]
      simp [Nat.add_assoc]

/-- Going back to the last slash written takes the last segment off the output. -/
theorem take_lastIndex (output : Bytes) :
    output.take ((Mem.lastIndexOfScalar output slash).getD 0) =
      Lib.removeLast slash output := by
  have hnot : (fun c : UInt8 => !decide (c ≠ slash)) = (· == slash) := by
    funext c
    rw [Bool.eq_iff_iff]
    simp
  have hindex : output.reverse.findIdx (· == slash) = _ := List.findIdx_eq_getD_findIdx?
  rw [Lib.removeLast, List.dropWhile_eq_drop_findIdx_not, hnot, List.drop_drop,
    List.drop_reverse, List.reverse_reverse, hindex, Mem.lastIndexOfScalar]
  cases output.reverse.findIdx? (· == slash) with
  | none => simp
  | some i =>
      rw [Option.map_some, Option.getD_some, Option.getD_some, Nat.sub_sub, Nat.add_comm 1]

/-- Where the first segment ends. -/
theorem firstSegment_eq (c : UInt8) (rest : Bytes) :
    Lib.firstSegment slash (c :: rest) =
      (c :: rest).take (rest.findIdx (· == slash) + 1) := by
  have hnot : (fun c : UInt8 => !decide (c ≠ slash)) = (· == slash) := by
    funext c
    rw [Bool.eq_iff_iff]
    simp
  rw [Lib.firstSegment, List.take_succ_cons, List.take_succ_cons, List.drop_succ_cons,
    List.drop_zero, List.takeWhile_eq_take_findIdx_not, hnot]
  rfl

/-- The second loop stands within the decoded path, behind nothing it still has to read. -/
def Stands (decoded : Bytes) (len : Nat) (s : Pass) : Prop :=
  s.written ≤ s.read ∧ s.read ≤ len ∧ len ≤ s.buffer.length ∧ s.unread len = decoded.drop s.read

/-- What the removal still makes of the rest and the output. -/
def Pass.outcome (len : Nat) (s : Pass) : Bytes :=
  Lib.removeDotSegments slash dot (s.unread len) s.output

/-- Nothing is left, or a segment begins, or the path is an asterisk. -/
def Rooted (input : Bytes) : Prop := input = [] ∨ input.head? = some slash ∨ input = ascii "*"

theorem removeDotSegments_rooted {input : Bytes} (hroot : Rooted input) (hne : input ≠ [])
    (output : Bytes) :
    Lib.removeDotSegments slash dot input output =
      if (ascii "/./").isPrefixOf input then
        Lib.removeDotSegments slash dot (input.drop 2) output
      else if input = ascii "/." then output ++ [slash]
      else if (ascii "/../").isPrefixOf input then
        Lib.removeDotSegments slash dot (input.drop 3) (Lib.removeLast slash output)
      else if input = ascii "/.." then Lib.removeLast slash output ++ [slash]
      else
        Lib.removeDotSegments slash dot (input.drop (Lib.firstSegment slash input).length)
          (output ++ Lib.firstSegment slash input) := by
  rcases hroot with rfl | hslash | rfl
  · exact absurd rfl hne
  · obtain ⟨rest, rfl⟩ := List.head?_eq_some_iff.mp hslash
    exact Lib.removeDotSegments_cons (by decide) rest output
  · -- no rule but E speaks of an asterisk
    rw [Lib.removeDotSegments.eq_def]
    rfl

theorem unread_length {len : Nat} {s : Pass} (h : len ≤ s.buffer.length) :
    (s.unread len).length = len - s.read := by
  rw [Pass.unread, List.length_drop, List.length_take]
  omega

theorem unread_advance (len k : Nat) (s : Pass) :
    Pass.unread len { s with read := s.read + k } = (s.unread len).drop k := by
  rw [Pass.unread, Pass.unread, List.drop_drop]

/-- Reading on keeps a pass where it should stand. -/
theorem Stands.advance {decoded : Bytes} {len : Nat} {s s' : Pass} (hs : Stands decoded len s)
    {k : Nat} (hread : s'.read = s.read + k) (hwritten : s'.written ≤ s.read + k)
    (hlen : k ≤ (s.unread len).length) (hbuffer : s'.buffer.length = s.buffer.length)
    (hunread : s'.unread len = (s.unread len).drop k) : Stands decoded len s' := by
  obtain ⟨hwr, hrl, hfit, heq⟩ := hs
  rw [unread_length hfit] at hlen
  refine ⟨by omega, by omega, by omega, ?_⟩
  rw [hunread, heq, hread, List.drop_drop]

theorem lastIndex_le (output : Bytes) :
    (Mem.lastIndexOfScalar output slash).getD 0 ≤ output.length := by
  rw [Mem.lastIndexOfScalar]
  cases output.reverse.findIdx? (· == slash) with
  | none => exact Nat.zero_le _
  | some i =>
      rw [Option.map_some, Option.getD_some]
      omega

/-- Behind the first segment another one begins, or nothing is left. -/
theorem rooted_next (c : UInt8) (rest : Bytes) :
    Rooted ((c :: rest).drop (Lib.firstSegment slash (c :: rest)).length) := by
  have hle : rest.findIdx (· == slash) ≤ rest.length := List.findIdx_le_length
  rw [firstSegment_eq, List.length_take_of_le (by rw [List.length_cons]; omega),
    List.drop_succ_cons]
  by_cases hlt : rest.findIdx (· == slash) < rest.length
  · refine Or.inr (Or.inl ?_)
    have hfound := List.findIdx_getElem (p := (· == slash)) (w := hlt)
    rw [List.head?_drop, List.getElem?_eq_getElem hlt, beq_iff_eq.mp hfound]
  · exact Or.inl (List.drop_eq_nil_of_le (by omega))

/-- What a round leaves: the rest and the output of one more rule of the removal, or, when the
loop ends, its result. -/
def Leaves (decoded : Bytes) (len : Nat) (s : Pass) (after : Pass × Bool) : Prop :=
  if after.2 = true then
    Stands decoded len after.1 ∧ Rooted (after.1.unread len) ∧
      after.1.outcome len = s.outcome len ∧ s.read < after.1.read
  else after.1.output = s.outcome len

theorem rooted_drop {p : Bytes} {input : Bytes} (h : (p ++ [slash]).isPrefixOf input = true) :
    Rooted (input.drop p.length) ∧ p.length < input.length := by
  obtain ⟨tail, rfl⟩ := List.isPrefixOf_iff_prefix.mp h
  constructor
  · rw [List.append_assoc, List.drop_left]
    exact Or.inr (Or.inl rfl)
  · simp only [List.length_append, List.length_cons]
    omega

/-- `/./` is passed over. -/
theorem leaves_dot {decoded : Bytes} {len : Nat} {s : Pass} (hs : Stands decoded len s)
    (hroot : Rooted (s.unread len)) (hdot : (ascii "/./").isPrefixOf (s.unread len) = true) :
    Leaves decoded len s ({ s with read := s.read + 2 }, true) := by
  obtain ⟨hnext, hlen⟩ := rooted_drop (p := ascii "/.") hdot
  have hne : s.unread len ≠ [] := by
    intro heq
    rw [heq] at hlen
    exact absurd hlen (by decide)
  refine (if_pos rfl).mpr ⟨?_, ?_, ?_, Nat.lt_add_of_pos_right (by omega)⟩
  · exact hs.advance rfl (Nat.le_add_right_of_le hs.1) (Nat.le_of_lt hlen) rfl
      (unread_advance len 2 s)
  · rw [unread_advance]
    exact hnext
  · rw [Pass.outcome, Pass.outcome, unread_advance, removeDotSegments_rooted hroot hne,
      if_pos hdot]
    rfl

/-- Taking the last segment off the output. -/
theorem output_back (s : Pass) :
    (s.buffer.take ((Mem.lastIndexOfScalar s.output slash).getD 0)) =
      Lib.removeLast slash s.output := by
  have hle := lastIndex_le s.output
  have hshort : s.output.length ≤ s.written := List.length_take_le _ _
  rw [← take_lastIndex, Pass.output, List.take_take, Nat.min_eq_left (by
    rw [← Pass.output]
    omega)]

/-- `/../` takes the last segment off the output. -/
theorem leaves_dots {decoded : Bytes} {len : Nat} {s : Pass} (hs : Stands decoded len s)
    (hroot : Rooted (s.unread len)) (hdot : (ascii "/./").isPrefixOf (s.unread len) = false)
    (hend : s.unread len ≠ ascii "/.")
    (hdots : (ascii "/../").isPrefixOf (s.unread len) = true) :
    Leaves decoded len s
      ({ s with
          read := s.read + 3
          written := (Mem.lastIndexOfScalar s.output slash).getD 0 }, true) := by
  obtain ⟨hnext, hlen⟩ := rooted_drop (p := ascii "/..") hdots
  have hne : s.unread len ≠ [] := by
    intro heq
    rw [heq] at hlen
    exact absurd hlen (by decide)
  have hback : (Mem.lastIndexOfScalar s.output slash).getD 0 ≤ s.written :=
    Nat.le_trans (lastIndex_le s.output) (List.length_take_le _ _)
  have hunread : Pass.unread len { s with
      read := s.read + 3
      written := (Mem.lastIndexOfScalar s.output slash).getD 0 } = (s.unread len).drop 3 :=
    unread_advance len 3 s
  refine (if_pos rfl).mpr ⟨?_, ?_, ?_, Nat.lt_add_of_pos_right (by omega)⟩
  · exact hs.advance rfl (Nat.le_add_right_of_le (Nat.le_trans hback hs.1)) (Nat.le_of_lt hlen) rfl
      hunread
  · rw [hunread]
    exact hnext
  · rw [Pass.outcome, Pass.outcome, hunread, removeDotSegments_rooted hroot hne,
      if_neg (by simp [hdot]), if_neg hend, if_pos hdots, ← output_back]
    rfl

/-- `/..` at the end leaves the directory above. -/
theorem leaves_last {decoded : Bytes} {len : Nat} {s : Pass} (hs : Stands decoded len s)
    (hroot : Rooted (s.unread len)) (hlast : s.unread len = ascii "/..") :
    Leaves decoded len s
      ({ buffer := s.buffer.set ((Mem.lastIndexOfScalar s.output slash).getD 0) slash
         read := s.read + 3
         written := (Mem.lastIndexOfScalar s.output slash).getD 0 + 1 }, true) := by
  have hlen : (s.unread len).length = 3 := by rw [hlast]; rfl
  have hback : (Mem.lastIndexOfScalar s.output slash).getD 0 ≤ s.written :=
    Nat.le_trans (lastIndex_le s.output) (List.length_take_le _ _)
  have hread := hlen
  rw [unread_length hs.2.2.1] at hread
  have ⟨hwr, hrl, hfit, _⟩ := hs
  have hunread : Pass.unread len
      { buffer := s.buffer.set ((Mem.lastIndexOfScalar s.output slash).getD 0) slash
        read := s.read + 3
        written := (Mem.lastIndexOfScalar s.output slash).getD 0 + 1 } = [] := by
    refine List.drop_eq_nil_of_le (Nat.le_trans (List.length_take_le len _) ?_)
    show len ≤ s.read + 3
    omega
  refine (if_pos rfl).mpr ⟨?_, Or.inl hunread, ?_, Nat.lt_add_of_pos_right (by omega)⟩
  · refine hs.advance rfl ?_ (Nat.le_of_eq hlen.symm) List.length_set ?_
    · show (Mem.lastIndexOfScalar s.output slash).getD 0 + 1 ≤ s.read + 3
      omega
    · rw [hunread, List.drop_eq_nil_of_le (Nat.le_of_eq hlen)]
  · rw [Pass.outcome, Pass.outcome, hunread, Lib.removeDotSegments_nil,
      removeDotSegments_rooted hroot (by rw [hlast]; decide), hlast,
      if_neg (by decide), if_neg (by decide), if_neg (by decide), if_pos rfl, ← output_back]
    exact take_set_succ slash (by omega)

/-- The bytes that `copyForwards` moves go behind the output, and stay clear of the rest. -/
theorem copied {len n : Nat} {s : Pass} (hwr : s.written ≤ s.read) (hn : s.read + n ≤ len)
    (hfit : len ≤ s.buffer.length) :
    let moved : Pass :=
      { buffer := copyForwards s.buffer s.written s.read n
        read := s.read + n
        written := s.written + n }
    moved.buffer.length = s.buffer.length ∧ moved.unread len = (s.unread len).drop n ∧
      moved.output = s.output ++ (s.unread len).take n := by
  have hfront : (s.buffer.take s.written ++ (s.buffer.drop s.read).take n).length =
      s.written + n := by
    simp only [List.length_append, List.length_take, List.length_drop]
    omega
  rw [copyForwards_eq hwr (by omega)]
  refine ⟨?_, ?_, ?_⟩
  · simp only [List.length_append] at hfront ⊢
    rw [hfront, List.length_drop]
    omega
  · simp only [Pass.unread]
    have hskip : s.written + n + (s.read + n - (s.written + n)) = s.read + n := by omega
    rw [List.drop_drop, List.drop_take, List.drop_take, List.drop_append,
      List.drop_eq_nil_of_le (by omega), List.nil_append, List.drop_drop, hfront, hskip]
  · simp only [Pass.output, Pass.unread]
    rw [List.take_left' hfront, List.drop_take, List.take_take, Nat.min_eq_left (by omega)]

/-- Anything else is a segment that moves to the output. -/
theorem leaves_segment {decoded : Bytes} {len : Nat} {s : Pass} (hs : Stands decoded len s)
    (hroot : Rooted (s.unread len)) (hdot : (ascii "/./").isPrefixOf (s.unread len) = false)
    (hend : s.unread len ≠ ascii "/.")
    (hdots : (ascii "/../").isPrefixOf (s.unread len) = false)
    (hlast : s.unread len ≠ ascii "/..") (hmore : s.read < len) :
    let stop := (Mem.indexOfScalarPos (s.buffer.take len) (s.read + 1) slash).getD len
    Leaves decoded len s
      ({ buffer := copyForwards s.buffer s.written s.read (stop - s.read)
         read := stop
         written := s.written + (stop - s.read) }, true) := by
  intro stop
  have ⟨hwr, hrl, hfit, _⟩ := hs
  have hread := unread_length (s := s) hfit
  obtain ⟨c, rest, hrest⟩ : ∃ c rest, s.unread len = c :: rest := by
    cases hunread : s.unread len with
    | nil =>
        rw [hunread, List.length_nil] at hread
        omega
    | cons c rest => exact ⟨c, rest, rfl⟩
  have hdrop : (s.buffer.take len).drop (s.read + 1) = rest := by
    rw [← List.drop_drop, ← Pass.unread, hrest, List.drop_one, List.tail_cons]
  rw [hrest, List.length_cons] at hread
  have hle : rest.findIdx (· == slash) ≤ rest.length := List.findIdx_le_length
  -- the copied bytes are the first segment
  have hcount : stop - s.read = rest.findIdx (· == slash) + 1 := by
    have hindex : rest.findIdx (· == slash) = _ := List.findIdx_eq_getD_findIdx?
    show (Mem.indexOfScalarPos (s.buffer.take len) (s.read + 1) slash).getD len - s.read = _
    rw [Mem.indexOfScalarPos, hdrop, hindex]
    cases rest.findIdx? (· == slash) with
    | none =>
        simp only [Option.map_none, Option.getD_none]
        omega
    | some i =>
        simp only [Option.map_some, Option.getD_some]
        omega
  have hfirst : Lib.firstSegment slash (c :: rest) = (c :: rest).take (stop - s.read) := by
    rw [firstSegment_eq, hcount]
  have hlength : (Lib.firstSegment slash (c :: rest)).length = stop - s.read := by
    rw [hfirst, hcount, List.length_take_of_le]
    rw [List.length_cons]
    omega
  have hstop : s.read + (stop - s.read) = stop := by omega
  obtain ⟨hbuffer, hunread, houtput⟩ := copied (n := stop - s.read) hwr (by omega) hfit
  simp only [hstop] at hbuffer hunread houtput
  refine (if_pos rfl).mpr ⟨?_, ?_, ?_, ?_⟩
  · refine hs.advance (k := stop - s.read) hstop.symm ?_ ?_ hbuffer hunread
    · exact Nat.add_le_add_right hwr _
    · rw [hrest, List.length_cons]
      omega
  · rw [hunread, hrest, ← hlength]
    exact rooted_next c rest
  · rw [Pass.outcome, Pass.outcome, hunread, houtput,
      removeDotSegments_rooted hroot (by rw [hrest]; nofun), if_neg (by simp [hdot]), if_neg hend,
      if_neg (by simp [hdots]), if_neg hlast, hrest, hlength, hfirst]
  · show s.read < stop
    omega

theorem round_leaves {decoded : Bytes} {len : Nat} {s : Pass} (hs : Stands decoded len s)
    (hroot : Rooted (s.unread len)) (hmore : s.read < len) :
    Leaves decoded len s (round len s) := by
  have ⟨hwr, _, hfit, _⟩ := hs
  have hread := unread_length (s := s) hfit
  unfold round
  simp only
  split
  · exact leaves_dot hs hroot ‹_›
  · rename_i hdot
    rw [Bool.not_eq_true] at hdot
    split
    · rename_i hend
      show Leaves decoded len s (_, false)
      refine (if_neg Bool.false_ne_true).mpr ?_
      rw [Pass.outcome, removeDotSegments_rooted hroot (by rw [hend]; decide),
        if_neg (by simp [hdot]), if_pos hend]
      exact take_set_succ slash (by omega)
    · rename_i hend
      split
      · rename_i hdots
        rcases hdots with hdots | hlast
        · have hlen := (rooted_drop (p := ascii "/..") hdots).2
          have hmore : s.read + 3 ≠ len := by
            intro heq
            rw [hread] at hlen
            have : (ascii "/..").length = 3 := rfl
            omega
          rw [if_neg hmore]
          exact leaves_dots hs hroot hdot hend hdots
        · have hlen : (s.unread len).length = 3 := by rw [hlast]; rfl
          rw [if_pos (by omega)]
          exact leaves_last hs hroot hlast
      · rename_i hnot
        rw [not_or, Bool.not_eq_true] at hnot
        exact leaves_segment hs hroot hdot hend hnot.1 hnot.2 hmore

/-- Every round reads on, so `len` of them reach the end. -/
theorem rounds_output {decoded : Bytes} {len fuel : Nat} {s : Pass} (hs : Stands decoded len s)
    (hroot : Rooted (s.unread len)) (hfuel : len - s.read ≤ fuel) :
    (rounds len fuel s).output = s.outcome len := by
  induction fuel generalizing s with
  | zero =>
      have hdone : s.unread len = [] := by
        rw [← List.length_eq_zero_iff, unread_length hs.2.2.1]
        omega
      rw [rounds, Pass.outcome, hdone, Lib.removeDotSegments_nil]
  | succ fuel ih =>
      rw [rounds]
      split
      · rename_i hmore
        have hleaves := round_leaves hs hroot hmore
        unfold Leaves at hleaves
        split
        · rename_i hgoes
          rw [if_pos hgoes] at hleaves
          obtain ⟨hstands, hrooted, houtcome, hprogress⟩ := hleaves
          rw [ih hstands hrooted (by omega), houtcome]
        · rename_i hends
          rwa [if_neg hends] at hleaves
      · have hdone : s.unread len = [] := by
          rw [← List.length_eq_zero_iff, unread_length hs.2.2.1]
          omega
        rw [Pass.outcome, hdone, Lib.removeDotSegments_nil]

theorem heads_stand {decoded : Bytes} {len fuel : Nat} {s : Pass} (hs : Stands decoded len s)
    (hroot : Rooted (s.unread len)) : ∀ t ∈ heads len fuel s, Stands decoded len t := by
  induction fuel generalizing s with
  | zero =>
      intro t ht
      rw [heads, List.mem_singleton] at ht
      rwa [ht]
  | succ fuel ih =>
      intro t ht
      rw [heads] at ht
      rcases List.mem_cons.mp ht with rfl | ht
      · exact hs
      · split at ht
        · rename_i hmore
          have hleaves := round_leaves hs hroot hmore.1
          rw [Leaves, if_pos hmore.2] at hleaves
          exact ih hleaves.1 hleaves.2.1 t ht
        · exact absurd ht List.not_mem_nil

/-! ### Normalization -/

/-- A path that may be normalized: empty, an asterisk, or beginning with a slash. -/
def Admissible (path : Bytes) : Prop :=
  path = [] ∨ path = ascii "*" ∨ path.head? = some slash

theorem rooted_normalizeEscapes {path : Bytes} (h : Admissible path) :
    Rooted (normalizeEscapes path) := by
  rcases h with rfl | rfl | hslash
  · exact Or.inl rfl
  · exact Or.inr (Or.inr rfl)
  · obtain ⟨rest, rfl⟩ := List.head?_eq_some_iff.mp hslash
    refine Or.inr (Or.inl ?_)
    rw [normalizeEscapes_plain (by decide)]
    rfl

/-- The state the first pass hands to the second one. -/
theorem decoded_stands (path buffer : Bytes) :
    Stands (normalizeEscapes path) (normalizeEscapes path).length
      { buffer := normalizeEscapes path ++ buffer.drop (normalizeEscapes path).length } := by
  refine ⟨Nat.le_refl _, Nat.zero_le _, ?_, ?_⟩
  · simp only [List.length_append, List.length_drop]
    omega
  · simp only [Pass.unread]
    rw [List.take_left]

theorem normalize_eq {buffer path : Bytes} (hpath : Admissible path)
    (hfit : path.length ≤ buffer.length) (hw : WellFormed path) :
    normalize buffer path =
      .ok (Lib.removeDotSegments slash dot (normalizeEscapes path) []) := by
  have hadmitted : ¬(path ≠ [] ∧ path.head? ≠ some slash ∧ path ≠ ascii "*") := by
    rintro ⟨hempty, hhead, hasterisk⟩
    rcases hpath with h | h | h
    · exact hempty h
    · exact hasterisk h
    · exact hhead h
  have hstands := decoded_stands path buffer
  have hunread := hstands.2.2.2
  rw [List.drop_zero] at hunread
  have hrooted := rooted_normalizeEscapes hpath
  have hresult := rounds_output hstands (by rwa [hunread]) (Nat.sub_le _ _)
  rw [Pass.outcome, hunread] at hresult
  rw [normalize, if_neg (Nat.not_lt_of_le hfit), if_neg hadmitted, decode_ok hw (by omega),
    List.take_zero, List.nil_append, Nat.zero_add]
  exact congrArg Except.ok hresult

/-- Normalization succeeds on the paths whose escapes are well formed, and gives what RFC 3986
says; while it works within the buffer, what it has still to read is untouched. -/
theorem normalize_removes (buffer path : Bytes) (hpath : Admissible path)
    (hfit : path.length ≤ buffer.length) :
    (normalize buffer path = .error .invalidPath ↔ ¬WellFormed path) ∧
      (WellFormed path → normalize buffer path =
        .ok (Lib.removeDotSegments slash dot (normalizeEscapes path) [])) ∧
      ∀ decoded len, decode path buffer 0 = .ok (decoded, len) →
        ∀ s ∈ heads len len { buffer := decoded },
          s.written ≤ s.read ∧ s.read ≤ len ∧
            s.unread len = (normalizeEscapes path).drop s.read := by
  refine ⟨⟨?_, ?_⟩, normalize_eq hpath hfit, ?_⟩
  · intro herror hw
    rw [normalize_eq hpath hfit hw] at herror
    exact absurd herror nofun
  · intro hw
    rw [normalize, decode_error hw, if_neg (Nat.not_lt_of_le hfit)]
    exact ite_self _
  · intro decoded len hdecode s hs
    have hw : WellFormed path := by
      by_contra hw
      rw [decode_error hw] at hdecode
      exact absurd hdecode nofun
    rw [decode_ok hw (by omega), List.take_zero, List.nil_append, Nat.zero_add] at hdecode
    obtain ⟨rfl, rfl⟩ := Prod.mk.inj (Except.ok.inj hdecode)
    have hstands := decoded_stands path buffer
    have hunread := hstands.2.2.2
    rw [List.drop_zero] at hunread
    have hroot := rooted_normalizeEscapes hpath
    obtain ⟨hwritten, hread, -, hrest⟩ := heads_stand hstands (by rwa [hunread]) s hs
    exact ⟨hwritten, hread, hrest⟩

theorem normalize_removes_underscore : ¬WellFormed (ascii "/%2_") :=
  (normalize_removes (List.replicate 4 0) (ascii "/%2_") (Or.inr (Or.inr rfl)) (by decide)).1.mp
    (by decide +kernel)

example :
    normalize (List.replicate 24 0) (ascii "/a/%2e%2e/%7Eb/./c%2f") = .ok (ascii "/~b/c%2F") := by
  decide +kernel

/-! ### The canonical form -/

/-- Paths whose escapes are in upper case and stand for no unreserved character. -/
inductive Normal : Bytes → Prop
  | nil : Normal []
  | plain {c : UInt8} {rest : Bytes} : c ≠ percent → Normal rest → Normal (c :: rest)
  | escape {high low byte : UInt8} {rest : Bytes} : hexByte high low = some byte →
      Syntax.isUnreserved byte = false → Ascii.toUpper high = high → Ascii.toUpper low = low →
      Normal rest → Normal (percent :: high :: low :: rest)

theorem toUpper_toUpper (c : UInt8) : Ascii.toUpper (Ascii.toUpper c) = Ascii.toUpper c := by
  revert c
  decide +kernel

theorem hexByte_toUpper (high low : UInt8) :
    hexByte (Ascii.toUpper high) (Ascii.toUpper low) = hexByte high low := by
  have hdigit : ∀ c, Fmt.charToDigit (Ascii.toUpper c) 16 = Fmt.charToDigit c 16 := by
    decide +kernel
  rw [hexByte, hexByte, hdigit, hdigit]

theorem isUnreserved_ne_percent {c : UInt8} (h : Syntax.isUnreserved c = true) : c ≠ percent := by
  rintro rfl
  exact absurd h (by decide)

theorem normal_normalizeEscapes {path : Bytes} (hw : WellFormed path) :
    Normal (normalizeEscapes path) := by
  fun_induction normalizeEscapes path with
  | case1 => exact .nil
  | case2 c rest hc ih => exact .plain hc (ih ((wellFormed_cons hc rest).mp hw))
  | case3 c hc high low rest byte hbyte hun ih =>
      rw [Decidable.not_not] at hc
      subst hc
      exact .plain (isUnreserved_ne_percent hun) (ih ((wellFormed_escape rest).mp hw).2)
  | case4 c hc high low rest byte hbyte hun ih =>
      rw [Decidable.not_not] at hc
      subst hc
      exact .escape ((hexByte_toUpper high low).trans hbyte) (Bool.not_eq_true _ ▸ hun)
        (toUpper_toUpper high) (toUpper_toUpper low) (ih ((wellFormed_escape rest).mp hw).2)
  | case5 => exact .nil
  | case6 => exact .nil

theorem Normal.wellFormed {path : Bytes} (h : Normal path) : WellFormed path := by
  induction h with
  | nil => exact wellFormed_nil
  | plain hc _ ih => exact (wellFormed_cons hc _).mpr ih
  | escape hbyte _ _ _ _ ih => exact (wellFormed_escape _).mpr ⟨by rw [hbyte]; rfl, ih⟩

theorem Normal.fixed {path : Bytes} (h : Normal path) : normalizeEscapes path = path := by
  induction h with
  | nil => rfl
  | plain hc _ ih => rw [normalizeEscapes_plain hc, ih]
  | escape hbyte hreserved hhigh hlow _ ih =>
      rw [normalizeEscapes_escape hbyte, if_neg (by simp [hreserved]), hhigh, hlow, ih]

theorem Normal.append {a b : Bytes} (ha : Normal a) (hb : Normal b) : Normal (a ++ b) := by
  induction ha with
  | nil => exact hb
  | plain hc _ ih => exact .plain hc ih
  | escape hbyte hreserved hhigh hlow _ ih => exact .escape hbyte hreserved hhigh hlow ih

/-- An escape does not reach over a slash. -/
theorem splitOn_escape {high low byte : UInt8} (hbyte : hexByte high low = some byte)
    (rest : Bytes) :
    (percent :: high :: low :: rest).splitOn slash =
      (rest.splitOn slash).modifyHead (percent :: high :: low :: ·) := by
  have hhex := hexByte_isSome high low
  rw [hbyte, Option.isSome_some, eq_comm, Bool.and_eq_true] at hhex
  have hhigh : high ≠ slash := by
    rintro rfl
    exact absurd hhex.1 (by decide)
  have hlow : low ≠ slash := by
    rintro rfl
    exact absurd hhex.2 (by decide)
  rw [Lib.splitOn_cons_ne (by decide), Lib.splitOn_cons_ne hhigh, Lib.splitOn_cons_ne hlow,
    List.modifyHead_modifyHead, List.modifyHead_modifyHead]
  rfl

theorem Normal.splitOn {path : Bytes} (h : Normal path) :
    ∀ s ∈ path.splitOn slash, Normal s := by
  have hfirst : ∀ {f : Bytes → Bytes} {segments : List Bytes},
      (∀ s, Normal s → Normal (f s)) → (∀ s ∈ segments, Normal s) →
        ∀ s ∈ segments.modifyHead f, Normal s := by
    intro f segments hf hsegments s hs
    cases segments with
    | nil => exact hsegments s hs
    | cons first segments =>
        rcases List.mem_cons.mp hs with rfl | hs
        · exact hf first (hsegments first List.mem_cons_self)
        · exact hsegments s (List.mem_cons_of_mem _ hs)
  induction h with
  | nil =>
      intro s hs
      rw [List.splitOn_nil, List.mem_singleton] at hs
      rw [hs]
      exact .nil
  | @plain c rest hc _ ih =>
      by_cases hslash : c = slash
      · intro s hs
        rw [hslash, Lib.splitOn_cons_self] at hs
        rcases List.mem_cons.mp hs with rfl | hs
        · exact .nil
        · exact ih s hs
      · rw [Lib.splitOn_cons_ne hslash]
        exact hfirst (fun _ => .plain hc) ih
  | @escape high low byte rest hbyte hreserved hhigh hlow _ ih =>
      rw [splitOn_escape hbyte]
      exact hfirst (fun _ => .escape hbyte hreserved hhigh hlow) ih

theorem normal_render {segments : List Bytes} (h : ∀ s ∈ segments, Normal s) :
    Normal (Lib.render slash segments) := by
  induction segments with
  | nil => exact .nil
  | cons s rest ih =>
      rw [Lib.render_cons]
      exact Normal.append (.plain (by decide) (h s List.mem_cons_self))
        (ih fun t ht => h t (List.mem_cons_of_mem _ ht))

/-- No escape in a normal path stands for an unreserved character. -/
theorem Normal.reserved {path : Bytes} (h : Normal path) :
    ∀ before high low after byte, path = before ++ percent :: high :: low :: after →
      hexByte high low = some byte → Syntax.isUnreserved byte = false := by
  induction h with
  | nil =>
      intro before high low after byte heq
      exact absurd heq (by simp)
  | plain hc _ ih =>
      intro before high low after byte heq
      cases before with
      | nil => exact absurd (List.cons.inj heq).1 hc
      | cons b before => exact ih before high low after byte (List.cons.inj heq).2
  | @escape high' low' byte' rest hbyte' hreserved _ _ _ ih =>
      intro before high low after byte heq hbyte
      have hhex := hexByte_isSome high' low'
      rw [hbyte', Option.isSome_some, eq_comm, Bool.and_eq_true] at hhex
      -- the percent sign is not one of the two digits
      match before with
      | [] =>
          simp only [List.nil_append, List.cons.injEq, true_and] at heq
          rw [← heq.1, ← heq.2.1, hbyte', Option.some.injEq] at hbyte
          rwa [← hbyte]
      | [b] =>
          simp only [List.cons_append, List.nil_append, List.cons.injEq] at heq
          exact absurd heq.2.1 (isHex_ne_percent hhex.1)
      | [b, c] =>
          simp only [List.cons_append, List.nil_append, List.cons.injEq] at heq
          exact absurd heq.2.2.1 (isHex_ne_percent hhex.2)
      | b :: c :: d :: before =>
          simp only [List.cons_append, List.cons.injEq] at heq
          exact ih before high low after byte heq.2.2.2 hbyte

theorem normalize_ok {buffer path result : Bytes} (h : normalize buffer path = .ok result) :
    Admissible path ∧ WellFormed path ∧
      result = Lib.removeDotSegments slash dot (normalizeEscapes path) [] := by
  have hfit : path.length ≤ buffer.length := by
    by_contra hfit
    rw [normalize, if_pos (by omega)] at h
    exact absurd h nofun
  have hpath : Admissible path := by
    by_contra hpath
    rw [Admissible, not_or, not_or] at hpath
    rw [normalize, if_neg (Nat.not_lt_of_le hfit),
      if_pos ⟨hpath.1, hpath.2.2, hpath.2.1⟩] at h
    exact absurd h nofun
  have hw : WellFormed path := by
    by_contra hw
    rw [((normalize_removes buffer path hpath hfit).1).mpr hw] at h
    exact absurd h nofun
  rw [normalize_eq hpath hfit hw] at h
  exact ⟨hpath, hw, (Except.ok.inj h).symm⟩

/-- A segment that normalization leaves. -/
def Kept (s : Bytes) : Prop := slash ∉ s ∧ Normal s ∧ s ≠ [dot] ∧ s ≠ [dot, dot]

/-- What normalization makes of a path that begins with a slash. -/
theorem segments_kept {path result : Bytes} (hslash : path.head? = some slash)
    (hw : WellFormed path)
    (hresult : result = Lib.removeDotSegments slash dot (normalizeEscapes path) []) :
    ∃ segments : List Bytes, segments ≠ [] ∧
      (∀ s ∈ segments, Kept s ∧ (s ≠ [] → s ∈ (normalizeEscapes path).splitOn slash)) ∧
      result = Lib.render slash segments ∧ result.length ≤ path.length := by
  obtain ⟨rest, rfl⟩ := List.head?_eq_some_iff.mp hslash
  have hwRest := (wellFormed_cons (by decide) rest).mp hw
  have hlength := normalizeEscapes_length rest
  have hfree : ∀ s ∈ (normalizeEscapes rest).splitOn slash, slash ∉ s := Lib.not_mem_splitOn _
  have hnormal := (normal_normalizeEscapes hwRest).splitOn
  have hremoved := Lib.removeDotSegments_render (by decide : slash ≠ dot)
    ((normalizeEscapes rest).splitOn slash) [] hfree nofun
  rw [normalizeEscapes_plain (by decide)] at hresult
  rw [Lib.render_splitOn, List.reverse_nil, Lib.render_nil, ← hresult] at hremoved
  refine ⟨_, ?_, ?_, hremoved, ?_⟩
  · intro hnone
    exact Lib.resolve_ne_nil (Or.inr (List.splitOn_ne_nil slash (normalizeEscapes rest)))
      (fun heq => absurd heq (List.splitOn_ne_nil slash _)) (List.reverse_eq_nil_iff.mp hnone)
  · intro s hs
    rw [normalizeEscapes_plain (by decide), Lib.splitOn_cons_self]
    exact Lib.mem_resolve
      (p := fun s => Kept s ∧ (s ≠ [] → s ∈ [] :: (normalizeEscapes rest).splitOn slash))
      ⟨⟨List.not_mem_nil, .nil, nofun, nofun⟩, fun hs => absurd rfl hs⟩
      (fun _ hs => absurd hs List.not_mem_nil)
      (fun s hs hdot hdots =>
        ⟨⟨hfree s hs, hnormal s hs, hdot, hdots⟩, fun _ => List.mem_cons_of_mem _ hs⟩)
      s (List.mem_reverse.mp hs)
  · have hle := @Lib.length_resolve _ _ slash dot []
      ((normalizeEscapes rest).splitOn slash)
    have hperm := ((List.reverse_perm (Lib.resolve dot []
      ((normalizeEscapes rest).splitOn slash))).flatMap_right (slash :: ·)).length_eq
    rw [Lib.render_splitOn, Lib.render_nil, List.length_nil, Nat.zero_add] at hle
    rw [hremoved]
    calc (Lib.render slash _).length = (Lib.render slash _).length := hperm
      _ ≤ (slash :: normalizeEscapes rest).length := hle
      _ ≤ (slash :: rest).length := Nat.succ_le_succ hlength

/-- The empty path and the asterisk stay as they are. -/
theorem bare_kept {path : Bytes} (h : path = [] ∨ path = ascii "*") :
    Normal path ∧ Lib.removeDotSegments slash dot path [] = path ∧
      ∀ s ∈ path.splitOn slash, s ≠ [dot] ∧ s ≠ [dot, dot] := by
  rcases h with rfl | rfl
  · refine ⟨.nil, Lib.removeDotSegments_nil [], ?_⟩
    intro s hs
    rw [List.splitOn_nil, List.mem_singleton] at hs
    rw [hs]
    exact ⟨nofun, nofun⟩
  · refine ⟨.plain (by decide) .nil, ?_, ?_⟩
    · rw [removeDotSegments_rooted (Or.inr (Or.inr rfl)) (by decide)]
      exact Lib.removeDotSegments_nil (ascii "*")
    · intro s hs
      rw [List.splitOn_eq_singleton (by decide), List.mem_singleton] at hs
      rw [hs]
      decide

/-- Normalization gives one form of a path: it leaves its own results as they are, and these have
no dot segments and no escapes that could be written otherwise. -/
theorem normalize_canonical (buffer path result : Bytes) (h : normalize buffer path = .ok result) :
    (∀ buffer' : Bytes, result.length ≤ buffer'.length → normalize buffer' result = .ok result) ∧
      (path.head? = some slash → result.head? = some slash) ∧
      result.length ≤ path.length ∧
      (∀ s ∈ result.splitOn slash, s ≠ [dot] ∧ s ≠ [dot, dot]) ∧
      ∀ before high low after byte, result = before ++ percent :: high :: low :: after →
        hexByte high low = some byte → Syntax.isUnreserved byte = false := by
  obtain ⟨hpath, hw, hresult⟩ := normalize_ok h
  rcases or_assoc.mpr hpath with hbare | hslash
  · obtain ⟨hnormal, hkept, hsegments⟩ := bare_kept hbare
    rw [hnormal.fixed, hkept] at hresult
    subst hresult
    refine ⟨?_, fun hhead => hhead, Nat.le_refl _, hsegments, hnormal.reserved⟩
    intro buffer' hfit
    rw [normalize_eq hpath hfit hw, hnormal.fixed, hkept]
  · obtain ⟨segments, hne, hkept, rfl, hlength⟩ := segments_kept hslash hw hresult
    have hnormal : Normal (Lib.render slash segments) := normal_render fun s hs => (hkept s hs).1.2.1
    have hhead : (Lib.render slash segments).head? = some slash := by
      cases segments with
      | nil => exact absurd rfl hne
      | cons s rest => rfl
    refine ⟨?_, fun _ => hhead, hlength, ?_, hnormal.reserved⟩
    · intro buffer' hfit
      have hremoved := Lib.removeDotSegments_render (by decide : slash ≠ dot)
        segments [] (fun s hs => (hkept s hs).1.1) nofun
      rw [Lib.resolve_of_no_dots fun s hs => (hkept s hs).1.2.2, List.append_nil,
        List.reverse_reverse] at hremoved
      rw [normalize_eq (Or.inr (Or.inr hhead)) hfit hnormal.wellFormed, hnormal.fixed]
      exact congrArg Except.ok hremoved
    · intro s hs
      have hsplit := Lib.splitOn_render [] segments (List.not_mem_nil : slash ∉ [])
        fun s hs => (hkept s hs).1.1
      rw [List.nil_append] at hsplit
      rw [hsplit] at hs
      rcases List.mem_cons.mp hs with rfl | hs
      · exact ⟨nofun, nofun⟩
      · exact (hkept s hs).1.2.2

theorem normalize_canonical_tilde :
    normalize (List.replicate 3 0) (ascii "/~b") = .ok (ascii "/~b") :=
  (normalize_canonical (List.replicate 10 0) (ascii "/a/../%7Eb") (ascii "/~b")
    (by decide +kernel)).1 (List.replicate 3 0) (by decide)

/-- Segments are dropped, but none is made up. -/
theorem normalize_segments {buffer path result : Bytes} (h : normalize buffer path = .ok result) :
    ∀ s ∈ result.splitOn slash, s ≠ [] → s ∈ (normalizeEscapes path).splitOn slash := by
  obtain ⟨hpath, hw, hresult⟩ := normalize_ok h
  rcases or_assoc.mpr hpath with hbare | hslash
  · obtain ⟨hnormal, hkept, -⟩ := bare_kept hbare
    rw [hnormal.fixed, hkept] at hresult
    rw [hnormal.fixed, hresult]
    exact fun s hs _ => hs
  · obtain ⟨segments, -, hkept, rfl, -⟩ := segments_kept hslash hw hresult
    intro s hs hne
    have hsplit := Lib.splitOn_render [] segments (List.not_mem_nil : slash ∉ [])
      fun s hs => (hkept s hs).1.1
    rw [List.nil_append] at hsplit
    rw [hsplit] at hs
    rcases List.mem_cons.mp hs with rfl | hs
    · exact absurd rfl hne
    · exact (hkept s hs).2 hne

end Path

end Zhtps
