import Zhtps.Http.Component

/-!
The lookup of a query parameter, after `Call.query` and `queryNameMatches` of `src/endpoint.zig`.

A name is decoded while it is compared, a value only after it was found.  Both agree with one
relation between a form-encoded text and what it stands for.
-/

namespace Zhtps.Query

/-! ### The code -/

/-- The byte that a turn of the loop of `queryNameMatches` compares, and what is left. -/
def nextByte : Bytes → Option (UInt8 × Bytes)
  | [] => none
  | byte :: rest =>
      if byte == 0x2b then some (0x20, rest)
      else if byte == 0x25 then
        match rest with
        | x :: y :: rest =>
            match Fmt.charToDigit x 16, Fmt.charToDigit y 16 with
            | some high, some low => some (UInt8.ofNat (high * 16 + low), rest)
            | _, _ => none
        | _ => none
      else some (byte, rest)

/-- `queryNameMatches`, whose loop goes over the bytes of the name. -/
def queryNameMatches (encoded : Bytes) : Bytes → Bool
  | [] => encoded.isEmpty
  | expected :: name =>
      match nextByte encoded with
      | none => false
      | some (byte, encoded) => byte == expected && queryNameMatches encoded name

/-- `std.Uri.percentDecodeInPlace`: every `%` with two hexadecimal digits becomes their byte. -/
def percentDecodeInPlace : Bytes → Bytes
  | [] => []
  | 0x25 :: x :: y :: rest =>
      match Fmt.charToDigit x 16, Fmt.charToDigit y 16 with
      | some high, some low => UInt8.ofNat (high * 16 + low) :: percentDecodeInPlace rest
      | _, _ => 0x25 :: percentDecodeInPlace (x :: y :: rest)
  | c :: rest => c :: percentDecodeInPlace rest

inductive AllocatorError | outOfMemory
  deriving DecidableEq, Repr

/-- The loop of `Call.query` over the pairs, with `room` bytes of scratch memory. -/
def findPair (room : Nat) (name : Bytes) : List Bytes → Except AllocatorError (Option Bytes)
  | [] => .ok none
  | pair :: pairs =>
      if pair.isEmpty then findPair room name pairs
      else
        let equals := Mem.indexOfScalar pair 0x3d
        let candidate := pair.take (equals.getD pair.length)
        if !queryNameMatches candidate name then findPair room name pairs
        else
          let encoded := match equals with
            | some at_ => pair.drop (at_ + 1)
            | none => []
          if (Mem.indexOfAny encoded (ascii "%+")).isNone then .ok (some encoded)
          else if room < encoded.length then .error .outOfMemory
          else
            let destination := encoded.map fun byte => if byte == 0x2b then 0x20 else byte
            .ok (some (percentDecodeInPlace destination))

/-- `Call.query` over the query of a request. -/
def query (room : Nat) (bytes name : Bytes) : Except AllocatorError (Option Bytes) :=
  findPair room name (Mem.splitScalar 0x26 bytes)

/-! ### Form encoding -/

/-- What a form-encoded text stands for. -/
inductive FormDecodes : Bytes → Bytes → Prop
  | nil : FormDecodes [] []
  | plus {rest text : Bytes} : FormDecodes rest text → FormDecodes (0x2b :: rest) (0x20 :: text)
  | escape {x y : UInt8} {high low : Nat} {rest text : Bytes} :
      Fmt.charToDigit x 16 = some high → Fmt.charToDigit y 16 = some low →
      FormDecodes rest text →
      FormDecodes (0x25 :: x :: y :: rest) (UInt8.ofNat (high * 16 + low) :: text)
  | plain {c : UInt8} {rest text : Bytes} : c ≠ 0x2b → c ≠ 0x25 → FormDecodes rest text →
      FormDecodes (c :: rest) (c :: text)

/-- The two members of a pair, at its first `=`. -/
def pairName (pair : Bytes) : Bytes := pair.takeWhile (· != 0x3d)

def pairValue (pair : Bytes) : Bytes := (pair.dropWhile (· != 0x3d)).drop 1

/-- What `nextByte` takes off a text, the text stands for in front of the rest. -/
theorem nextByte_some {encoded rest : Bytes} {byte : UInt8} (h : nextByte encoded = some (byte, rest))
    {text : Bytes} (hrest : FormDecodes rest text) : FormDecodes encoded (byte :: text) := by
  cases encoded with
  | nil => cases h
  | cons c tail =>
      unfold nextByte at h
      dsimp only at h
      by_cases hplus : c = 0x2b
      · subst hplus
        obtain ⟨rfl, rfl⟩ := Prod.mk.inj (Option.some.inj h)
        exact .plus hrest
      rw [if_neg (by simpa using hplus)] at h
      by_cases hpercent : c = 0x25
      · subst hpercent
        rw [if_pos (by decide)] at h
        split at h
        · split at h
          next hx hy =>
            obtain ⟨rfl, rfl⟩ := Prod.mk.inj (Option.some.inj h)
            exact .escape hx hy hrest
          next => cases h
        · cases h
      · rw [if_neg (by simpa using hpercent)] at h
        obtain ⟨rfl, rfl⟩ := Prod.mk.inj (Option.some.inj h)
        exact .plain hplus hpercent hrest

theorem FormDecodes.cons {encoded text : Bytes} {byte : UInt8} (h : FormDecodes encoded (byte :: text)) :
    ∃ rest, nextByte encoded = some (byte, rest) ∧ FormDecodes rest text := by
  cases h with
  | plus h => exact ⟨_, rfl, h⟩
  | escape hx hy h =>
      refine ⟨_, ?_, h⟩
      rw [nextByte, if_neg (by decide), if_pos (by decide)]
      simp only [hx, hy]
  | plain hplus hpercent h =>
      refine ⟨_, ?_, h⟩
      unfold nextByte
      dsimp only
      rw [if_neg (by simpa using hplus), if_neg (by simpa using hpercent)]

/-- A name is compared with what it stands for. -/
theorem queryNameMatches_iff (encoded name : Bytes) :
    queryNameMatches encoded name = true ↔ FormDecodes encoded name := by
  induction name generalizing encoded with
  | nil =>
      rw [queryNameMatches, List.isEmpty_iff]
      constructor
      · rintro rfl
        exact .nil
      · intro h
        cases h
        rfl
  | cons expected name ih =>
      rw [queryNameMatches]
      constructor
      · intro h
        split at h
        · cases h
        next byte rest hnext =>
          obtain ⟨hbyte, hrest⟩ := Bool.and_eq_true_iff.mp h
          exact eq_of_beq hbyte ▸ nextByte_some hnext ((ih rest).mp hrest)
      · intro h
        obtain ⟨rest, hnext, hrest⟩ := h.cons
        rw [hnext]
        exact Bool.and_eq_true_iff.mpr ⟨beq_self_eq_true _, (ih rest).mpr hrest⟩

theorem FormDecodes.unique {encoded text text' : Bytes} (h : FormDecodes encoded text)
    (h' : FormDecodes encoded text') : text = text' := by
  induction text generalizing encoded text' with
  | nil =>
      cases h
      cases h'
      rfl
  | cons byte text ih =>
      obtain ⟨rest, hnext, hrest⟩ := h.cons
      cases text' with
      | nil =>
          cases h'
          cases hnext
      | cons byte' text' =>
          obtain ⟨rest', hnext', hrest'⟩ := h'.cons
          rw [hnext] at hnext'
          obtain ⟨rfl, rfl⟩ := Prod.mk.inj (Option.some.inj hnext')
          rw [ih hrest hrest']

/-! ### Values -/

theorem percentDecode_cons {c : UInt8} (h : c ≠ 0x25) (rest : Bytes) :
    percentDecodeInPlace (c :: rest) = c :: percentDecodeInPlace rest := by
  rw [percentDecodeInPlace]
  exact fun x y rest hc _ => h hc

/-- Replacing and then decoding is the decoding of a form. -/
theorem percentDecode_form {encoded text : Bytes} (h : FormDecodes encoded text) :
    percentDecodeInPlace (encoded.map fun byte => if byte == 0x2b then 0x20 else byte) = text := by
  have hhex : ∀ c, (Fmt.charToDigit c 16).isSome → c ≠ 0x2b := by decide +kernel
  induction h with
  | nil => rfl
  | plus _ ih =>
      rw [List.map_cons, if_pos (by decide), percentDecode_cons (by decide), ih]
  | @escape x y high low rest text hx hy _ ih =>
      have hx' := hhex x (by rw [hx]; rfl)
      have hy' := hhex y (by rw [hy]; rfl)
      rw [List.map_cons, List.map_cons, List.map_cons, if_neg (by decide),
        if_neg (by simpa using hx'), if_neg (by simpa using hy'), percentDecodeInPlace, hx, hy]
      simp only [ih]
  | plain hplus hpercent _ ih =>
      rw [List.map_cons, if_neg (by simpa using hplus), percentDecode_cons hpercent, ih]

/-- A text without `%` and `+` stands for itself. -/
theorem FormDecodes.eq_of_plain {encoded text : Bytes} (h : FormDecodes encoded text)
    (hplain : Mem.indexOfAny encoded (ascii "%+") = none) : text = encoded := by
  have hset : ascii "%+" = [0x25, 0x2b] := by decide
  rw [hset, Mem.indexOfAny, List.findIdx?_eq_none_iff] at hplain
  induction h with
  | nil => rfl
  | plus _ _ => exact absurd (hplain 0x2b List.mem_cons_self) (by decide)
  | escape _ _ _ _ => exact absurd (hplain 0x25 List.mem_cons_self) (by decide)
  | plain _ _ _ ih => rw [ih fun c hc => hplain c (List.mem_cons_of_mem _ hc)]

/-! ### Components -/

theorem charToDigit_of_isHex {c : UInt8} (h : Syntax.isHex c = true) :
    ∃ d, Fmt.charToDigit c 16 = some d := by
  have hall : ∀ c, Syntax.isHex c = true → (Fmt.charToDigit c 16).isSome = true := by decide +kernel
  exact Option.isSome_iff_exists.mp (hall c h)

/-- A component stands for some text. -/
theorem exists_formDecodes {path : Bool} {bytes : Bytes} (h : Grammar.Component path bytes) :
    ∃ text, FormDecodes bytes text := by
  induction h with
  | nil => exact ⟨[], .nil⟩
  | escape hx hy _ ih =>
      obtain ⟨text, htext⟩ := ih
      obtain ⟨high, hhigh⟩ := charToDigit_of_isHex hx
      obtain ⟨low, hlow⟩ := charToDigit_of_isHex hy
      exact ⟨_, .escape hhigh hlow htext⟩
  | @plain c rest hpercent _ _ ih =>
      obtain ⟨text, htext⟩ := ih
      by_cases hplus : c = 0x2b
      · subst hplus
        exact ⟨_, .plus htext⟩
      · exact ⟨_, .plain hplus hpercent htext⟩

theorem component_pairs {parts : List Bytes}
    (h : Grammar.Component true ([0x26].intercalate parts)) :
    ∀ pair ∈ parts, Grammar.Component true pair := by
  induction parts with
  | nil => exact nofun
  | cons part parts ih =>
      cases parts with
      | nil =>
          intro pair hpair
          rw [List.mem_singleton.mp hpair]
          simpa using h
      | cons next parts =>
          rw [List.intercalate_cons_cons, List.append_assoc, List.singleton_append] at h
          obtain ⟨hpart, hrest⟩ := h.split (by decide) (by decide)
          intro pair hpair
          rcases List.mem_cons.mp hpair with rfl | hpair
          · exact hpart
          · exact ih hrest pair hpair

/-- The name and the value of a pair. -/
theorem component_pair {pair : Bytes} (h : Grammar.Component true pair) :
    Grammar.Component true (pairName pair) ∧ Grammar.Component true (pairValue pair) := by
  have hpair : pair = pairName pair ++ pair.dropWhile (· != 0x3d) :=
    List.takeWhile_append_dropWhile.symm
  unfold pairValue
  cases hrest : pair.dropWhile (· != 0x3d) with
  | nil =>
      rw [hrest, List.append_nil] at hpair
      rw [← hpair]
      exact ⟨h, .nil⟩
  | cons c rest =>
      have hc : c = 0x3d := by
        have := List.head?_dropWhile_not (· != 0x3d) pair
        rw [hrest] at this
        simpa using this
      rw [hpair, hrest, hc] at h
      exact h.split (by decide) (by decide)

/-! ### The lookup -/

/-- The code cuts a pair at its first `=`. -/
theorem pair_cut (pair : Bytes) :
    pair.take ((Mem.indexOfScalar pair 0x3d).getD pair.length) = pairName pair ∧
      (match Mem.indexOfScalar pair 0x3d with
        | some at_ => pair.drop (at_ + 1)
        | none => []) = pairValue pair := by
  have hindex : (Mem.indexOfScalar pair 0x3d).getD pair.length =
      pair.findIdx fun c => !(c != 0x3d) := by
    simp only [bne, Bool.not_not]
    exact List.findIdx_eq_getD_findIdx?.symm
  constructor
  · rw [hindex, pairName, List.takeWhile_eq_take_findIdx_not]
  · rw [pairValue, List.dropWhile_eq_drop_findIdx_not, ← hindex, List.drop_drop]
    cases Mem.indexOfScalar pair 0x3d with
    | none => exact (List.drop_eq_nil_of_le (Nat.le_succ _)).symm
    | some at_ => rfl

section Lookup

variable {room : Nat} {name pair : Bytes} (pairs : List Bytes)

/-- A pair of another name is passed over, and so is an empty one. -/
theorem findPair_other (h : pair ≠ [] → ¬FormDecodes (pairName pair) name) :
    findPair room name (pair :: pairs) = findPair room name pairs := by
  rw [findPair]
  by_cases hempty : pair = []
  · rw [if_pos (by simpa using hempty)]
  · rw [if_neg (by simpa using hempty)]
    dsimp only
    rw [(pair_cut pair).1, if_pos]
    rw [Bool.not_eq_true', ← Bool.not_eq_true, queryNameMatches_iff]
    exact h hempty

/-- The first pair of the name is answered with what its value stands for. -/
theorem findPair_match (hne : pair ≠ []) (hroom : pair.length ≤ room)
    (hname : FormDecodes (pairName pair) name) {value : Bytes}
    (hvalue : FormDecodes (pairValue pair) value) :
    findPair room name (pair :: pairs) = .ok (some value) := by
  have hmatches := (queryNameMatches_iff _ _).mpr hname
  rw [findPair, if_neg (by simpa using hne)]
  dsimp only
  rw [(pair_cut pair).1, hmatches, if_neg (by decide), (pair_cut pair).2]
  by_cases hplain : Mem.indexOfAny (pairValue pair) (ascii "%+") = none
  · rw [if_pos (by rw [hplain]; rfl), hvalue.eq_of_plain hplain]
  · have hlen : (pairValue pair).length ≤ pair.length := by
      rw [pairValue, List.length_drop]
      exact (Nat.sub_le _ _).trans (List.dropWhile_suffix _).length_le
    rw [if_neg (by simpa using hplain), if_neg (by omega), percentDecode_form hvalue]

end Lookup

/-- The pairs that count. -/
def pairs (bytes : Bytes) : List Bytes := (Mem.splitScalar 0x26 bytes).filter (· ≠ [])

theorem length_le_intercalate {parts : List Bytes} {pair : Bytes} (h : pair ∈ parts) :
    pair.length ≤ ([0x26].intercalate parts).length := by
  induction parts with
  | nil => cases h
  | cons part parts ih =>
      cases parts with
      | nil =>
          rw [List.mem_singleton.mp h]
          simp
      | cons next parts =>
          rw [List.intercalate_cons_cons, List.length_append, List.length_append]
          rcases List.mem_cons.mp h with rfl | h
          · omega
          · have := ih h
            omega

/-- The parts of a component at `&` are components. -/
theorem split_component {bytes : Bytes} (h : Syntax.isUriComponent true bytes = true) :
    ∀ pair ∈ Mem.splitScalar 0x26 bytes,
      Grammar.Component true pair ∧ pair.length ≤ bytes.length := by
  have hjoined : [0x26].intercalate (Mem.splitScalar 0x26 bytes) = bytes := by
    rw [Grammar.splitScalar_eq, List.intercalate_splitOn]
  rw [Grammar.isUriComponent_iff, ← hjoined] at h
  intro pair hpair
  exact ⟨component_pairs h pair hpair,
    (length_le_intercalate hpair).trans_eq (congrArg List.length hjoined)⟩

/-- The answer for a list of pairs, whose names and values all stand for a text. -/
theorem findPair_spec {room : Nat} (name : Bytes) {parts : List Bytes}
    (hparts : ∀ pair ∈ parts, Grammar.Component true pair ∧ pair.length ≤ room) :
    (findPair room name parts = .ok none ∧
      ∀ pair ∈ parts.filter (· ≠ []), ¬FormDecodes (pairName pair) name) ∨
    ∃ before pair after value, parts.filter (· ≠ []) = before ++ pair :: after ∧
      (∀ other ∈ before, ¬FormDecodes (pairName other) name) ∧
      FormDecodes (pairName pair) name ∧ FormDecodes (pairValue pair) value ∧
      findPair room name parts = .ok (some value) := by
  induction parts with
  | nil => exact Or.inl ⟨rfl, nofun⟩
  | cons pair parts ih =>
      have ih := ih fun p hp => hparts p (List.mem_cons_of_mem _ hp)
      obtain ⟨hcomponent, hlen⟩ := hparts pair List.mem_cons_self
      by_cases hempty : pair = []
      · rw [findPair_other parts fun hne => absurd hempty hne, List.filter_cons_of_neg (by simpa)]
        exact ih
      rw [List.filter_cons_of_pos (by simpa)]
      by_cases hname : FormDecodes (pairName pair) name
      · obtain ⟨value, hvalue⟩ := exists_formDecodes (component_pair hcomponent).2
        exact Or.inr ⟨[], pair, _, value, rfl, nofun, hname, hvalue,
          findPair_match parts hempty hlen hname hvalue⟩
      · rw [findPair_other parts fun _ => hname]
        rcases ih with ⟨hnone, hall⟩ | ⟨before, found, after, value, hsplit, hbefore, hrest⟩
        · exact Or.inl ⟨hnone, List.forall_mem_cons.mpr ⟨hname, hall⟩⟩
        · exact Or.inr ⟨pair :: before, found, after, value, by rw [hsplit]; rfl,
            List.forall_mem_cons.mpr ⟨hname, hbefore⟩, hrest⟩

instance (encoded name : Bytes) : Decidable (FormDecodes encoded name) :=
  decidable_of_iff _ (queryNameMatches_iff encoded name)

/-- The first pair of a name is the only one. -/
theorem first_unique {name : Bytes} {before before' after after' : List Bytes} {pair pair' : Bytes}
    (h : before ++ pair :: after = before' ++ pair' :: after')
    (hbefore : ∀ other ∈ before, ¬FormDecodes (pairName other) name)
    (hbefore' : ∀ other ∈ before', ¬FormDecodes (pairName other) name)
    (hname : FormDecodes (pairName pair) name) (hname' : FormDecodes (pairName pair') name) :
    pair = pair' := by
  have hfind : ∀ {before after : List Bytes} {pair : Bytes},
      (∀ other ∈ before, ¬FormDecodes (pairName other) name) → FormDecodes (pairName pair) name →
      (before ++ pair :: after).find? (fun p => FormDecodes (pairName p) name) = some pair := by
    intro before after pair hbefore hname
    rw [List.find?_eq_some_iff_append]
    exact ⟨by simpa using hname, before, after, rfl, fun other h => by simpa using hbefore other h⟩
  have hpair : (before ++ pair :: after).find? (fun p => FormDecodes (pairName p) name) =
      some pair := hfind hbefore hname
  rw [h, hfind hbefore' hname', Option.some.injEq] at hpair
  exact hpair.symm

/-- A lookup answers with the form-decoding of the first pair that has the name, and the streaming
comparison of names is equality with their form-decoding. -/
theorem query_lookup {bytes : Bytes} (h : Syntax.isUriComponent true bytes = true) (name : Bytes)
    {room : Nat} (hroom : bytes.length ≤ room) :
    (query room bytes name = .ok none ↔
      ∀ pair ∈ pairs bytes, ¬FormDecodes (pairName pair) name) ∧
    (∀ before pair after, pairs bytes = before ++ pair :: after →
      (∀ other ∈ before, ¬FormDecodes (pairName other) name) →
      FormDecodes (pairName pair) name →
      ∃ value, FormDecodes (pairValue pair) value ∧ query room bytes name = .ok (some value)) ∧
    ∀ encoded, queryNameMatches encoded name = true ↔ FormDecodes encoded name := by
  have hparts : ∀ pair ∈ Mem.splitScalar 0x26 bytes,
      Grammar.Component true pair ∧ pair.length ≤ room := fun pair hpair =>
    (split_component h pair hpair).imp_right fun hlen => hlen.trans hroom
  refine ⟨?_, ?_, fun encoded => queryNameMatches_iff encoded name⟩
  · rcases findPair_spec name hparts with ⟨hnone, hall⟩ | ⟨before, pair, after, value, hsplit, -,
      hname, -, hsome⟩
    · exact iff_of_true hnone hall
    · refine iff_of_false ?_ fun hall => hall pair ?_ hname
      · rw [query, hsome]
        nofun
      · rw [pairs, hsplit]
        simp
  · intro before pair after hpairs hbefore hname
    rcases findPair_spec name hparts with ⟨-, hall⟩ | ⟨before', pair', after', value, hsplit,
      hbefore', hname', hvalue, hsome⟩
    · refine absurd hname (hall pair ?_)
      have hmem : pair ∈ pairs bytes := by
        rw [hpairs]
        simp
      exact hmem
    · have hsame : pair = pair' :=
        first_unique (hpairs.symm.trans hsplit) hbefore hbefore' hname hname'
      exact ⟨value, hsame ▸ hvalue, hsome⟩

theorem query_lookup_escaped :
    query 16 (ascii "&x=1&b+%26=%2B+") (ascii "b &") = .ok (some (ascii "+ ")) := by
  have hfound := (@query_lookup (ascii "&x=1&b+%26=%2B+") (by decide) (ascii "b &") 16
    (by decide)).2.1 [ascii "x=1"] (ascii "b+%26=%2B+") [] (by decide) (by decide) (by decide)
  obtain ⟨value, hvalue, hquery⟩ := hfound
  have htext : FormDecodes (pairValue (ascii "b+%26=%2B+")) (ascii "+ ") := by decide
  rw [hquery, hvalue.unique htext]

end Zhtps.Query
