import Mathlib.Algebra.Order.Field.Rat
import Mathlib.Tactic.FieldSimp
import Mathlib.Tactic.Positivity
import Mathlib.Tactic.Ring
import Zhtps.Http.Framing
import Zhtps.Http.Scan
import Zhtps.Lib.Agreement

/-!
Accept-Encoding, after `src/endpoint/static_files/encoding.zig`.

A member of the list is read on its own, and the weights of the three codings the server knows are
collected with conflicts refused.  So the answer depends on the members alone, in whatever order and
on whatever lines they come.
-/

namespace Zhtps.Encoding

open Grammar Lib

/-! ### The code -/

structure Preferences where
  zstd : Nat
  identity : Nat
  deriving DecidableEq, Repr

/-- The three weights that `parse` keeps. -/
inductive Slot
  | zstd
  | identity
  | wildcard
  deriving DecidableEq, Repr

def slotOf (coding : Bytes) : Option Slot :=
  if Ascii.eqlIgnoreCase coding (ascii "zstd") then some .zstd
  else if Ascii.eqlIgnoreCase coding (ascii "identity") then some .identity
  else if coding == ascii "*" then some .wildcard
  else none

/-- The loop of `quality` over the digits of the fraction. -/
def addFraction (first : UInt8) : Nat → Nat → Bytes → Option Nat
  | _, fraction, [] => some fraction
  | place, fraction, digit :: rest =>
      if !Ascii.isDigit digit || (first == 0x31 && digit != 0x30) then none
      else addFraction first (place / 10) (fraction + (digit.toNat - 48) * place) rest

def quality (bytes : Bytes) : Option Nat :=
  match bytes with
  | [] => none
  | first :: rest =>
      if first != 0x30 && first != 0x31 then none
      else match rest with
        | [] => some (if first == 0x31 then 1000 else 0)
        | second :: digits =>
            if second != 0x2e || 5 < bytes.length then none
            else (addFraction first 100 0 digits).map fun fraction =>
              if first == 0x31 then 1000 else fraction

/-- The weight behind a coding. -/
def readWeight : List Bytes → Option Nat
  | [] => some 1000
  | parameter :: rest =>
      let pair := Syntax.trim parameter
      match pair with
      | name :: equals :: value =>
          if Ascii.toLower name != 0x71 || equals != 0x3d then none
          else match quality value with
            | none => none
            | some weight => if rest.isEmpty then some weight else none
      | _ => none

/-- One trimmed list member that is not empty: none is an error, and some of none a coding that is
of no interest. -/
def readMember (trimmed : Bytes) : Option (Option (Slot × Nat)) :=
  match Mem.splitScalar 0x3b trimmed with
  | [] => none
  | first :: parameters =>
      let coding := Syntax.trim first
      if !Syntax.isToken coding then none
      else (readWeight parameters).map fun weight => (slotOf coding).map fun slot => (slot, weight)

/-- The members of one field. -/
def parseValue (value : Bytes) (weights : Slot → Option Nat) : Option (Slot → Option Nat) :=
  (Mem.splitScalar 0x2c value).foldlM (fun weights item =>
    let trimmed := Syntax.trim item
    if trimmed.isEmpty then some weights
    else match readMember trimmed with
      | none => none
      | some none => some weights
      | some (some (slot, weight)) => Agreement.record weights slot weight) weights

def parse (headers : List Header) : Option Preferences :=
  (headers.foldlM (fun weights header =>
    if !Ascii.eqlIgnoreCase header.name (ascii "accept-encoding") then some weights
    else parseValue header.value weights) fun _ => none).map fun weights =>
      { zstd := (weights .zstd).getD ((weights .wildcard).getD 0)
        identity := (weights .identity).getD (if weights .wildcard = some 0 then 0 else 1000) }

example : parse [⟨ascii "Accept-Encoding", ascii "gzip, ,zstd;q=0.5"⟩] = some ⟨500, 1000⟩ := by
  decide +kernel

/-! ### The list -/

def isAcceptEncoding (header : Header) : Bool :=
  Ascii.eqlIgnoreCase header.name (ascii "accept-encoding")

/-- The members of all Accept-Encoding lines, without the empty ones. -/
def members (headers : List Header) : List Bytes :=
  (headers.filter isAcceptEncoding).flatMap fun header => Framing.listed header.value

theorem parseValue_eq (value : Bytes) (weights : Slot → Option Nat) :
    parseValue value weights = Agreement.collect readMember weights (Framing.listed value) := by
  rw [parseValue, Framing.listed, splitScalar_eq]
  generalize value.splitOn 0x2c = items
  induction items generalizing weights with
  | nil => rfl
  | cons item items ih =>
      rw [List.foldlM_cons, List.map_cons]
      dsimp only
      by_cases hempty : (Syntax.trim item).isEmpty
      · rw [if_pos hempty, List.filter_cons_of_neg (by simpa using hempty)]
        exact ih weights
      · rw [if_neg hempty, List.filter_cons_of_pos (by simpa using hempty)]
        rw [Agreement.collect, List.foldlM_cons, Agreement.add]
        rcases readMember (Syntax.trim item) with _ | _ | ⟨slot, weight⟩
        · rfl
        · exact ih weights
        · exact congrArg (Option.bind _) (funext ih)

theorem parse_eq (headers : List Header) :
    parse headers = (Agreement.collect readMember (fun _ => none) (members headers)).map
      fun weights =>
        { zstd := (weights .zstd).getD ((weights .wildcard).getD 0)
          identity := (weights .identity).getD (if weights .wildcard = some 0 then 0 else 1000) } := by
  rw [parse, members]
  congr 1
  generalize (fun _ => none : Slot → Option Nat) = weights
  induction headers generalizing weights with
  | nil => rfl
  | cons header headers ih =>
      rw [List.foldlM_cons]
      by_cases hname : isAcceptEncoding header = true
      · rw [List.filter_cons_of_pos hname, List.flatMap_cons, Agreement.collect, List.foldlM_append]
        rw [isAcceptEncoding] at hname
        rw [hname, if_neg (by decide), parseValue_eq]
        exact congrArg (Option.bind _) (funext ih)
      · rw [List.filter_cons_of_neg hname, if_pos (by simpa [isAcceptEncoding] using hname)]
        exact ih weights

/-- A line may be split at a comma. -/
theorem members_split (before after : List Header) (name a b : Bytes) :
    members (before ++ ⟨name, a ++ 0x2c :: b⟩ :: after) =
      members (before ++ ⟨name, a⟩ :: ⟨name, b⟩ :: after) := by
  unfold members
  rw [List.filter_append, List.filter_append, List.flatMap_append, List.flatMap_append]
  congr 1
  -- The name alone decides whether a line counts.
  by_cases hname : Ascii.eqlIgnoreCase name (ascii "accept-encoding") = true
  · have hcount (value : Bytes) : isAcceptEncoding ⟨name, value⟩ = true := hname
    rw [List.filter_cons_of_pos (hcount _), List.filter_cons_of_pos (hcount _),
      List.filter_cons_of_pos (hcount _), List.flatMap_cons, List.flatMap_cons, List.flatMap_cons,
      Framing.listed_append, List.append_assoc]
  · have hcount (value : Bytes) : ¬isAcceptEncoding ⟨name, value⟩ = true := hname
    rw [List.filter_cons_of_neg (hcount _), List.filter_cons_of_neg (hcount _),
      List.filter_cons_of_neg (hcount _)]

/-! ### Weights -/

/-- The number that a whole digit and a decimal fraction name. -/
def decimal (whole : UInt8) (fraction : Bytes) : ℚ :=
  numeral 10 (whole :: fraction) / 10 ^ fraction.length

/-- A number from 0 to 1 with at most three decimals. -/
def IsQvalue (bytes : Bytes) (q : ℚ) : Prop :=
  ∃ whole fraction, (bytes = [whole] ∧ fraction = [] ∨ bytes = whole :: 0x2e :: fraction) ∧
    fraction.length ≤ 3 ∧ q = decimal whole fraction ∧
    (whole = 0x30 ∧ (∀ c ∈ fraction, Ascii.isDigit c = true) ∨
      whole = 0x31 ∧ ∀ c ∈ fraction, c = 0x30)

theorem numeral_cons (c : UInt8) (digits : Bytes) :
    numeral 10 (c :: digits) =
      (Fmt.charToDigit c 10).getD 0 * 10 ^ digits.length + numeral 10 digits := by
  have hfrom : ∀ n, digits.foldl (fun n c => n * 10 + (Fmt.charToDigit c 10).getD 0) n =
      n * 10 ^ digits.length + numeral 10 digits := by
    induction digits with
    | nil => simp [numeral]
    | cons d digits ih =>
        intro n
        rw [numeral, List.foldl_cons, List.foldl_cons, ih, ih, List.length_cons, pow_succ]
        ring
  rw [numeral, List.foldl_cons, hfrom, Nat.zero_mul, Nat.zero_add]

theorem charToDigit_isDigit {c : UInt8} (h : Ascii.isDigit c = true) :
    (Fmt.charToDigit c 10).getD 0 = c.toNat - 48 := by
  have hall : ∀ c, Ascii.isDigit c = true →
      (Fmt.charToDigit c 10).getD 0 = c.toNat - 48 := by decide +kernel
  exact hall c h

/-- The digit at a place counts for as much as the places behind it allow. -/
theorem addFraction_eq {first : UInt8} {digits : Bytes} (k fraction : Nat)
    (h : ∀ c ∈ digits, Ascii.isDigit c = true ∧ (first = 0x31 → c = 0x30))
    (hlength : digits.length ≤ k) :
    addFraction first (10 ^ k / 10) fraction digits =
      some (fraction + numeral 10 digits * 10 ^ (k - digits.length)) := by
  induction digits generalizing k fraction with
  | nil => simp [addFraction, numeral]
  | cons c digits ih =>
      obtain ⟨⟨hdigit, hzero⟩, hrest⟩ := List.forall_mem_cons.mp h
      obtain ⟨k, rfl⟩ : ∃ j, k = j + 1 := ⟨k - 1, by simp at hlength; omega⟩
      rw [List.length_cons, Nat.add_le_add_iff_right] at hlength
      rw [addFraction, if_neg, pow_succ, Nat.mul_div_cancel _ (by decide), ih k _ hrest hlength,
        numeral_cons, charToDigit_isDigit hdigit, List.length_cons, Nat.add_sub_add_right]
      · have hpower : 10 ^ k = 10 ^ digits.length * 10 ^ (k - digits.length) := by
          rw [← pow_add, Nat.add_sub_cancel' hlength]
        rw [hpower]
        congr 1
        ring
      · simp only [Bool.or_eq_true, Bool.not_eq_true', Bool.and_eq_true, beq_iff_eq, bne_iff_ne]
        rintro (hnot | ⟨hone, hne⟩)
        · rw [hdigit] at hnot
          cases hnot
        · exact hne (hzero hone)

theorem addFraction_digits {first : UInt8} {digits : Bytes} {place fraction value : Nat}
    (h : addFraction first place fraction digits = some value) :
    ∀ c ∈ digits, Ascii.isDigit c = true ∧ (first = 0x31 → c = 0x30) := by
  induction digits generalizing place fraction with
  | nil => nofun
  | cons c digits ih =>
      rw [addFraction] at h
      split_ifs at h with hbad
      simp only [Bool.or_eq_true, Bool.not_eq_true', Bool.and_eq_true, beq_iff_eq, bne_iff_ne,
        not_or, not_and, Bool.not_eq_false, not_not] at hbad
      exact List.forall_mem_cons.mpr ⟨hbad, ih h⟩

theorem numeral_zeros {digits : Bytes} (h : ∀ c ∈ digits, c = 0x30) : numeral 10 digits = 0 := by
  induction digits with
  | nil => rfl
  | cons c digits ih =>
      obtain ⟨rfl, hrest⟩ := List.forall_mem_cons.mp h
      rw [numeral_cons, ih hrest]
      exact Nat.zero_mul _

/-- The digits that are allowed behind a whole digit. -/
theorem digits_iff {whole : UInt8} {fraction : Bytes} (hwhole : whole = 0x30 ∨ whole = 0x31) :
    (∀ c ∈ fraction, Ascii.isDigit c = true ∧ (whole = 0x31 → c = 0x30)) ↔
      (whole = 0x30 ∧ (∀ c ∈ fraction, Ascii.isDigit c = true) ∨
        whole = 0x31 ∧ ∀ c ∈ fraction, c = 0x30) := by
  rcases hwhole with rfl | rfl
  · simp
  · simp only [true_imp_iff, true_and, show ((0x31 : UInt8) = 0x30) = False by decide, false_and,
      false_or]
    refine ⟨fun h c hc => (h c hc).2, fun h c hc => ⟨?_, h c hc⟩⟩
    rw [h c hc]
    decide

/-- A weight is a thousand times the number. -/
theorem scaled_iff {whole : UInt8} {fraction : Bytes} (hlength : fraction.length ≤ 3) (w : Nat) :
    (w : ℚ) = 1000 * decimal whole fraction ↔
      w = numeral 10 (whole :: fraction) * 10 ^ (3 - fraction.length) := by
  have hpower : (1000 : ℚ) = 10 ^ (3 - fraction.length) * 10 ^ fraction.length := by
    rw [← pow_add, Nat.sub_add_cancel hlength]
    norm_num
  have hne : (10 : ℚ) ^ fraction.length ≠ 0 := by positivity
  have hscaled : 1000 * decimal whole fraction =
      ((numeral 10 (whole :: fraction) * 10 ^ (3 - fraction.length) : Nat) : ℚ) := by
    rw [decimal, hpower]
    push_cast
    field_simp
  rw [hscaled, Nat.cast_inj]

/-- What the digits of a fraction come to. -/
theorem fraction_eq {whole : UInt8} {fraction : Bytes} (hlength : fraction.length ≤ 3)
    (h : whole = 0x30 ∧ (∀ c ∈ fraction, Ascii.isDigit c = true) ∨
      whole = 0x31 ∧ ∀ c ∈ fraction, c = 0x30) :
    (addFraction whole 100 0 fraction).map (fun value => if whole == 0x31 then 1000 else value) =
      some (numeral 10 (whole :: fraction) * 10 ^ (3 - fraction.length)) := by
  have hwhole : whole = 0x30 ∨ whole = 0x31 := h.imp And.left And.left
  rw [show 100 = 10 ^ 3 / 10 by decide, addFraction_eq 3 0 ((digits_iff hwhole).mpr h) hlength,
    numeral_cons, Option.map_some, Nat.zero_add]
  rcases h with ⟨rfl, -⟩ | ⟨rfl, hzeros⟩
  · rw [if_neg (by decide), show (Fmt.charToDigit 0x30 10).getD 0 = 0 by decide, Nat.zero_mul,
      Nat.zero_add]
  · rw [if_pos (by decide), numeral_zeros hzeros, show (Fmt.charToDigit 0x31 10).getD 0 = 1 by decide,
      Nat.one_mul, Nat.add_zero, ← pow_add, Nat.add_sub_cancel' hlength]
    rfl

theorem quality_iff {bytes : Bytes} {w : Nat} :
    quality bytes = some w ↔ ∃ q, IsQvalue bytes q ∧ (w : ℚ) = 1000 * q := by
  constructor
  · intro h
    rcases bytes with _ | ⟨first, rest⟩
    · cases h
    unfold quality at h
    dsimp only at h
    by_cases hfirst : (first != 0x30 && first != 0x31) = true
    · rw [if_pos hfirst] at h
      cases h
    rw [if_neg hfirst] at h
    have hwhole : first = 0x30 ∨ first = 0x31 := by
      simp only [Bool.and_eq_true, bne_iff_ne, not_and, not_not] at hfirst
      exact or_iff_not_imp_left.mpr hfirst
    rcases rest with _ | ⟨second, digits⟩
    · refine ⟨_, ⟨first, [], Or.inl ⟨rfl, rfl⟩, by decide, rfl, ?_⟩, ?_⟩
      · exact hwhole.imp (⟨·, nofun⟩) (⟨·, nofun⟩)
      · rw [scaled_iff (by decide), ← Option.some.inj h]
        rcases hwhole with rfl | rfl <;> decide
    · dsimp only at h
      by_cases hdot : (second != 0x2e || decide (5 < (first :: second :: digits).length)) = true
      · rw [if_pos hdot] at h
        cases h
      rw [if_neg hdot] at h
      simp only [Bool.or_eq_true, bne_iff_ne, decide_eq_true_eq, not_or, not_not, Nat.not_lt,
        List.length_cons] at hdot
      obtain ⟨rfl, hlength⟩ := hdot
      have hshort : digits.length ≤ 3 := by omega
      obtain ⟨value, hvalue, hw⟩ := Option.map_eq_some_iff.mp h
      have hdigits := (digits_iff hwhole).mp (addFraction_digits hvalue)
      refine ⟨_, ⟨first, digits, Or.inr rfl, hshort, rfl, hdigits⟩, (scaled_iff hshort w).mpr ?_⟩
      exact Option.some.inj (h.symm.trans (fraction_eq hshort hdigits))
  · rintro ⟨q, ⟨whole, fraction, htext, hlength, rfl, hdigits⟩, hw⟩
    obtain rfl := (scaled_iff hlength w).mp hw
    have hfirst : ¬(whole != 0x30 && whole != 0x31) = true := by
      rcases hdigits with ⟨rfl, -⟩ | ⟨rfl, -⟩ <;> decide
    rcases htext with ⟨rfl, rfl⟩ | rfl
    · rw [quality, if_neg hfirst]
      rcases hdigits with ⟨rfl, -⟩ | ⟨rfl, -⟩ <;> rfl
    · rw [quality, if_neg hfirst, if_neg, fraction_eq hlength hdigits]
      simp only [bne_self_eq_false, Bool.false_or, decide_eq_true_eq, List.length_cons]
      omega

/-! ### Members -/

/-- A member with its coding and the number behind it, which is one when there is none. -/
inductive IsMember : Bytes → Bytes → ℚ → Prop
  | plain {l coding r : Bytes} : Blank l → IsToken coding → Blank r →
      IsMember (l ++ (coding ++ r)) coding 1
  | weighted {l coding m n value r : Bytes} {c : UInt8} {q : ℚ} : Blank l → IsToken coding →
      Blank m → Blank n → Ascii.toLower c = 0x71 → IsQvalue value q → Blank r →
      IsMember (l ++ (coding ++ m) ++ 0x3b :: (n ++ (c :: 0x3d :: value ++ r))) coding q

theorem mem_qvalue {bytes : Bytes} {q : ℚ} (h : IsQvalue bytes q) :
    ∀ c ∈ bytes, isBlank c = false ∧ c ≠ 0x3b := by
  obtain ⟨whole, fraction, htext, -, -, hdigits⟩ := h
  have hall : ∀ c, c = 0x2e ∨ Ascii.isDigit c = true → isBlank c = false ∧ c ≠ 0x3b := by
    decide +kernel
  have hwhole : Ascii.isDigit whole = true := by
    rcases hdigits with ⟨rfl, -⟩ | ⟨rfl, -⟩ <;> decide
  have hfraction : ∀ c ∈ fraction, Ascii.isDigit c = true := by
    rcases hdigits with ⟨-, hdigits⟩ | ⟨-, hzeros⟩
    · exact hdigits
    · intro c hc
      rw [hzeros c hc]
      decide
  intro c hc
  apply hall
  rcases htext with ⟨rfl, -⟩ | rfl
  · rw [List.mem_singleton.mp hc]
    exact Or.inr hwhole
  · simp only [List.mem_cons] at hc
    rcases hc with rfl | rfl | hc
    · exact Or.inr hwhole
    · exact Or.inl rfl
    · exact Or.inr (hfraction c hc)

theorem isToken_iff {s : Bytes} : Syntax.isToken s = true ↔ IsToken s := by
  rw [Syntax.isToken, Bool.and_eq_true, Bool.not_eq_true', List.isEmpty_eq_false_iff,
    List.all_eq_true]
  rfl

theorem splitScalar_eq_single {c : UInt8} {bytes part : Bytes}
    (h : Mem.splitScalar c bytes = [part]) : part = bytes ∧ c ∉ bytes := by
  rcases Mem.split_scalar bytes c with hnone | ⟨before, after, rfl, hfirst⟩
  · rw [Mem.splitScalar_of_not_mem hnone] at h
    exact ⟨(List.cons.inj h).1.symm, hnone⟩
  · rw [Mem.splitScalar_append after hfirst, splitScalar_eq] at h
    exact absurd (List.cons.inj h).2 (List.splitOn_ne_nil _ _)

theorem readWeight_cons {parameter : Bytes} {rest : List Bytes} {w : Nat} :
    readWeight (parameter :: rest) = some w ↔
      rest = [] ∧ ∃ c value, Syntax.trim parameter = c :: 0x3d :: value ∧
        Ascii.toLower c = 0x71 ∧ quality value = some w := by
  unfold readWeight
  dsimp only
  constructor
  · intro h
    split at h
    · rename_i name equals value hpair
      by_cases hname : (Ascii.toLower name != 0x71 || equals != 0x3d) = true
      · rw [if_pos hname] at h
        cases h
      rw [if_neg hname] at h
      split at h
      · cases h
      · rename_i weight hweight
        split_ifs at h with hrest
        simp only [Bool.or_eq_true, bne_iff_ne, not_or, not_not] at hname
        obtain ⟨hname, rfl⟩ := hname
        exact ⟨List.isEmpty_iff.mp hrest, name, value, hpair, hname, hweight.trans h⟩
    · cases h
  · rintro ⟨rfl, c, value, hpair, hname, hweight⟩
    rw [hpair]
    dsimp only
    rw [hname, hweight]
    rfl

/-- The texts that are read are the members. -/
theorem readMember_iff {text : Bytes} {r : Option (Slot × Nat)} :
    readMember text = some r ↔ ∃ coding q, ∃ w : Nat, IsMember text coding q ∧
      (w : ℚ) = 1000 * q ∧ r = (slotOf coding).map fun slot => (slot, w) := by
  have hread : ∀ {a : Bytes} {parameters : List Bytes},
      Mem.splitScalar 0x3b text = a :: parameters → (readMember text = some r ↔
        IsToken (Syntax.trim a) ∧ ∃ w, readWeight parameters = some w ∧
          r = (slotOf (Syntax.trim a)).map fun slot => (slot, w)) := by
    intro a parameters hsplit
    unfold readMember
    rw [hsplit]
    dsimp only
    rw [← isToken_iff]
    cases Syntax.isToken (Syntax.trim a) with
    | false => simp
    | true => simp [eq_comm]
  constructor
  · intro h
    rcases Mem.split_scalar text 0x3b with hnone | ⟨a, b, rfl, hfirst⟩
    · obtain ⟨htoken, w, hweight, rfl⟩ := (hread (Mem.splitScalar_of_not_mem hnone)).mp h
      obtain ⟨l, r, hl, hr, htext⟩ := trim_split text
      refine ⟨Syntax.trim text, 1, w, ?_, ?_, rfl⟩
      · conv => arg 1; rw [htext]
        exact .plain hl htoken hr
      · obtain rfl := Option.some.inj hweight
        norm_num
    · obtain ⟨htoken, w, hweight, rfl⟩ := (hread (Mem.splitScalar_append b hfirst)).mp h
      rcases hparts : Mem.splitScalar 0x3b b with _ | ⟨parameter, rest⟩
      · rw [splitScalar_eq] at hparts
        exact absurd hparts (List.splitOn_ne_nil _ _)
      · rw [hparts, readWeight_cons] at hweight
        obtain ⟨rfl, c, value, hpair, hname, hquality⟩ := hweight
        obtain ⟨rfl, -⟩ := splitScalar_eq_single hparts
        obtain ⟨q, hq, hw⟩ := quality_iff.mp hquality
        obtain ⟨l, m, hl, hm, ha⟩ := trim_split a
        obtain ⟨n, r, hn, hr, hb⟩ := trim_split parameter
        refine ⟨Syntax.trim a, q, w, ?_, hw, rfl⟩
        rw [hpair] at hb
        conv => arg 1; rw [ha, hb]
        exact .weighted hl htoken hm hn hname hq hr
  · rintro ⟨coding, q, w, hmember, hw, rfl⟩
    have hblank : ∀ {s : Bytes}, Blank s → (0x3b : UInt8) ∉ s := fun hs hmem =>
      absurd (hs _ hmem) (by decide)
    have htokens : IsToken coding → (0x3b : UInt8) ∉ coding := fun hs hmem =>
      absurd (hs.2 _ hmem) (by decide)
    cases hmember with
    | @plain l _ r hl htoken hr =>
        have hnone : (0x3b : UInt8) ∉ l ++ (coding ++ r) := by
          simp [hblank hl, hblank hr, htokens htoken]
        rw [hread (Mem.splitScalar_of_not_mem hnone), trim_blank_left hl, trim_blank_right hr,
          Framing.isToken_trim htoken]
        refine ⟨htoken, 1000, rfl, ?_⟩
        obtain rfl : w = 1000 := by
          have hw' : (w : ℚ) = ((1000 : Nat) : ℚ) := by rw [hw]; norm_num
          exact Nat.cast_injective hw'
        rfl
    | @weighted l _ m n value r c _ hl htoken hm hn hname hq hr =>
        have hfirst : (0x3b : UInt8) ∉ l ++ (coding ++ m) := by
          simp [hblank hl, hblank hm, htokens htoken]
        have hletter : ∀ c, Ascii.toLower c = 0x71 → isBlank c = false ∧ c ≠ 0x3b := by
          decide +kernel
        have hsolid : ∀ d ∈ c :: 0x3d :: value, isBlank d = false ∧ d ≠ 0x3b := by
          intro d hd
          simp only [List.mem_cons] at hd
          rcases hd with rfl | rfl | hd
          · exact hletter d hname
          · decide
          · exact mem_qvalue hq d hd
        have hsecond : (0x3b : UInt8) ∉ n ++ (c :: 0x3d :: value ++ r) := by
          rw [List.mem_append, List.mem_append, not_or, not_or]
          exact ⟨hblank hn, fun hmem => (hsolid _ hmem).2 rfl, hblank hr⟩
        rw [hread (Mem.splitScalar_append _ hfirst), Mem.splitScalar_of_not_mem hsecond,
          trim_blank_left hl, trim_blank_right hm, Framing.isToken_trim htoken]
        refine ⟨htoken, w, readWeight_cons.mpr ⟨rfl, c, value, ?_, hname, ?_⟩, rfl⟩
        · rw [trim_blank_left hn, trim_blank_right hr, trim_solid fun d hd => (hsolid d hd).1]
        · exact quality_iff.mpr ⟨q, hq, hw⟩

theorem exists_scaled {text coding : Bytes} {q : ℚ} (h : IsMember text coding q) :
    ∃ w : Nat, (w : ℚ) = 1000 * q := by
  cases h with
  | plain => exact ⟨1000, by norm_num⟩
  | weighted _ _ _ _ _ hq _ =>
      obtain ⟨whole, fraction, -, hlength, rfl, -⟩ := hq
      exact ⟨_, (scaled_iff hlength _).mpr rfl⟩

/-! ### The answer -/

/-- No reading of a member. -/
def Malformed (text : Bytes) : Prop := ∀ coding q, ¬IsMember text coding q

/-- Some member gives one of the three codings a weight. -/
def Gives (headers : List Header) (slot : Slot) (w : Nat) : Prop :=
  ∃ text ∈ members headers, ∃ coding q,
    IsMember text coding q ∧ slotOf coding = some slot ∧ (w : ℚ) = 1000 * q

theorem readMember_none {text : Bytes} : readMember text = none ↔ Malformed text := by
  constructor
  · intro h coding q hmember
    obtain ⟨w, hw⟩ := exists_scaled hmember
    rw [readMember_iff.mpr ⟨coding, q, w, hmember, hw, rfl⟩] at h
    cases h
  · intro h
    cases hread : readMember text with
    | none => rfl
    | some r =>
        obtain ⟨coding, q, w, hmember, -⟩ := readMember_iff.mp hread
        exact absurd hmember (h coding q)

theorem gives_iff {headers : List Header} {slot : Slot} {w : Nat} :
    Gives headers slot w ↔ ∃ text ∈ members headers, readMember text = some (some (slot, w)) := by
  refine exists_congr fun text => and_congr_right fun _ => ?_
  rw [readMember_iff]
  constructor
  · rintro ⟨coding, q, hmember, hslot, hw⟩
    exact ⟨coding, q, w, hmember, hw, by rw [hslot]; rfl⟩
  · rintro ⟨coding, q, w', hmember, hw, heq⟩
    obtain ⟨slot', hslot, hpair⟩ := Option.map_eq_some_iff.mp heq.symm
    obtain ⟨rfl, rfl⟩ := Prod.mk.inj hpair
    exact ⟨coding, q, hmember, hslot, hw⟩

/-- The answer depends on the members alone: neither their order nor the lines they stand on
count, it is a failure exactly for a malformed member or two weights of one coding, and otherwise
an explicit weight, or what the wildcard says. -/
theorem parse_members :
    (∀ headers headers', (members headers).Perm (members headers') →
      parse headers = parse headers') ∧
    (∀ before after name a b, members (before ++ ⟨name, a ++ 0x2c :: b⟩ :: after) =
      members (before ++ ⟨name, a⟩ :: ⟨name, b⟩ :: after)) ∧
    ∀ headers,
      (parse headers = none ↔ (∃ text ∈ members headers, Malformed text) ∨
        ∃ slot w w', w ≠ w' ∧ Gives headers slot w ∧ Gives headers slot w') ∧
      ∀ preferences, parse headers = some preferences →
        ∃ weights : Slot → Option Nat, (∀ slot w, weights slot = some w ↔ Gives headers slot w) ∧
          preferences.zstd = (weights .zstd).getD ((weights .wildcard).getD 0) ∧
          preferences.identity =
            (weights .identity).getD (if weights .wildcard = some 0 then 0 else 1000) := by
  refine ⟨fun headers headers' h => ?_, members_split, fun headers => ⟨?_, ?_⟩⟩
  · rw [parse_eq, parse_eq, Agreement.collect_congr fun _ => h.mem_iff]
  · rw [parse_eq, Option.map_eq_none_iff, Agreement.collect_eq_none]
    simp only [readMember_none, gives_iff]
  · intro preferences h
    rw [parse_eq] at h
    obtain ⟨weights, hcollect, rfl⟩ := Option.map_eq_some_iff.mp h
    refine ⟨weights, fun slot w => ?_, rfl, rfl⟩
    rw [gives_iff]
    exact (Agreement.collect_empty.mp hcollect).2 slot w

theorem parse_members_wildcard :
    ∃ weights : Slot → Option Nat,
      (∀ slot w, weights slot = some w ↔
        Gives [⟨ascii "Accept-Encoding", ascii "*;q=0, zstd ; Q=0.25"⟩] slot w) ∧
      250 = (weights .zstd).getD ((weights .wildcard).getD 0) ∧
      0 = (weights .identity).getD (if weights .wildcard = some 0 then 0 else 1000) :=
  (parse_members.2.2 _).2 ⟨250, 0⟩ (by decide +kernel)

end Zhtps.Encoding
