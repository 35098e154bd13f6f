import Mathlib.Data.List.Induction
import Mathlib.Data.List.Nodup
import Zhtps.Http.Date
import Zhtps.Http.Grammar

/-!
The three spellings of an HTTP date.  Each branch of `parse` reads one of them, and nothing else.
-/

namespace Zhtps.Date

open Response (digitByte twoDigits)

/-! ### Numbers -/

/-- A number in a fixed count of decimal places. -/
def places : Nat → Nat → Bytes
  | 0, _ => []
  | k + 1, n => places k (n / 10) ++ [digitByte (n % 10)]

@[simp] theorem length_places (k n : Nat) : (places k n).length = k := by
  induction k generalizing n with
  | zero => rfl
  | succ k ih => rw [places, List.length_append, ih, List.length_singleton]

theorem twoDigits_eq {n : Nat} (h : n < 100) : twoDigits n = places 2 n := by
  unfold twoDigits places places places
  by_cases hten : n < 10
  · rw [Response.digits_of_lt hten, Nat.div_eq_of_lt hten, Nat.mod_eq_of_lt hten]
    rfl
  · rw [Response.digits_of_le (by decide) (Nat.le_of_not_lt hten),
      Response.digits_of_lt (by omega : n / 10 < 10), Nat.mod_eq_of_lt (by omega : n / 10 < 10)]
    rfl

theorem digits_eq {n : Nat} (hge : 1000 ≤ n) (hlt : n < 10000) :
    Response.digits 10 n = places 4 n := by
  rw [Response.digits_of_le (by decide) (by omega), Response.digits_of_le (by decide) (by omega),
    Response.digits_of_le (by decide) (by omega), Response.digits_of_lt (by omega)]
  unfold places places places places places
  rw [Nat.mod_eq_of_lt (by omega : n / 10 / 10 / 10 < 10)]
  rfl

/-- The value of a digit. -/
def digitValue (c : UInt8) : Nat := c.toNat - 48

theorem isDigit_digitByte : ∀ {d : Nat}, d < 10 →
    Ascii.isDigit (digitByte d) = true ∧ digitValue (digitByte d) = d := by
  decide

theorem digitByte_digitValue : ∀ c, Ascii.isDigit c = true →
    digitByte (digitValue c) = c ∧ digitValue c < 10 := by
  decide +kernel

/-- The value of digits. -/
def value (bytes : Bytes) : Nat := bytes.foldl (fun n c => n * 10 + digitValue c) 0

theorem value_concat (bytes : Bytes) (c : UInt8) :
    value (bytes ++ [c]) = value bytes * 10 + digitValue c := List.foldl_concat _ _ _ _

/-- Digits are the places of their value. -/
theorem places_value (bytes : Bytes) (h : bytes.all Ascii.isDigit = true) :
    places bytes.length (value bytes) = bytes ∧ value bytes < 10 ^ bytes.length := by
  induction bytes using List.reverseRecOn with
  | nil => exact ⟨rfl, Nat.one_pos⟩
  | append_singleton bytes c ih =>
      rw [List.all_append, Bool.and_eq_true, List.all_cons, List.all_nil, Bool.and_true] at h
      obtain ⟨heq, hlt⟩ := ih h.1
      obtain ⟨hc, hten⟩ := digitByte_digitValue c h.2
      rw [value_concat, List.length_append, List.length_singleton]
      constructor
      · have hdiv : (value bytes * 10 + digitValue c) / 10 = value bytes := by omega
        have hmod : (value bytes * 10 + digitValue c) % 10 = digitValue c := by omega
        rw [places, hdiv, hmod, heq, hc]
      · rw [Nat.pow_succ]
        omega

theorem value_places {k n : Nat} (h : n < 10 ^ k) :
    value (places k n) = n ∧ (places k n).all Ascii.isDigit = true := by
  induction k generalizing n with
  | zero =>
      rw [Nat.pow_zero] at h
      exact ⟨(Nat.lt_one_iff.mp h).symm, rfl⟩
  | succ k ih =>
      obtain ⟨heq, hall⟩ := ih (show n / 10 < 10 ^ k from Nat.div_lt_of_lt_mul (Nat.pow_succ' ▸ h))
      obtain ⟨hdigit, hvalue⟩ := isDigit_digitByte (Nat.mod_lt n (by decide : 10 > 0))
      constructor
      · rw [places, value_concat, heq, hvalue]
        omega
      · rw [places, List.all_append, hall, List.all_cons, hdigit]
        rfl

/-- `number` reads the places of a number, as many as a `u16` holds. -/
theorem number_iff {bytes : Bytes} {k n : Nat} (hlen : bytes.length = k) (hpos : 1 ≤ k)
    (hle : k ≤ 4) : number bytes = some n ↔ n < 10 ^ k ∧ bytes = places k n := by
  have hvalue : ∀ c, Ascii.isDigit c = true → (Fmt.charToDigit c 10).getD 0 = digitValue c := by
    decide +kernel
  have hread : bytes.all Ascii.isDigit = true → number bytes = some (value bytes) := by
    intro h
    have hall := List.all_eq_true.mp h
    have hnumeral : Grammar.numeral 10 bytes = value bytes := by
      refine List.foldl_ext _ _ _ fun n c hc => ?_
      rw [hvalue c (hall c hc)]
    have hlt : value bytes < 10 ^ 4 :=
      (places_value bytes h).2.trans_le (Nat.pow_le_pow_right (by decide) (hlen.trans_le hle))
    rw [number, if_pos h, Grammar.parseInt_eq (by decide) (List.ne_nil_of_length_pos (hlen ▸ hpos))
      fun c hc => Grammar.isDigit_of_isDecimal (hall c hc), hnumeral, if_pos (by omega)]
    exact Option.filter_some_pos (decide_eq_true (by omega))
  constructor
  · intro h
    have hall : bytes.all Ascii.isDigit = true := by
      by_contra hall
      rw [number, if_neg hall] at h
      cases h
    rw [hread hall, Option.some.injEq] at h
    obtain ⟨heq, hlt⟩ := places_value bytes hall
    rw [hlen, h] at heq hlt
    exact ⟨hlt, heq.symm⟩
  · rintro ⟨hlt, rfl⟩
    obtain ⟨heq, hall⟩ := value_places hlt
    rw [hread hall, heq]

/-! ### Names -/

theorem findIdx?_name {names : List Bytes} (hnodup : names.Nodup) {bytes : Bytes} {i : Nat} :
    names.findIdx? (· == bytes) = some i ↔ i < names.length ∧ bytes = names.getD i [] := by
  rw [List.findIdx?_eq_some_iff_getElem]
  constructor
  · rintro ⟨hlt, heq, -⟩
    refine ⟨hlt, ?_⟩
    rw [List.getD_eq_getElem?_getD, List.getElem?_eq_getElem hlt]
    exact (eq_of_beq heq).symm
  · rintro ⟨hlt, rfl⟩
    rw [List.getD_eq_getElem?_getD, List.getElem?_eq_getElem hlt, Option.getD_some]
    refine ⟨hlt, beq_self_eq_true _, fun j hj heq => ?_⟩
    exact hj.ne ((hnodup.getElem_inj_iff).mp (eq_of_beq heq))

theorem parseMonth_iff {bytes : Bytes} {month : Nat} :
    parseMonth bytes = some month ↔
      1 ≤ month ∧ month ≤ 12 ∧ bytes = Zeit.months.getD (month - 1) [] := by
  rw [parseMonth, Option.map_eq_some_iff]
  constructor
  · rintro ⟨i, hi, rfl⟩
    obtain ⟨hlt, heq⟩ := (findIdx?_name (by decide)).mp hi
    exact ⟨Nat.le_add_left _ _, hlt, heq⟩
  · rintro ⟨hpos, hle, heq⟩
    refine ⟨month - 1, (findIdx?_name (by decide)).mpr ⟨?_, heq⟩, by omega⟩
    show month - 1 < 12
    omega

def weekdayNames (long : Bool) : List Bytes :=
  if long then Zeit.longWeekdays else Zeit.weekdays

theorem parseWeekday_iff {bytes : Bytes} {long : Bool} {weekday : Nat} :
    parseWeekday bytes long = some weekday ↔
      weekday < 7 ∧ bytes = (weekdayNames long).getD weekday [] := by
  have hlen : (weekdayNames long).length = 7 := by cases long <;> rfl
  rw [← hlen]
  exact findIdx?_name (by cases long <;> decide)

/-- The time of the day. -/
def clock (time : Zeit.Time) : Bytes :=
  places 2 time.hour ++ 58 :: (places 2 time.minute ++ 58 :: places 2 time.second)

structure InDay (time : Zeit.Time) : Prop where
  hour : time.hour ≤ 23
  minute : time.minute ≤ 59
  second : time.second ≤ 60

@[simp] theorem length_clock (time : Zeit.Time) : (clock time).length = 8 := by simp [clock]

theorem length_slice {bytes : Bytes} {a b : Nat} (h : b ≤ bytes.length) :
    (slice bytes a b).length = b - a := by
  rw [slice, List.length_take, List.length_drop]
  omega

/-- A text from a place on is the slice there and the rest. -/
theorem slice_append_drop (bytes : Bytes) {a b : Nat} (h : a ≤ b) :
    slice bytes a b ++ bytes.drop b = bytes.drop a := by
  rw [slice, ← Nat.add_sub_cancel' h, ← List.drop_drop, Nat.add_sub_cancel_left,
    List.take_append_drop]

theorem cons_drop {bytes : Bytes} {c : UInt8} {a : Nat} (h : bytes[a]? = some c) :
    c :: bytes.drop (a + 1) = bytes.drop a := by
  obtain ⟨hlt, rfl⟩ := List.getElem?_eq_some_iff.mp h
  exact List.getElem_cons_drop hlt

theorem parseTime_iff {bytes : Bytes} (hlen : bytes.length = 8) {time : Zeit.Time} :
    parseTime bytes = some (time.hour, time.minute, time.second) ↔
      InDay time ∧ bytes = clock time := by
  have htwo : ∀ {a b n : Nat}, b ≤ 8 → b - a = 2 →
      (number (slice bytes a b) = some n ↔ n < 100 ∧ slice bytes a b = places 2 n) :=
    fun hb ha => number_iff ((length_slice (hlen ▸ hb)).trans ha) (by decide) (by decide)
  unfold parseTime
  simp only [Option.ite_none_left_eq_some, Option.bind_eq_bind, Option.bind_eq_some_iff,
    htwo, Option.some.injEq, Prod.mk.injEq, not_or, ne_eq, not_not, Nat.reduceLeDiff, Nat.reduceSub]
  constructor
  · rintro ⟨⟨h2, h5⟩, _, ⟨-, hhour⟩, _, ⟨-, hminute⟩, _, ⟨-, hsecond⟩, hrange, rfl, rfl, rfl⟩
    refine ⟨⟨by omega, by omega, by omega⟩, ?_⟩
    have hend : bytes.drop 8 = [] := List.drop_eq_nil_of_le hlen.le
    rw [clock, ← hhour, ← hminute, ← hsecond, ← List.append_nil (slice bytes 6 8), ← hend,
      slice_append_drop bytes (by decide), cons_drop h5, slice_append_drop bytes (by decide),
      cons_drop h2, slice_append_drop bytes (by decide), List.drop_zero]
  · rintro ⟨⟨hhour, hminute, hsecond⟩, rfl⟩
    have hslices : slice (clock time) 0 2 = places 2 time.hour ∧
        slice (clock time) 3 5 = places 2 time.minute ∧
        slice (clock time) 6 8 = places 2 time.second ∧ (clock time)[2]? = some 58 ∧
        (clock time)[5]? = some 58 := by
      simp [clock, slice, List.drop_append, List.drop_of_length_le, List.take_of_length_le]
    obtain ⟨hh, hm, hs, h2, h5⟩ := hslices
    exact ⟨⟨h2, h5⟩, _, ⟨by omega, hh⟩, _, ⟨by omega, hm⟩, _, ⟨by omega, hs⟩, by omega, rfl, rfl,
      rfl⟩

/-! ### The dates that HTTP writes -/

/-- The ranges of what every branch reads. -/
structure InRange (p : Parsed) : Prop where
  weekday : p.weekday < 7
  day : p.day < 100
  month_pos : 1 ≤ p.month
  month_le : p.month ≤ 12
  time : InDay p.toTime

def monthName (month : Nat) : Bytes := Zeit.months.getD (month - 1) []

def shortName (weekday : Nat) : Bytes := Zeit.weekdays.getD weekday []

theorem length_shortName {weekday : Nat} (h : weekday < 7) : (shortName weekday).length = 3 := by
  have hall : ∀ weekday : Fin 7, (shortName weekday).length = 3 := by decide
  exact hall ⟨weekday, h⟩

theorem length_monthName {month : Nat} (hpos : 1 ≤ month) (hle : month ≤ 12) :
    (monthName month).length = 3 := by
  have hall : ∀ month : Fin 12, (Zeit.months.getD month []).length = 3 := by decide
  exact hall ⟨month - 1, by omega⟩

def imf (p : Parsed) : Bytes :=
  shortName p.weekday ++ 44 :: 32 :: (places 2 p.day ++ 32 :: (monthName p.month ++
    32 :: (places 4 p.year ++ 32 :: (clock p.toTime ++ ascii " GMT"))))

theorem ascii_gmt : ascii " GMT" = [32, 71, 77, 84] := by decide

theorem parseImf_iff {bytes : Bytes} (hlen : bytes.length = 29) {p : Parsed} :
    parseImf bytes = some p ↔ InRange p ∧ p.year < 10000 ∧ bytes = imf p := by
  have hcomma : ascii ", " = [44, 32] := by decide
  have hnumber : ∀ {a b n : Nat}, b ≤ 29 → 1 ≤ b - a → b - a ≤ 4 →
      (number (slice bytes a b) = some n ↔ n < 10 ^ (b - a) ∧
        slice bytes a b = places (b - a) n) :=
    fun hb => number_iff (length_slice (hlen ▸ hb))
  have htime : ∀ {time : Zeit.Time}, parseTime (slice bytes 17 25) =
      some (time.hour, time.minute, time.second) ↔
        InDay time ∧ slice bytes 17 25 = clock time :=
    parseTime_iff (length_slice (hlen ▸ (by decide)))
  constructor
  · intro h
    unfold parseImf at h
    simp only [Option.ite_none_left_eq_some, Option.bind_eq_bind, Option.bind_eq_some_iff,
      Prod.exists, Option.some.injEq, not_or, ne_eq, not_not, hcomma, ascii_gmt] at h
    obtain ⟨⟨h3, h7, h11, h16, h25⟩, weekday, hweekday, day, hday, month, hmonth, year, hyear,
      hour, minute, second, hclock, rfl⟩ := h
    obtain ⟨hw, hweekday⟩ := parseWeekday_iff.mp hweekday
    obtain ⟨hd, hday⟩ := (hnumber (by decide) (by decide) (by decide)).mp hday
    obtain ⟨hpos, hle, hmonth⟩ := parseMonth_iff.mp hmonth
    obtain ⟨hy, hyear⟩ := (hnumber (by decide) (by decide) (by decide)).mp hyear
    obtain ⟨ht, hclock⟩ := (@htime ⟨year, month, day, hour, minute, second⟩).mp hclock
    refine ⟨⟨hw, hd, hpos, hle, ht⟩, hy, ?_⟩
    have hshort : shortName weekday = slice bytes 0 3 := hweekday.symm
    have hname : monthName month = slice bytes 8 11 := hmonth.symm
    have hfirst : 44 :: 32 :: bytes.drop 5 = bytes.drop 3 := by
      rw [← slice_append_drop bytes (by decide : 3 ≤ 5), h3]
      rfl
    rw [imf, hshort, hname, ascii_gmt]
    dsimp only [Nat.reduceSub] at hday hyear ⊢
    rw [← hclock, ← hyear, ← hday, ← h25, slice_append_drop bytes (by decide), cons_drop h16,
      slice_append_drop bytes (by decide), cons_drop h11, slice_append_drop bytes (by decide),
      cons_drop h7, slice_append_drop bytes (by decide), hfirst,
      slice_append_drop bytes (by decide), List.drop_zero]
  · rintro ⟨h, hyear, rfl⟩
    have hshort := length_shortName h.weekday
    have hname := length_monthName h.month_pos h.month_le
    have hslices : slice (imf p) 0 3 = shortName p.weekday ∧ slice (imf p) 3 5 = [44, 32] ∧
        slice (imf p) 5 7 = places 2 p.day ∧ slice (imf p) 8 11 = monthName p.month ∧
        slice (imf p) 12 16 = places 4 p.year ∧ slice (imf p) 17 25 = clock p.toTime ∧
        (imf p).drop 25 = [32, 71, 77, 84] ∧ (imf p)[7]? = some 32 ∧ (imf p)[11]? = some 32 ∧
        (imf p)[16]? = some 32 := by
      simp [imf, slice, List.drop_append, List.drop_of_length_le, hshort, hname, ascii_gmt]
    obtain ⟨h0, h3, h5, h8, h12, h17, h25, h7, h11, h16⟩ := hslices
    have hday := (hnumber (by decide) (by decide) (by decide)).mpr ⟨h.day, h5⟩
    have hyear := (hnumber (by decide) (by decide) (by decide)).mpr ⟨hyear, h12⟩
    unfold parseImf
    rw [if_neg (by simp [h3, h7, h11, h16, h25, hcomma, ascii_gmt]),
      parseWeekday_iff.mpr ⟨h.weekday, h0⟩, hday, parseMonth_iff.mpr ⟨h.month_pos, h.month_le, h8⟩,
      hyear, htime.mpr ⟨h.time, h17⟩]
    rfl

/-! ### The dates of `asctime` -/

/-- A date of `asctime`, whose day is written in two bytes. -/
def asctimeOf (day : Bytes) (p : Parsed) : Bytes :=
  shortName p.weekday ++ 32 :: (monthName p.month ++ 32 :: (day ++ 32 :: (clock p.toTime ++
    32 :: places 4 p.year)))

/-- A blank stands for a leading zero of the day. -/
def asctime (p : Parsed) : Bytes :=
  asctimeOf (if p.day < 10 then 32 :: places 1 p.day else places 2 p.day) p

theorem parseAsctime_iff {bytes : Bytes} (hlen : bytes.length = 24) (h3 : bytes[3]? = some 32)
    {p : Parsed} : parseAsctime bytes = some p ↔ InRange p ∧ p.year < 10000 ∧
      (p.day < 10 ∧ bytes = asctimeOf (32 :: places 1 p.day) p ∨
        bytes = asctimeOf (places 2 p.day) p) := by
  have hnumber : ∀ {a b n : Nat}, b ≤ 24 → 1 ≤ b - a → b - a ≤ 4 →
      (number (slice bytes a b) = some n ↔ n < 10 ^ (b - a) ∧
        slice bytes a b = places (b - a) n) :=
    fun hb => number_iff (length_slice (hlen ▸ hb))
  have htime : ∀ {time : Zeit.Time}, parseTime (slice bytes 11 19) =
      some (time.hour, time.minute, time.second) ↔
        InDay time ∧ slice bytes 11 19 = clock time :=
    parseTime_iff (length_slice (hlen ▸ (by decide)))
  constructor
  · intro h
    unfold parseAsctime at h
    simp only [Option.ite_none_left_eq_some, Option.bind_eq_bind, Option.bind_eq_some_iff,
      Prod.exists, Option.some.injEq, not_or, ne_eq, not_not] at h
    obtain ⟨⟨h7, h10, h19⟩, weekday, hweekday, month, hmonth, day, hday, year, hyear,
      hour, minute, second, hclock, rfl⟩ := h
    obtain ⟨hw, hweekday⟩ := parseWeekday_iff.mp hweekday
    obtain ⟨hpos, hle, hmonth⟩ := parseMonth_iff.mp hmonth
    obtain ⟨hy, hyear⟩ := (hnumber (by decide) (by decide) (by decide)).mp hyear
    obtain ⟨ht, hclock⟩ := (@htime ⟨year, month, day, hour, minute, second⟩).mp hclock
    have hshort : shortName weekday = slice bytes 0 3 := hweekday.symm
    have hname : monthName month = slice bytes 4 7 := hmonth.symm
    have hend : bytes.drop 24 = [] := List.drop_eq_nil_of_le hlen.le
    have htext : ∀ field, field ++ bytes.drop 10 = bytes.drop 8 →
        bytes = asctimeOf field ⟨⟨year, month, day, hour, minute, second⟩, weekday⟩ := by
      intro field hfield
      rw [asctimeOf, hshort, hname]
      dsimp only [Nat.reduceSub] at hyear ⊢
      rw [← hclock, ← hyear, ← List.append_nil (slice bytes 20 24), ← hend,
        slice_append_drop bytes (by decide), cons_drop h19, slice_append_drop bytes (by decide),
        cons_drop h10, hfield, cons_drop h7, slice_append_drop bytes (by decide), cons_drop h3,
        slice_append_drop bytes (by decide), List.drop_zero]
    by_cases hblank : bytes[8]? = some 32
    · rw [if_pos hblank] at hday
      obtain ⟨hd, hday⟩ := (hnumber (by decide) (by decide) (by decide)).mp hday
      refine ⟨⟨hw, show day < 100 by omega, hpos, hle, ht⟩, hy, Or.inl ⟨hd, htext _ ?_⟩⟩
      dsimp only [Nat.reduceSub] at hday
      rw [← hday, List.cons_append, slice_append_drop bytes (by decide), cons_drop hblank]
    · rw [if_neg hblank] at hday
      obtain ⟨hd, hday⟩ := (hnumber (by decide) (by decide) (by decide)).mp hday
      refine ⟨⟨hw, hd, hpos, hle, ht⟩, hy, Or.inr (htext _ ?_)⟩
      dsimp only [Nat.reduceSub] at hday
      rw [← hday, slice_append_drop bytes (by decide)]
  · rintro ⟨h, hyear, hbytes⟩
    obtain ⟨field, hfield, hbytes, hday⟩ : ∃ field, field.length = 2 ∧ bytes = asctimeOf field p ∧
        number (if field[0]? = some 32 then field.drop 1 else field) = some p.day := by
      rcases hbytes with ⟨hten, hbytes⟩ | hbytes
      · exact ⟨_, by simp, hbytes,
          (number_iff (length_places 1 _) (by decide) (by decide)).mpr ⟨hten, rfl⟩⟩
      · have hdigit : (places 2 p.day)[0]? ≠ some 32 := by
          have hne : ∀ d : Fin 10, digitByte d ≠ 32 := by decide
          intro heq
          exact hne ⟨p.day / 10 % 10, Nat.mod_lt _ (by decide)⟩ (Option.some.inj heq)
        refine ⟨_, length_places 2 _, hbytes, ?_⟩
        rw [if_neg hdigit]
        exact (number_iff (length_places 2 _) (by decide) (by decide)).mpr ⟨h.day, rfl⟩
    have hshort := length_shortName h.weekday
    have hname := length_monthName h.month_pos h.month_le
    have hslices : slice bytes 0 3 = shortName p.weekday ∧ slice bytes 4 7 = monthName p.month ∧
        slice bytes 8 10 = field ∧ slice bytes 9 10 = field.drop 1 ∧ bytes[8]? = field[0]? ∧
        slice bytes 11 19 = clock p.toTime ∧ slice bytes 20 24 = places 4 p.year ∧
        bytes[7]? = some 32 ∧ bytes[10]? = some 32 ∧ bytes[19]? = some 32 := by
      simp [hbytes, asctimeOf, slice, List.drop_append, List.drop_of_length_le, hshort, hname,
        List.take_of_length_le, hfield]
    obtain ⟨h0, h4, h8, h9, hblank, h11, h20, h7, h10, h19⟩ := hslices
    have hyear := (hnumber (by decide) (by decide) (by decide)).mpr ⟨hyear, h20⟩
    unfold parseAsctime
    rw [if_neg (by simp [h7, h10, h19]), parseWeekday_iff.mpr ⟨h.weekday, h0⟩,
      parseMonth_iff.mpr ⟨h.month_pos, h.month_le, h4⟩, hyear, htime.mpr ⟨h.time, h11⟩, hblank, h8,
      h9, hday]
    rfl

/-! ### The dates of RFC 850 -/

def longName (weekday : Nat) : Bytes := Zeit.longWeekdays.getD weekday []

/-- A date of RFC 850 from its comma on; the year is the short one. -/
def rfc850Rest (p : Parsed) : Bytes :=
  44 :: 32 :: (places 2 p.day ++ 45 :: (monthName p.month ++ 45 :: (places 2 p.year ++
    32 :: (clock p.toTime ++ ascii " GMT"))))

def rfc850 (p : Parsed) : Bytes := longName p.weekday ++ rfc850Rest p

theorem parseRest_iff {weekday : Nat} (hweekday : weekday < 7) {rest : Bytes}
    (h0 : rest[0]? = some 44) {p : Parsed} :
    parseRest weekday rest = some p ↔
      InRange p ∧ p.year < 100 ∧ p.weekday = weekday ∧ rest = rfc850Rest p := by
  have hnumber : rest.length = 24 → ∀ {a b n : Nat}, b ≤ 24 → 1 ≤ b - a → b - a ≤ 4 →
      (number (slice rest a b) = some n ↔ n < 10 ^ (b - a) ∧
        slice rest a b = places (b - a) n) :=
    fun hlen _ _ _ hb => number_iff (length_slice (hlen ▸ hb))
  have htime : rest.length = 24 → ∀ {time : Zeit.Time}, parseTime (slice rest 12 20) =
      some (time.hour, time.minute, time.second) ↔
        InDay time ∧ slice rest 12 20 = clock time :=
    fun hlen => parseTime_iff (length_slice (hlen ▸ (by decide)))
  constructor
  · intro h
    unfold parseRest at h
    simp only [Option.ite_none_left_eq_some, Option.bind_eq_bind, Option.bind_eq_some_iff,
      Prod.exists, Option.some.injEq, not_or, ne_eq, not_not, ascii_gmt] at h
    obtain ⟨⟨hlen, h1, h4, h8, h11, h20⟩, day, hday, month, hmonth, year, hyear,
      hour, minute, second, hclock, rfl⟩ := h
    obtain ⟨hd, hday⟩ := (hnumber hlen (by decide) (by decide) (by decide)).mp hday
    obtain ⟨hpos, hle, hmonth⟩ := parseMonth_iff.mp hmonth
    obtain ⟨hy, hyear⟩ := (hnumber hlen (by decide) (by decide) (by decide)).mp hyear
    obtain ⟨ht, hclock⟩ := (@htime hlen ⟨year, month, day, hour, minute, second⟩).mp hclock
    refine ⟨⟨hweekday, hd, hpos, hle, ht⟩, hy, rfl, ?_⟩
    have hname : monthName month = slice rest 5 8 := hmonth.symm
    rw [rfc850Rest, hname, ascii_gmt]
    dsimp only [Nat.reduceSub] at hday hyear ⊢
    rw [← hclock, ← hyear, ← hday, ← h20, slice_append_drop rest (by decide), cons_drop h11,
      slice_append_drop rest (by decide), cons_drop h8, slice_append_drop rest (by decide),
      cons_drop h4, slice_append_drop rest (by decide), cons_drop h1, cons_drop h0,
      List.drop_zero]
  · rintro ⟨h, hyear, rfl, hrest⟩
    have hname := length_monthName h.month_pos h.month_le
    have hlen : rest.length = 24 := by simp [hrest, rfc850Rest, hname, ascii_gmt]
    have hslices : slice rest 2 4 = places 2 p.day ∧ slice rest 5 8 = monthName p.month ∧
        slice rest 9 11 = places 2 p.year ∧ slice rest 12 20 = clock p.toTime ∧
        rest.drop 20 = [32, 71, 77, 84] ∧ rest[1]? = some 32 ∧ rest[4]? = some 45 ∧
        rest[8]? = some 45 ∧ rest[11]? = some 32 := by
      simp [hrest, rfc850Rest, slice, List.drop_append, List.drop_of_length_le, hname, ascii_gmt]
    obtain ⟨h2, h5, h9, h12, h20, h1, h4, h8, h11⟩ := hslices
    have hday := (hnumber hlen (by decide) (by decide) (by decide)).mpr ⟨h.day, h2⟩
    have hyear := (hnumber hlen (by decide) (by decide) (by decide)).mpr ⟨hyear, h9⟩
    unfold parseRest
    rw [if_neg (by simp only [hlen, h1, h4, h8, h11, h20, ascii_gmt, ne_eq, not_true_eq_false,
        or_self, not_false_eq_true]), hday, parseMonth_iff.mpr ⟨h.month_pos, h.month_le, h5⟩, hyear, (htime hlen).mpr ⟨h.time, h12⟩]
    rfl

theorem comma_not_mem (weekday : Nat) : (44 : UInt8) ∉ longName weekday := by
  have hall : ∀ name ∈ [] :: Zeit.longWeekdays, (44 : UInt8) ∉ name := by decide
  unfold longName
  refine hall _ ?_
  rw [List.getD_eq_getElem?_getD]
  cases h : Zeit.longWeekdays[weekday]? with
  | none => exact List.mem_cons_self
  | some name => exact List.mem_cons_of_mem _ (List.mem_of_getElem? h)

theorem parseRfc850_iff {bytes : Bytes} {p : Parsed} :
    parseRfc850 bytes = some p ↔ InRange p ∧ p.year < 100 ∧ bytes = rfc850 p := by
  unfold parseRfc850
  simp only [Option.bind_eq_bind, Option.bind_eq_some_iff]
  constructor
  · rintro ⟨comma, hcomma, weekday, hweekday, h⟩
    obtain ⟨hw, hname⟩ := parseWeekday_iff.mp hweekday
    have h0 : (bytes.drop comma)[0]? = some 44 := by
      obtain ⟨hlt, heq, -⟩ := List.findIdx?_eq_some_iff_getElem.mp hcomma
      rw [List.getElem?_drop, Nat.add_zero, List.getElem?_eq_getElem hlt, eq_of_beq heq]
    obtain ⟨hrange, hyear, rfl, hrest⟩ := (parseRest_iff hw h0).mp h
    refine ⟨hrange, hyear, ?_⟩
    have hlong : longName p.weekday = bytes.take comma := hname.symm
    rw [rfc850, hlong, ← hrest, List.take_append_drop]
  · rintro ⟨hrange, hyear, rfl⟩
    refine ⟨_, Mem.indexOfScalar_first (comma_not_mem p.weekday), p.weekday, ?_, ?_⟩
    · rw [rfc850, List.take_left]
      exact parseWeekday_iff.mpr ⟨hrange.weekday, rfl⟩
    · rw [rfc850, List.drop_left]
      exact (parseRest_iff hrange.weekday rfl).mpr ⟨hrange, hyear, rfl, rfl⟩

end Zhtps.Date
