import Mathlib.Data.List.Lex
import Mathlib.Order.Bounds.Defs
import Zhtps.Http.DateRoundTrip

/-!
The century of a date of RFC 850.

Its two digits stand for the greatest year that is not more than fifty years ahead, where the rest of
the date counts as well.  The rest may be no date at all at that point: only the chosen year makes
it one.
-/

namespace Zhtps.Date

open Lib

/-! ### The order of tuples -/

theorem order_gt : ∀ {a b : List Nat}, a.length = b.length → (order a b = .gt ↔ b < a)
  | [], [], _ => by simp [order]
  | a :: as, b :: bs, h => by
      have ih := order_gt (Nat.succ.inj h)
      rw [order, List.cons_lt_cons_iff, ← ih]
      rcases Nat.lt_trichotomy a b with hlt | rfl | hgt
      · simp [Nat.compare_eq_lt.mpr hlt, Ordering.then, hlt.not_gt, hlt.ne']
      · simp [Ordering.then]
      · simp [Nat.compare_eq_gt.mpr hgt, Ordering.then, hgt]

/-- The civil time fifty years after a second of a day; a leap day moves to the last day of its
month. -/
def fiftyYearsOn (today : Calendar.Date) (now : Nat) : Zeit.Time where
  year := today.year + 50
  month := today.month
  day := min today.day (Calendar.lastDay (today.year + 50) today.month)
  hour := now % 86400 / 3600
  minute := now % 86400 % 3600 / 60
  second := now % 86400 % 60

theorem limit_eq : limit = 251824464000 := by decide +kernel

theorem cutoff_eq (arm : Bool) {now : Nat} (hnow : now < limit) {today : Calendar.Date}
    (hvalid : today.Valid) (hnumber : today.number = now / 86400 + Zeit.epoch) :
    cutoff arm now = fiftyYearsOn today now ∧ 1970 ≤ today.year ∧ today.year ≤ 9949 := by
  rw [limit_eq] at hnow
  have hday : now / 86400 ≤ Zeit.lastDays := by
    unfold Zeit.lastDays
    omega
  obtain ⟨date, hdate, heq, -, htime⟩ := Zeit.time_spec arm hday
  obtain rfl : date = today := hdate.eq_of_number hvalid (heq.trans hnumber.symm)
  obtain ⟨hge, -⟩ := Zeit.year_of_number hvalid (by omega) (by omega)
  refine ⟨?_, hge, ?_⟩
  · unfold cutoff
    rw [htime]
    dsimp only
    rw [Zeit.lastDay_eq hvalid.month_pos hvalid.month_le]
    rfl
  · by_contra hgt
    have hmono := Calendar.daysBeforeYear_mono (show 9950 ≤ date.year by omega)
    have hyears := Calendar.daysBeforeYear_eq 9950
    have hge := hvalid.number_ge
    unfold Zeit.epoch at hnumber
    omega

/-! ### The year -/

/-- The time of a date in a year. -/
def inYear (p : Parsed) (year : Nat) : Parsed := { p with year }

theorem tuple_inYear (p : Parsed) (year : Nat) : tuple (inYear p year).toTime =
    year :: [p.month, p.day, p.hour, p.minute, p.second] := rfl

theorem chooseYear_isGreatest (arm : Bool) {now : Nat} (hnow : now < limit)
    {today : Calendar.Date} (hvalid : today.Valid)
    (hnumber : today.number = now / 86400 + Zeit.epoch) {p : Parsed} (hshort : p.year < 100) :
    ∃ year, chooseYear arm now p = some year ∧ 1900 ≤ year ∧ year ≤ 9999 ∧
      IsGreatest {y | y % 100 = p.year ∧ tuple (inYear p y).toTime ≤ tuple (fiftyYearsOn today now)}
        year := by
  obtain ⟨hcutoff, hge, hle⟩ := cutoff_eq arm hnow hvalid hnumber
  unfold chooseYear
  rw [hcutoff]
  obtain ⟨future, hfuture⟩ : ∃ future, future = today.year + 50 := ⟨_, rfl⟩
  obtain ⟨rest, hrest⟩ : ∃ rest, tuple (fiftyYearsOn today now) = future :: rest ∧ rest.length = 5 :=
    ⟨_, by rw [hfuture]; rfl, rfl⟩
  have hyear : (fiftyYearsOn today now).year = future := hfuture.symm
  have hle_iff : ∀ y, tuple (inYear p y).toTime ≤ tuple (fiftyYearsOn today now) ↔
      ¬(future < y ∨ future = y ∧ rest < [p.month, p.day, p.hour, p.minute, p.second]) := by
    intro y
    rw [← not_lt, tuple_inYear, hrest.1, List.cons_lt_cons_iff]
  have hgt_iff : ∀ y, order (tuple { p with year := y }.toTime) (tuple (fiftyYearsOn today now)) =
      .gt ↔ ¬tuple (inYear p y).toTime ≤ tuple (fiftyYearsOn today now) := by
    intro y
    rw [order_gt (by rw [hrest.1]; simp [tuple, hrest.2]), ← not_lt, not_not]
    rfl
  dsimp only
  rw [hyear, if_neg (by omega)]
  simp only [hgt_iff]
  by_cases hafter : tuple (inYear p (future / 100 * 100 + p.year)).toTime ≤
      tuple (fiftyYearsOn today now)
  · rw [if_neg (not_not_intro hafter)]
    refine ⟨_, rfl, by omega, by omega, ⟨by omega, hafter⟩, ?_⟩
    rintro y ⟨hmod, hy⟩
    have := (hle_iff y).mp hy
    omega
  · rw [if_pos hafter, if_neg (by omega)]
    refine ⟨_, rfl, by omega, by omega, ⟨by omega, (hle_iff _).mpr ?_⟩, ?_⟩
    · omega
    · rintro y ⟨hmod, hy⟩
      by_contra hlt
      have := (hle_iff y).mp hy
      have hsame : y = future / 100 * 100 + p.year := by omega
      rw [hsame] at hy
      exact hafter hy

theorem InRange.inYear {p : Parsed} (h : InRange p) (year : Nat) : InRange (inYear p year) :=
  ⟨h.weekday, h.day, h.month_pos, h.month_le, h.time.hour, h.time.minute, h.time.second⟩

/-! ### The three spellings -/

theorem parse_rfc850 (arm : Bool) {p : Parsed} (h : InRange p) (hshort : p.year < 100) {now : Nat}
    (hnow : now < limit) :
    parse arm (rfc850 p) now = (chooseYear arm now p).map fun year => finish (inYear p year) := by
  have hname := length_longName h.weekday
  have hmonth := length_monthName h.month_pos h.month_le
  have hlen : (rfc850 p).length = (longName p.weekday).length + 24 := by
    simp [rfc850, rfc850Rest, hmonth, ascii_gmt]
  rw [parse, if_neg (Int.not_le.mpr hnow), if_neg (by omega), if_neg (by omega),
    parseRfc850_iff.mpr ⟨h, hshort, rfl⟩]
  rfl

theorem parse_asctime (arm : Bool) {p : Parsed} (h : InRange p) (hyear : p.year < 10000) {now : Nat}
    (hnow : now < limit) : parse arm (asctime p) now = some (finish p) := by
  have hname := length_shortName h.weekday
  have hmonth := length_monthName h.month_pos h.month_le
  have hday : (if p.day < 10 then 32 :: places 1 p.day else places 2 p.day).length = 2 := by
    split <;> simp
  have hlen : (asctime p).length = 24 := by simp [asctime, asctimeOf, hname, hmonth, hday]
  have hblank : (asctime p)[3]? = some 32 := by simp [asctime, asctimeOf, hname]
  have hspelled : p.day < 10 ∧ asctime p = asctimeOf (32 :: places 1 p.day) p ∨
      asctime p = asctimeOf (places 2 p.day) p := by
    unfold asctime
    by_cases hten : p.day < 10
    · exact Or.inl ⟨hten, by rw [if_pos hten]⟩
    · exact Or.inr (by rw [if_neg hten])
  rw [parse, if_neg (Int.not_le.mpr hnow), if_neg (by omega), if_pos ⟨hlen, hblank⟩,
    (parseAsctime_iff hlen hblank).mpr ⟨h, hyear, hspelled⟩]
  rfl

/-- No date ends the program. -/
theorem parse_ne_none (arm : Bool) (bytes : Bytes) {now : Nat} (hnow : now < limit)
    {today : Calendar.Date} (hvalid : today.Valid)
    (hnumber : today.number = now / 86400 + Zeit.epoch) : parse arm bytes now ≠ none := by
  unfold parse
  rw [if_neg (Int.not_le.mpr hnow)]
  split
  · exact Option.some_ne_none _
  split
  · exact Option.some_ne_none _
  split
  · exact Option.some_ne_none _
  next p hp =>
    obtain ⟨-, hshort, -⟩ := parseRfc850_iff.mp hp
    obtain ⟨year, hyear, -⟩ := chooseYear_isGreatest arm hnow hvalid hnumber hshort
    rw [hyear]
    exact Option.some_ne_none _

/-- The year of a date of RFC 850 is the latest one that is not more than fifty years ahead, and the
other spellings of the date then name the same second. -/
theorem rfc850_century (arm : Bool) {now : Nat} (hnow : now < limit) :
    ∃ today : Calendar.Date, today.Valid ∧ today.number = now / 86400 + Zeit.epoch ∧
      (∀ bytes, parse arm bytes now ≠ none) ∧
      ∀ p, InRange p → p.year < 100 → ∃ year,
        IsGreatest
          {y | y % 100 = p.year ∧ tuple (inYear p y).toTime ≤ tuple (fiftyYearsOn today now)}
          year ∧
        parse arm (rfc850 p) now = some (finish (inYear p year)) ∧
        ∀ r, finish (inYear p year) = some r → ∀ now' : Nat, now' < limit →
          parse arm (imf (inYear p year)) now' = some (some r) ∧
          parse arm (asctime (inYear p year)) now' = some (some r) := by
  have hday : now / 86400 ≤ Zeit.lastDays := by
    rw [limit_eq] at hnow
    unfold Zeit.lastDays
    omega
  obtain ⟨today, -, hvalid, hnumber⟩ := Zeit.civilFromDays_date arm hday
  refine ⟨today, hvalid, hnumber, fun bytes => parse_ne_none arm bytes hnow hvalid hnumber, ?_⟩
  intro p hrange hshort
  obtain ⟨year, hyear, -, hle, hgreatest⟩ :=
    chooseYear_isGreatest arm hnow hvalid hnumber hshort
  have hlt : (inYear p year).year < 10000 := by
    show year < 10000
    omega
  refine ⟨year, hgreatest, ?_, ?_⟩
  · rw [parse_rfc850 arm hrange hshort hnow, hyear]
    rfl
  · intro r hr now' hnow'
    rw [parse_imf arm (hrange.inYear year) hlt hnow',
      parse_asctime arm (hrange.inYear year) hlt hnow', hr]
    exact ⟨rfl, rfl⟩

/-- In 2050 a leap day of the year 00 is one of 2000: the 29th of February 2100 would be a date
after the fiftieth year. -/
theorem rfc850_century_leapDay : ∃ year,
    parse false (ascii "Tuesday, 29-Feb-00 00:00:00 GMT") 2524608000 =
      some (finish (inYear ⟨⟨0, 2, 29, 0, 0, 0⟩, 2⟩ year)) ∧ year % 100 = 0 := by
  obtain ⟨today, -, -, -, h⟩ := @rfc850_century false 2524608000 (by decide +kernel)
  obtain ⟨year, hgreatest, hparse, -⟩ := h ⟨⟨0, 2, 29, 0, 0, 0⟩, 2⟩
    ⟨by decide, by decide, by decide, by decide, by decide, by decide, by decide⟩ (by decide)
  exact ⟨year, hparse, hgreatest.1.1⟩

end Zhtps.Date
