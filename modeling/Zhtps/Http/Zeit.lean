import Mathlib.Tactic.IntervalCases
import Zhtps.Http.Date
import Zhtps.Lib.Calendar

/-!
The civil dates of zeit are those of the Gregorian calendar.

`daysFromCivil` numbers the days with the year beginning in March.  `civilFromDays` divides by
multiplications of 64-bit words: of a day number counted backwards, the centuries and then the years,
and the month and the day out of the fraction that the years leave.
-/

namespace Zhtps.Zeit

open Lib Lib.Calendar

/-- 1 January 1970. -/
def epoch : Nat := 719528

/-! ### Days of dates -/

/-- The days of the years that begin in March, moved by whole cycles of 400 years. -/
theorem marchDays_eq (p : Nat) :
    (p + 5880000) * 365 + (p + 5880000) / 4 - (p + 5880000) / 100 + (p + 5880000) / 100 / 4 =
      2147625900 + (365 * p + p / 4 - p / 100 + p / 100 / 4) := by
  omega

/-- What a month begins with, in the year that begins in March and in the one of the calendar. -/
theorem monthDays_eq (year : Nat) {month : Nat} (hpos : 1 ≤ month) (hle : month ≤ 12) :
    (if month ≤ 2 then (979 * month + 8829) / 32 = 306 + daysBeforeMonth year month
    else (979 * month - 2919) / 32 + 31 + Calendar.lastDay year 2 = daysBeforeMonth year month) := by
  interval_cases month <;> simp [daysBeforeMonth, Calendar.lastDay] <;> split <;> rfl

theorem lastDay_february {year : Nat} (hpos : 1 ≤ year) :
    Calendar.lastDay year 2 + (year - 1) / 4 + year / 100 + (year - 1) / 400 =
      28 + year / 4 + (year - 1) / 100 + year / 400 := by
  rw [Calendar.lastDay]
  split
  next h =>
    have := (isLeap_iff _).mp h
    omega
  next h =>
    have := mt (isLeap_iff _).mpr h
    omega

theorem daysFromCivil_eq {d : Date} (h : d.Valid) (hpos : 1 ≤ d.year) (hyear : d.year < 10000) :
    daysFromCivil d.year d.month d.day = (d.number + 2 ^ 32 - epoch) % 2 ^ 32 := by
  obtain ⟨year, month, day⟩ := d
  obtain ⟨hmonth, hmonth', hday, -⟩ := h
  simp only at hmonth hmonth' hday hyear hpos
  have hyears : daysBeforeYear year + (year - 1) / 100 =
      365 * year + (year - 1) / 4 + (year - 1) / 400 + 1 := by
    have := daysBeforeYear_eq year
    omega
  have hmonths := monthDays_eq year hmonth hmonth'
  have hfebruary := lastDay_february hpos
  have hsum : (∃ days, daysFromCivil year month day = (days + 2 ^ 32 - 2148345369) % 2 ^ 32 ∧
      days + 719528 = 2148345369 + (Date.mk year month day).number) := by
    unfold daysFromCivil Calendar.Date.number
    refine ⟨_, rfl, ?_⟩
    dsimp only
    by_cases hearly : month ≤ 2
    · rw [if_pos hearly] at hmonths
      have hp : year + 5880000 - 1 = year - 1 + 5880000 := by omega
      have hcycle : (year - 1) / 100 / 4 = (year - 1) / 400 := Nat.div_div_eq_div_mul _ 100 4
      rw [if_pos hearly, if_pos rfl, hp, marchDays_eq, hmonths, hcycle]
      omega
    · rw [if_neg hearly] at hmonths
      have hcycle : year / 100 / 4 = year / 400 := Nat.div_div_eq_div_mul _ 100 4
      rw [if_neg hearly, if_neg Nat.zero_ne_one, Nat.sub_zero, marchDays_eq, hcycle, ← hmonths]
      omega
  obtain ⟨days, heq, hdays⟩ := hsum
  rw [heq, epoch]
  have : days + 2 ^ 32 - 2148345369 = (Date.mk year month day).number + 2 ^ 32 - 719528 := by omega
  rw [this]

theorem days_eq {d : Date} (h : d.Valid) (hpos : 1 ≤ d.year) (hyear : d.year < 10000) :
    days d.year d.month d.day = d.number - epoch := by
  have hnumber : d.number < 2 ^ 31 := by
    have := h.number_lt
    have := daysBeforeYear_mono (show d.year + 1 ≤ 10000 from hyear)
    have := daysBeforeYear_eq 10000
    omega
  rw [days, daysFromCivil_eq h hpos hyear, epoch, BitVec.toInt_eq_toNat_bmod, BitVec.toNat_ofNat,
    Nat.mod_mod, Int.bmod]
  omega

theorem isLeapYear_eq (year : Nat) : isLeapYear year = isLeap year := by
  have hfour : year &&& 3 = year % 4 := Nat.and_two_pow_sub_one_eq_mod year 2
  have hsixteen : year &&& 15 = year % 16 := Nat.and_two_pow_sub_one_eq_mod year 4
  rw [Bool.eq_iff_iff, isLeap_iff]
  unfold isLeapYear
  dsimp only
  split
  · rw [show 4 - 1 = 3 from rfl, hfour, beq_iff_eq]
    omega
  · rw [show 16 - 1 = 15 from rfl, hsixteen, beq_iff_eq]
    omega

theorem lastDay_eq {month : Nat} (hpos : 1 ≤ month) (hle : month ≤ 12) (year : Nat) :
    lastDay month year = Calendar.lastDay year month := by
  unfold lastDay
  rw [isLeapYear_eq]
  interval_cases month <;> rfl

/-! ### Dates of days

The days are counted backwards from the last one that HTTP can represent.  A day has then a year of
a Julian calendar and, in quarters of a day, a place in that year.
-/

/-- 31 December 9999, in days since 1970. -/
def lastDays : Nat := 2932896

/-- The bump of the year, the month and the day that `civilFromDays` takes from the year modulo 4
and from the part of the year. -/
def yearPart (arm : Bool) (quad ypt : Nat) : Nat × Nat × Nat :=
  let word := 2 ^ 64
  let scale := if arm then 1 else 32
  let shift0 := 30556 * scale
  let n (shift : Nat) : Nat := (quad * (16 * scale) + shift + word - ypt) % word
  let late := 12 < n shift0 / (2048 * scale)
  let early := ypt < 3952 * scale
  let bump := if arm then if late then 1 else 0 else if early then 1 else 0
  let shift := if !arm && early then 5980 * scale else shift0
  let month :=
    if arm then if late then n shift0 / (2048 * scale) - 12 else n shift0 / (2048 * scale)
    else n shift / (2048 * scale)
  (bump, month, 8619973866219416 * 32 / scale * (n shift % (2048 * scale)) / word + 1)

/-- The multiplications divide: the centuries are `(4 * back + 239) / 146097` and the years
`(4 * julian + 240) / 1461`. -/
theorem civilFromDays_divides (arm : Bool) {back : Nat} (h : back ≤ lastDays) :
    ∃ cen julian year low, cen = (4 * back + 239) / 146097 ∧ julian + cen / 4 = back + cen ∧
      year = (4 * julian + 240) / 1461 ∧
      1461 * low = 218901621769475520 + 2 ^ 64 * ((4 * julian + 240) % 1461) + 317 * julian ∧
      civilFromDays arm (lastDays - back) =
        let part := yearPart arm ((9999 - year) % 4) (24451 * (if arm then 1 else 32) * low / 2 ^ 64)
        (9999 - year + part.1, part.2.1, part.2.2) := by
  unfold lastDays at h ⊢
  obtain ⟨cen, hcen⟩ : ∃ cen, cen = (4 * back + 239) / 146097 := ⟨_, rfl⟩
  obtain ⟨julian, hjulian⟩ : ∃ julian, julian = back + cen - cen / 4 := ⟨_, rfl⟩
  obtain ⟨year, hyear⟩ : ∃ year, year = (4 * julian + 240) / 1461 := ⟨_, rfl⟩
  have hrev : (146097 * 4726498270 - 719469 + 2 ^ 64 - (2932896 - back)) % 2 ^ 64 =
      690527214099825 + back := by omega
  have hcenturies : 505054698555331 * (690527214099825 + back) / 2 ^ 64 =
      18905992980 + cen := by omega
  have hquarter : (18905992980 + cen) / 4 = 4726498245 + cen / 4 := by omega
  have hdays : (690527214099825 + back + (18905992980 + cen) + 2 ^ 64 -
      (4726498245 + cen / 4)) % 2 ^ 64 = 690541393594560 + julian := by omega
  have hquotient : 50504432782230121 * (690541393594560 + julian) / 2 ^ 64 =
      1890599298000 + year := by omega
  have hyears : (400 * 4726498270 - 1 + 2 ^ 64 - (1890599298000 + year)) % 2 ^ 64 =
      9999 - year := by omega
  refine ⟨cen, julian, year, 50504432782230121 * (690541393594560 + julian) % 2 ^ 64, hcen,
    by omega, hyear, by omega, ?_⟩
  unfold civilFromDays yearPart
  dsimp only
  rw [hrev, hcenturies, hquarter, hdays, hquotient, hyears]

/-- The days of a year that begins in March, before one of its months. -/
def monthDays (month : Nat) : Nat :=
  if month ≤ 2 then (979 * month + 8829) / 32 else (979 * month - 2919) / 32

/-- What has to hold at a place in the year, whatever `julian` adds to the fraction. -/
def placeOk (arm : Bool) (place : Nat) : Bool :=
  let scale := if arm then 1 else 32
  let low := (218901621769475520 + 2 ^ 64 * place) / 1461
  let ypt := 24451 * scale * low / 2 ^ 64
  let (bump, month, day) := yearPart arm ((place + 3) % 4) ypt
  24451 * scale * (low + 636400) / 2 ^ 64 == ypt && bump == (if month ≤ 2 then 1 else 0) &&
    decide (1 ≤ month) && decide (month ≤ 12) && decide (1 ≤ day) &&
    decide (day ≤ if month = 2 then if place = 0 then 29 else 28 else Calendar.lastDay 0 month) &&
    monthDays month + day == 366 - (place + 3) / 4

theorem placeOk_all (arm : Bool) : (List.range 1461).all (placeOk arm) = true := by
  -- One year of the cycle is evaluated at a time.
  have hyears : List.range 1461 = List.range' 0 366 ++ (List.range' 366 365 ++
      (List.range' 731 365 ++ List.range' 1096 365)) := by
    rw [List.range'_append_1, List.range'_append_1, List.range'_append_1, List.range_eq_range']
  rw [hyears, List.all_append, List.all_append, List.all_append, Bool.and_eq_true, Bool.and_eq_true,
    Bool.and_eq_true]
  cases arm
  · exact ⟨by decide +kernel, by decide +kernel, by decide +kernel, by decide +kernel⟩
  · exact ⟨by decide +kernel, by decide +kernel, by decide +kernel, by decide +kernel⟩

/-- The fraction moves with `julian`, but never over the border of a part. -/
theorem yearPart_place (arm : Bool) {place low : Nat} (hplace : place < 1461)
    (hlow : (218901621769475520 + 2 ^ 64 * place) / 1461 ≤ low)
    (hhigh : low ≤ (218901621769475520 + 2 ^ 64 * place) / 1461 + 636400) :
    let (bump, month, day) :=
      yearPart arm ((place + 3) % 4) (24451 * (if arm then 1 else 32) * low / 2 ^ 64)
    bump = (if month ≤ 2 then 1 else 0) ∧ 1 ≤ month ∧ month ≤ 12 ∧ 1 ≤ day ∧
      (day ≤ if month = 2 then if place = 0 then 29 else 28 else Calendar.lastDay 0 month) ∧
      monthDays month + day = 366 - (place + 3) / 4 := by
  have hok := List.all_eq_true.mp (placeOk_all arm) place (List.mem_range.mpr hplace)
  simp only [placeOk, Bool.and_eq_true, beq_iff_eq, decide_eq_true_eq] at hok
  obtain ⟨⟨⟨⟨⟨⟨hfraction, hbump⟩, hmonth⟩, hmonth'⟩, hday⟩, hday'⟩, hdays⟩ := hok
  have hypt : 24451 * (if arm then 1 else 32) * low / 2 ^ 64 =
      24451 * (if arm then 1 else 32) * ((218901621769475520 + 2 ^ 64 * place) / 1461) /
        2 ^ 64 := by
    refine Nat.le_antisymm ?_ (Nat.div_le_div_right (Nat.mul_le_mul_left _ hlow))
    rw [← hfraction]
    exact Nat.div_le_div_right (Nat.mul_le_mul_left _ hhigh)
  rw [hypt]
  exact ⟨hbump, hmonth, hmonth', hday, hday', hdays⟩

/-- The number of a date, by the year that begins in March. -/
theorem number_march {year bump month day : Nat} (hpos : 1 ≤ month) (hle : month ≤ 12)
    (hday : 1 ≤ day) (hbump : bump = if month ≤ 2 then 1 else 0) :
    (Date.mk (year + bump) month day).number + 307 =
      daysBeforeYear (year + 1) + (monthDays month + day) := by
  have hmonths := monthDays_eq (year + bump) hpos hle
  unfold Calendar.Date.number monthDays
  dsimp only
  by_cases hearly : month ≤ 2
  · rw [if_pos hearly] at hbump hmonths ⊢
    subst hbump
    omega
  · rw [if_neg hearly] at hbump hmonths ⊢
    subst hbump
    have hyear : yearDays year = Calendar.lastDay year 2 + 337 := by
      unfold yearDays Calendar.lastDay
      split <;> rfl
    simp only [Nat.add_zero] at hmonths ⊢
    rw [daysBeforeYear, hyear]
    omega

section Back

variable {back cen julian year place : Nat} (hback : back ≤ lastDays)
  (hcen : cen = (4 * back + 239) / 146097) (hjulian : julian + cen / 4 = back + cen)
  (hyear : 4 * julian + 240 = 1461 * year + place) (hplace : place < 1461)

include hcen hjulian hyear hplace

/-- The centuries of the days are those of the years.  Only the leap day at the end of a cycle of
400 years is already in a year of the next century. -/
theorem century_of_year :
    year / 100 = cen ∨ year = 100 * (cen + 1) ∧ cen % 4 = 3 ∧ place = 0 := by
  have hquarter := Nat.div_add_mod cen 4
  have hrest := Nat.div_add_mod (4 * back + 239) 146097
  have hlt := Nat.mod_lt (4 * back + 239) (by decide : 146097 > 0)
  rw [← hcen] at hrest
  have hsum : 1461 * year + place =
      146100 * cen + cen % 4 + 1 + (4 * back + 239) % 146097 := by omega
  omega

theorem back_of_year : 365 * year + year / 4 + year / 400 + (place + 3) / 4 =
    back + 60 + year / 100 := by
  have hcentury := century_of_year hcen hjulian hyear hplace
  have hleaps : year / 100 + cen / 4 = cen + year / 400 := by omega
  have hquarters : (year + place) / 4 = year / 4 + (place + 3) / 4 := by omega
  omega

include hback

theorem leap_of_place (h : place = 0) : isLeap (10000 - year) = true := by
  have hcentury := century_of_year hcen hjulian hyear hplace
  unfold lastDays at hback
  rw [isLeap_iff]
  omega

theorem number_of_year : daysBeforeYear (10000 - year) + (366 - (place + 3) / 4) =
    lastDays - back + epoch + 307 := by
  have hyears := daysBeforeYear_eq (10000 - year)
  have hsum := back_of_year hcen hjulian hyear hplace
  unfold lastDays at hback
  have hle : year ≤ 8030 := by omega
  have hcenturies : (10000 - year + 99) / 100 = 100 - year / 100 := by omega
  have hcycles : (10000 - year + 399) / 400 = 25 - year / 400 := by omega
  have hleaps : (10000 - year + 3) / 4 = 2500 - year / 4 := by omega
  rw [hcenturies, hcycles, hleaps] at hyears
  unfold lastDays epoch
  clear hcen hjulian hyear hcenturies hcycles hleaps
  omega

end Back

/-- `civilFromDays` finds the date of a day. -/
theorem civilFromDays_date (arm : Bool) {n : Nat} (h : n ≤ lastDays) :
    ∃ date : Date, civilFromDays arm n = (date.year, date.month, date.day) ∧ date.Valid ∧
      date.number = n + epoch := by
  obtain ⟨back, hback, hn⟩ : ∃ back, back ≤ lastDays ∧ n = lastDays - back :=
    ⟨lastDays - n, Nat.sub_le _ _, (Nat.sub_sub_self h).symm⟩
  obtain ⟨cen, julian, year, low, hcen, hjulian, hyear, hlow, hcivil⟩ :=
    civilFromDays_divides arm hback
  obtain ⟨place, hplace⟩ : ∃ place, place = (4 * julian + 240) % 1461 := ⟨_, rfl⟩
  rw [← hplace] at hlow
  have hlt : place < 1461 := hplace ▸ Nat.mod_lt _ (by decide)
  have hsum : 4 * julian + 240 = 1461 * year + place := by
    rw [hyear, hplace]
    exact (Nat.div_add_mod _ _).symm
  have hnumber := number_of_year hback hcen hjulian hsum hlt
  have hleap := leap_of_place hback hcen hjulian hsum hlt
  have hle : year ≤ 8030 ∧ julian ≤ 2932956 := by
    unfold lastDays at hback
    omega
  have hquad : (9999 - year) % 4 = (place + 3) % 4 := by omega
  have hpart := @yearPart_place arm place low hlt (by omega) (by omega)
  rw [hn, hcivil, hquad]
  revert hpart
  generalize yearPart arm ((place + 3) % 4) _ = part
  obtain ⟨bump, month, day⟩ := part
  rintro ⟨hbump, hmonth, hmonth', hday, hday', hdays⟩
  refine ⟨⟨9999 - year + bump, month, day⟩, rfl, ⟨hmonth, hmonth', hday, ?_⟩, ?_⟩
  · dsimp only
    by_cases hfebruary : month = 2
    · subst hfebruary
      rw [if_pos (by decide : 2 ≤ 2)] at hbump
      rw [if_pos rfl] at hday'
      refine hday'.trans ?_
      split
      next hlast =>
        -- The last quarter of a Julian leap year is that of a Gregorian one.
        have hyears : 9999 - year + bump = 10000 - year := by omega
        rw [hyears, Calendar.lastDay, if_pos (hleap hlast)]
      next => exact lastDay_pos _ _
    · rw [if_neg hfebruary] at hday'
      refine hday'.trans_eq ?_
      unfold Calendar.lastDay
      split
      next => exact absurd rfl hfebruary
      all_goals rfl
  · have hmarch := @number_march (9999 - year) bump month day hmonth hmonth' hday hbump
    have hyears : 9999 - year + 1 = 10000 - year := by omega
    rw [hdays, hyears, hnumber] at hmarch
    exact Nat.add_right_cancel hmarch

/-! ### Times -/

theorem unixTimestamp_instant (t : Time) : unixTimestamp t.instant =
    days t.year t.month t.day * 86400 + t.hour * 3600 + t.minute * 60 + t.second := by
  unfold unixTimestamp Time.instant
  omega

/-- The date and the time of the day that `time` finds. -/
theorem time_spec (arm : Bool) {seconds : Nat} (h : seconds / 86400 ≤ lastDays) :
    ∃ date : Date, date.Valid ∧ date.number = seconds / 86400 + epoch ∧
      civilFromDays arm (seconds / 86400) = (date.year, date.month, date.day) ∧
      time arm seconds = ⟨date.year, date.month, date.day, seconds % 86400 / 3600,
        seconds % 86400 % 3600 / 60, seconds % 86400 % 60⟩ := by
  obtain ⟨date, hcivil, hvalid, hnumber⟩ := civilFromDays_date arm h
  have hminute : seconds % 86400 - seconds % 86400 / 3600 * 3600 = seconds % 86400 % 3600 := by
    omega
  have hsecond : seconds % 86400 % 3600 - seconds % 86400 % 3600 / 60 * 60 =
      seconds % 86400 % 60 := by
    omega
  refine ⟨date, hvalid, hnumber, hcivil, ?_⟩
  unfold time
  dsimp only
  rw [hcivil, hminute, hsecond]

/-- The years of the days up to the last one. -/
theorem year_of_number {d : Date} (h : d.Valid) (hge : epoch ≤ d.number)
    (hle : d.number ≤ lastDays + epoch) : 1970 ≤ d.year ∧ d.year ≤ 9999 := by
  have hlt := h.number_lt
  have hge' := h.number_ge
  have hfirst := daysBeforeYear_eq 1970
  have hlast := daysBeforeYear_eq 10000
  unfold epoch lastDays at *
  constructor
  · by_contra hyear
    have := daysBeforeYear_mono (show d.year + 1 ≤ 1970 by omega)
    omega
  · by_contra hyear
    have := daysBeforeYear_mono (show 10000 ≤ d.year by omega)
    omega

end Zhtps.Zeit
