import Zhtps.Http.DateGrammar
import Zhtps.Http.Zeit

/-!
Formatting and parsing HTTP dates undo each other.

Both go through a valid date of the calendar and a time of the day: `parse` computes the second of a
date and `formatDate` finds the date of a second again, which is the only one.
-/

namespace Zhtps.Date

open Lib

/-! ### Valid dates -/

/-- The date of the calendar that has been parsed. -/
def calendarDate (p : Parsed) : Calendar.Date := ⟨p.year, p.month, p.day⟩

/-- The days since 1970. -/
def dayOf (p : Parsed) : Int := (calendarDate p).number - Zeit.epoch

/-- What `parse` requires of a date that it has read. -/
structure Acceptable (p : Parsed) : Prop where
  year_ge : 1601 ≤ p.year
  year_le : p.year ≤ 9999
  valid : (calendarDate p).Valid
  weekday : Zeit.weekday (dayOf p) = p.weekday

theorem Acceptable.number_le {p : Parsed} (h : Acceptable p) :
    (calendarDate p).number ≤ Zeit.lastDays + Zeit.epoch := by
  have hlt : (calendarDate p).number < Calendar.daysBeforeYear (p.year + 1) := h.valid.number_lt
  have hle := h.year_le
  have hmono := Calendar.daysBeforeYear_mono (show p.year + 1 ≤ 10000 by omega)
  have hyears := Calendar.daysBeforeYear_eq 10000
  unfold Zeit.lastDays Zeit.epoch
  omega

/-- The Unix time of a date. -/
def secondOf (p : Parsed) : Int := dayOf p * 86400 + p.hour * 3600 + p.minute * 60 + p.second

theorem days_calendarDate {p : Parsed} (hge : 1 ≤ p.year) (hle : p.year ≤ 9999)
    (h : (calendarDate p).Valid) : Zeit.days p.year p.month p.day = dayOf p := by
  have hlt : p.year < 10000 := by omega
  have hdays := Zeit.days_eq h hge hlt
  rw [dayOf, ← hdays]
  rfl

theorem finish_iff {p : Parsed} (h : InRange p) {r : Int} :
    finish p = some r ↔ Acceptable p ∧ r = secondOf p := by
  have hlast := Zeit.lastDay_eq h.month_pos h.month_le p.year
  unfold finish
  rw [hlast, Option.ite_none_left_eq_some, Option.ite_none_left_eq_some, not_not, Option.some.injEq,
    Zeit.unixTimestamp_instant]
  constructor
  · rintro ⟨hrange, hweekday, rfl⟩
    have hvalid : (calendarDate p).Valid :=
      ⟨h.month_pos, h.month_le, show 1 ≤ p.day by omega,
        show p.day ≤ Calendar.lastDay p.year p.month by omega⟩
    have hdays := days_calendarDate (by omega) (by omega) hvalid
    rw [hdays] at hweekday ⊢
    exact ⟨⟨by omega, by omega, hvalid, hweekday⟩, rfl⟩
  · rintro ⟨⟨hge, hle, hvalid, hweekday⟩, rfl⟩
    have hdays := days_calendarDate (by omega) hle hvalid
    have hpos : 1 ≤ p.day := hvalid.day_pos
    have hday : p.day ≤ Calendar.lastDay p.year p.month := hvalid.day_le
    rw [hdays]
    exact ⟨by omega, hweekday, rfl⟩

/-! ### Formatting -/

theorem ascii_texts : ascii ", " = [44, 32] ∧ ascii " " = [32] ∧ ascii ":" = [58] := by decide

/-- `formatDate` writes the date and the time of its second. -/
theorem formatDate_secondOf (arm : Bool) {p : Parsed} (hrange : InRange p) (h : Acceptable p)
    (hsecond : p.second ≤ 59) {seconds : Nat} (hseconds : (seconds : Int) = secondOf p) :
    Response.formatDate arm seconds = imf p := by
  have hlast := h.number_le
  obtain ⟨hge, hle, hvalid, hweekday⟩ := h
  obtain ⟨-, hday, hpos, hmonths, hhour, hminute, -⟩ := hrange
  unfold secondOf dayOf Zeit.epoch at hseconds
  have hdays : seconds / 86400 + Zeit.epoch = (calendarDate p).number := by
    unfold Zeit.epoch
    omega
  have hrest : seconds % 86400 = p.hour * 3600 + p.minute * 60 + p.second := by omega
  have hdate : Zeit.civilFromDays arm (seconds / 86400) = (p.year, p.month, p.day) := by
    obtain ⟨date, hcivil, hdate, hnumber⟩ := Zeit.civilFromDays_date arm
      (show seconds / 86400 ≤ Zeit.lastDays by omega)
    rw [hdays] at hnumber
    rw [hcivil, hdate.eq_of_number hvalid hnumber]
    rfl
  have hfrom : Zeit.daysFromCivil p.year p.month p.day = seconds / 86400 := by
    have hlt : p.year < 10000 := by omega
    have heq := Zeit.daysFromCivil_eq hvalid (show 1 ≤ p.year by omega) hlt
    rw [← hdays] at heq
    refine heq.trans ?_
    unfold Zeit.epoch Zeit.lastDays at *
    omega
  have hname : Zeit.weekdayFromDays (seconds / 86400) = p.weekday := by
    rw [← hweekday, dayOf, ← hdays, Nat.cast_add, Int.add_sub_cancel]
    unfold Zeit.weekday Zeit.weekdayFromDays
    omega
  obtain ⟨hcomma, hblank, hcolon⟩ := ascii_texts
  unfold Response.formatDate
  dsimp only
  rw [hdate, hfrom, hname, hrest, twoDigits_eq hday, digits_eq (by omega) (by omega),
    twoDigits_eq (by omega), twoDigits_eq (by omega), twoDigits_eq (by omega), hcomma, hblank,
    hcolon]
  have hh : (p.hour * 3600 + p.minute * 60 + p.second) / 3600 = p.hour := by omega
  have hm : (p.hour * 3600 + p.minute * 60 + p.second) % 3600 / 60 = p.minute := by omega
  have hs : (p.hour * 3600 + p.minute * 60 + p.second) % 60 = p.second := by omega
  rw [hh, hm, hs]
  simp [imf, clock, shortName, monthName]

/-! ### Round trips -/

theorem length_imf {p : Parsed} (h : InRange p) : (imf p).length = 29 := by
  simp [imf, length_shortName h.weekday, length_monthName h.month_pos h.month_le, ascii_gmt]

theorem parse_imf (arm : Bool) {p : Parsed} (h : InRange p) (hyear : p.year < 10000) {now : Nat}
    (hnow : now < limit) : parse arm (imf p) now = some (finish p) := by
  have hcomma : (imf p)[3]? = some 44 := by
    simp [imf, length_shortName h.weekday]
  rw [parse, if_neg (Int.not_le.mpr hnow), if_pos ⟨length_imf h, hcomma⟩,
    (parseImf_iff (length_imf h)).mpr ⟨h, hyear, rfl⟩]
  rfl

theorem length_longName {weekday : Nat} (h : weekday < 7) : 6 ≤ (longName weekday).length := by
  have hall : ∀ weekday : Fin 7, 6 ≤ (longName weekday).length := by decide
  exact hall ⟨weekday, h⟩

/-- Among the dates of 29 bytes only those that HTTP writes are accepted. -/
theorem parse_some {arm : Bool} {bytes : Bytes} {now : Nat} {r : Int} (hlen : bytes.length = 29)
    (h : parse arm bytes now = some (some r)) :
    ∃ p, InRange p ∧ p.year < 10000 ∧ bytes = imf p ∧ finish p = some r := by
  unfold parse at h
  split at h
  · cases h
  split at h
  · obtain ⟨p, hp, hfinish⟩ := Option.bind_eq_some_iff.mp (Option.some.inj h)
    obtain ⟨hrange, hyear, heq⟩ := (parseImf_iff hlen).mp hp
    exact ⟨p, hrange, hyear, heq, hfinish⟩
  rw [if_neg (by omega)] at h
  split at h
  · cases h
  next p hp =>
    -- No long weekday is short enough.
    obtain ⟨hrange, -, rfl⟩ := parseRfc850_iff.mp hp
    have hname := length_longName hrange.weekday
    have hmonth := length_monthName hrange.month_pos hrange.month_le
    simp [rfc850, rfc850Rest, hmonth, ascii_gmt] at hlen
    omega

theorem formatLimit_eq : formatLimit = 253402300800 := by decide +kernel

/-- The date that `formatDate` writes of a second. -/
theorem exists_secondOf {seconds : Nat} (h : seconds < formatLimit) :
    ∃ p, InRange p ∧ Acceptable p ∧ p.second ≤ 59 ∧ (seconds : Int) = secondOf p := by
  rw [formatLimit_eq] at h
  have hday : seconds / 86400 ≤ Zeit.lastDays := by
    unfold Zeit.lastDays
    omega
  obtain ⟨date, -, hvalid, hnumber⟩ := Zeit.civilFromDays_date false hday
  obtain ⟨hge, hle⟩ := Zeit.year_of_number hvalid (by omega) (by omega)
  have hmonth := hvalid.day_le.trans (Calendar.lastDay_le _ _)
  refine ⟨⟨⟨date.year, date.month, date.day, seconds % 86400 / 3600, seconds % 86400 % 3600 / 60,
    seconds % 86400 % 60⟩, Zeit.weekday (date.number - Zeit.epoch)⟩, ?_, ?_, ?_, ?_⟩
  · refine ⟨?_, show date.day < 100 by omega, hvalid.month_pos, hvalid.month_le, ?_, ?_, ?_⟩
    · show Int.toNat _ < 7
      omega
    all_goals
      dsimp only
      omega
  · exact ⟨by dsimp only; omega, hle, hvalid, rfl⟩
  · dsimp only
    omega
  · unfold secondOf dayOf calendarDate
    dsimp only
    rw [hnumber, Nat.cast_add, Int.add_sub_cancel]
    omega

/-- `parse` undoes `formatDate`, and `formatDate` undoes `parse` but for leap seconds. -/
theorem date_roundTrip (arm : Bool) :
    (∀ seconds now : Nat, seconds < formatLimit → now < limit →
      parse arm (Response.formatDate arm seconds) now = some (some (seconds : Int))) ∧
    (∀ (bytes : Bytes) (now : Nat) (r : Int), bytes.length = 29 → slice bytes 23 25 ≠ ascii "60" →
      parse arm bytes now = some (some r) → 0 ≤ r →
      r < formatLimit ∧ Response.formatDate arm r.toNat = bytes) := by
  constructor
  · intro seconds now hseconds hnow
    obtain ⟨p, hrange, haccept, hsecond, heq⟩ := exists_secondOf hseconds
    have hle := haccept.year_le
    rw [formatDate_secondOf arm hrange haccept hsecond heq,
      parse_imf arm hrange (by omega) hnow, heq]
    exact congrArg some ((finish_iff hrange).mpr ⟨haccept, rfl⟩)
  · intro bytes now r hlen hsixty hparse hpos
    obtain ⟨p, hrange, -, rfl, hfinish⟩ := parse_some hlen hparse
    obtain ⟨haccept, rfl⟩ := (finish_iff hrange).mp hfinish
    have hfield : slice (imf p) 23 25 = places 2 p.second := by
      simp [imf, clock, slice, List.drop_append, List.drop_of_length_le, ascii_gmt,
        length_shortName hrange.weekday, length_monthName hrange.month_pos hrange.month_le]
    have hsecond : p.second ≤ 59 := by
      have hle := hrange.time.second
      by_contra hgt
      have hleap : p.second = 60 := by omega
      rw [hfield, hleap] at hsixty
      exact hsixty (by decide)
    refine ⟨?_, formatDate_secondOf arm hrange haccept hsecond (Int.toNat_of_nonneg hpos)⟩
    have hlast := haccept.number_le
    obtain ⟨hhour, hminute, -⟩ := hrange.time
    rw [formatLimit_eq]
    unfold secondOf dayOf
    unfold Zeit.lastDays at hlast
    omega

theorem date_roundTrip_leapYear :
    parse false (Response.formatDate false 951827696) 1789096284 = some (some (951827696 : Int)) ∧
    Response.formatDate false 951827696 = ascii "Tue, 29 Feb 2000 12:34:56 GMT" := by
  have hparse := (date_roundTrip false).1 951827696 1789096284 (by decide +kernel)
    (by decide +kernel)
  have hformat := (date_roundTrip false).2 (ascii "Tue, 29 Feb 2000 12:34:56 GMT") 1789096284
    951827696 (by decide) (by decide) (by decide +kernel) (by decide)
  exact ⟨hparse, hformat.2⟩

end Zhtps.Date
