import Mathlib

/-!
The proleptic Gregorian calendar.

Days are numbered from 1 January of the year 0 by adding up the years and the months before them.
A valid date is determined by its number, and the date after it has the next one.
-/

namespace Lib.Calendar

/-- A year, a month from 1 and a day from 1. -/
structure Date where
  year : Nat
  month : Nat
  day : Nat
  deriving DecidableEq, Repr

def isLeap (year : Nat) : Bool :=
  year % 4 = 0 && (year % 100 ≠ 0 || year % 400 = 0)

def lastDay (year month : Nat) : Nat :=
  match month with
  | 2 => if isLeap year then 29 else 28
  | 4 | 6 | 9 | 11 => 30
  | _ => 31

structure Date.Valid (d : Date) : Prop where
  month_pos : 1 ≤ d.month
  month_le : d.month ≤ 12
  day_pos : 1 ≤ d.day
  day_le : d.day ≤ lastDay d.year d.month

instance (d : Date) : Decidable d.Valid :=
  decidable_of_iff (1 ≤ d.month ∧ d.month ≤ 12 ∧ 1 ≤ d.day ∧ d.day ≤ lastDay d.year d.month)
    ⟨fun h => ⟨h.1, h.2.1, h.2.2.1, h.2.2.2⟩, fun h => ⟨h.1, h.2, h.3, h.4⟩⟩

def yearDays (year : Nat) : Nat := if isLeap year then 366 else 365

def daysBeforeYear : Nat → Nat
  | 0 => 0
  | year + 1 => daysBeforeYear year + yearDays year

/-- The days of the months before a month. -/
def daysBeforeMonth (year : Nat) : Nat → Nat
  | 0 | 1 => 0
  | month + 2 => daysBeforeMonth year (month + 1) + lastDay year (month + 1)

def Date.number (d : Date) : Nat :=
  daysBeforeYear d.year + daysBeforeMonth d.year d.month + d.day - 1

/-- The day after a day. -/
def Date.next (d : Date) : Date :=
  if d.day < lastDay d.year d.month then { d with day := d.day + 1 }
  else if d.month < 12 then ⟨d.year, d.month + 1, 1⟩
  else ⟨d.year + 1, 1, 1⟩

/-! ### Years and months -/

theorem daysBeforeYear_eq (year : Nat) :
    daysBeforeYear year + (year + 99) / 100 = 365 * year + (year + 3) / 4 + (year + 399) / 400 := by
  induction year with
  | zero => rfl
  | succ year ih =>
      rw [daysBeforeYear, yearDays, isLeap]
      by_cases h4 : year % 4 = 0
      · by_cases h100 : year % 100 = 0
        · by_cases h400 : year % 400 = 0
          · simp only [h4, h100, h400, decide_true, Bool.or_true, Bool.and_true, if_true]
            omega
          · simp only [h4, h100, h400, decide_true, decide_false, ne_eq, not_true_eq_false,
              Bool.or_false, Bool.and_false, if_false, Bool.false_eq_true]
            omega
        · simp only [h4, h100, decide_true, ne_eq, not_false_eq_true, Bool.true_or, Bool.and_true,
            if_true]
          omega
      · simp only [h4, decide_false, Bool.false_and, Bool.false_eq_true, if_false]
        omega

theorem isLeap_iff (year : Nat) :
    isLeap year = true ↔ year % 4 = 0 ∧ (year % 100 ≠ 0 ∨ year % 400 = 0) := by
  simp [isLeap]

theorem lastDay_pos (year month : Nat) : 28 ≤ lastDay year month := by
  unfold lastDay
  split
  · split <;> decide
  all_goals decide

theorem lastDay_le (year month : Nat) : lastDay year month ≤ 31 := by
  unfold lastDay
  split
  · split <;> decide
  all_goals decide

theorem daysBeforeMonth_mono (year : Nat) {month month' : Nat} (h : month ≤ month') :
    daysBeforeMonth year month ≤ daysBeforeMonth year month' := by
  induction h with
  | refl => exact Nat.le_refl _
  | @step m _ ih =>
      refine ih.trans ?_
      cases m with
      | zero => exact Nat.le_refl _
      | succ m => exact Nat.le_add_right _ _

/-- The twelve months make up the year. -/
theorem daysBeforeMonth_year (year : Nat) : daysBeforeMonth year 13 = yearDays year := by
  simp only [daysBeforeMonth, lastDay, yearDays]
  split <;> rfl

theorem Date.Valid.within_month {d : Date} (h : d.Valid) :
    daysBeforeMonth d.year d.month + d.day ≤ daysBeforeMonth d.year (d.month + 1) := by
  obtain ⟨month, hmonth⟩ := Nat.exists_eq_add_of_le' h.month_pos
  rw [hmonth, daysBeforeMonth, ← hmonth]
  exact Nat.add_le_add_left h.day_le _

theorem Date.Valid.within_year {d : Date} (h : d.Valid) :
    daysBeforeMonth d.year d.month + d.day ≤ yearDays d.year := by
  rw [← daysBeforeMonth_year]
  exact h.within_month.trans (daysBeforeMonth_mono d.year (Nat.succ_le_succ h.month_le))

theorem daysBeforeYear_mono {year year' : Nat} (h : year ≤ year') :
    daysBeforeYear year ≤ daysBeforeYear year' := by
  induction h with
  | refl => exact Nat.le_refl _
  | step _ ih => exact ih.trans (Nat.le_add_right _ _)

/-! ### Numbers -/

theorem Date.Valid.number_ge {d : Date} (h : d.Valid) : daysBeforeYear d.year ≤ d.number := by
  have := h.day_pos
  unfold Date.number
  omega

theorem Date.Valid.number_lt {d : Date} (h : d.Valid) : d.number < daysBeforeYear (d.year + 1) := by
  have := h.within_year
  have := h.day_pos
  rw [Date.number, daysBeforeYear]
  omega

/-- A number has one date. -/
theorem Date.Valid.eq_of_number {d d' : Date} (h : d.Valid) (h' : d'.Valid)
    (heq : d.number = d'.number) : d = d' := by
  obtain ⟨year, month, day⟩ := d
  obtain ⟨year', month', day'⟩ := d'
  -- The years first, then the months: one that is earlier ends before the other one begins.
  have hyear : year = year' := by
    have hends : ∀ {a b : Date}, a.Valid → b.Valid → a.number = b.number → a.year ≤ b.year := by
      intro a b ha hb hnumber
      by_contra hlt
      have := daysBeforeYear_mono (show b.year + 1 ≤ a.year from Nat.lt_of_not_le hlt)
      have := hb.number_lt
      have := ha.number_ge
      omega
    exact Nat.le_antisymm (hends h h' heq) (hends h' h heq.symm)
  subst hyear
  have hdays : daysBeforeMonth year month + day = daysBeforeMonth year month' + day' := by
    have hpos := h.day_pos
    have hpos' := h'.day_pos
    simp only [Date.number] at heq hpos hpos'
    omega
  have hmonth : month = month' := by
    have hends : ∀ {m m' d d' : Nat}, Date.Valid ⟨year, m, d⟩ → Date.Valid ⟨year, m', d'⟩ →
        daysBeforeMonth year m + d = daysBeforeMonth year m' + d' → m ≤ m' := by
      intro m m' d d' hm hm' hsum
      by_contra hlt
      have hmono := daysBeforeMonth_mono year (show m' + 1 ≤ m from Nat.lt_of_not_le hlt)
      have hwithin := hm'.within_month
      have hpos := hm.day_pos
      simp only at hwithin hpos
      omega
    exact Nat.le_antisymm (hends h h' hdays) (hends h' h hdays.symm)
  subst hmonth
  obtain rfl : day = day' := Nat.add_left_cancel hdays
  rfl

theorem Date.Valid.next {d : Date} (h : d.Valid) : d.next.Valid := by
  have hpos : ∀ year month, 1 ≤ lastDay year month := fun year month =>
    (by decide : 1 ≤ 28).trans (lastDay_pos year month)
  unfold Date.next
  split
  next hday => exact ⟨h.month_pos, h.month_le, Nat.le_add_left _ _, hday⟩
  next =>
    split
    next hmonth => exact ⟨Nat.le_add_left _ _, hmonth, Nat.le_refl _, hpos _ _⟩
    next => exact ⟨Nat.le_refl _, (by decide : 1 ≤ 12), Nat.le_refl _, hpos _ _⟩

theorem Date.Valid.number_next {d : Date} (h : d.Valid) : d.next.number = d.number + 1 := by
  obtain ⟨year, month, day⟩ := d
  have hday := h.day_pos
  have hlast := h.day_le
  obtain ⟨m, rfl⟩ := Nat.exists_eq_add_of_le' h.month_pos
  simp only at hday hlast
  unfold Date.next
  split
  next => simp only [Date.number]; omega
  next hend =>
    simp only at hend
    obtain rfl : day = lastDay year (m + 1) := by omega
    split
    next => simp only [Date.number, daysBeforeMonth]; omega
    next hmonth =>
      obtain rfl : m = 11 := by
        have := h.month_le
        simp only at this hmonth
        omega
      have hyear := daysBeforeMonth_year year
      rw [daysBeforeMonth] at hyear
      simp only [Date.number, daysBeforeYear, daysBeforeMonth] at hyear ⊢
      omega

end Lib.Calendar
