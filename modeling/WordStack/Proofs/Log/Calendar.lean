import Mathlib.Algebra.BigOperators.Intervals
import Mathlib.Algebra.Order.BigOperators.Group.Finset
import Mathlib.Tactic.IntervalCases
import WordStack.Log.Calendar

/-! # The Gregorian calendar

The calendar is given by the lengths of its years and months. A date is *proper* if its month has
such a day, and its number counts the days from 1 January 1970 to it, year by year and month by
month (`dayNumber`).

* `dayOfYear_lt`: the days of an era are counted off correctly. A day of an era is so many
  centuries, spans of four years and years from its beginning (`exists_spans`), and from these the
  divisions by the lengths of a span can be told.
* `monthOfYear_spec`, `daysInMonthsBefore_march`: so are the days of a year that begins in March.
* `dayNumber_lt_iff`: proper dates are in the order of their numbers.
* `isDateOf_whole`: the date that is found, with its whole year, is the one with the number. -/

namespace WordStack.Log

/-! ## The lengths of years and months -/

/-- **A leap year**: one in four, but for the ends of the centuries that do not end an era. -/
def IsLeap (year : Nat) : Prop := 4 ∣ year ∧ (100 ∣ year → 400 ∣ year)

instance : DecidablePred IsLeap := fun year => by unfold IsLeap; infer_instance

/-- How many leap days a year has. -/
def leapDays (year : Nat) : Nat := if IsLeap year then 1 else 0

/-- The days of a year. -/
def yearLength (year : Nat) : Nat := 365 + leapDays year

/-- The days of a month. -/
def monthLength (year : Nat) : Nat → Nat
  | 2 => 28 + leapDays year
  | 4 | 6 | 9 | 11 => 30
  | _ => 31

/-- The days from 1 January 1970 to the beginning of a year. -/
def daysInYearsBefore (year : Nat) : Nat := ∑ y ∈ Finset.Ico 1970 year, yearLength y

/-- The days of a year before a month. -/
def daysInMonthsBefore (year month : Nat) : Nat := ∑ m ∈ Finset.Ico 1 month, monthLength year m

theorem leapDays_of_isLeap {year : Nat} (h : IsLeap year) : leapDays year = 1 := if_pos h

theorem leapDays_of_not_isLeap {year : Nat} (h : ¬ IsLeap year) : leapDays year = 0 := if_neg h

theorem leapDays_le (year : Nat) : leapDays year ≤ 1 := by
  unfold leapDays
  split <;> omega

theorem leapDays_add (year : Nat) :
    leapDays year + (if 100 ∣ year then 1 else 0) =
      (if 4 ∣ year then 1 else 0) + if 400 ∣ year then 1 else 0 := by
  have hcentury : 100 ∣ year → 4 ∣ year := fun h => Nat.dvd_trans (by decide) h
  have hera : 400 ∣ year → 100 ∣ year := fun h => Nat.dvd_trans (by decide) h
  unfold leapDays IsLeap
  by_cases h4 : 4 ∣ year <;> by_cases h100 : 100 ∣ year <;> by_cases h400 : 400 ∣ year <;>
    simp_all

theorem monthLength_le (year month : Nat) : monthLength year month ≤ 31 := by
  have := leapDays_le year
  unfold monthLength
  split <;> omega

theorem daysInMonthsBefore_end (year : Nat) : daysInMonthsBefore year 13 = yearLength year := by
  simp only [daysInMonthsBefore, yearLength, monthLength, Finset.sum_Ico_succ_top, Nat.reduceLeDiff,
    Finset.Ico_self, Finset.sum_empty]
  omega

theorem daysInYearsBefore_succ {year : Nat} (h : 1970 ≤ year) :
    daysInYearsBefore (year + 1) = daysInYearsBefore year + yearLength year :=
  Finset.sum_Ico_succ_top h _

theorem daysInMonthsBefore_succ (year : Nat) {month : Nat} (h : 1 ≤ month) :
    daysInMonthsBefore year (month + 1) = daysInMonthsBefore year month + monthLength year month :=
  Finset.sum_Ico_succ_top h _

theorem daysInYearsBefore_mono {year year' : Nat} (h : year ≤ year') :
    daysInYearsBefore year ≤ daysInYearsBefore year' :=
  Finset.sum_le_sum_of_subset (Finset.Ico_subset_Ico_right h)

theorem daysInMonthsBefore_mono (year : Nat) {month month' : Nat} (h : month ≤ month') :
    daysInMonthsBefore year month ≤ daysInMonthsBefore year month' :=
  Finset.sum_le_sum_of_subset (Finset.Ico_subset_Ico_right h)

namespace Date

/-! ## Proper dates -/

/-- **A proper date**: its year has such a month, and this month such a day. -/
structure IsProper (date : Date) : Prop where
  month_pos : 1 ≤ date.month
  month_le : date.month ≤ 12
  day_pos : 1 ≤ date.day
  day_le : date.day ≤ monthLength date.year date.month

/-- **The number of a date**: the days from 1 January 1970 to it. -/
def dayNumber (date : Date) : Nat :=
  daysInYearsBefore date.year + daysInMonthsBefore date.year date.month + (date.day - 1)

/-- One date is before another, by year, month and day. -/
def Before (a b : Date) : Prop :=
  a.year < b.year ∨ a.year = b.year ∧ (a.month < b.month ∨ a.month = b.month ∧ a.day < b.day)

section

variable {a b : Date}

theorem IsProper.day_in_month (h : a.IsProper) :
    daysInMonthsBefore a.year a.month + (a.day - 1) < daysInMonthsBefore a.year (a.month + 1) := by
  have := h.day_pos
  have := h.day_le
  rw [daysInMonthsBefore_succ _ h.month_pos]
  omega

theorem IsProper.dayNumber_lt (h : a.IsProper) (hyear : 1970 ≤ a.year) :
    a.dayNumber < daysInYearsBefore (a.year + 1) := by
  have hmonth := h.day_in_month
  have hend := daysInMonthsBefore_mono a.year (Nat.add_le_add_right h.month_le 1)
  rw [daysInMonthsBefore_end] at hend
  rw [daysInYearsBefore_succ hyear]
  unfold dayNumber
  omega

theorem IsProper.dayNumber_lt_of_before (h : a.IsProper) (hyear : 1970 ≤ a.year)
    (hbefore : a.Before b) : a.dayNumber < b.dayNumber := by
  have hday := h.day_pos
  rcases hbefore with hlt | ⟨hsame, hlt | ⟨hmonth, hlt⟩⟩
  · have hend := h.dayNumber_lt hyear
    have hmono := daysInYearsBefore_mono (Nat.add_one_le_of_lt hlt)
    have hle : daysInYearsBefore b.year ≤ b.dayNumber := by
      unfold dayNumber
      omega
    omega
  · have hend := h.day_in_month
    have hmono := daysInMonthsBefore_mono a.year (Nat.add_one_le_of_lt hlt)
    unfold dayNumber
    rw [← hsame]
    omega
  · unfold dayNumber
    rw [← hsame, ← hmonth]
    omega

/-- **Dates are in the order of their numbers.** -/
theorem dayNumber_lt_iff (ha : a.IsProper) (hb : b.IsProper) (hyear : 1970 ≤ a.year)
    (hyear' : 1970 ≤ b.year) : a.dayNumber < b.dayNumber ↔ a.Before b := by
  refine ⟨fun hlt => ?_, ha.dayNumber_lt_of_before hyear⟩
  by_contra hnot
  have hcases : b.Before a ∨ a = b := by
    unfold Before at hnot ⊢
    cases a
    cases b
    simp only [mk.injEq] at hnot ⊢
    omega
  rcases hcases with hbefore | rfl
  · have := hb.dayNumber_lt_of_before hyear' hbefore
    omega
  · exact lt_irrefl _ hlt

end

/-! ## The days of an era -/

/-- A day of an era lies so many centuries, spans of four years, years and days from its beginning.
The last year of a span has a day more, unless it is the last of a century and not of the era. -/
theorem exists_spans {d : Nat} (h : d < eraLength) :
    ∃ c < 4, ∃ q < 25, ∃ r < 4, ∃ k, d = 36524 * c + 1461 * q + 365 * r + k ∧
      (k < 365 ∨ k = 365 ∧ r = 3 ∧ (q < 24 ∨ c = 3)) := by
  unfold eraLength at h
  obtain ⟨c, hc⟩ : ∃ c, c = min (d / 36524) 3 := ⟨_, rfl⟩
  obtain ⟨q, hq⟩ : ∃ q, q = (d - 36524 * c) / 1461 := ⟨_, rfl⟩
  obtain ⟨r, hr⟩ : ∃ r, r = min ((d - 36524 * c - 1461 * q) / 365) 3 := ⟨_, rfl⟩
  exact ⟨c, by omega, q, by omega, r, by omega, d - 36524 * c - 1461 * q - 365 * r, by omega,
    by omega⟩

section

variable {d c q r k : Nat} (hc : c < 4) (hq : q < 25) (hr : r < 4)
  (hd : d = 36524 * c + 1461 * q + 365 * r + k)
  (hk : k < 365 ∨ k = 365 ∧ r = 3 ∧ (q < 24 ∨ c = 3))
include hc hq hr hd hk

/-- **The year of a day** is counted off. Only in the last days of a span of four years does the
division by 1460 already count the next one, and only on the last day of all do the divisions by the
lengths of a century and of the era. -/
theorem yearOfEra_eq : yearOfEra d = 100 * c + 4 * q + r := by
  have hspans : d / 1460 =
      25 * c + q + if 1460 ≤ 24 * c + q + 365 * r + k then 1 else 0 := by split <;> omega
  have hcenturies : d / 36524 = if d = 146096 then 4 else c := by split <;> omega
  have heras : d / 146096 = if d = 146096 then 1 else 0 := by split <;> omega
  unfold yearOfEra
  rw [hspans, hcenturies, heras]
  split <;> split <;> omega

theorem daysBeforeYear_yearOfEra : daysBeforeYear (yearOfEra d) + k = d := by
  rw [yearOfEra_eq hc hq hr hd hk]
  unfold daysBeforeYear
  omega

theorem lt_yearLength : k < yearLength (yearOfEra d + 1) := by
  rw [yearOfEra_eq hc hq hr hd hk]
  unfold yearLength
  by_cases hleap : IsLeap (100 * c + 4 * q + r + 1)
  · rw [leapDays_of_isLeap hleap]
    omega
  · rw [leapDays_of_not_isLeap hleap]
    unfold IsLeap at hleap
    omega

end

/-- **The days of an era are counted off** by years that begin in March, the leap day being the last
of the year. -/
theorem dayOfYear_lt {d : Nat} (h : d < eraLength) :
    yearOfEra d < 400 ∧ daysBeforeYear (yearOfEra d) + dayOfYear d = d ∧
      dayOfYear d < yearLength (yearOfEra d + 1) := by
  obtain ⟨c, hc, q, hq, r, hr, k, hd, hk⟩ := exists_spans h
  have hbefore := daysBeforeYear_yearOfEra hc hq hr hd hk
  have hday : dayOfYear d = k := by
    unfold dayOfYear
    omega
  rw [hday]
  refine ⟨?_, hbefore, lt_yearLength hc hq hr hd hk⟩
  rw [yearOfEra_eq hc hq hr hd hk]
  omega

/-! ## The days of a year -/

/-- **The days of a year are counted off** by months from March on. -/
theorem monthOfYear_spec {d : Nat} (h : d < 366) :
    monthOfYear d < 12 ∧ daysBeforeMonth (monthOfYear d) ≤ d ∧
      d < daysBeforeMonth (monthOfYear d + 1) := by
  unfold monthOfYear daysBeforeMonth
  omega

theorem daysInMonthsBefore_march (year : Nat) {m : Nat} (h : m < 10) :
    daysInMonthsBefore year (m + 3) = 59 + leapDays year + daysBeforeMonth m ∧
      daysBeforeMonth (m + 1) = daysBeforeMonth m + monthLength year (m + 3) := by
  interval_cases m <;>
    simp [daysInMonthsBefore, daysBeforeMonth, monthLength, Finset.sum_Ico_succ_top] <;> omega

theorem daysInMonthsBefore_january (year : Nat) {m d : Nat} (h : 10 ≤ m) (h' : m < 12) :
    daysInMonthsBefore year (m - 9) + 306 = daysBeforeMonth m ∧
      (d < daysBeforeMonth (m + 1) → d < yearLength year →
        d < daysBeforeMonth m + monthLength year (m - 9)) := by
  unfold yearLength
  interval_cases m <;> simp [daysInMonthsBefore, daysBeforeMonth, monthLength] <;> omega

/-! ## The days since 1970 -/

/-- The days from 1 March of the year zero to 1 March of a year. -/
def daysToMarch (year : Nat) : Nat := 365 * year + year / 4 - year / 100 + year / 400

theorem daysToMarch_succ (year : Nat) :
    daysToMarch (year + 1) = daysToMarch year + yearLength (year + 1) := by
  have hleap := leapDays_add (year + 1)
  have hle : year / 100 ≤ year / 4 := Nat.div_le_div_left (by omega) (by omega)
  have hle' : (year + 1) / 100 ≤ (year + 1) / 4 := Nat.div_le_div_left (by omega) (by omega)
  rw [Nat.succ_div, Nat.succ_div] at hle'
  unfold daysToMarch yearLength
  rw [Nat.succ_div, Nat.succ_div, Nat.succ_div]
  omega

theorem daysToMarch_mono {year year' : Nat} (h : year ≤ year') :
    daysToMarch year ≤ daysToMarch year' := by
  refine monotone_nat_of_le_succ (fun y => ?_) h
  rw [daysToMarch_succ]
  omega

theorem daysToMarch_era (era : Nat) {year : Nat} (h : year < 400) :
    daysToMarch (year + era * 400) = eraLength * era + daysBeforeYear year := by
  unfold daysToMarch eraLength daysBeforeYear
  omega

/-- A year begins 306 days after 1 March of the year before. -/
theorem daysInYearsBefore_eq {year : Nat} (h : 1969 ≤ year) :
    daysInYearsBefore (year + 1) + epoch = daysToMarch year + 306 := by
  induction year, h using Nat.le_induction with
  | base => decide
  | succ year h ih =>
    rw [daysInYearsBefore_succ (by omega), daysToMarch_succ]
    omega

/-- **The date of a day**: a proper date from 1970 on with the number of this day. -/
structure IsDateOf (days : Nat) (date : Date) : Prop where
  proper : date.IsProper
  year_ge : 1970 ≤ date.year
  number : date.dayNumber = days

theorem IsDateOf.unique {days : Nat} {a b : Date} (ha : IsDateOf days a) (hb : IsDateOf days b) :
    a = b := by
  have hnumber := ha.number.trans hb.number.symm
  have hnot : ¬ a.Before b := fun h =>
    (ha.proper.dayNumber_lt_of_before ha.year_ge h).ne hnumber
  have hnot' : ¬ b.Before a := fun h =>
    (hb.proper.dayNumber_lt_of_before hb.year_ge h).ne hnumber.symm
  unfold Before at hnot hnot'
  cases a
  cases b
  simp only [mk.injEq] at hnot hnot' ⊢
  omega

section

variable {days year m k : Nat}

/-- **A date from March to December**, in the year that begins in March. -/
theorem isDateOf_march (hm : m < 10) (hk : daysBeforeMonth m + k < daysBeforeMonth (m + 1))
    (hdays : days + epoch = daysToMarch year + (daysBeforeMonth m + k)) :
    IsDateOf days ⟨year, m + 3, k + 1⟩ := by
  obtain ⟨hbefore, hlength⟩ := daysInMonthsBefore_march year hm
  have hyear : 1970 ≤ year := by
    by_contra hlt
    have hmono := daysToMarch_mono (show year ≤ 1969 by omega)
    have hend : daysToMarch 1969 = 719162 := by decide
    unfold daysBeforeMonth at hk hdays
    unfold epoch at hdays
    omega
  refine ⟨?_, hyear, ?_⟩
  · constructor <;> dsimp only <;> omega
  · obtain ⟨first, rfl⟩ := Nat.exists_eq_add_of_le' (show 1 ≤ year by omega)
    have hyears := daysInYearsBefore_eq (show 1969 ≤ first by omega)
    rw [daysToMarch_succ] at hdays
    unfold yearLength at hdays
    unfold dayNumber
    simp only [hbefore]
    omega

/-- **A date of January or February**, which belongs to the year that begins in March before. -/
theorem isDateOf_january (hm : 10 ≤ m) (hm' : m < 12)
    (hk : daysBeforeMonth m + k < daysBeforeMonth (m + 1))
    (hk' : daysBeforeMonth m + k < yearLength (year + 1))
    (hdays : days + epoch = daysToMarch year + (daysBeforeMonth m + k)) :
    IsDateOf days ⟨year + 1, m - 9, k + 1⟩ := by
  obtain ⟨hbefore, hlength⟩ := daysInMonthsBefore_january (year + 1) hm hm'
  have hday := hlength hk hk'
  have hyear : 1969 ≤ year := by
    by_contra hlt
    have hmono := daysToMarch_mono (show year + 1 ≤ 1969 by omega)
    have hend : daysToMarch 1969 = 719162 := by decide
    rw [daysToMarch_succ] at hmono
    unfold epoch at hdays
    omega
  refine ⟨?_, Nat.add_le_add_right hyear 1, ?_⟩
  · constructor <;> dsimp only <;> omega
  · have hyears := daysInYearsBefore_eq hyear
    unfold dayNumber
    simp only
    omega

end

theorem leapDays_add_eras (year era : Nat) : leapDays (year + era * 400) = leapDays year := by
  have hleap : IsLeap (year + era * 400) ↔ IsLeap year := by
    unfold IsLeap
    omega
  exact if_congr hleap rfl rfl

theorem daysToMarch_add_dayOfYear (days : Nat) :
    days + epoch = daysToMarch (yearOfEra (dayOfEra days) + era days * 400)
      + dayOfYear (dayOfEra days) ∧
    dayOfYear (dayOfEra days) < yearLength (yearOfEra (dayOfEra days) + era days * 400 + 1) := by
  have hsplit : eraLength * era days + dayOfEra days = days + epoch := Nat.div_add_mod _ _
  have hday : dayOfEra days < eraLength := Nat.mod_lt _ (by decide)
  obtain ⟨hyear, hbefore, hlt⟩ := dayOfYear_lt hday
  constructor
  · rw [daysToMarch_era _ hyear]
    omega
  · unfold yearLength at hlt ⊢
    rw [Nat.add_right_comm, leapDays_add_eras]
    exact hlt

/-- The date that is found, with its whole year. -/
def whole (days : Nat) : Date := { ofDays days with year := yearOfDays days }

/-- **The date that is found is the date of the day.** -/
theorem isDateOf_whole (days : Nat) : IsDateOf days (whole days) := by
  obtain ⟨hdays, hlt⟩ := daysToMarch_add_dayOfYear days
  have hle := leapDays_le (yearOfEra (dayOfEra days) + era days * 400 + 1)
  obtain ⟨hm, hbefore, hafter⟩ := monthOfYear_spec
    (show dayOfYear (dayOfEra days) < 366 by unfold yearLength at hlt; omega)
  unfold whole ofDays yearOfDays monthNumber
  simp only
  generalize monthOfYear (dayOfYear (dayOfEra days)) = m at *
  obtain ⟨k, hk⟩ := Nat.exists_eq_add_of_le hbefore
  rw [hk] at hdays hlt hafter ⊢
  rw [Nat.add_sub_cancel_left]
  by_cases hmarch : m < 10
  · rw [if_pos hmarch, if_neg (by omega)]
    exact isDateOf_march hmarch hafter hdays
  · rw [if_neg hmarch, if_pos (by omega)]
    exact isDateOf_january (by omega) hm hafter hlt hdays

theorem ofDays_eq {days : Nat} {date : Date} (h : IsDateOf days date) (hyear : date.year < 2 ^ 32) :
    ofDays days = date := by
  obtain rfl := (isDateOf_whole days).unique h
  have hcut : (whole days).year % UInt32.size = (whole days).year := Nat.mod_eq_of_lt hyear
  show { whole days with year := (whole days).year % UInt32.size } = whole days
  rw [hcut]

example : ofDays 19782 = ⟨2024, 2, 29⟩ := by decide

end Date

end WordStack.Log
