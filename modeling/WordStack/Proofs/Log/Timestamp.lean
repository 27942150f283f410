import Mathlib.Data.String.Basic
import WordStack.Log.Timestamp
import WordStack.Proofs.Digits
import WordStack.Proofs.Log.Calendar

/-! # Timestamps in order

A timestamp is the text of a date and behind it the text of a time of day, both with a fixed number
of digits for each number and the weightiest number first. So dates of four-digit years compare as
their texts do (`dateText_lt_iff`), and so do times of day (`clockText_lt_iff`). The day and the
time in it are the quotient and the remainder of the milliseconds since 1970, from which follows the
order of the timestamps (`timestamp_lt_iff`, `timestamps_sort`). -/

namespace WordStack.Log

open Numeral

/-- A length of time in whole milliseconds. -/
def Elapsed.milliseconds (t : Elapsed) : Nat := t.seconds * 1000 + t.nanoseconds / 1000000

/-- **A time since 1970 whose year has four digits.** As in any length of time, the nanoseconds are
fewer than those of a second. -/
structure Elapsed.InFourDigits (t : Elapsed) : Prop where
  nanoseconds_lt : t.nanoseconds < 10 ^ 9
  year_le : ∃ date, Date.IsDateOf (t.seconds / 86400) date ∧ date.year ≤ 9999

/-- The milliseconds of a day. -/
def dayLength : Nat := 86400000

/-! ## The two parts of a timestamp -/

/-- The text of a date. -/
def dateText (date : Date) : List Char :=
  (decimalPadded 4 date.year).toList ++ '-' :: ((decimalPadded 2 date.month).toList ++
    '-' :: (decimalPadded 2 date.day).toList)

/-- The text of a time of day. -/
def clockText (t : Elapsed) : List Char :=
  (decimalPadded 2 (t.seconds / 3600 % 24)).toList ++ ':' ::
    ((decimalPadded 2 (t.seconds / 60 % 60)).toList ++ ':' ::
      ((decimalPadded 2 (t.seconds % 60)).toList ++ '.' ::
        (decimalPadded 3 (t.nanoseconds / 1000000)).toList))

theorem toList_timestamp (t : Elapsed) :
    (timestamp t).toList = dateText (Date.ofDays (t.seconds / 86400)) ++ ' ' :: clockText t := by
  have hparts : ∀ year month day hour minute second rest : String,
      (year ++ "-" ++ month ++ "-" ++ day ++ " " ++ hour ++ ":" ++ minute ++ ":" ++ second ++ "."
        ++ rest).toList =
      (year.toList ++ '-' :: (month.toList ++ '-' :: day.toList)) ++ ' ' :: (hour.toList ++
        ':' :: (minute.toList ++ ':' :: (second.toList ++ '.' :: rest.toList))) := by
    intros
    simp [String.toList_append]
  exact hparts _ _ _ _ _ _ _

example : timestamp ⟨1704114309, 42000000⟩ = "2024-01-01 13:05:09.042" := by decide

/-! ## Dates -/

/-- A date with a digit for each place of its text. -/
structure Date.Fits (date : Date) : Prop where
  year_lt : date.year < 10 ^ 4
  month_lt : date.month < 10 ^ 2
  day_lt : date.day < 10 ^ 2

theorem Date.IsProper.fits {date : Date} (h : date.IsProper) (hyear : date.year ≤ 9999) :
    date.Fits where
  year_lt := by omega
  month_lt := by
    have := h.month_le
    omega
  day_lt := by
    have := h.day_le
    have := monthLength_le date.year date.month
    omega

theorem length_dateText {date : Date} (h : date.Fits) : (dateText date).length = 10 := by
  unfold dateText
  simp only [List.length_append, List.length_cons, length_decimalPadded (by omega) h.year_lt,
    length_decimalPadded (by omega) h.month_lt, length_decimalPadded (by omega) h.day_lt]

theorem dateText_lt_iff {a b : Date} (ha : a.Fits) (hb : b.Fits) :
    dateText a < dateText b ↔ a.Before b := by
  unfold dateText
  rw [decimalPadded_append_lt_iff (by omega) ha.year_lt hb.year_lt, List.cons_lt_cons_self,
    decimalPadded_append_lt_iff (by omega) ha.month_lt hb.month_lt, List.cons_lt_cons_self,
    decimalPadded_lt_iff (by omega) ha.day_lt hb.day_lt]
  rfl

/-! ## Times of day -/

section

variable {s t : Elapsed}

theorem length_clockText (ht : t.nanoseconds < 10 ^ 9) : (clockText t).length = 12 := by
  unfold clockText
  simp (disch := omega) only [List.length_append, List.length_cons, length_decimalPadded]

theorem clockText_lt_iff (hs : s.nanoseconds < 10 ^ 9) (ht : t.nanoseconds < 10 ^ 9) :
    clockText s < clockText t ↔ s.milliseconds % dayLength < t.milliseconds % dayLength := by
  unfold clockText
  rw [decimalPadded_append_lt_iff (by omega) (by omega) (by omega), List.cons_lt_cons_self,
    decimalPadded_append_lt_iff (by omega) (by omega) (by omega), List.cons_lt_cons_self,
    decimalPadded_append_lt_iff (by omega) (by omega) (by omega), List.cons_lt_cons_self,
    decimalPadded_lt_iff (by omega) (by omega) (by omega)]
  unfold Elapsed.milliseconds dayLength
  omega

/-! ## Timestamps -/

theorem milliseconds_div (ht : t.nanoseconds < 10 ^ 9) :
    t.milliseconds / dayLength = t.seconds / 86400 := by
  unfold Elapsed.milliseconds dayLength
  omega

theorem Elapsed.InFourDigits.date (h : t.InFourDigits) :
    Date.IsDateOf (t.seconds / 86400) (Date.ofDays (t.seconds / 86400)) ∧
      (Date.ofDays (t.seconds / 86400)).Fits := by
  obtain ⟨date, hdate, hyear⟩ := h.year_le
  rw [Date.ofDays_eq hdate (by omega)]
  exact ⟨hdate, hdate.proper.fits hyear⟩

theorem length_timestamp (h : t.InFourDigits) : (timestamp t).length = 23 := by
  rw [← String.length_toList, toList_timestamp, List.length_append, List.length_cons,
    length_dateText h.date.2, length_clockText h.nanoseconds_lt]

/-- **Timestamps compare as the milliseconds do.** -/
theorem timestamp_lt_iff (hs : s.InFourDigits) (ht : t.InFourDigits) :
    timestamp s < timestamp t ↔ s.milliseconds < t.milliseconds := by
  have hdates : ∀ {s t : Elapsed}, s.InFourDigits → t.InFourDigits →
      (dateText (Date.ofDays (s.seconds / 86400)) < dateText (Date.ofDays (t.seconds / 86400)) ↔
        s.seconds / 86400 < t.seconds / 86400) := by
    intro s t hs ht
    obtain ⟨hdate, hfits⟩ := hs.date
    obtain ⟨hdate', hfits'⟩ := ht.date
    rw [dateText_lt_iff hfits hfits',
      ← Date.dayNumber_lt_iff hdate.proper hdate'.proper hdate.year_ge hdate'.year_ge, hdate.number,
      hdate'.number]
  have hsame := Positional.eq_iff_of_lt_iff (f := fun days => dateText (Date.ofDays days))
    (hdates hs ht) (hdates ht hs)
  rw [String.lt_iff, toList_timestamp, toList_timestamp,
    append_lt_append_iff ((length_dateText hs.date.2).trans (length_dateText ht.date.2).symm),
    hdates hs ht, hsame, List.cons_lt_cons_self,
    clockText_lt_iff hs.nanoseconds_lt ht.nanoseconds_lt,
    lt_iff_div_mod dayLength s.milliseconds t.milliseconds, milliseconds_div hs.nanoseconds_lt,
    milliseconds_div ht.nanoseconds_lt]

/-- **Timestamps sort as text.** In years of four digits, one timestamp is before another in the
order of a lexicon, or the same, exactly if this holds of the times in whole milliseconds, and each
has 23 characters. -/
theorem timestamps_sort (hs : s.InFourDigits) (ht : t.InFourDigits) :
    (timestamp s ≤ timestamp t ↔ s.milliseconds ≤ t.milliseconds) ∧
      (timestamp s = timestamp t ↔ s.milliseconds = t.milliseconds) ∧
      (timestamp s).length = 23 ∧ (timestamp t).length = 23 := by
  have hle : timestamp s ≤ timestamp t ↔ s.milliseconds ≤ t.milliseconds :=
    (not_congr (timestamp_lt_iff ht hs)).trans Nat.not_lt
  have hge : timestamp t ≤ timestamp s ↔ t.milliseconds ≤ s.milliseconds :=
    (not_congr (timestamp_lt_iff hs ht)).trans Nat.not_lt
  refine ⟨hle, ?_, length_timestamp hs, length_timestamp ht⟩
  rw [le_antisymm_iff, hle, hge, ← le_antisymm_iff]

end

/-- The last millisecond of February in a leap year, and the first of March. -/
theorem timestamps_sort_march :
    Elapsed.InFourDigits ⟨951868799, 999999999⟩ ∧ Elapsed.InFourDigits ⟨951868800, 0⟩ ∧
      (timestamp ⟨951868799, 999999999⟩ ≤ timestamp ⟨951868800, 0⟩ ↔ 951868799999 ≤ 951868800000) ∧
      (timestamp ⟨951868799, 999999999⟩ = timestamp ⟨951868800, 0⟩ ↔
        951868799999 = 951868800000) ∧
      (timestamp ⟨951868799, 999999999⟩).length = 23 ∧ (timestamp ⟨951868800, 0⟩).length = 23 := by
  have hfour : ∀ {t : Elapsed}, t.nanoseconds < 10 ^ 9 →
      (Date.whole (t.seconds / 86400)).year ≤ 9999 → t.InFourDigits :=
    fun hn hy => ⟨hn, _, Date.isDateOf_whole _, hy⟩
  have hs : Elapsed.InFourDigits ⟨951868799, 999999999⟩ := hfour (by decide) (by decide)
  have ht : Elapsed.InFourDigits ⟨951868800, 0⟩ := hfour (by decide) (by decide)
  exact ⟨hs, ht, timestamps_sort hs ht⟩

end WordStack.Log
