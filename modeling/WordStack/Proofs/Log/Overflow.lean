import WordStack.Proofs.Log.Calendar

/-! # Dates in machine integers

The date of a day is worked out in integers of a fixed width: days and years since the year zero
have 64 bits, one of them for a sign that no number here needs, and all numbers in an era or a year
have 32 bits and no sign. The same steps are taken here with the exact result of each looked at: a
sum or a product that is too large for its width (`held?`) and a difference below zero (`minus?`)
end them without a date.

* `ofDays?_eq`: for every day that a clock with 64 bits for the seconds can show there is a date,
  and it is the one that is found without looking.
* `ofDays_gregorian`: this is the date of the Gregorian calendar, but for the width of the year. -/

namespace WordStack.Log.Date

/-! ## Checked steps

Each function is the one of the same name without the mark, one operation at a time. Quotients and
remainders are not looked at, since they are never too large. -/

/-- A result for which there are so many bits. -/
def held? (bits n : Nat) : Option Nat := if n < 2 ^ bits then some n else none

/-- A difference that is not below zero. -/
def minus? (a b : Nat) : Option Nat := if b ≤ a then some (a - b) else none

theorem held?_of_lt {bits n : Nat} (h : n < 2 ^ bits) : held? bits n = some n := if_pos h

theorem minus?_of_le {a b : Nat} (h : b ≤ a) : minus? a b = some (a - b) := if_pos h

def yearOfEra? (dayOfEra : Nat) : Option Nat := do
  let rest ← minus? dayOfEra (dayOfEra / 1460)
  let sum ← held? 32 (rest + dayOfEra / 36524)
  let days ← minus? sum (dayOfEra / 146096)
  return days / 365

def daysBeforeYear? (yearOfEra : Nat) : Option Nat := do
  let days ← held? 32 (365 * yearOfEra)
  let sum ← held? 32 (days + yearOfEra / 4)
  minus? sum (yearOfEra / 100)

def dayOfYear? (dayOfEra yearOfEra : Nat) : Option Nat := do
  let before ← daysBeforeYear? yearOfEra
  minus? dayOfEra before

def monthOfYear? (dayOfYear : Nat) : Option Nat := do
  let product ← held? 32 (5 * dayOfYear)
  let sum ← held? 32 (product + 2)
  return sum / 153

def dayOfMonth? (dayOfYear monthOfYear : Nat) : Option Nat := do
  let product ← held? 32 (153 * monthOfYear)
  let sum ← held? 32 (product + 2)
  let day ← minus? dayOfYear (sum / 5)
  held? 32 (day + 1)

def monthNumber? (monthOfYear : Nat) : Option Nat :=
  if monthOfYear < 10 then held? 32 (monthOfYear + 3) else minus? monthOfYear 9

/-- The date of a day of an era, in the order in which it is worked out. Only the year of the date
is cut to 32 bits. -/
def ofEra? (era dayOfEra : Nat) : Option Date := do
  let yearOfEra ← yearOfEra? dayOfEra
  let eras ← held? 63 (era * 400)
  let first ← held? 63 (yearOfEra + eras)
  let dayOfYear ← dayOfYear? dayOfEra yearOfEra
  let monthOfYear ← monthOfYear? dayOfYear
  let day ← dayOfMonth? dayOfYear monthOfYear
  let month ← monthNumber? monthOfYear
  let year ← if month ≤ 2 then held? 63 (first + 1) else some first
  return { year := year % UInt32.size, month := month, day := day }

/-- **The date of a day, with each step checked.** -/
def ofDays? (days : Nat) : Option Date := do
  let days ← held? 63 days
  let sum ← held? 63 (days + epoch)
  let dayOfEra ← held? 32 (sum % eraLength)
  ofEra? (sum / eraLength) dayOfEra

/-! ## No step fails -/

theorem yearOfEra?_eq {d : Nat} (h : d < eraLength) : yearOfEra? d = some (yearOfEra d) := by
  unfold eraLength at h
  simp (disch := omega) only [yearOfEra?, held?_of_lt, minus?_of_le, Option.bind_eq_bind,
    Option.bind_some]
  rfl

theorem daysBeforeYear?_eq {year : Nat} (h : year < 400) :
    daysBeforeYear? year = some (daysBeforeYear year) := by
  simp (disch := omega) only [daysBeforeYear?, held?_of_lt, minus?_of_le, Option.bind_eq_bind,
    Option.bind_some]
  rfl

theorem dayOfYear?_eq {d : Nat} (h : d < eraLength) :
    dayOfYear? d (yearOfEra d) = some (dayOfYear d) := by
  obtain ⟨hyear, hbefore, -⟩ := dayOfYear_lt h
  rw [dayOfYear?, daysBeforeYear?_eq hyear]
  exact minus?_of_le (by omega)

theorem monthOfYear?_eq {d : Nat} (h : d < 366) : monthOfYear? d = some (monthOfYear d) := by
  simp (disch := omega) only [monthOfYear?, held?_of_lt, Option.bind_eq_bind, Option.bind_some]
  rfl

theorem dayOfMonth?_eq {d : Nat} (h : d < 366) :
    dayOfMonth? d (monthOfYear d) = some (d - daysBeforeMonth (monthOfYear d) + 1) := by
  obtain ⟨hmonth, hbefore, -⟩ := monthOfYear_spec h
  unfold daysBeforeMonth at hbefore
  simp (disch := omega) only [dayOfMonth?, held?_of_lt, minus?_of_le, Option.bind_eq_bind,
    Option.bind_some]
  rfl

theorem monthNumber?_eq {m : Nat} (h : m < 12) : monthNumber? m = some (monthNumber m) := by
  unfold monthNumber? monthNumber
  split
  · exact held?_of_lt (by omega)
  · exact minus?_of_le (by omega)

theorem ofEra?_eq {era d : Nat} (hera : era < 2 ^ 50) (hd : d < eraLength) :
    ofEra? era d = some
      { year := (if monthNumber (monthOfYear (dayOfYear d)) ≤ 2 then yearOfEra d + era * 400 + 1
          else yearOfEra d + era * 400) % UInt32.size
        month := monthNumber (monthOfYear (dayOfYear d))
        day := dayOfYear d - daysBeforeMonth (monthOfYear (dayOfYear d)) + 1 } := by
  obtain ⟨hyear, -, hlt⟩ := dayOfYear_lt hd
  have hinYear : dayOfYear d < 366 := by
    have := leapDays_le (yearOfEra d + 1)
    unfold yearLength at hlt
    omega
  obtain ⟨hmonth, -, -⟩ := monthOfYear_spec hinYear
  simp (disch := omega) only [ofEra?, yearOfEra?_eq hd, held?_of_lt, dayOfYear?_eq hd,
    monthOfYear?_eq hinYear, dayOfMonth?_eq hinYear, monthNumber?_eq hmonth, Option.bind_eq_bind,
    Option.bind_some]
  split <;> rfl

/-- **No step fails** on a day that a clock with 64 bits for the seconds can show. -/
theorem ofDays?_eq {days : Nat} (h : days ≤ (2 ^ 64 - 1) / 86400) :
    ofDays? days = some (ofDays days) := by
  have hday : dayOfEra days < eraLength := Nat.mod_lt _ (by decide)
  have hsum : days + epoch < 2 ^ 50 := by
    unfold epoch
    omega
  have hera : era days < 2 ^ 50 := (Nat.div_le_self _ _).trans_lt hsum
  have hdate : ofEra? (era days) (dayOfEra days) = some (ofDays days) := ofEra?_eq hera hday
  rw [ofDays?, held?_of_lt (show days < 2 ^ 63 by omega), Option.bind_eq_bind, Option.bind_some]
  -- The sum is made a variable, so that nothing tries to add up the days of the epoch.
  unfold era dayOfEra at *
  generalize days + epoch = sum at *
  have hheld : sum % eraLength < 2 ^ 32 := by
    unfold eraLength at hday ⊢
    omega
  rw [held?_of_lt (show sum < 2 ^ 63 by omega), Option.bind_some, held?_of_lt hheld,
    Option.bind_some]
  exact hdate

/-! ## The date -/

/-- **The date of a day is that of the Gregorian calendar.** On every day that a clock with 64 bits
for the seconds can show, the date that is found has the month and the day of the proper date with
the number of this day, and of its year the last 32 bits; there is one such date only, and no step
on the way to it goes beyond the width of its numbers. -/
theorem ofDays_gregorian {days : Nat} (h : days ≤ (2 ^ 64 - 1) / 86400) :
    ∃ date : Date, IsDateOf days date ∧ (∀ other, IsDateOf days other → other = date) ∧
      ofDays days = { date with year := date.year % 2 ^ 32 } ∧
      ofDays? days = some (ofDays days) :=
  ⟨whole days, isDateOf_whole days, fun _ hother => hother.unique (isDateOf_whole days), rfl,
    ofDays?_eq h⟩

/-- The last day of a clock with 64 bits for the seconds. -/
theorem ofDays_gregorian_last :
    213503982334601 ≤ (2 ^ 64 - 1) / 86400 ∧
      ∃ date : Date, IsDateOf 213503982334601 date ∧
        (∀ other, IsDateOf 213503982334601 other → other = date) ∧
        ⟨438498967, 11, 9⟩ = { date with year := date.year % 2 ^ 32 } ∧
        ofDays? 213503982334601 = some ⟨438498967, 11, 9⟩ :=
  ⟨by decide, @ofDays_gregorian 213503982334601 (by decide)⟩

end WordStack.Log.Date
