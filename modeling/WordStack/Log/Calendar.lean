/-! # The calendar

Dates are those of the Gregorian calendar, carried back before its introduction, and days are
counted from 1 January 1970. The leap years repeat every 400 years, an *era*. Eras, and the years
in them, are taken to begin on 1 March, so that a leap day is the last day of its year: then the
months' lengths follow one rule, and the years before a day can be counted off in one division. -/

namespace WordStack.Log

/-- A date; January is the month 1. -/
structure Date where
  year : Nat
  month : Nat
  day : Nat
  deriving DecidableEq

namespace Date

/-- The days from 1 March of the year zero to 1 January 1970. -/
def epoch : Nat := 719468

/-- The days of an era. -/
def eraLength : Nat := 146097

/-- The eras before a day, from the year zero. -/
def era (days : Nat) : Nat := (days + epoch) / eraLength

/-- The days before a day in its era. -/
def dayOfEra (days : Nat) : Nat := (days + epoch) % eraLength

/-- The years before a day of an era. The leap days before it are taken out first, one in four years
except at the end of a century and, again, of the era; years of 365 days remain. -/
def yearOfEra (dayOfEra : Nat) : Nat :=
  (dayOfEra - dayOfEra / 1460 + dayOfEra / 36524 - dayOfEra / 146096) / 365

/-- The days of an era before a year of it. -/
def daysBeforeYear (yearOfEra : Nat) : Nat := 365 * yearOfEra + yearOfEra / 4 - yearOfEra / 100

/-- The days before a day of an era in its year. -/
def dayOfYear (dayOfEra : Nat) : Nat := dayOfEra - daysBeforeYear (yearOfEra dayOfEra)

/-- The months before a day of a year. Five months from March, and five from August, have 153
days. -/
def monthOfYear (dayOfYear : Nat) : Nat := (5 * dayOfYear + 2) / 153

/-- The days of a year before a month of it. -/
def daysBeforeMonth (monthOfYear : Nat) : Nat := (153 * monthOfYear + 2) / 5

/-- The number of a month that is counted from March, the months 10 and 11 being January and
February of the next year. -/
def monthNumber (monthOfYear : Nat) : Nat :=
  if monthOfYear < 10 then monthOfYear + 3 else monthOfYear - 9

/-- The year of the date so many days after 1 January 1970. -/
def yearOfDays (days : Nat) : Nat :=
  let first := yearOfEra (dayOfEra days) + era days * 400
  if monthNumber (monthOfYear (dayOfYear (dayOfEra days))) ≤ 2 then first + 1 else first

/-- **The date** so many days after 1 January 1970. Of the year 32 bits are kept. -/
def ofDays (days : Nat) : Date :=
  let inYear := dayOfYear (dayOfEra days)
  let month := monthOfYear inYear
  { year := yearOfDays days % UInt32.size
    month := monthNumber month
    day := inYear - daysBeforeMonth month + 1 }

end Date

end WordStack.Log
