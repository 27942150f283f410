import WordStack.Log.Calendar
import WordStack.Numeral

/-! # Timestamps

A timestamp is the text of a time of day with its date, in the order of their weight and with a
fixed number of digits each. -/

namespace WordStack.Log

/-- What a clock shows: seconds since the beginning of 1970, and the nanoseconds after them. -/
structure Instant where
  seconds : Int := 0
  nanoseconds : Nat := 0

/-- A length of time. -/
structure Elapsed where
  seconds : Nat
  nanoseconds : Nat

/-- The time from the beginning of 1970 to an instant. For an earlier one it is zero. -/
def Instant.sinceEpoch (t : Instant) : Elapsed :=
  if t.seconds < 0 then ⟨0, 0⟩ else ⟨t.seconds.toNat, t.nanoseconds⟩

/-- **The timestamp** of the time so long after the beginning of 1970, down to milliseconds. -/
def timestamp (t : Elapsed) : String :=
  let date := Date.ofDays (t.seconds / 86400)
  Numeral.decimalPadded 4 date.year ++ "-" ++ Numeral.decimalPadded 2 date.month ++ "-"
    ++ Numeral.decimalPadded 2 date.day ++ " "
    ++ Numeral.decimalPadded 2 (t.seconds / 3600 % 24) ++ ":"
    ++ Numeral.decimalPadded 2 (t.seconds / 60 % 60) ++ ":"
    ++ Numeral.decimalPadded 2 (t.seconds % 60) ++ "."
    ++ Numeral.decimalPadded 3 (t.nanoseconds / 1000000)

end WordStack.Log
