/-! # Numbers as text

Digits are read and written most significant first, over lists of characters.

* Written: `hex` and `decimal` without leading zeros, `hexPadded` and `decimalPadded` with at least
  a given number of digits, `hexByte` with exactly two.
* Read: `hex?` and `decimal?` take one digit or more and nothing else; `unsigned?` also takes one
  leading `+` and refuses a value at or above its bound. -/

namespace WordStack.Numeral

/-! ## Writing -/

/-- `n` in base sixteen, in lower case and without leading zeros; zero is `0`. -/
def hex (n : Nat) : String := String.ofList (Nat.toDigits 16 n)

/-- `n` in base ten without leading zeros; zero is `0`. -/
def decimal (n : Nat) : String := String.ofList (Nat.toDigits 10 n)

/-- `n` in base sixteen with at least `width` digits. -/
def hexPadded (width n : Nat) : String := String.ofList ((Nat.toDigits 16 n).leftpad width '0')

/-- `n` in base ten with at least `width` digits. -/
def decimalPadded (width n : Nat) : String :=
  String.ofList ((Nat.toDigits 10 n).leftpad width '0')

/-- `n` in base ten, moved to the right of a column of `width` characters. -/
def decimalAligned (width n : Nat) : String :=
  String.ofList ((Nat.toDigits 10 n).leftpad width ' ')

/-- The two hex digits of a byte, in lower case. -/
def hexByte (b : UInt8) : List Char :=
  [Nat.digitChar (b.toNat / 16), Nat.digitChar (b.toNat % 16)]

/-- Two hex digits for every byte, in order. -/
def hexBytes (bytes : List UInt8) : String := String.ofList (bytes.flatMap hexByte)

/-! ## Reading -/

/-- The value of a decimal digit. -/
def decimalDigit? (c : Char) : Option Nat :=
  if '0' ≤ c ∧ c ≤ '9' then some (c.toNat - '0'.toNat) else none

/-- The value of a hex digit of either case. -/
def hexDigit? (c : Char) : Option Nat :=
  if '0' ≤ c ∧ c ≤ '9' then some (c.toNat - '0'.toNat)
  else if 'a' ≤ c ∧ c ≤ 'f' then some (c.toNat - 'a'.toNat + 10)
  else if 'A' ≤ c ∧ c ≤ 'F' then some (c.toNat - 'A'.toNat + 10)
  else none

/-- The value of digits that follow digits of the value `n`. -/
def readFrom (base : Nat) (digit? : Char → Option Nat) (n : Nat) : List Char → Option Nat
  | [] => some n
  | c :: cs => (digit? c).bind fun d => readFrom base digit? (n * base + d) cs

/-- The value of one decimal digit or more. -/
def decimal? (digits : List Char) : Option Nat :=
  if digits = [] then none else readFrom 10 decimalDigit? 0 digits

/-- The value of one hex digit or more. -/
def hex? (digits : List Char) : Option Nat :=
  if digits = [] then none else readFrom 16 hexDigit? 0 digits

/-- A number below `bound` in decimal digits, after at most one `+`. Leading zeros are allowed. -/
def unsigned? (bound : Nat) (text : List Char) : Option Nat :=
  let digits := match text with
    | '+' :: rest => rest
    | _ => text
  (decimal? digits).filter (· < bound)

/-- The bytes that pairs of hex digits stand for; an odd digit at the end is refused. -/
def hexPairs? : List Char → Option (List UInt8)
  | [] => some []
  | [_] => none
  | high :: low :: rest =>
    (hexDigit? high).bind fun h => (hexDigit? low).bind fun l =>
      (hexPairs? rest).map (UInt8.ofNat (16 * h + l) :: ·)

end WordStack.Numeral
