import WordStack.Bytecode
import WordStack.Word

/-! # Literals

A literal is a number in a program: behind `0x` there are hex digits, as many as a word has at most,
and without it there are decimal digits. Hex digits are read as code. They are first filled up with
zeros, so that two of them make each of the bytes of a word. -/

namespace WordStack.Word

/-- The word of 1 to 64 hex digits, of either case. -/
def ofHexDigits? (digits : List Char) : Option Word :=
  if digits = [] ∨ 2 * size < (String.ofList digits).utf8ByteSize ∨
      ¬ digits.all fun c => (Numeral.hexDigit? c).isSome then none
  else
    let padded := String.ofList (digits.leftpad (2 * size) '0')
    (Bytecode.ofHex? padded).map fun code => ofBytes code.toList

/-- The word of a number in decimal digits, if it fits. -/
def ofDecimal? (digits : List Char) : Option Word :=
  ((Numeral.decimal? digits).filter (· < count)).map (BitVec.ofNat 256)

/-- **The word that a literal stands for.** -/
def ofLiteral? (literal : String) : Option Word :=
  match literal.toList with
  | '0' :: 'x' :: digits => ofHexDigits? digits
  | digits =>
    if digits = [] ∨ ¬ digits.all fun c => (Numeral.decimalDigit? c).isSome then none
    else ofDecimal? digits

end WordStack.Word
