import WordStack.Numeral
import WordStack.Text.Blank

/-! # Bytecode

Bytecode is a string of bytes, and any string of bytes is bytecode: whether it makes sense shows
only when it is decoded. As text it is written with two hex digits for every byte. -/

namespace WordStack

/-- **Code for the machine**, byte by byte. -/
abbrev Bytecode := Array UInt8

namespace Bytecode

/-- The code in lower-case hex. -/
def text (code : Bytecode) : String := Numeral.hexBytes code.toList

/-- The text without the `0x` that it begins with, and without any that follow at once. -/
def dropMarkers : List Char → List Char
  | '0' :: 'x' :: rest => dropMarkers rest
  | cs => cs

/-- **Code from hex text.** White space around the text and `0x` at its beginning do not count, nor
do blanks of ASCII among the digits, even between the two digits of a byte. -/
def ofHex? (text : String) : Option Bytecode :=
  let digits := (dropMarkers (Text.trim text.toList)).filter (! Text.isAsciiBlank ·)
  (Numeral.hexPairs? digits).map List.toArray

end Bytecode

end WordStack
