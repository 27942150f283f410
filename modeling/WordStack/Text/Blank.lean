/-! # Blank characters

Two sets of blank characters matter: the `White_Space` property of Unicode, which separates the
tokens of a source line and surrounds hex text, and the five blanks of ASCII that may stand between
hex digits. -/

namespace WordStack.Text

/-- The code points with the property `White_Space`, as ranges from first to last. -/
def whiteSpaceRanges : List (Nat × Nat) :=
  [(0x9, 0xd), (0x20, 0x20), (0x85, 0x85), (0xa0, 0xa0), (0x1680, 0x1680), (0x2000, 0x200a),
    (0x2028, 0x2029), (0x202f, 0x202f), (0x205f, 0x205f), (0x3000, 0x3000)]

/-- Has the character the property `White_Space`? -/
def isWhiteSpace (c : Char) : Bool :=
  whiteSpaceRanges.any fun (first, last) => first ≤ c.toNat && c.toNat ≤ last

/-- Space, tab, newline, form feed or carriage return. The vertical tab is not among them. -/
def isAsciiBlank (c : Char) : Bool :=
  c = ' ' || c = '\t' || c = '\n' || c = '\x0c' || c = '\r'

/-- The text without the white space at its two ends. -/
def trim (cs : List Char) : List Char :=
  ((cs.dropWhile isWhiteSpace).reverse.dropWhile isWhiteSpace).reverse

/-- The text in upper case, as far as its letters are of ASCII. -/
def upper (s : String) : List Char := s.toList.map Char.toUpper

/-- The text in lower case, as far as its letters are of ASCII. -/
def lower (s : String) : List Char := s.toList.map Char.toLower

end WordStack.Text
