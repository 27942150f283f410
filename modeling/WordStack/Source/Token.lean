import WordStack.Text.Blank

/-! # Tokens of a line

A `#` begins a comment, which goes on to the end of the line. Before it, white space and commas
separate; what stands between separators is a token. Columns count characters, from one. -/

namespace WordStack.Source

/-- A token, with the column of its first character. -/
structure Token where
  text : String
  column : Nat
  deriving DecidableEq

/-- White space or a comma. -/
def isSeparator (c : Char) : Bool := Text.isWhiteSpace c || c = ','

/-- The part of a line before its comment. -/
def beforeComment (line : List Char) : List Char := line.takeWhile (· ≠ '#')

/-- The token that a text has from one place on and up to another. -/
def cut (code : List Char) (first last : Nat) : Token :=
  ⟨String.ofList ((code.take last).drop first), first + 1⟩

/-- Looks for tokens in what is left of a text from a place on. If a token has begun before, its
first character is at `start`. -/
def scan (code : List Char) (start : Option Nat) (place : Nat) : List Char → List Token
  | [] =>
    match start with
    | none => []
    | some first => [cut code first code.length]
  | c :: rest =>
    match start, isSeparator c with
    | none, false => scan code (some place) (place + 1) rest
    | some first, true => cut code first place :: scan code none (place + 1) rest
    | none, true => scan code none (place + 1) rest
    | some first, false => scan code (some first) (place + 1) rest

/-- **The tokens of a line.** -/
def tokens (line : List Char) : List Token :=
  let code := beforeComment line
  scan code none 0 code

end WordStack.Source
