import WordStack.Builder
import WordStack.Source.Statement
import WordStack.Text.Line

/-! # Source programs

A source program has at most one statement on a line. Its code is that of its statements, in order;
the first line with a fault ends the reading, and the fault is reported with the number of the line
and the column of the token to blame, both counted from one. -/

namespace WordStack.Source

/-- A statement that cannot be read, with its place. -/
structure Error where
  line : Nat
  column : Nat
  cause : Cause
  deriving DecidableEq

/-- The instructions on some lines, of which the first has the number `line`. -/
def instructionsFrom (line : Nat) : List (List Char) → Except Error (List Instruction)
  | [] => .ok []
  | text :: rest =>
    match tokens text with
    | [] => instructionsFrom (line + 1) rest
    | name :: operands =>
      match statement name operands with
      | .error blame => .error ⟨line, blame.column, blame.cause⟩
      | .ok i => (instructionsFrom (line + 1) rest).map (i :: ·)

/-- The instructions of a source text. -/
def instructions (source : String) : Except Error (List Instruction) :=
  instructionsFrom 1 (Text.lines source.toList)

/-- **The code of a source text.** -/
def assemble (source : String) : Except Error Bytecode :=
  (instructions source).map Builder.assemble

end WordStack.Source
