import WordStack.Numeral
import WordStack.Text.Line

/-! # Diagnostics

A diagnostic tells what is wrong and where, and shows the line with a caret below the character at
the column. Lines and columns count from one; the number zero shows the first line, and the column
zero its first character. A line that the source does not have is not shown. -/

namespace WordStack.Source

/-- **A diagnostic** for a place in the source of a file. -/
def diagnostic (file source : String) (line column : Nat) (message : String) : String :=
  let number := Numeral.decimal line
  let place := "error: " ++ message ++ "\n --> " ++ file ++ ":" ++ number ++ ":"
    ++ Numeral.decimal column ++ "\n"
  match (Text.lines source.toList)[line - 1]? with
  | none => place
  | some text =>
    let shown := String.ofList (Text.dropReturns text)
    let indent := String.ofList (List.replicate (column - 1) ' ')
    place ++ "     |\n" ++ Numeral.decimalAligned 4 line ++ " | " ++ shown ++ "\n     | " ++ indent
      ++ "^\n"

end WordStack.Source
