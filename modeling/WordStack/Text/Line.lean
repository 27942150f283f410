/-! # Lines of a text

A newline ends a line, and one carriage return before it belongs to the line end. What follows the
last newline is a line too, unless it is empty; it keeps a carriage return at its end, since no
newline follows. -/

namespace WordStack.Text

/-- The line without one carriage return at its end. -/
def dropReturn (line : List Char) : List Char :=
  if line.getLast? = some '\r' then line.dropLast else line

/-- **The lines of a text.** -/
def lines (text : List Char) : List (List Char) :=
  let pieces := text.splitOn '\n'
  pieces.dropLast.map dropReturn ++ pieces.getLast?.toList.filter (· ≠ [])

/-- The line without any of the carriage returns at its end. -/
def dropReturns (line : List Char) : List Char :=
  (line.reverse.dropWhile (· = '\r')).reverse

end WordStack.Text
