import WordStack.Log.Logger

/-! # Terminals

Which terminal there is, two variables of the environment tell. One that shows styles is told of
them by escape sequences. -/

namespace WordStack.Cli

/-- The variables of the environment that say whether a terminal shows styles. -/
structure Environment where
  term : Option String := none
  noColor : Option String := none

/-- Styles are shown on any terminal that has a name, except `dumb`, unless they are switched off. A
variable that is empty is set all the same. -/
def Environment.showsStyles (e : Environment) : Bool :=
  e.term.any (· ≠ "dumb") && e.noColor.isNone

/-- What ends any style. -/
def plain : String := "\x1b[0m"

/-- The escape sequence of a colour. -/
def foreground : Log.Colour → String
  | .cyan => "\x1b[36m"
  | .yellow => "\x1b[33m"
  | .red => "\x1b[31m"

/-- The escape sequences of a style. -/
def sequences (style : Log.Style) : String :=
  plain ++ (if style.bold then "\x1b[1m" else "") ++ (if style.dimmed then "\x1b[2m" else "")
    ++ (style.colour.map foreground).getD ""

/-- **The terminal** that an environment tells of. -/
def Environment.terminal (e : Environment) : Log.Terminal :=
  if e.showsStyles then { set := sequences, reset := plain } else {}

end WordStack.Cli
