import WordStack.Log.Level
import WordStack.Log.Timestamp

/-! # The log

A message goes to the log as one line: the time and the level, if they are wanted, and the message.
A terminal may show the line in the style of its level. How it does so is the terminal's own affair:
here it is only known that it writes something in front of a line and behind it.

* `Logger.write`: the line of a message, whatever its level.
* `Logger.report`: the line of a message whose level is grave enough, and else nothing. -/

namespace WordStack.Log

/-- What is wanted in the log. -/
structure Settings where
  /-- The least grave level that is written. -/
  threshold : Level := .info
  showTime : Bool := true
  showLevel : Bool := true

/-! ## Styles -/

/-- The colours that lines have. -/
inductive Colour where
  | cyan
  | yellow
  | red
  deriving DecidableEq

/-- **A style.** A line that has no colour is shown in the usual one. -/
structure Style where
  colour : Option Colour := none
  bold : Bool := false
  dimmed : Bool := false

/-- The style of the lines of a level. -/
def Level.style : Level → Style
  | debug => { colour := some .cyan, dimmed := true }
  | info => {}
  | warn => { colour := some .yellow, bold := true }
  | error => { colour := some .red, bold := true }

/-- **A terminal**, by what it writes to change to a style and back. One that shows no styles writes
nothing. -/
structure Terminal where
  set : Style → String := fun _ => ""
  reset : String := ""

/-! ## Lines -/

/-- **A log**, with what the clock shows at the moment. -/
structure Logger where
  settings : Settings := {}
  terminal : Terminal := {}
  now : Instant := {}

namespace Logger

/-- Are messages of this level written? -/
def enabled (l : Logger) (level : Level) : Bool := l.settings.threshold ≤ level

/-- The line of a message, without its style. -/
def line (l : Logger) (level : Level) (message : String) : String :=
  (if l.settings.showTime then timestamp l.now.sinceEpoch ++ " " else "")
    ++ (if l.settings.showLevel then "[" ++ level.name ++ "] " else "") ++ message ++ "\n"

/-- The text that a message puts into the log, whatever its level. -/
def write (l : Logger) (level : Level) (message : String) : String :=
  l.terminal.set level.style ++ l.line level message ++ l.terminal.reset

/-- **The text that a message puts into the log.** -/
def report (l : Logger) (level : Level) (message : String) : String :=
  if l.enabled level then l.write level message else ""

end Logger

end WordStack.Log
