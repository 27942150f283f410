import WordStack.Log.Logger

/-! # Reports

A report is what a command leaves for its user: lines for the two outputs, in order, and an exit
code. Messages for the log are kept apart from their wording there, since that depends on the clock
and on the terminal. -/

namespace WordStack.Cli

/-- Something for the user. -/
inductive Event where
  /-- Text for the output. -/
  | print (text : String)
  /-- Text for the error output. -/
  | complain (text : String)
  /-- A message for the log, which goes to the error output. -/
  | log (level : Log.Level) (message : String)

/-- **What a command leaves for its user.** -/
structure Report where
  exitCode : UInt8
  /-- What is wanted in the log. -/
  settings : Log.Settings := {}
  events : List Event

namespace Event

/-- Does the event go to the error output? -/
def isComplaint : Event → Bool
  | print _ => false
  | _ => true

/-- What an event puts on the output. -/
def onOutput : Event → String
  | print text => text
  | _ => ""

/-- What an event puts on the error output. -/
def onError (logger : Log.Logger) : Event → String
  | print _ => ""
  | complain text => text
  | log level message => logger.report level message

end Event

namespace Report

/-- **The text on the output.** -/
def output (r : Report) : String := String.join (r.events.map Event.onOutput)

/-- **The text on the error output.** The clock is read anew for each event that goes there, and
shows `clock k` when `k` events have gone there before. -/
def errorOutput (r : Report) (terminal : Log.Terminal) (clock : Nat → Log.Instant) : String :=
  let complaints := r.events.filter Event.isComplaint
  String.join (complaints.zipIdx.map fun (event, k) =>
    event.onError { settings := r.settings, terminal, now := clock k })

end Report

end WordStack.Cli
