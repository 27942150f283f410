import WordStack.Log.Logger
import WordStack.Machine.Run

/-! # Runs in the log

The notices of a run are messages at the level of debugging. -/

namespace WordStack.Machine

/-- A run that writes what it tells into a log. -/
def runLogged (logger : Log.Logger) (m : Machine) (log : String) :
    EStateM.Result Fault (Machine × String) Unit :=
  m.runWith (fun notice log => log ++ logger.report .debug notice.message) log

/-- **The text that a run puts into the log.** -/
def trace (logger : Log.Logger) (m : Machine) : String :=
  String.join (m.notices.map fun notice => logger.report .debug notice.message)

end WordStack.Machine
