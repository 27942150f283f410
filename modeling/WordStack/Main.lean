import Std.Time.DateTime.Timestamp
import WordStack.Cli.Command
import WordStack.Cli.Terminal

/-! # The program

The command, with its requests answered from the file system, its clock read for each message and
its report put on the two outputs. -/

namespace WordStack.Cli

/-- The number of a failure, with its text. -/
def systemError? : IO.Error → Option (UInt32 × String)
  | .alreadyExists _ n text | .otherError n text | .resourceBusy n text
  | .resourceVanished n text | .unsupportedOperation n text | .hardwareFault n text
  | .unsatisfiedConstraints n text | .illegalOperation n text | .protocolError n text
  | .timeExpired n text | .interrupted _ n text | .noFileOrDirectory _ n text
  | .invalidArgument _ n text | .permissionDenied _ n text | .resourceExhausted _ n text
  | .inappropriateType _ n text | .noSuchThing _ n text => some (n, text)
  | .unexpectedEof | .userError _ => none

/-- The reason that a failure stands for. Some calls give its number with the sign reversed. -/
def fileError (e : IO.Error) : FileError :=
  match systemError? e with
  | none => .other (toString e)
  | some (n, text) =>
    let n := if n < 0x80000000 then n else 0 - n
    if n = 2 then .notFound
    else if n = 20 then .notDirectory
    else if n = 21 then .isDirectory
    else if n = 36 then .nameTooLong
    else .other (text ++ " (os error " ++ toString n ++ ")")

/-- The report of a dialogue held with the file system. -/
def Dialogue.perform : Dialogue → IO Report
  | finished report => pure report
  | read path next => do
    let content ← try (fun bytes => .ok bytes.data) <$> IO.FS.readBinFile path
      catch e => pure (.error (fileError e))
    (next content).perform
  | write path content next => do
    let written ← try .ok <$> IO.FS.writeBinFile path ⟨content⟩
      catch e => pure (.error (fileError e))
    (next written).perform

/-- What the clock shows. -/
def readClock : IO Log.Instant := do
  let t := (← Std.Time.Timestamp.now).toDurationSinceUnixEpoch
  return { seconds := t.second.val, nanoseconds := t.nano.val.toNat }

/-- The variables of the environment that matter. -/
def readEnvironment : IO Environment := do
  return { term := ← IO.getEnv "TERM", noColor := ← IO.getEnv "NO_COLOR" }

/-- Puts a report on the two outputs. -/
def Report.emit (r : Report) : IO Unit := do
  let terminal := (← readEnvironment).terminal
  for event in r.events do
    IO.print event.onOutput
    IO.eprint (event.onError { settings := r.settings, terminal, now := ← readClock })

end WordStack.Cli

/-- Runs the command on the arguments. -/
def main (arguments : List String) : IO UInt32 := do
  let program := toString (← IO.appPath)
  let report ← (WordStack.Cli.command program arguments).perform
  report.emit
  return report.exitCode.toUInt32
