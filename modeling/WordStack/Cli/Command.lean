import WordStack.Cli.Directory
import WordStack.Cli.Options
import WordStack.Cli.Report
import WordStack.Error
import WordStack.Listing
import WordStack.Machine.Run
import WordStack.Source.Diagnostic

/-! # The command

The command runs code on a fresh machine. The code comes from a source file or, in hex, from the
command line; if that is wanted, it is also written to a file and listed.

All that the command asks of the file system is part of a `Dialogue`: a request, with what follows
on each answer. So the command itself has no effects; `Dialogue.inDirectory` answers the requests
from a directory, and a program can answer them from its surroundings. -/

namespace WordStack.Cli

/-- **A dialogue with the file system**, up to the report. -/
inductive Dialogue where
  | finished (report : Report)
  /-- Asks for the content of a file. -/
  | read (path : String) (next : Except FileError Bytecode → Dialogue)
  /-- Asks for a file to be written. -/
  | write (path : String) (content : Bytecode) (next : Except FileError Unit → Dialogue)

/-- The report of a dialogue held with a directory, and the directory after it. -/
def Dialogue.inDirectory (d : Directory) : Dialogue → Report × Directory
  | finished report => (report, d)
  | read path next => (next (d.read path)).inDirectory d
  | write path content next =>
    match d.write path content with
    | .ok after => (next (.ok ())).inDirectory after
    | .error e => (next (.error e)).inDirectory d

/-! ## Texts -/

/-- How to use the command, under the name it was called by. -/
def usage (program : String) : String :=
  "Usage: " ++ program ++ " <input.asm> [OPTIONS]\n"
    ++ "       " ++ program ++ " --hex <bytecode> [OPTIONS]\n"
    ++ "\n"
    ++ "Options:\n"
    ++ "  -x, --hex <bytecode>    Run hex-encoded bytecode instead of a source file\n"
    ++ "  -o, --output <file>     Also write the assembled bytecode to a file\n"
    ++ "  -d, --disassemble       Print the disassembly before running\n"
    ++ "      --capacity <n>      Stack capacity (default 1024)\n"
    ++ "      --max-steps <n>     Abort after executing n instructions\n"
    ++ "      --log-level <level> debug, info, warn or error (default info)\n"
    ++ "      --no-timestamp      Omit timestamps from log lines\n"

/-- The words on a stack, the top first and one on a line. -/
def stackText (s : Stack) : String :=
  "stack (" ++ Numeral.decimal s.size ++ " of " ++ Numeral.decimal s.capacity ++ "):\n"
    ++ String.join (s.toList.zipIdx.map fun (word, depth) =>
      Numeral.decimalAligned 4 depth ++ ": " ++ word.text ++ "\n")

/-! ## Stages -/

/-- The report of a failure, as one message. -/
def failure (o : Options) (message : String) : Report :=
  { exitCode := 1, settings := o.log, events := [.log .error message] }

/-- The report of a refused command line, with the options up to the refusal. -/
def refused (program : String) (refusal : Refusal) (o : Options) : Report :=
  let help := if refusal.showsUsage then [Event.complain (usage program)] else []
  { exitCode := 1, settings := o.log, events := .log .error refusal.message :: help }

/-- **The report of running code**, after some events. The stack is shown as the run left it, after
a fault too. -/
def execution (o : Options) (earlier : List Event) (code : Bytecode) : Report :=
  let listing := if o.disassemble then [Event.print (Listing.text code)] else []
  let machine := (Machine.new o.config).load code
  let record (notice : Machine.Notice) (events : Array Event) :=
    events.push (.log .debug notice.message)
  match machine.runWith record (earlier ++ listing).toArray with
  | .ok _ (after, events) =>
    let ending := "Halted after " ++ Numeral.decimal after.steps ++ " steps"
    { exitCode := 0
      settings := o.log
      events := events.toList ++ [.log .info ending, .print (stackText after.stack)] }
  | .error fault (after, events) =>
    let ending := "Execution failed after " ++ Numeral.decimal after.steps ++ " steps at offset "
      ++ Numeral.decimal after.pc ++ ": " ++ fault.message
    { exitCode := 1
      settings := o.log
      events := events.toList ++ [.log .error ending, .print (stackText after.stack)] }

/-- What follows once there is code: it is written, if that is wanted, and run. -/
def withCode (o : Options) (code : Bytecode) : Dialogue :=
  match o.output with
  | none => .finished (execution o [] code)
  | some path =>
    .write path code fun
      | .error e => .finished (failure o ("Failed to write output file: " ++ e.message))
      | .ok _ =>
        let message := "Wrote " ++ Numeral.decimal code.size ++ " bytes to " ++ path
        .finished (execution o [.log .info message] code)

/-- What follows on the content of a source file. -/
def withSource (o : Options) (path : String) (content : Bytecode) : Dialogue :=
  match String.fromUTF8? ⟨content⟩ with
  | none =>
    .finished (failure o (Error.file (path ++ ": stream did not contain valid UTF-8")).message)
  | some source =>
    match Source.assemble source with
    | .error e =>
      .finished (failure o (Source.diagnostic path source e.line e.column e.cause.message))
    | .ok code => withCode o code

/-- What follows once the options are read. -/
def withInput (o : Options) : Input → Dialogue
  | .hex text =>
    match Bytecode.ofHex? text with
    | none => .finished (failure o (Error.invalidHex text).message)
    | some code => withCode o code
  | .source path =>
    .read path fun
      | .ok content => withSource o path content
      | .error e =>
        if e.isAbsence then .finished (failure o ("Input file does not exist: " ++ path))
        else .finished (failure o (Error.file (path ++ ": " ++ e.message)).message)

/-- **The command**, under the name it is called by. -/
def command (program : String) (arguments : List String) : Dialogue :=
  match arguments with
  | [] => .finished { exitCode := 1, events := [.complain (usage program)] }
  | first :: _ =>
    if first = "--help" ∨ first = "-h" then
      .finished { exitCode := 0, events := [.complain (usage program)] }
    else
      match Options.read arguments with
      | .error refusal o => .finished (refused program refusal o)
      | .ok input o => withInput o input

end WordStack.Cli
