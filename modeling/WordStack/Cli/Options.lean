import WordStack.Log.Logger
import WordStack.Machine.Basic

/-! # Command-line options

The arguments are read in order, one option after the other, and each takes effect at once: an
argument that is refused is reported in the way that the options before it have chosen.

* `bareFlag?`, `valueFlag?`: what a flag asks for, as a `Choice`.
* `Options.apply`: what a choice changes.
* `Options.read`: a whole command line. -/

namespace WordStack.Cli

/-- Where the code comes from. -/
inductive Input where
  /-- A source file. -/
  | source (path : String)
  /-- Bytecode in hex. -/
  | hex (text : String)
  deriving DecidableEq

/-- **What a command line asks for.** -/
structure Options where
  input : Option Input := none
  /-- Where to write the bytecode, if that is wanted. -/
  output : Option String := none
  /-- Print the listing before the run? -/
  disassemble : Bool := false
  config : Machine.Config := {}
  log : Log.Settings := {}

/-- **One choice** on the command line, with its value. -/
inductive Choice where
  | hex (text : String)
  | output (path : String)
  | disassemble
  | capacity (words : Nat)
  | maxSteps (steps : Nat)
  | logLevel (level : Log.Level)
  | noTimestamp
  /-- An argument that is no option. -/
  | operand (argument : String)

/-- **Why a command line is refused.** -/
inductive Refusal where
  | missingValue (flag : String)
  | notNumber (flag text : String)
  | unknownLevel (text : String)
  | unexpected (argument : String)
  | noInput
  deriving DecidableEq

namespace Refusal

/-- The wording of a refusal. -/
def message : Refusal → String
  | missingValue flag => flag ++ " requires an argument"
  | notNumber flag text =>
    "Invalid value for " ++ flag ++ ": '" ++ text ++ "' is not a valid number"
  | unknownLevel text => Log.Level.unknown text
  | unexpected argument => "Unexpected argument: " ++ argument ++ "\n"
  | noInput => "No input given"

/-- Is the usage shown as well? -/
def showsUsage : Refusal → Bool
  | unexpected _ => true
  | noInput => true
  | _ => false

end Refusal

/-! ## Reading one option -/

/-- The number that is the value of a flag, if it fits in 64 bits. -/
def number (flag text : String) : Except Refusal Nat :=
  match Numeral.unsigned? UInt64.size text.toList with
  | some n => .ok n
  | none => .error (.notNumber flag text)

/-- The level that is the value of a flag. -/
def level (text : String) : Except Refusal Log.Level :=
  match Log.Level.ofText? text with
  | some l => .ok l
  | none => .error (.unknownLevel text)

/-- What a flag asks for, for flags that take no value. -/
def bareFlag? (flag : String) : Option Choice :=
  match flag with
  | "--disassemble" => some .disassemble
  | "-d" => some .disassemble
  | "--no-timestamp" => some .noTimestamp
  | _ => none

/-- What a flag with a value asks for, for flags that take one. -/
def valueFlag? (flag : String) : Option (String → Except Refusal Choice) :=
  match flag with
  | "--hex" => some fun value => .ok (.hex value)
  | "-x" => some fun value => .ok (.hex value)
  | "--output" => some fun value => .ok (.output value)
  | "-o" => some fun value => .ok (.output value)
  | "--capacity" => some fun value => (number flag value).map .capacity
  | "--max-steps" => some fun value => (number flag value).map .maxSteps
  | "--log-level" => some fun value => (level value).map .logLevel
  | _ => none

/-! ## Reading all arguments -/

namespace Options

/-- What a choice changes. A later choice of the same kind replaces an earlier one, but an argument
that is no option is a source file only if it has no dash at its beginning and there is no input
yet. -/
def apply (o : Options) : Choice → Except Refusal Options
  | .hex text => .ok { o with input := some (.hex text) }
  | .output path => .ok { o with output := some path }
  | .disassemble => .ok { o with disassemble := true }
  | .capacity words => .ok { o with config := { o.config with stackCapacity := words } }
  | .maxSteps steps => .ok { o with config := { o.config with stepLimit := some steps } }
  | .logLevel level => .ok { o with log := { o.log with threshold := level } }
  | .noTimestamp => .ok { o with log := { o.log with showTime := false } }
  | .operand argument =>
    if argument.toList.head? ≠ some '-' ∧ o.input = none then
      .ok { o with input := some (.source argument) }
    else .error (.unexpected argument)

/-- The options after one more choice; if it is refused, they stay. -/
def take (choice : Except Refusal Choice) : EStateM Refusal Options Unit := fun o =>
  match choice.bind o.apply with
  | .ok after => .ok () after
  | .error refusal => .error refusal o

/-- Takes in arguments, up to the end or to the first that is refused. -/
def readArguments : List String → EStateM Refusal Options Unit
  | [] => pure ()
  | argument :: rest =>
    match valueFlag? argument with
    | some choose =>
      match rest with
      | [] => throw (.missingValue argument)
      | value :: rest => do
        take (choose value)
        readArguments rest
    | none => do
      take (.ok ((bareFlag? argument).getD (.operand argument)))
      readArguments rest

/-- **The options of a command line**, or why it is refused and the options up to there. -/
def read (arguments : List String) : EStateM.Result Refusal Options Input :=
  match readArguments arguments {} with
  | .error refusal o => .error refusal o
  | .ok _ o =>
    match o.input with
    | none => .error .noInput o
    | some input => .ok input o

end Options

end WordStack.Cli
