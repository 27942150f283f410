import WordStack.Fault
import WordStack.Source.Program

/-! # Errors

Everything that can go wrong, as a caller is told of it: a fault of the machine, a statement that
cannot be read, by itself or with its place in the source, text that is no hex, and a file that
cannot be read. -/

namespace WordStack

/-- **An error.** -/
inductive Error where
  | fault (fault : Fault)
  | statement (cause : Source.Cause)
  | source (line column : Nat) (message : String)
  | invalidHex (text : String)
  | file (message : String)
  deriving DecidableEq

namespace Error

/-- The error of a source text, its cause put into words. -/
def ofSource (e : Source.Error) : Error := source e.line e.column e.cause.message

/-- The wording of an error. That of a place in the source leaves the column out. -/
def message : Error → String
  | fault f => f.message
  | statement cause => cause.message
  | source line _ message => "line " ++ Numeral.decimal line ++ ": " ++ message
  | invalidHex text => "invalid hex bytecode: " ++ text
  | file message => "io error: " ++ message

/-- Does the error come from executing code? -/
def isFault : Error → Bool
  | fault _ => true
  | _ => false

end Error

/-! ## Texts that are refused -/

/-- Code from hex text, or the error of a text that is none. The text is shown as it was given. -/
def Bytecode.ofHex (text : String) : Except Error Bytecode :=
  match ofHex? text with
  | some code => .ok code
  | none => .error (.invalidHex text)

/-- The opcode that a name stands for, or the error of a name that stands for none. -/
def Opcode.ofMnemonic (name : String) : Except Error Opcode :=
  match ofMnemonic? name with
  | some op => .ok op
  | none => .error (.statement (.unknownName name))

end WordStack
