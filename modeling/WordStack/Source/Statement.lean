import WordStack.Instruction
import WordStack.Source.Literal
import WordStack.Source.Token

/-! # Statements

The tokens of a line form a statement: the name of an instruction, in whatever case, and its
operands. Only pushes have an operand, and they have one, a literal. `PUSHn` writes it with `n`
bytes, which must be enough; `PUSH` alone takes as few bytes as the literal needs.

A statement with a fault names its cause and blames one of its tokens:

* an unknown name is to blame itself;
* of too many operands the first that is too many, and of too few the name;
* a literal that cannot be read, or is too wide, is to blame itself.

Of several faults in one statement the first in this order is reported. -/

namespace WordStack.Source

/-- **What is wrong with a statement.** Instructions are named as they are written. -/
inductive Cause where
  /-- No instruction has this name. -/
  | unknownName (name : String)
  /-- The instruction takes another number of operands. -/
  | operandCount (instruction : String) (expected actual : Nat)
  /-- The operand is no literal. -/
  | notLiteral (token : String)
  /-- The operand needs more bytes than the instruction has. -/
  | tooWide (instruction : String) (width needed : Nat)
  deriving DecidableEq

/-- The wording of a cause. -/
def Cause.message : Cause → String
  | unknownName name => "invalid instruction name: " ++ name
  | operandCount instruction expected actual =>
    instruction ++ " expects " ++ Numeral.decimal expected ++ " operand(s), got "
      ++ Numeral.decimal actual
  | notLiteral token => "invalid operand: " ++ token
  | tooWide instruction width needed =>
    instruction ++ " operand needs " ++ Numeral.decimal needed
      ++ " bytes but the instruction holds " ++ Numeral.decimal width

/-- A cause, with the column of the token to blame. -/
structure Blame where
  column : Nat
  cause : Cause
  deriving DecidableEq

/-- The blame for a wrong number of operands. -/
def miscounted (name : Token) (operands : List Token) (expected : Nat) : Blame :=
  { column := (operands[expected]?.getD name).column
    cause := .operandCount name.text expected operands.length }

/-- The only operand, with its value. -/
def literal (name : Token) (operands : List Token) : Except Blame (Token × Word) :=
  match operands with
  | [operand] =>
    match Word.ofLiteral? operand.text with
    | some word => .ok (operand, word)
    | none => .error ⟨operand.column, .notLiteral operand.text⟩
  | _ => .error (miscounted name operands 1)

/-- **The instruction of a statement.** -/
def statement (name : Token) (operands : List Token) : Except Blame Instruction :=
  if Text.upper name.text = "PUSH".toList then
    (literal name operands).map fun (_, word) => .pushWord word
  else
    match Opcode.ofMnemonic? name.text with
    | none => .error ⟨name.column, .unknownName name.text⟩
    | some (.push width) =>
      (literal name operands).bind fun (operand, word) =>
        if word.byteLength ≤ width.toNat then .ok ⟨.push width, word.lastBytes width.toNat⟩
        else .error ⟨operand.column, .tooWide name.text width.toNat word.byteLength⟩
    | some opcode =>
      if operands = [] then .ok ⟨opcode, []⟩ else .error (miscounted name operands 0)

end WordStack.Source
