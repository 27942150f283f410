import WordStack.Numeral

/-! # Faults

A fault ends a run of the machine. Each is a cause of its own, with what is needed to report it. -/

namespace WordStack

/-- **Why a run ended early.** -/
inductive Fault where
  /-- An operation needed more words than the stack holds. -/
  | stackUnderflow
  /-- A push on a full stack. -/
  | stackOverflow (capacity : Nat)
  /-- A place below the words on the stack. -/
  | indexOutOfRange (index size : Nat)
  /-- A push with fewer operand bytes behind it than it needs. -/
  | truncatedOperand (offset requested available : Nat)
  /-- A byte that is no opcode. -/
  | invalidOpcode (byte : UInt8) (offset : Nat)
  /-- The step limit was reached before the end of the code. -/
  | stepLimitExceeded (limit : Nat)
  deriving DecidableEq

/-- The wording of a fault. -/
def Fault.message : Fault → String
  | stackUnderflow => "stack underflow"
  | stackOverflow capacity => "stack overflow: capacity is " ++ Numeral.decimal capacity
  | indexOutOfRange index size =>
    "stack index " ++ Numeral.decimal index ++ " out of range for stack of size "
      ++ Numeral.decimal size
  | truncatedOperand offset requested available =>
    "truncated operand at offset " ++ Numeral.decimal offset ++ ": requested "
      ++ Numeral.decimal requested ++ " bytes, " ++ Numeral.decimal available ++ " available"
  | invalidOpcode byte offset =>
    "invalid opcode 0x" ++ String.ofList (Numeral.hexByte byte) ++ " at offset "
      ++ Numeral.decimal offset
  | stepLimitExceeded limit => "step limit of " ++ Numeral.decimal limit ++ " exceeded"

end WordStack
