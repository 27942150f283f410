import WordStack.Numeral
import WordStack.Text.Blank

/-! # Opcodes

An opcode is encoded in one byte. Eight opcodes have a byte of their own; the other bytes in use
form three families, each with a modifier `n` and a contiguous range of bytes:

* `PUSHn`, for `1 ≤ n ≤ 32`, from `0x60`: followed by `n` operand bytes;
* `DUPn`, for `1 ≤ n ≤ 16`, from `0x80`;
* `SWAPn`, for `1 ≤ n ≤ 16`, from `0x90`.

The type leaves the modifier free, so that code can also be laid out from modifiers outside these
ranges; `push?`, `dup?` and `swap?` check them, and `ofByte?` and `ofMnemonic?` give checked opcodes
only. The byte of a modifier out of range is counted on from its family's first byte, modulo 256. -/

namespace WordStack

/-- **An opcode.** -/
inductive Opcode where
  /-- End the run. -/
  | stop
  /-- Replace the two words on top by their sum. -/
  | add
  /-- Replace the two words on top by the top less the one below. -/
  | sub
  /-- Replace the two words on top by whether the top is less than the one below. -/
  | lt
  /-- Replace the two words on top by whether the top is greater than the one below. -/
  | gt
  /-- Replace the two words on top by whether they are equal. -/
  | eq
  /-- Replace the top by whether it is zero. -/
  | isZero
  /-- Remove the top. -/
  | pop
  /-- Push the operand, of the given number of bytes. -/
  | push (width : UInt8)
  /-- Push a copy of the word at the given place, counting the top as the first. -/
  | dup (place : UInt8)
  /-- Exchange the top with the word the given number of places below it. -/
  | swap (distance : UInt8)
  deriving DecidableEq

namespace Opcode

/-! ## Families -/

/-- The byte of `PUSH1`. -/
def firstPush : UInt8 := 0x60

/-- The byte of `PUSH32`. -/
def lastPush : UInt8 := 0x7f

/-- The byte of `DUP1`. -/
def firstDup : UInt8 := 0x80

/-- The byte of `DUP16`. -/
def lastDup : UInt8 := 0x8f

/-- The byte of `SWAP1`. -/
def firstSwap : UInt8 := 0x90

/-- The byte of `SWAP16`. -/
def lastSwap : UInt8 := 0x9f

/-- The largest operand width of a push. -/
def maxWidth : UInt8 := lastPush - firstPush + 1

/-- The largest modifier of `DUPn` and `SWAPn`. -/
def maxReach : UInt8 := lastDup - firstDup + 1

/-- `PUSHn`, if there is one. -/
def push? (n : UInt8) : Option Opcode := if 1 ≤ n ∧ n ≤ maxWidth then some (.push n) else none

/-- `DUPn`, if there is one. -/
def dup? (n : UInt8) : Option Opcode := if 1 ≤ n ∧ n ≤ maxReach then some (.dup n) else none

/-- `SWAPn`, if there is one. -/
def swap? (n : UInt8) : Option Opcode := if 1 ≤ n ∧ n ≤ maxReach then some (.swap n) else none

/-- How many operand bytes follow the opcode. -/
def width : Opcode → Nat
  | push n => n.toNat
  | _ => 0

/-! ## Bytes -/

/-- The byte of an opcode. -/
def toByte : Opcode → UInt8
  | stop => 0x00
  | add => 0x01
  | sub => 0x03
  | lt => 0x10
  | gt => 0x11
  | eq => 0x14
  | isZero => 0x15
  | pop => 0x50
  | push n => firstPush + (n - 1)
  | dup n => firstDup + (n - 1)
  | swap n => firstSwap + (n - 1)

/-- The opcode of a byte, if the byte is in use. -/
def ofByte? (b : UInt8) : Option Opcode :=
  if b = 0x00 then some stop
  else if b = 0x01 then some add
  else if b = 0x03 then some sub
  else if b = 0x10 then some lt
  else if b = 0x11 then some gt
  else if b = 0x14 then some eq
  else if b = 0x15 then some isZero
  else if b = 0x50 then some pop
  else if firstPush ≤ b ∧ b ≤ lastPush then some (push (b - firstPush + 1))
  else if firstDup ≤ b ∧ b ≤ lastDup then some (dup (b - firstDup + 1))
  else if firstSwap ≤ b ∧ b ≤ lastSwap then some (swap (b - firstSwap + 1))
  else none

theorem toByte_of_ofByte? {b : UInt8} {op : Opcode} (h : ofByte? b = some op) : op.toByte = b := by
  have all : ∀ n : Fin 256, (ofByte? (.ofFin n)).all fun op => op.toByte = .ofFin n := by
    decide +kernel
  simpa [h] using all b.toFin

/-! ## Mnemonics -/

/-- The mnemonic without its modifier. -/
def stem : Opcode → String
  | stop => "STOP"
  | add => "ADD"
  | sub => "SUB"
  | lt => "LT"
  | gt => "GT"
  | eq => "EQ"
  | isZero => "ISZERO"
  | pop => "POP"
  | push _ => "PUSH"
  | dup _ => "DUP"
  | swap _ => "SWAP"

/-- **The mnemonic**, in upper case and with the modifier in decimal. -/
def mnemonic : Opcode → String
  | push n => "PUSH" ++ Numeral.decimal n.toNat
  | dup n => "DUP" ++ Numeral.decimal n.toNat
  | swap n => "SWAP" ++ Numeral.decimal n.toNat
  | op => op.stem

/-- The opcodes without a modifier. -/
def plain : List Opcode := [stop, add, sub, lt, gt, eq, isZero, pop]

/-- The family member with this stem whose modifier is written after it. The modifier has no leading
zero, but it may have a plus sign. -/
def member? (stem : String) (build : UInt8 → Option Opcode) (name : List Char) : Option Opcode :=
  (stem.toList.isPrefixOf? name).bind fun digits =>
    if digits.head? = some '0' then none
    else (Numeral.unsigned? 256 digits).bind fun n => build (UInt8.ofNat n)

/-- **The opcode that a name stands for**, in whatever case its letters are. -/
def ofMnemonic? (name : String) : Option Opcode :=
  let name := Text.upper name
  plain.find? (fun op => op.stem.toList = name)
    <|> member? "PUSH" push? name
    <|> member? "DUP" dup? name
    <|> member? "SWAP" swap? name

end Opcode

end WordStack
