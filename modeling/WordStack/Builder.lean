import WordStack.Instruction

/-! # Laying out code

A builder holds the code laid out so far. It appends what it is given and checks nothing: whether
an operand has the width of its opcode shows only when the code is decoded. -/

namespace WordStack

/-- Code under construction. -/
structure Builder where
  code : Bytecode := #[]

namespace Builder

/-- Appends bytes as they are. -/
def raw (b : Builder) (bytes : List UInt8) : Builder := { code := b.code ++ bytes }

/-- Appends an instruction. -/
def emit (b : Builder) (i : Instruction) : Builder := b.raw i.encode

/-- Appends the opcode that comes `distance` bytes after `base`, with an operand. From the first
member of a family this reaches the others. -/
def emitAfter (b : Builder) (base : Opcode) (distance : UInt8) (operand : List UInt8) : Builder :=
  b.raw ((base.toByte + distance) :: operand)

/-- Appends the shortest push of a word. -/
def pushWord (b : Builder) (w : Word) : Builder :=
  b.emitAfter (.push 1) (UInt8.ofNat (w.minimalBytes.length - 1)) w.minimalBytes

/-- The shortest push is an instruction like any other. -/
theorem emit_pushWord (b : Builder) (w : Word) : b.emit (.pushWord w) = b.pushWord w := by
  have hbyte : ∀ n : UInt8, (Opcode.push (1 + n)).toByte = (Opcode.push 1).toByte + n := by
    intro n
    show Opcode.firstPush + (1 + n - 1) = Opcode.firstPush + (1 - 1) + n
    rw [UInt8.add_comm 1 n, UInt8.add_sub_cancel, UInt8.sub_self, UInt8.add_zero]
  exact congrArg (fun byte => b.raw (byte :: w.minimalBytes)) (hbyte _)

/-- The code of a list of instructions. -/
def assemble (is : List Instruction) : Bytecode := (is.foldl emit {}).code

end Builder

end WordStack
