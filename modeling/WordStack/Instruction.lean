import WordStack.Bytecode
import WordStack.Opcode
import WordStack.Word

/-! # Instructions and the decoding of code

An instruction is an opcode with its operand bytes. Code is decoded from left to right into
fragments: a complete instruction, a byte that is no opcode, or, at the very end, a push with too
few operand bytes.

* `Instruction.encode`, `Fragment.bytes`: the bytes of one, in code.
* `Fragment.decode`: code into fragments. Nothing is lost by this: the fragments' bytes, joined, are
  the code (`bytes_decode`).
* `Fragment.located`: fragments with their offsets. -/

namespace WordStack

/-- **An instruction.** The operand is meant to have as many bytes as the opcode asks for; see
`WellFormed`. -/
structure Instruction where
  opcode : Opcode
  operand : List UInt8 := []
  deriving DecidableEq

namespace Instruction

/-- The opcode's byte, then the operand. -/
def encode (i : Instruction) : List UInt8 := i.opcode.toByte :: i.operand

/-- The instruction is one that code can hold: its opcode has a byte of its own, and the operand is
of the opcode's width. -/
def WellFormed (i : Instruction) : Prop :=
  Opcode.ofByte? i.opcode.toByte = some i.opcode ∧ i.operand.length = i.opcode.width

instance (i : Instruction) : Decidable i.WellFormed := by
  unfold WellFormed; infer_instance

/-- The push of a word with the fewest operand bytes. A push with one byte more comes next in its
family. -/
def pushWord (w : Word) : Instruction :=
  { opcode := .push (1 + UInt8.ofNat (w.minimalBytes.length - 1)), operand := w.minimalBytes }

end Instruction

/-- **A piece of code**, as decoding finds it. -/
inductive Fragment where
  /-- A complete instruction. -/
  | instruction (i : Instruction)
  /-- A byte that is no opcode. -/
  | unknown (byte : UInt8)
  /-- A push at the end of the code, with the operand bytes that are there. -/
  | truncated (opcode : Opcode) (operand : List UInt8)
  deriving DecidableEq

namespace Fragment

/-- The bytes of a fragment. -/
def bytes : Fragment → List UInt8
  | instruction i => i.encode
  | unknown byte => [byte]
  | truncated opcode operand => opcode.toByte :: operand

/-- **Decoding.** A byte that is no opcode stands for itself alone. -/
def decode : List UInt8 → List Fragment
  | [] => []
  | byte :: rest =>
    match Opcode.ofByte? byte with
    | none => unknown byte :: decode rest
    | some opcode =>
      let operand := rest.take opcode.width
      if operand.length < opcode.width then [truncated opcode operand]
      else instruction ⟨opcode, operand⟩ :: decode (rest.drop opcode.width)
termination_by code => code.length
decreasing_by
  · simp
  · simp only [List.length_drop, List.length_cons]; omega

/-- **Decoding loses nothing.** -/
theorem bytes_decode (code : List UInt8) : (decode code).flatMap bytes = code := by
  fun_induction decode code with
  | case1 => rfl
  | case2 byte rest _ ih => simp [bytes, ih]
  | case3 byte rest opcode h operand hlt =>
    have hle : rest.length ≤ opcode.width := by
      simp only [operand, List.length_take] at hlt
      omega
    simp [bytes, Opcode.toByte_of_ofByte? h, operand, List.take_of_length_le hle]
  | case4 byte rest opcode h operand _ ih =>
    simp [bytes, Instruction.encode, Opcode.toByte_of_ofByte? h, operand, ih]

/-- Fragments with their offsets, the first being at `offset`. -/
def located (offset : Nat) : List Fragment → List (Nat × Fragment)
  | [] => []
  | f :: fs => (offset, f) :: located (offset + f.bytes.length) fs

end Fragment

end WordStack
