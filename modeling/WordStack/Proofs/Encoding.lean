import WordStack.Proofs.Decode

/-! # Instructions that are laid out and read back

Code is read by offsets: the byte at an offset tells the opcode, and its width tells how many of the
bytes behind it are the operand (`Bytecode.instruction?`). Read in this way from one instruction to
the next, code gives its instructions, if there is nothing else in it (`Bytecode.instructions?`).
This is the decoding of the code, as far as it meets complete instructions only
(`instructions?_eq`).

An instruction is *in range* if its modifier is one of its family and its operand is as long as that
says. These are the instructions that code can hold (`wellFormed_iff_inRange`). Laid out one after
another they are read back, so that no other instructions are laid out as the same code
(`instructions?_assemble`). -/

namespace WordStack

open Fragment

/-! ## Instructions in range -/

/-- **The modifier is one of the family**, and the operand has as many bytes as a push asks for; no
other opcode has any. -/
def Instruction.InRange (i : Instruction) : Prop :=
  match i.opcode with
  | .push n => (1 ≤ n.toNat ∧ n.toNat ≤ 32) ∧ i.operand.length = n.toNat
  | .dup n => (1 ≤ n.toNat ∧ n.toNat ≤ 16) ∧ i.operand = []
  | .swap n => (1 ≤ n.toNat ∧ n.toNat ≤ 16) ∧ i.operand = []
  | _ => i.operand = []

theorem Instruction.wellFormed_iff_inRange {i : Instruction} : i.WellFormed ↔ i.InRange := by
  have hnone : i.operand.length = 0 ↔ i.operand = [] := List.length_eq_zero_iff
  obtain ⟨op, operand⟩ := i
  cases op with
  | push n => exact and_congr_left fun _ => Opcode.inUse_push
  | dup n => exact and_congr Opcode.inUse_dup hnone
  | swap n => exact and_congr Opcode.inUse_swap hnone
  | _ => exact (and_iff_right rfl).trans hnone

instance (i : Instruction) : Decidable i.InRange :=
  decidable_of_iff i.WellFormed Instruction.wellFormed_iff_inRange

/-! ## Reading by offsets -/

namespace Bytecode

/-- **The instruction at an offset**, if a complete one begins there. -/
def instruction? (code : Bytecode) (offset : Nat) : Option Instruction :=
  (code[offset]?.bind Opcode.ofByte?).bind fun opcode =>
    let start := offset + 1
    if start + opcode.width ≤ code.size then
      some ⟨opcode, (code.extract start (start + opcode.width)).toList⟩
    else none

/-- **The instructions from an offset on**, if they make up the code to its end. -/
def instructions? (code : Bytecode) (offset : Nat) : Option (List Instruction) :=
  if offset < code.size then
    (instruction? code offset).bind fun i =>
      (instructions? code (offset + 1 + i.opcode.width)).map (i :: ·)
  else some []
termination_by code.size - offset

variable {code : Bytecode} {offset : Nat}

theorem instructions?_of_le (h : code.size ≤ offset) : instructions? code offset = some [] := by
  rw [instructions?, if_neg (by omega)]

theorem instructions?_of_none (h : offset < code.size) (hi : instruction? code offset = none) :
    instructions? code offset = none := by
  rw [instructions?, if_pos h, hi, Option.bind_none]

theorem instructions?_of_some (h : offset < code.size) {i : Instruction}
    (hi : instruction? code offset = some i) :
    instructions? code offset =
      (instructions? code (offset + 1 + i.opcode.width)).map (i :: ·) := by
  rw [instructions?, if_pos h, hi, Option.bind_some]

theorem instruction?_eq {f : Fragment} {fs : List Fragment}
    (hd : decode (code.toList.drop offset) = f :: fs) :
    instruction? code offset = f.instruction? := by
  obtain ⟨rest, hcode, hsound, -, hend⟩ := decode_eq_cons hd
  have hbyte : code[offset]? = f.bytes.head? := by
    rw [← Array.getElem?_toList, ← List.head?_drop, hcode, List.head?_append]
    cases f <;> rfl
  have hsize := congrArg List.length hcode
  rw [List.length_drop, Array.length_toList, List.length_append] at hsize
  unfold instruction?
  rw [hbyte]
  cases f with
  | unknown byte =>
    have hnone : Opcode.ofByte? byte = none := hsound
    rw [bytes, List.head?_cons, Option.bind_some, hnone]
    rfl
  | truncated op operand =>
    obtain ⟨hop, hlt⟩ := hsound
    have hop : Opcode.ofByte? op.toByte = some op := hop
    have hnil := hend op operand rfl
    rw [hnil, bytes, List.length_cons, List.length_nil] at hsize
    rw [bytes, List.head?_cons, Option.bind_some, hop, Option.bind_some]
    exact if_neg (by omega)
  | instruction i =>
    obtain ⟨hop, hlen⟩ := hsound
    rw [bytes, Instruction.encode, List.length_cons] at hsize
    have hoperand : (code.extract (offset + 1) (offset + 1 + i.opcode.width)).toList =
        i.operand := by
      rw [Array.toList_extract, List.extract_eq_take_drop, Nat.add_sub_cancel_left,
        ← List.drop_drop, hcode, bytes, Instruction.encode, List.cons_append, List.drop_succ_cons,
        List.drop_zero, ← hlen, List.take_left]
    rw [bytes, Instruction.encode, List.head?_cons, Option.bind_some, hop, Option.bind_some]
    simp only [hoperand]
    exact if_pos (by omega)

theorem lt_size_of_decode {f : Fragment} {fs : List Fragment}
    (hd : decode (code.toList.drop offset) = f :: fs) : offset < code.size := by
  by_contra hle
  rw [List.drop_eq_nil_of_le (by rw [Array.length_toList]; omega), decode_nil] at hd
  exact absurd hd (by simp)

/-- **Reading by offsets is decoding**, of code with nothing but complete instructions. -/
theorem instructions?_eq : ∀ (fs : List Fragment) {offset : Nat},
    decode (code.toList.drop offset) = fs →
      instructions? code offset = fs.mapM Fragment.instruction?
  | [], offset, hd => by
    have hbytes := bytes_decode (code.toList.drop offset)
    rw [hd, List.flatMap_nil, eq_comm, List.drop_eq_nil_iff, Array.length_toList] at hbytes
    exact instructions?_of_le hbytes
  | f :: fs, offset, hd => by
    have hlt := lt_size_of_decode hd
    have hi := instruction?_eq hd
    obtain ⟨rest, hcode, hsound, hrest, -⟩ := decode_eq_cons hd
    rw [List.mapM_cons]
    cases f with
    | unknown byte => exact instructions?_of_none hlt hi
    | truncated op operand => exact instructions?_of_none hlt hi
    | instruction i =>
      have hlen : i.encode.length = 1 + i.opcode.width := Instruction.length_encode hsound
      have hnext : code.toList.drop (offset + 1 + i.opcode.width) = rest := by
        rw [Nat.add_assoc, ← hlen, ← List.drop_drop, hcode, bytes, List.drop_left]
      rw [instructions?_of_some hlt hi, instructions?_eq fs (by rw [hnext, hrest])]
      cases fs.mapM Fragment.instruction? <;> rfl

end Bytecode

/-! ## Laying out and reading back -/

/-- **Instructions that are laid out are read back**, one after another from the beginning of the
code, with all the bytes of their operands; and decoding finds them too. So two lists of
instructions are never laid out as the same code. -/
theorem Builder.instructions?_assemble {is : List Instruction} (h : ∀ i ∈ is, i.InRange) :
    Bytecode.instructions? (assemble is) 0 = some is ∧
      decode (assemble is).toList = is.map instruction ∧
      ∀ js : List Instruction, (∀ j ∈ js, j.InRange) → assemble js = assemble is → js = is := by
  have hdecode : ∀ js : List Instruction, (∀ j ∈ js, j.InRange) →
      decode (assemble js).toList = js.map instruction := by
    intro js hjs
    rw [toList_assemble]
    exact decode_flatMap_encode fun j hj => Instruction.wellFormed_iff_inRange.mpr (hjs j hj)
  have hread : ∀ js : List Instruction, (∀ j ∈ js, j.InRange) →
      Bytecode.instructions? (assemble js) 0 = some js := by
    intro js hjs
    have hd : decode ((assemble js).toList.drop 0) = js.map instruction := hdecode js hjs
    have hall : js.mapM (fun j => (pure j : Option Instruction)) = pure (js.map id) :=
      List.mapM_pure
    rw [List.map_id] at hall
    rw [Bytecode.instructions?_eq _ hd, List.mapM_map]
    exact hall
  refine ⟨hread is h, hdecode is h, fun js hjs hsame => ?_⟩
  have hjs := hread js hjs
  rw [hsame, hread is h] at hjs
  exact (Option.some.inj hjs).symm

/-- The operand bytes are opcodes themselves. -/
theorem Builder.instructions?_assemble_opcodes :
    let is : List Instruction := [⟨.push 2, [0x60, 0x01]⟩, ⟨.dup 16, []⟩, ⟨.add, []⟩]
    let js : List Instruction := [⟨.push 2, [0x60, 0x01]⟩, ⟨.swap 16, []⟩, ⟨.add, []⟩]
    (∀ i ∈ is, i.InRange) ∧ (∀ j ∈ js, j.InRange) ∧ assemble is = #[0x61, 0x60, 0x01, 0x8f, 0x01] ∧
      Bytecode.instructions? #[0x61, 0x60, 0x01, 0x8f, 0x01] 0 = some is ∧
      assemble js ≠ assemble is := by
  intro is js
  have his : ∀ i ∈ is, i.InRange := by decide
  have hjs : ∀ j ∈ js, j.InRange := by decide
  obtain ⟨hread, -, hunique⟩ := instructions?_assemble his
  refine ⟨his, hjs, rfl, hread, fun hsame => ?_⟩
  exact absurd (hunique js hjs hsame) (by decide)

end WordStack
