import WordStack.Builder
import WordStack.Proofs.Opcode

/-! # Decoding code

*Well-formed* code is a sequence of complete instructions (`Bytecode.WellFormed`). The *sweep* of
any code meets its complete instructions from the left to the right: it passes over one byte where
there is no opcode, and ends at a push with too few operand bytes (`Bytecode.Sweep`).

* `decode_eq_cons`: the first fragment of code, and what is decoded after it.
* `decode_encode_append`: instructions decode to themselves, whatever follows.
* `sweep_iff`: the sweep meets exactly the instructions among the fragments.
* `flatMap_encode_eq_iff`: the instructions it meets make up the code exactly if the code is
  well-formed. -/

namespace WordStack

namespace Instruction

theorem WellFormed.inUse {i : Instruction} (h : i.WellFormed) : i.opcode.InUse := h.1

theorem length_encode {i : Instruction} (h : i.WellFormed) :
    i.encode.length = 1 + i.opcode.width := by
  rw [encode, List.length_cons, h.2, Nat.add_comm]

theorem length_operand_le {i : Instruction} (h : i.WellFormed) : i.operand.length ≤ 32 := by
  rw [h.2]
  exact Opcode.width_le h.inUse

end Instruction

theorem Builder.toList_assemble (is : List Instruction) :
    (assemble is).toList = is.flatMap Instruction.encode := by
  have hfold : ∀ (is : List Instruction) (b : Builder),
      (is.foldl emit b).code.toList = b.code.toList ++ is.flatMap Instruction.encode := by
    intro is
    induction is with
    | nil => intro b; rw [List.flatMap_nil, List.append_nil]; rfl
    | cons i is ih =>
      intro b
      rw [List.foldl_cons, ih, List.flatMap_cons, ← List.append_assoc]
      simp [emit, raw]
  exact hfold is {}

namespace Fragment

/-- What decoding makes sure of. -/
def Sound : Fragment → Prop
  | instruction i => i.WellFormed
  | unknown byte => Opcode.ofByte? byte = none
  | truncated opcode operand => opcode.InUse ∧ operand.length < opcode.width

theorem bytes_ne_nil (f : Fragment) : f.bytes ≠ [] := by
  cases f <;> exact List.cons_ne_nil _ _

theorem decode_nil : decode [] = [] := by rw [decode]

theorem decode_unknown {byte : UInt8} (h : Opcode.ofByte? byte = none) (rest : List UInt8) :
    decode (byte :: rest) = unknown byte :: decode rest := by
  rw [decode, h]

theorem decode_truncated {op : Opcode} {operand : List UInt8} (hop : op.InUse)
    (hlt : operand.length < op.width) : decode (op.toByte :: operand) = [truncated op operand] := by
  have htake : operand.take op.width = operand := List.take_of_length_le hlt.le
  rw [decode, hop]
  simp only [htake, if_pos hlt]

theorem decode_encode_append {i : Instruction} (hi : i.WellFormed) (rest : List UInt8) :
    decode (i.encode ++ rest) = instruction i :: decode rest := by
  obtain ⟨hop, hlen⟩ := hi
  have htake : (i.operand ++ rest).take i.opcode.width = i.operand := by rw [← hlen, List.take_left]
  have hdrop : (i.operand ++ rest).drop i.opcode.width = rest := by rw [← hlen, List.drop_left]
  rw [Instruction.encode, List.cons_append, decode, hop]
  simp only [htake, hdrop]
  rw [if_neg (by omega)]

/-- **The first fragment.** It stands at the beginning of the code, and the others are decoded from
what follows it; after a truncated push nothing follows. -/
theorem decode_eq_cons {code : List UInt8} {f : Fragment} {fs : List Fragment}
    (h : decode code = f :: fs) :
    ∃ rest, code = f.bytes ++ rest ∧ f.Sound ∧ decode rest = fs ∧
      (∀ opcode operand, f = truncated opcode operand → rest = []) := by
  cases code with
  | nil => rw [decode_nil] at h; exact absurd h (by simp)
  | cons byte rest =>
    rw [decode] at h
    split at h
    · rename_i hb
      obtain ⟨rfl, rfl⟩ := List.cons.inj h
      exact ⟨rest, rfl, hb, rfl, fun _ _ he => absurd he (by simp)⟩
    · rename_i op hb
      have hbyte := Opcode.toByte_of_ofByte? hb
      have hop := Opcode.inUse_of_ofByte? hb
      simp only [] at h
      split at h
      · rename_i hlt
        obtain ⟨rfl, rfl⟩ := List.cons.inj h
        rw [List.length_take] at hlt
        have htake : rest.take op.width = rest := List.take_of_length_le (by omega)
        refine ⟨[], ?_, ⟨hop, ?_⟩, decode_nil, fun _ _ _ => rfl⟩
        · rw [bytes, htake, hbyte, List.append_nil]
        · rw [htake]; omega
      · rename_i hge
        obtain ⟨rfl, rfl⟩ := List.cons.inj h
        rw [List.length_take] at hge
        refine ⟨rest.drop op.width, ?_, ⟨hop, ?_⟩, rfl, fun _ _ he => absurd he (by simp)⟩
        · rw [bytes, Instruction.encode, hbyte, List.cons_append, List.take_append_drop]
        · simp only [List.length_take]; omega

theorem sound_of_mem_decode {f : Fragment} : ∀ (fs : List Fragment) {code : List UInt8},
    decode code = fs → f ∈ fs → f.Sound
  | [], _, _, hf => absurd hf (by simp)
  | g :: fs, code, h, hf => by
    obtain ⟨rest, -, hsound, hrest, -⟩ := decode_eq_cons h
    rcases List.mem_cons.mp hf with rfl | hf
    · exact hsound
    · exact sound_of_mem_decode fs hrest hf

theorem decode_flatMap_encode {is : List Instruction} (h : ∀ i ∈ is, i.WellFormed) :
    decode (is.flatMap Instruction.encode) = is.map instruction := by
  induction is with
  | nil => exact decode_nil
  | cons i is ih =>
    rw [List.flatMap_cons, decode_encode_append (h i List.mem_cons_self),
      ih fun j hj => h j (List.mem_cons_of_mem _ hj), List.map_cons]

theorem map_snd_located (offset : Nat) (fs : List Fragment) :
    (located offset fs).map Prod.snd = fs := by
  induction fs generalizing offset with
  | nil => rfl
  | cons f fs ih => rw [located, List.map_cons, ih]

theorem getElem?_located (fs : List Fragment) : ∀ {offset k place : Nat} {f : Fragment},
    (located offset fs)[k]? = some (place, f) →
      fs[k]? = some f ∧ place = offset + ((fs.take k).map (·.bytes.length)).sum := by
  induction fs with
  | nil => exact fun h => absurd h (by simp [located])
  | cons g fs ih =>
    intro offset k place f h
    match k with
    | 0 =>
      obtain ⟨rfl, rfl⟩ := Prod.mk.inj (Option.some.inj h)
      exact ⟨rfl, rfl⟩
    | k + 1 =>
      obtain ⟨hf, hplace⟩ := ih (by rwa [located, List.getElem?_cons_succ] at h)
      refine ⟨hf, ?_⟩
      rw [hplace, List.take_succ_cons, List.map_cons, List.sum_cons, ← Nat.add_assoc]

/-- The instruction, if the fragment is a complete one. -/
def instruction? : Fragment → Option Instruction
  | instruction i => some i
  | _ => none

end Fragment

namespace Bytecode

open Fragment

/-- **Well-formed code**: at each boundary between instructions stands a byte that is an opcode, and
no push runs past the end. -/
inductive WellFormed : List UInt8 → Prop where
  | nil : WellFormed []
  | cons {byte : UInt8} {op : Opcode} {operand rest : List UInt8}
      (h : Opcode.ofByte? byte = some op) (hlen : operand.length = op.width)
      (hrest : WellFormed rest) : WellFormed (byte :: (operand ++ rest))

/-- **The sweep** of code from the left to the right meets some complete instructions. -/
inductive Sweep : List UInt8 → List Instruction → Prop where
  | nil : Sweep [] []
  /-- A byte that is no opcode is passed over. -/
  | unknown {byte : UInt8} {rest : List UInt8} {is : List Instruction}
      (h : Opcode.ofByte? byte = none) (hrest : Sweep rest is) : Sweep (byte :: rest) is
  /-- A push that runs past the end ends the sweep. -/
  | truncated {byte : UInt8} {op : Opcode} {operand : List UInt8}
      (h : Opcode.ofByte? byte = some op) (hlt : operand.length < op.width) :
      Sweep (byte :: operand) []
  | instruction {byte : UInt8} {op : Opcode} {operand rest : List UInt8} {is : List Instruction}
      (h : Opcode.ofByte? byte = some op) (hlen : operand.length = op.width)
      (hrest : Sweep rest is) : Sweep (byte :: (operand ++ rest)) (⟨op, operand⟩ :: is)

theorem sweep_iff {code : List UInt8} {is : List Instruction} :
    Sweep code is ↔ is = (decode code).filterMap instruction? := by
  constructor
  · intro h
    induction h with
    | nil => rw [decode_nil]; rfl
    | unknown h _ ih => rw [decode_unknown h, ih]; rfl
    | truncated h hlt =>
      rw [← Opcode.toByte_of_ofByte? h, decode_truncated (Opcode.inUse_of_ofByte? h) hlt]; rfl
    | @instruction byte op operand rest is h hlen _ ih =>
      have hd := decode_encode_append (i := ⟨op, operand⟩) ⟨Opcode.inUse_of_ofByte? h, hlen⟩ rest
      rw [Instruction.encode, Opcode.toByte_of_ofByte? h, List.cons_append] at hd
      rw [hd, ih]; rfl
  · rintro rfl
    fun_induction decode code with
    | case1 => exact .nil
    | case2 byte rest h ih => exact .unknown h ih
    | case3 byte rest op h operand hlt =>
      have hle : rest.length ≤ op.width := by
        simp only [operand, List.length_take] at hlt
        omega
      refine .truncated h ?_
      rwa [show operand = rest from List.take_of_length_le hle] at hlt
    | case4 byte rest op h operand hge ih =>
      have hlen : operand.length = op.width := by
        simp only [operand, List.length_take] at hge ⊢
        omega
      have hs := Sweep.instruction h hlen ih
      rwa [List.take_append_drop] at hs

theorem wellFormed_flatMap_encode {is : List Instruction} (h : ∀ i ∈ is, i.WellFormed) :
    WellFormed (is.flatMap Instruction.encode) := by
  induction is with
  | nil => exact .nil
  | cons i is ih =>
    obtain ⟨hop, hlen⟩ := h i List.mem_cons_self
    exact .cons hop hlen (ih fun j hj => h j (List.mem_cons_of_mem _ hj))

theorem WellFormed.exists_instructions {code : List UInt8} (h : WellFormed code) :
    ∃ is : List Instruction, (∀ i ∈ is, i.WellFormed) ∧ code = is.flatMap Instruction.encode := by
  induction h with
  | nil => exact ⟨[], by simp, rfl⟩
  | @cons byte op operand rest h hlen _ ih =>
    obtain ⟨is, his, rfl⟩ := ih
    refine ⟨⟨op, operand⟩ :: is, ?_, ?_⟩
    · intro i hi
      rcases List.mem_cons.mp hi with rfl | hi
      · exact ⟨Opcode.inUse_of_ofByte? h, hlen⟩
      · exact his i hi
    · rw [List.flatMap_cons, Instruction.encode, Opcode.toByte_of_ofByte? h, List.cons_append]

theorem Sweep.wellFormed {code : List UInt8} {is : List Instruction} (h : Sweep code is) :
    ∀ i ∈ is, i.WellFormed := by
  rw [sweep_iff] at h
  intro i hi
  rw [h] at hi
  obtain ⟨f, hf, hfi⟩ := List.mem_filterMap.mp hi
  have hsound := sound_of_mem_decode _ rfl hf
  cases f with
  | instruction j => rw [← Option.some.inj hfi]; exact hsound
  | unknown byte => exact absurd hfi (by simp [instruction?])
  | truncated op operand => exact absurd hfi (by simp [instruction?])

/-- **The sweep loses nothing** exactly of well-formed code. -/
theorem flatMap_encode_eq_iff {code : List UInt8} {is : List Instruction} (h : Sweep code is) :
    is.flatMap Instruction.encode = code ↔ WellFormed code := by
  constructor
  · intro he
    rw [← he]
    exact wellFormed_flatMap_encode h.wellFormed
  · intro hw
    obtain ⟨js, hjs, rfl⟩ := hw.exists_instructions
    rw [sweep_iff, decode_flatMap_encode hjs, List.filterMap_map] at h
    rw [h]
    congr 1
    exact List.filterMap_some

end Bytecode

end WordStack
