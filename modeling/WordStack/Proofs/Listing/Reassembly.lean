import WordStack.Proofs.Listing.Line
import WordStack.Proofs.Literal
import WordStack.Source.Program

/-! # Listings as source programs

A listing is a source program. Each line of an instruction is read as that instruction
(`statement_of_words`), with all bytes of its operand, and the other lines are comments. So what a
listing assembles to are the instructions that the sweep of the code meets
(`assemble_listing`). -/

namespace WordStack

namespace Listing

open Fragment Source

theorem literal_hexText {name token : Token} {operand : List UInt8} (h1 : 1 ≤ operand.length)
    (h : operand.length ≤ 32) (ht : token.text.toList = hexText operand) :
    literal name [token] = .ok (token, Word.ofBytes operand) := by
  have htext : token.text = "0x" ++ Numeral.hexBytes operand := by
    apply String.toList_inj.mp
    rw [ht]
    simp [hexText, Numeral.hexBytes]
  unfold literal
  simp only [htext, Word.ofLiteral?_hexBytes h1 h]

/-- **A statement in the words of a listing** is read as the instruction listed. -/
theorem statement_of_words {name : Token} {operands : List Token} {op : Opcode}
    {operand : List UInt8} (hi : Instruction.WellFormed ⟨op, operand⟩)
    (hname : name.text.toList = op.mnemonic.toList)
    (hops : operands.map (·.text.toList) = if operand = [] then [] else [hexText operand]) :
    statement name operands = .ok ⟨op, operand⟩ := by
  have hop : op.InUse := hi.inUse
  have hlen : operand.length = op.width := hi.2
  have hle : operand.length ≤ 32 := Instruction.length_operand_le hi
  have htext : name.text = op.mnemonic := String.toList_inj.mp hname
  have hplain : op.width = 0 → operands = [] ∧ operand = [] := by
    intro hw
    have hnil : operand = [] := List.eq_nil_of_length_eq_zero (hlen.trans hw)
    rw [if_pos hnil] at hops
    exact ⟨List.map_eq_nil_iff.mp hops, hnil⟩
  unfold statement
  have hread : Opcode.ofMnemonic? op.mnemonic = some op := Opcode.ofMnemonic?_mnemonic hop
  rw [htext, if_neg (Opcode.upper_ne_of_ofMnemonic? hread), hread]
  cases op with
  | push width =>
    have hpos : 1 ≤ width.toNat := Opcode.width_pos hop
    have hwidth : operand.length = width.toNat := hlen
    have hne : operand ≠ [] := by
      rintro rfl
      rw [List.length_nil] at hwidth
      omega
    rw [if_neg hne] at hops
    obtain ⟨token, rfl, htoken⟩ := List.map_eq_singleton_iff.mp hops
    have hvalue := Word.toNat_ofBytes_of_le hle
    have hfits : (Word.ofBytes operand).byteLength ≤ width.toNat := by
      rw [Word.byteLength_le_iff hpos, hvalue, ← hwidth]
      exact bytesValue_lt operand
    simp only [literal_hexText (hwidth ▸ hpos) hle htoken, Except.bind]
    rw [if_pos hfits, Word.lastBytes_eq (hwidth ▸ hle), hvalue, ← hwidth, bigEndian_bytesValue]
  | _ =>
    obtain ⟨rfl, rfl⟩ := hplain rfl
    rfl

theorem instructionsFrom_content :
    ∀ (ps : List (Nat × Fragment)) (line : Nat), (∀ p ∈ ps, p.2.Sound) →
      instructionsFrom line (ps.map fun p => content p.1 p.2) =
        .ok (ps.filterMap fun p => p.2.instruction?)
  | [], _, _ => rfl
  | (offset, f) :: ps, line, hs => by
    have hf : f.Sound := hs _ List.mem_cons_self
    have ih := instructionsFrom_content ps (line + 1) fun p hp => hs p (List.mem_cons_of_mem _ hp)
    rw [List.map_cons, instructionsFrom]
    cases f with
    | unknown byte =>
      have hnone : tokens (content offset (.unknown byte)) = [] :=
        tokens_eq_nil_iff.mpr (words_of_comment _)
      rw [hnone, ih]
      rfl
    | truncated op operand =>
      have hnone : tokens (content offset (.truncated op operand)) = [] :=
        tokens_eq_nil_iff.mpr (words_of_comment _)
      rw [hnone, ih]
      rfl
    | instruction i =>
      have hwords := (text_tokens _).trans (words_instruction offset i)
      cases ht : tokens (content offset (instruction i)) with
      | nil => rw [ht] at hwords; exact absurd hwords (by simp)
      | cons name operands =>
        rw [ht, List.map_cons] at hwords
        obtain ⟨hname, hops⟩ := List.cons.inj hwords
        simp only [statement_of_words hf hname hops, ih]
        rfl

theorem assemble_text_eq (code : Bytecode) :
    assemble (text code) =
      .ok (((decode code.toList).filterMap instruction?).flatMap Instruction.encode).toArray := by
  have hsound : ∀ p ∈ located 0 (decode code.toList), p.2.Sound := by
    intro p hp
    have hmem := List.mem_map_of_mem (f := Prod.snd) hp
    rw [map_snd_located] at hmem
    exact sound_of_mem_decode _ rfl hmem
  have hinstr : (located 0 (decode code.toList)).filterMap (fun p => p.2.instruction?) =
      (decode code.toList).filterMap instruction? := by
    conv_rhs => rw [← map_snd_located 0 (decode code.toList), List.filterMap_map]
    rfl
  unfold assemble instructions
  rw [lines_text, instructionsFrom_content _ 1 hsound, hinstr]
  show Except.ok (Builder.assemble _) = _
  congr 1
  rw [← Builder.toList_assemble]

/-- **A listing assembles to the instructions of the code**: those that the one sweep of the code
meets, without the bytes that are no opcodes and without a truncated push. So it gives back exactly
the code that is well-formed. -/
theorem assemble_listing (code : Bytecode) :
    ∃ kept, (∀ is, Bytecode.Sweep code.toList is ↔ is = kept) ∧
      assemble (text code) = .ok (kept.flatMap Instruction.encode).toArray ∧
      (assemble (text code) = .ok code ↔ Bytecode.WellFormed code.toList) := by
  have hsweep := Bytecode.sweep_iff.mpr (Eq.refl ((decode code.toList).filterMap instruction?))
  have htext := assemble_text_eq code
  refine ⟨_, fun is => Bytecode.sweep_iff, htext, ?_⟩
  rw [htext, ← Bytecode.flatMap_encode_eq_iff hsweep]
  constructor
  · intro h
    exact congrArg Array.toList (Except.ok.inj h)
  · intro h
    rw [h]

end Listing

end WordStack
