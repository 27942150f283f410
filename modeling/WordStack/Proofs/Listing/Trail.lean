import WordStack.Proofs.Listing.Line
import WordStack.Proofs.Machine.Trail
import WordStack.Proofs.Word

/-! # Runs against listings

A listing sweeps the code once from the left to the right, and a run moves its program counter on by
itself. They come by the same places: the `k`-th machine on the trail of a run stands at the offset
that the `k`-th line of the listing shows, and what it then does is what the line says
(`Agrees`).

* `agrees_content`: a machine agrees with the line of the fragment that it stands at.
* `trail_agrees`: so it is along the trail of every run. -/

namespace WordStack

open Fragment Listing

/-- **The step of a machine agrees with a line of a listing.** -/
structure Machine.Agrees (s : Machine) (line : List Char) : Prop where
  /-- The line shows the instruction that is executed, with the operand that a push pushes. -/
  executed : ∀ status after, s.step = .ok status after → ∃ (op : Opcode) (operand : List UInt8),
    s.notice? = some (.executing s.pc op) ∧
    Machine.effect op (Word.ofBytes operand) s.stack = .ok () after.stack ∧
    Source.words line = op.mnemonic.toList :: (if operand = [] then [] else [hexText operand]) ∧
    ∀ n, op = .push n → operand.length = n.toNat ∧
      ∃ w : Word, after.stack.toList = w :: s.stack.toList ∧ w.toNat = bytesValue operand
  /-- The line marks a byte that is no opcode, unless the limit stops the run before it. -/
  unknown : (∀ limit after, s.step ≠ .error (.stepLimitExceeded limit) after) →
    ∀ byte offset, (∃ after, s.step = .error (.invalidOpcode byte offset) after) ↔
      offset = s.pc ∧ MarksUnknown byte line
  /-- The line marks a truncated push, unless the limit stops the run before it. -/
  truncated : (∀ limit after, s.step ≠ .error (.stepLimitExceeded limit) after) →
    ∀ offset requested available,
      (∃ after, s.step = .error (.truncatedOperand offset requested available) after) ↔
        offset = s.pc ∧ MarksTruncated requested available line

namespace Machine

theorem effect_push_ok {n : UInt8} {w : Word} {s t : Stack} (h : effect (.push n) w s = .ok () t) :
    t.toList = w :: s.toList := by
  change Stack.push w s = .ok () t at h
  rw [← Stack.ofList_toList s, Stack.push_ofList] at h
  split at h
  · injection h with _ h
    rw [← h, Stack.toList_ofList]
  · exact absurd h (by simp)

/-- **A machine agrees with the line of the fragment that it stands at.** -/
theorem agrees_content {s : Machine} {f : Fragment} {fs : List Fragment}
    (hd : decode s.remaining = f :: fs) : s.Agrees (content s.pc f) where
  executed := by
    intro status after h
    have hc := step_cases s
    rw [h] at hc
    cases hc with
    | halted hn => rw [hn] at hd; exact absurd hd (by simp)
    | @executed i gs stack hi ha he =>
      obtain ⟨rest, -, hsound, -, -⟩ := decode_eq_cons hi
      have hwf : i.WellFormed := hsound
      have hf := (List.cons.inj (hd.symm.trans hi)).1
      subst hf
      refine ⟨i.opcode, i.operand, notice?_of_instruction hi ha, he, words_instruction s.pc i, ?_⟩
      intro n hn
      refine ⟨?_, Word.ofBytes i.operand, ?_, ?_⟩
      · rw [hwf.2, hn]; rfl
      · rw [hn] at he
        exact effect_push_ok he
      · exact Word.toNat_ofBytes_of_le (Instruction.length_operand_le hwf)
  unknown hl byte offset := by
    rw [step_invalidOpcode_iff hd hl, marksUnknown_iff]
  truncated hl offset requested available := by
    rw [step_truncatedOperand_iff hd hl, marksTruncated_iff]

/-- **A run goes along the listing.** It ends as its last step does. The offsets at which it
executes, faults or is stopped are, in order, the first that the listing shows, and at each of them
the line agrees with the step. -/
theorem trail_agrees (m : Machine) (code : Bytecode) :
    let start := m.load code
    let lines := Text.lines (Listing.text code).toList
    m.execute code = start.ending start.trail ∧
    start.trail.map (fun s => some s.pc) <+: lines.map offset? ∧
    ∀ (k : Nat) (s : Machine), start.trail[k]? = some s →
      ∃ line, lines[k]? = some line ∧ s.Agrees line := by
  intro start lines
  have hline : ∀ (k : Nat) (s : Machine), start.trail[k]? = some s →
      ∃ line, lines[k]? = some line ∧ offset? line = some s.pc ∧ s.Agrees line := by
    intro k s hk
    obtain ⟨-, -, -, f, fs, hd, hl⟩ := trail_located start hk
    have hcode : start.remaining = code.toList := List.drop_zero
    rw [hcode] at hl
    refine ⟨content s.pc f, ?_, offset?_content s.pc f, agrees_content hd⟩
    show (Text.lines (Listing.text code).toList)[k]? = _
    rw [lines_text, List.getElem?_map]
    exact congrArg (Option.map _) hl
  refine ⟨ending_run start, ?_, fun k s hk => ?_⟩
  · rw [List.prefix_iff_getElem?]
    intro k hk
    rw [List.length_map] at hk
    obtain ⟨line, hk', hoffset, -⟩ := hline k _ (List.getElem?_eq_getElem hk)
    rw [List.getElem?_map, hk', List.getElem_map, ← hoffset]
    rfl
  · obtain ⟨line, hk', -, hagrees⟩ := hline k s hk
    exact ⟨line, hk', hagrees⟩

end Machine

end WordStack
