import WordStack.Proofs.Source.Blame
import WordStack.Proofs.Source.Execution
import WordStack.Proofs.Source.Reading

/-! # Stacks that are rebuilt from their text

The words of a stack can be written down as a source text, with a `PUSH` of each on a line of its
own (`pushLines`), and the text brings the stack back. It assembles to the shortest pushes of the
words (`assemble_pushLines`), and a run of these puts one word after the other on the stack, as many
as there is room for (`interpret_pushes`, `execute_pushLines`). -/

namespace WordStack

namespace Source

/-- The line that pushes a word. -/
def pushLine (w : Word) : String := "PUSH " ++ w.text

/-- **A source text that pushes words**, one on a line. -/
def pushLines (ws : List Word) : String := String.join (ws.map fun w => pushLine w ++ "\n")

/-- The code of the shortest pushes of words. -/
def pushCode (ws : List Word) : Bytecode := (ws.foldl Builder.pushWord {}).code

/-! ## Reading -/

theorem isAlphanum_push : ∀ c ∈ "PUSH".toList, c.isAlphanum := List.all_eq_true.mp (by decide)

theorem upper_push : Text.upper "PUSH" = "PUSH".toList := by decide

theorem isAlphanum_text (w : Word) : ∀ c ∈ w.text.toList, c.isAlphanum := by
  intro c hc
  rw [Word.text, String.toList_append, Numeral.hex_eq] at hc
  rcases List.mem_append.mp hc with hc | hc
  · exact List.all_eq_true.mp (by decide : "0x".toList.all Char.isAlphanum) c hc
  · exact Numeral.isAlphanum_hexPadded _ _ c hc

theorem toList_pushLine (w : Word) :
    (pushLine w).toList = "PUSH".toList ++ ' ' :: w.text.toList := by
  rw [pushLine, String.toList_append]
  rfl

theorem mem_pushLine {w : Word} {c : Char} (h : c ∈ (pushLine w).toList) :
    c.isAlphanum ∨ c = ' ' := by
  rw [toList_pushLine] at h
  exact mem_pair isAlphanum_push (isAlphanum_text w) h

theorem words_pushLine (w : Word) : words (pushLine w).toList = ["PUSH".toList, w.text.toList] := by
  have hne : w.text.toList ≠ [] := by
    rw [Word.text, String.toList_append]
    simp
  rw [toList_pushLine]
  exact words_pair (by decide) isAlphanum_push hne (isAlphanum_text w)

theorem instructionsOf_bare {line : List Char} {operand : String} {w : Word}
    (hwords : words line = ["PUSH".toList, operand.toList]) (h : Word.ofLiteral? operand = some w) :
    instructionsOf line = .ok [.pushWord w] := by
  obtain ⟨nameColumn, column, hline⟩ := instructionsOf_pair hwords
  have hliteral : literal ⟨"PUSH", nameColumn⟩ [⟨operand, column⟩] = .ok (⟨operand, column⟩, w) :=
    literal_of_some h
  rw [hline, statement_bare upper_push, hliteral]
  rfl

theorem instructionsOf_pushLine (w : Word) :
    instructionsOf (pushLine w).toList = .ok [.pushWord w] :=
  instructionsOf_bare (words_pushLine w) (Word.ofLiteral?_text w)

theorem instructionsFrom_pushLines (ws : List Word) (n : Nat) :
    instructionsFrom n (ws.map fun w => (pushLine w).toList) = .ok (ws.map .pushWord) := by
  induction ws generalizing n with
  | nil => rfl
  | cons w ws ih =>
    rw [List.map_cons, instructionsFrom_ok_cons (instructionsOf_pushLine w), ih]
    rfl

theorem lines_pushLines (ws : List Word) :
    Text.lines (pushLines ws).toList = ws.map fun w => (pushLine w).toList := by
  have htext : (pushLines ws).toList =
      (ws.map fun w => (pushLine w).toList).flatMap (· ++ ['\n']) := by
    rw [pushLines, String.toList_join, List.flatMap_map, List.flatMap_map]
    simp only [String.toList_append]
    rfl
  have hplain : ∀ l ∈ ws.map fun w => (pushLine w).toList, '\n' ∉ l ∧ '\r' ∉ l := by
    intro l hl
    obtain ⟨w, -, rfl⟩ := List.mem_map.mp hl
    exact ⟨fun h => absurd (mem_pushLine h) (by decide),
      fun h => absurd (mem_pushLine h) (by decide)⟩
  rw [htext, Text.lines_of_ended (fun l hl => (hplain l hl).1) fun l hl => (hplain l hl).2]

theorem pushCode_eq (ws : List Word) : pushCode ws = Builder.assemble (ws.map .pushWord) := by
  rw [pushCode, Builder.assemble, List.foldl_map]
  simp only [Builder.emit_pushWord]

theorem toList_pushCode (ws : List Word) :
    (pushCode ws).toList = (ws.map Instruction.pushWord).flatMap Instruction.encode := by
  rw [pushCode_eq, Builder.toList_assemble]

/-- **The text assembles to the shortest pushes of its words.** -/
theorem assemble_pushLines (ws : List Word) : assemble (pushLines ws) = .ok (pushCode ws) := by
  rw [assemble, instructions, lines_pushLines, instructionsFrom_pushLines, pushCode_eq]
  rfl

theorem pushCode_append (ws ws' : List Word) :
    (pushCode (ws ++ ws')).toList = (pushCode ws).toList ++ (pushCode ws').toList := by
  rw [toList_pushCode, List.map_append, List.flatMap_append, ← toList_pushCode, ← toList_pushCode]

theorem wellFormed_pushes (ws : List Word) :
    ∀ i ∈ ws.map Instruction.pushWord, i.WellFormed := by
  intro i hi
  obtain ⟨w, -, rfl⟩ := List.mem_map.mp hi
  exact (wellFormed_pushWord w).1

/-! ## Running -/

/-- The command that pushes a word. -/
def pushCommand (w : Word) : Command := .push w.byteLength w.toNat

theorem map_command_pushWord (ws : List Word) :
    (ws.map Instruction.pushWord).map Instruction.command = ws.map pushCommand := by
  rw [List.map_map]
  exact List.map_congr_left fun w _ => (wellFormed_pushWord w).2

theorem size_pushCode (ws : List Word) :
    (pushCode ws).size = ((ws.map pushCommand).map Command.length).sum := by
  rw [← Array.length_toList, toList_pushCode, List.length_flatMap, ← map_command_pushWord,
    List.map_map (g := Command.length)]
  exact congrArg List.sum
    (List.map_congr_left fun i hi => (Instruction.length_command (wellFormed_pushes ws i hi)).symm)

section

variable {capacity : Nat}

/-- **Pushes go on while there is room.** -/
theorem interpret_pushes (ws : List Word) {s : List Nat} (h : s.length + ws.length ≤ capacity)
    (rest : List Command) (steps : Nat) :
    interpret capacity none (ws.map pushCommand ++ rest) s steps =
      interpret capacity none rest ((ws.map BitVec.toNat).reverse ++ s) (steps + ws.length) := by
  induction ws generalizing s steps with
  | nil => rfl
  | cons w ws ih =>
    rw [List.length_cons] at h
    have hact : (pushCommand w).act capacity s = .ok (w.toNat :: s) :=
      if_pos (show s.length < capacity by omega)
    rw [List.map_cons, List.cons_append, interpret_ok rfl hact (by simp [pushCommand]),
      ih (by rw [List.length_cons]; omega), List.map_cons, List.reverse_cons, List.append_assoc,
      List.length_cons, Nat.add_assoc, Nat.add_comm 1]
    rfl

theorem interpret_pushes_of_le {ws : List Word} (h : ws.length ≤ capacity) :
    interpret capacity none (ws.map pushCommand) [] 0 =
      ⟨none, ws.reverse.map BitVec.toNat, ws.length⟩ := by
  have hall := interpret_pushes ws (s := []) (by simpa using h) [] 0
  rw [List.append_nil, List.append_nil, Nat.zero_add, ← List.map_reverse] at hall
  exact hall

theorem interpret_pushes_of_lt {ws : List Word} (h : capacity < ws.length) :
    interpret capacity none (ws.map pushCommand) [] 0 =
      ⟨some (.stackOverflow capacity), (ws.take capacity).reverse.map BitVec.toNat, capacity⟩ := by
  obtain ⟨w, rest, hdrop⟩ : ∃ w rest, ws.drop capacity = w :: rest :=
    List.exists_cons_of_ne_nil fun hnil => absurd (List.drop_eq_nil_iff.mp hnil) (by omega)
  have hsplit : ws.map pushCommand =
      (ws.take capacity).map pushCommand ++ pushCommand w :: rest.map pushCommand := by
    rw [← List.map_cons, ← hdrop, ← List.map_append, List.take_append_drop]
  have hlen : (ws.take capacity).length = capacity := List.length_take_of_le h.le
  have hfull : (pushCommand w).act capacity ((ws.take capacity).reverse.map BitVec.toNat) =
      .error (.stackOverflow capacity, (ws.take capacity).reverse.map BitVec.toNat) := by
    refine if_neg ?_
    rw [List.length_map, List.length_reverse, hlen]
    exact Nat.lt_irrefl capacity
  rw [hsplit, interpret_pushes _ (by simp), List.append_nil, ← List.map_reverse,
    interpret_error rfl hfull, hlen, Nat.zero_add]

end

end Source

namespace Machine

open Source

/-! ## Outcomes -/

section

variable {r : EStateM.Result Fault Machine Unit} {ws : List Word} {steps : Nat}

theorem eq_of_map_toNat {ws' : List Word} (h : ws'.map BitVec.toNat = ws.map BitVec.toNat) :
    ws' = ws :=
  List.map_injective_iff.mpr (fun _ _ => BitVec.eq_of_toNat_eq) h

theorem ok_of_outcome (h : outcome r = ⟨none, ws.map BitVec.toNat, steps⟩) :
    ∃ after, r = .ok () after ∧ after.stack.toList = ws ∧ after.steps = steps := by
  cases r with
  | error fault after => exact absurd (congrArg Outcome.fault h) (by simp [outcome])
  | ok _ after =>
    simp only [outcome, Outcome.mk.injEq, true_and] at h
    exact ⟨after, rfl, eq_of_map_toNat h.1, h.2⟩

theorem error_of_outcome {fault : Fault}
    (h : outcome r = ⟨some fault, ws.map BitVec.toNat, steps⟩) :
    ∃ after, r = .error fault after ∧ after.stack.toList = ws ∧ after.steps = steps := by
  cases r with
  | ok _ after => exact absurd (congrArg Outcome.fault h) (by simp [outcome])
  | error fault' after =>
    simp only [outcome, Outcome.mk.injEq, Option.some.injEq] at h
    obtain ⟨rfl, hstack, hsteps⟩ := h
    exact ⟨after, rfl, eq_of_map_toNat hstack, hsteps⟩

end

/-- **A stack is rebuilt from the text of its words**, from the lowest to the top, on any machine
whose stack is empty and whose steps are not limited.

* If there is room for all of them, they are on the stack after a step for each.
* If there is not, the stack overflows when it is full, and the program counter is at the push of
  the first word that is left out. -/
theorem execute_pushLines (ws : List Word) {m : Machine} (hempty : m.stack.size = 0)
    (hlimit : m.config.stepLimit = none) :
    assemble (pushLines ws) = .ok (pushCode ws) ∧
      (ws.length ≤ m.stack.capacity →
        ∃ after, m.execute (pushCode ws) = .ok () after ∧ after.steps = ws.length ∧
          after.stack.toList = ws.reverse) ∧
      (m.stack.capacity < ws.length →
        ∃ after, m.execute (pushCode ws) = .error (.stackOverflow m.stack.capacity) after ∧
          after.steps = m.stack.capacity ∧
          after.stack.toList = (ws.take m.stack.capacity).reverse ∧
          after.pc = (pushCode (ws.take m.stack.capacity)).size ∧
          (pushCode ws).toList.drop after.pc = (pushCode (ws.drop m.stack.capacity)).toList) := by
  have hwf := wellFormed_pushes ws
  have hcode : (m.load (pushCode ws)).remaining =
      (ws.map Instruction.pushWord).flatMap Instruction.encode :=
    List.drop_zero.trans (toList_pushCode ws)
  have hrun : outcome (m.execute (pushCode ws)) =
      interpret m.stack.capacity none (ws.map pushCommand) [] 0 := by
    have hnil : m.stack.toList = [] :=
      List.eq_nil_of_length_eq_zero ((Stack.length_toList m.stack).trans hempty)
    rw [execute, outcome_run _ _ hwf hcode (show m.stack.size ≤ m.stack.capacity by omega),
      map_command_pushWord]
    simp only [load, hlimit, hnil, List.map_nil]
  refine ⟨assemble_pushLines ws, fun hle => ?_, fun hlt => ?_⟩
  · obtain ⟨after, hafter, hstack, hsteps⟩ :=
      ok_of_outcome (hrun.trans (interpret_pushes_of_le hle))
    exact ⟨after, hafter, hsteps, hstack⟩
  · obtain ⟨after, hafter, hstack, hsteps⟩ :=
      error_of_outcome (hrun.trans (interpret_pushes_of_lt hlt))
    obtain ⟨k, hk, hpc, -⟩ := fault_run hwf hcode hafter
    have hk : k = m.stack.capacity := by
      rw [← hsteps, hk]
      exact (Nat.zero_add k).symm
    have hpc : after.pc = (pushCode (ws.take m.stack.capacity)).size := by
      rw [hpc, map_command_pushWord, hk, ← List.map_take, ← size_pushCode]
      exact Nat.zero_add _
    have happend := pushCode_append (ws.take m.stack.capacity) (ws.drop m.stack.capacity)
    rw [List.take_append_drop] at happend
    refine ⟨after, hafter, hsteps, hstack, hpc, ?_⟩
    rw [happend, hpc, ← Array.length_toList, List.drop_left]

/-- The third word finds no room, and its push is at offset 5. -/
theorem execute_pushLines_overflow :
    pushLines [0, 256, 5] = "PUSH 0x0\nPUSH 0x100\nPUSH 0x5\n" ∧
      ∃ after, (new { stackCapacity := 2 }).execute #[0x60, 0, 0x61, 1, 0, 0x60, 5] =
          .error (.stackOverflow 2) after ∧
        after.steps = 2 ∧ after.stack.toList = [256, 0] ∧ after.pc = 5 := by
  have h := execute_pushLines [0, 256, 5] (m := new { stackCapacity := 2 }) rfl rfl
  obtain ⟨after, hafter, hsteps, hstack, hpc, -⟩ := h.2.2 (by decide)
  have hcode : pushCode [0, 256, 5] = #[0x60, 0, 0x61, 1, 0, 0x60, 5] := by decide +kernel
  rw [hcode] at hafter
  exact ⟨by decide +kernel, after, hafter, hsteps, hstack, hpc⟩

end Machine

end WordStack
