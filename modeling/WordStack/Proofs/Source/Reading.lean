import WordStack.Proofs.Result
import WordStack.Proofs.Source.Words
import WordStack.Source.Program

/-! # Reading line by line

A source text is read line by line, and what is on a line does not depend on the others
(`instructionsOf`). Whether a line is ended by a newline, with a carriage return before it or not,
makes no difference, nor does an empty line at the end. So it is the same to read the lines of the
text or the pieces of it between newlines (`instructions_eq_pieces`), which are easier to join.

* `instructionsFrom_append`: lines are read one part after the other.
* `instructionsFrom_add`: numbers of lines that are counted from further on. -/

namespace WordStack.Source

/-- **The instructions of one line**: one, or none if the line has no words. -/
def instructionsOf (line : List Char) : Except Blame (List Instruction) :=
  match tokens line with
  | [] => .ok []
  | name :: operands => (statement name operands).map fun i => [i]

/-- The fault of a line, with the number of the line. -/
def Blame.onLine (blame : Blame) (line : Nat) : Error := ⟨line, blame.column, blame.cause⟩

/-! ## Line by line -/

section

variable {line : List Char} {lines : List (List Char)} {n : Nat}

theorem instructionsFrom_ok_cons {is : List Instruction} (h : instructionsOf line = .ok is) :
    instructionsFrom n (line :: lines) = (instructionsFrom (n + 1) lines).map (is ++ ·) := by
  unfold instructionsOf at h
  rw [instructionsFrom]
  cases htokens : tokens line with
  | nil =>
    rw [htokens] at h
    rw [← Except.ok.inj h]
    cases instructionsFrom (n + 1) lines <;> rfl
  | cons name operands =>
    rw [htokens] at h
    obtain ⟨i, hs, rfl⟩ := map_eq_ok_iff.mp h
    simp only [hs, List.singleton_append]

theorem instructionsFrom_error_cons {blame : Blame} (h : instructionsOf line = .error blame) :
    instructionsFrom n (line :: lines) = .error (blame.onLine n) := by
  unfold instructionsOf at h
  rw [instructionsFrom]
  cases htokens : tokens line with
  | nil =>
    rw [htokens] at h
    exact absurd h (by simp)
  | cons name operands =>
    rw [htokens] at h
    simp only [map_eq_error_iff.mp h]
    rfl

end

theorem instructionsOf_pair {line : List Char} {name operand : String}
    (h : words line = [name.toList, operand.toList]) :
    ∃ nameColumn column, instructionsOf line =
      (statement ⟨name, nameColumn⟩ [⟨operand, column⟩]).map fun i => [i] := by
  have hwords := (text_tokens line).trans h
  obtain ⟨⟨name', nameColumn⟩, tokens', htokens, hname, hrest⟩ := List.map_eq_cons_iff.mp hwords
  obtain ⟨⟨operand', column⟩, rfl, hoperand⟩ := List.map_eq_singleton_iff.mp hrest
  obtain rfl : name' = name := String.toList_inj.mp hname
  obtain rfl : operand' = operand := String.toList_inj.mp hoperand
  exact ⟨nameColumn, column, by rw [instructionsOf, htokens]⟩

theorem instructionsFrom_ok_iff (lines : List (List Char)) (n : Nat) :
    (∃ is, instructionsFrom n lines = .ok is) ↔
      ∀ line ∈ lines, ∃ is, instructionsOf line = .ok is := by
  induction lines generalizing n with
  | nil => exact ⟨fun _ _ hl => absurd hl List.not_mem_nil, fun _ => ⟨[], rfl⟩⟩
  | cons line lines ih =>
    rw [List.forall_mem_cons, ← ih (n + 1)]
    cases hline : instructionsOf line with
    | error blame => simp [instructionsFrom_error_cons hline]
    | ok is =>
      rw [instructionsFrom_ok_cons hline]
      cases instructionsFrom (n + 1) lines <;> simp [Except.map]

theorem instructionsFrom_cons_congr {line line' : List Char} {lines lines' : List (List Char)}
    {n : Nat} (hline : instructionsOf line = instructionsOf line')
    (hlines : instructionsFrom (n + 1) lines = instructionsFrom (n + 1) lines') :
    instructionsFrom n (line :: lines) = instructionsFrom n (line' :: lines') := by
  cases h : instructionsOf line' with
  | error blame =>
    rw [instructionsFrom_error_cons h, instructionsFrom_error_cons (hline.trans h)]
  | ok is => rw [instructionsFrom_ok_cons h, instructionsFrom_ok_cons (hline.trans h), hlines]

/-! ## Lines and the pieces between newlines -/

theorem instructionsOf_blank {line : List Char} (h : words line = []) :
    instructionsOf line = .ok [] := by
  rw [instructionsOf, tokens_eq_nil_iff.mpr h]

theorem instructionsOf_nil : instructionsOf [] = .ok [] := instructionsOf_blank words_nil

theorem instructionsOf_dropReturn (line : List Char) :
    instructionsOf (Text.dropReturn line) = instructionsOf line := by
  rw [instructionsOf, tokens_dropReturn, instructionsOf]

theorem instructionsFrom_lines (text : List Char) (n : Nat) :
    instructionsFrom n (Text.lines text) = instructionsFrom n (text.splitOn '\n') := by
  induction text using Text.newline_induction generalizing n with
  | last line h =>
    rw [Text.lines_of_not_mem h, List.splitOn_eq_singleton h]
    by_cases hnil : line = []
    · rw [hnil, List.filter_cons_of_neg (by simp), instructionsFrom_ok_cons instructionsOf_nil]
      rfl
    · rw [List.filter_cons_of_pos (by simpa using hnil), List.filter_nil]
  | ended line rest h ih =>
    rw [Text.lines_cons h, List.splitOn_append_cons_self_of_not_mem h]
    exact instructionsFrom_cons_congr (instructionsOf_dropReturn line) (ih _)

/-- **A text is read in the pieces between newlines.** -/
theorem instructions_eq_pieces (source : String) :
    instructions source = instructionsFrom 1 (source.toList.splitOn '\n') :=
  instructionsFrom_lines source.toList 1

/-! ## Parts of a text -/

theorem instructionsFrom_append (lines lines' : List (List Char)) (n : Nat) :
    instructionsFrom n (lines ++ lines') = (instructionsFrom n lines).bind fun is =>
      (instructionsFrom (n + lines.length) lines').map (is ++ ·) := by
  induction lines generalizing n with
  | nil =>
    show instructionsFrom n lines' = (instructionsFrom n lines').map ([] ++ ·)
    cases instructionsFrom n lines' <;> rfl
  | cons line lines ih =>
    rw [List.cons_append]
    cases h : instructionsOf line with
    | error blame =>
      rw [instructionsFrom_error_cons h, instructionsFrom_error_cons h]
      rfl
    | ok is =>
      rw [instructionsFrom_ok_cons h, instructionsFrom_ok_cons h, ih, List.length_cons,
        Nat.add_right_comm, Nat.add_assoc]
      cases instructionsFrom (n + 1) lines with
      | error e => rfl
      | ok js =>
        cases instructionsFrom (n + (lines.length + 1)) lines' <;> simp [Except.map, Except.bind]

/-- The fault, so many lines further on. -/
def Error.after (e : Error) (k : Nat) : Error := { e with line := e.line + k }

/-- **Lines that are counted from further on** fail further on. -/
theorem instructionsFrom_add (lines : List (List Char)) (n k : Nat) :
    instructionsFrom (n + k) lines = (instructionsFrom n lines).mapError (·.after k) := by
  induction lines generalizing n with
  | nil => rfl
  | cons line lines ih =>
    cases h : instructionsOf line with
    | error blame =>
      rw [instructionsFrom_error_cons h, instructionsFrom_error_cons h]
      rfl
    | ok is =>
      rw [instructionsFrom_ok_cons h, instructionsFrom_ok_cons h, Nat.add_right_comm, ih]
      cases instructionsFrom (n + 1) lines <;> rfl

/-! ## Code -/

theorem instructions_ok_of_assemble {source : String} {code : Bytecode}
    (h : assemble source = .ok code) : ∃ is, instructions source = .ok is := by
  obtain ⟨is, his, -⟩ := map_eq_ok_iff.mp h
  exact ⟨is, his⟩

theorem instructions_error {source : String} {e : Error} (h : assemble source = .error e) :
    instructions source = .error e :=
  map_eq_error_iff.mp h

end WordStack.Source
