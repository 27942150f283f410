import WordStack.Proofs.Source.Blame
import WordStack.Proofs.Source.Column
import WordStack.Proofs.Source.Reading

/-! # Where a source text fails

A source text fails if one of its lines fails by itself, and then as the first of these does
(`instructionsFrom_error`). Only the number of the line is that of its place in the text.

What a line fails for is said of its words: one cause holds of them and no other, and the column is
that of the word which this cause blames (`blamed_of_instructionsOf`). The main statement puts the
two together (`assemble_fails_at`). -/

namespace WordStack.Source

/-- **Of lines the first that fails is reported**, as it fails by itself. -/
theorem instructionsFrom_error {lines : List (List Char)} {n : Nat} {e : Error}
    (h : instructionsFrom n lines = .error e) :
    ∃ front line rest blame, lines = front ++ line :: rest ∧
      (∀ l ∈ front, ∃ is, instructionsOf l = .ok is) ∧ instructionsOf line = .error blame ∧
      e = blame.onLine (n + front.length) := by
  induction lines generalizing n with
  | nil => exact absurd h (by simp [instructionsFrom])
  | cons line lines ih =>
    cases hline : instructionsOf line with
    | error blame =>
      rw [instructionsFrom_error_cons hline] at h
      exact ⟨[], line, lines, blame, rfl, by simp, hline, (Except.error.inj h).symm⟩
    | ok is =>
      rw [instructionsFrom_ok_cons hline] at h
      obtain ⟨front, first, rest, blame, rfl, hfront, hfirst, rfl⟩ := ih (map_eq_error_iff.mp h)
      refine ⟨line :: front, first, rest, blame, rfl, ?_, hfirst, ?_⟩
      · exact List.forall_mem_cons.mpr ⟨⟨is, hline⟩, hfront⟩
      · rw [List.length_cons, Nat.add_right_comm, Nat.add_assoc]

/-! ## A line by itself -/

theorem instructions_ofList {line : List Char} (h : '\n' ∉ line) :
    instructions (.ofList line) = instructionsFrom 1 [line] := by
  rw [instructions_eq_pieces, String.toList_ofList, List.splitOn_eq_singleton h]

theorem assemble_line_ok {line : List Char} (h : '\n' ∉ line) {is : List Instruction}
    (his : instructionsOf line = .ok is) :
    assemble (.ofList line) = .ok (Builder.assemble is) := by
  unfold assemble
  rw [instructions_ofList h, instructionsFrom_ok_cons his]
  show Except.ok (Builder.assemble (is ++ [])) = _
  rw [List.append_nil]

theorem assemble_line_error {line : List Char} (h : '\n' ∉ line) {blame : Blame}
    (hblame : instructionsOf line = .error blame) :
    assemble (.ofList line) = .error (blame.onLine 1) := by
  unfold assemble
  rw [instructions_ofList h, instructionsFrom_error_cons hblame]
  rfl

/-- **A line fails for the one cause that holds of its words**, and at the column of the word that
this cause blames. -/
theorem blamed_of_instructionsOf {line : List Char} {blame : Blame}
    (h : instructionsOf line = .error blame) :
    ∃ name operands, words line = name.toList :: operands.map String.toList ∧
      (∀ cause : Cause, cause.Holds name operands ↔ cause = blame.cause) ∧
      ∃ word, (words line)[blame.cause.blamed]? = some word ∧
        WordAt line blame.cause.blamed blame.column word := by
  unfold instructionsOf at h
  split at h
  · exact absurd h (by simp)
  · rename_i name operands htokens
    have hwords : words line = name.text.toList :: (operands.map (·.text)).map String.toList := by
      rw [← text_tokens, htokens, List.map_cons, List.map_map]
      rfl
    have hs := map_eq_error_iff.mp h
    obtain ⟨hcause, hblame⟩ := statement_error_iff.mp hs
    refine ⟨name.text, operands.map (·.text), hwords, fun cause => ⟨fun hc => ?_, ?_⟩, ?_⟩
    · have hsame := (statement_of_holds hc).symm.trans hs
      rw [← Except.error.inj hsame]
      rfl
    · rintro rfl
      exact hcause
    · have hlt : blame.cause.blamed < (name :: operands).length := by
        have hlt := hcause.blamed_lt
        rwa [List.length_map] at hlt
      obtain ⟨t, ht⟩ : ∃ t, (name :: operands)[blame.cause.blamed]? = some t :=
        ⟨_, List.getElem?_eq_getElem hlt⟩
      have hcolumn : blame.column = t.column := by
        rw [congrArg Blame.column hblame, Cause.blameOn, ht]
        rfl
      rw [← htokens] at ht
      refine ⟨t.text.toList, ?_, hcolumn ▸ wordAt_of_getElem? ht⟩
      rw [← text_tokens, List.getElem?_map, ht]
      rfl

/-- The cause holds of the words of a line. -/
def Cause.HoldsOn (cause : Cause) (line : List Char) : Prop :=
  ∃ name operands, words line = name.toList :: operands.map String.toList ∧
    cause.Holds name operands

theorem holdsOn_of_instructionsOf {line : List Char} {blame : Blame}
    (h : instructionsOf line = .error blame) : blame.cause.HoldsOn line := by
  obtain ⟨name, operands, hwords, hcause, -⟩ := blamed_of_instructionsOf h
  exact ⟨name, operands, hwords, (hcause blame.cause).mpr rfl⟩

theorem instructionsOf_of_holdsOn {line : List Char} {cause : Cause} (h : cause.HoldsOn line) :
    ∃ blame, instructionsOf line = .error blame ∧ blame.cause = cause := by
  obtain ⟨name, operands, hwords, hcause⟩ := h
  obtain ⟨⟨name', column⟩, ts, htokens, hname, hrest⟩ :=
    List.map_eq_cons_iff.mp ((text_tokens line).trans hwords)
  obtain rfl : name' = name := String.toList_inj.mp hname
  have hinjective : Function.Injective String.toList := fun _ _ => String.toList_inj.mp
  have htexts : ts.map (·.text) = operands := by
    apply List.map_injective_iff.mpr hinjective
    rw [← hrest, List.map_map]
    rfl
  have hstatement : statement ⟨name', column⟩ ts =
      .error (cause.blameOn ⟨name', column⟩ ts) := statement_of_holds (htexts ▸ hcause)
  refine ⟨cause.blameOn ⟨name', column⟩ ts, ?_, rfl⟩
  rw [instructionsOf, htokens]
  show (statement ⟨name', column⟩ ts).map _ = _
  rw [hstatement]
  rfl

/-! ## The place of a failure -/

/-- **A source text fails on a line**, behind the text before it and with an error. -/
structure FailsAt (source before : String) (line : List Char) (e : Error) : Prop where
  /-- The line begins where the text before it ends. -/
  place : ∃ after rest, source = before ++ after ∧ Text.lines after.toList = line :: rest ∧
    Text.lines source.toList = Text.lines before.toList ++ line :: rest
  number : e.line = (Text.lines before.toList).length + 1
  /-- Nothing fails before the line, neither all of it together nor one line of it. -/
  before_ok : ∃ code, assemble before = .ok code
  lines_ok : ∀ l ∈ Text.lines before.toList, ∃ code, assemble (.ofList l) = .ok code
  /-- The line fails by itself. -/
  alone : assemble (.ofList line) = .error { e with line := 1 }
  /-- The cause is the one that holds of the words, and the column is that of the word to blame. -/
  blamed : ∃ name operands, words line = name.toList :: operands.map String.toList ∧
    (∀ cause : Cause, cause.Holds name operands ↔ cause = e.cause) ∧
    ∃ word, (words line)[e.cause.blamed]? = some word ∧ WordAt line e.cause.blamed e.column word

theorem failsAt_of_error {source : String} {e : Error} (h : assemble source = .error e) :
    ∃ before line, FailsAt source before line e := by
  obtain ⟨front, line, rest, blame, hlines, hfront, hblame, rfl⟩ :=
    instructionsFrom_error (instructions_error h)
  obtain ⟨before, after, hsplit, rfl, hafter⟩ := Text.lines_split hlines
  have hnewline : ∀ l ∈ Text.lines source.toList, '\n' ∉ l := Text.newline_not_mem
  rw [hlines] at hnewline
  obtain ⟨is, his⟩ := (instructionsFrom_ok_iff _ 1).mpr hfront
  refine ⟨.ofList before, line, ⟨.ofList after, rest, ?_, ?_, ?_⟩, ?_, ?_, ?_, ?_, ?_⟩
  · rw [← String.ofList_append, ← hsplit, String.ofList_toList]
  · rw [String.toList_ofList, hafter]
  · rw [String.toList_ofList, hlines]
  · rw [String.toList_ofList]
    exact Nat.add_comm _ _
  · refine ⟨Builder.assemble is, ?_⟩
    unfold assemble instructions
    rw [String.toList_ofList, his]
    rfl
  · rw [String.toList_ofList]
    intro l hl
    obtain ⟨is, his⟩ := hfront l hl
    exact ⟨_, assemble_line_ok (hnewline l (List.mem_append_left _ hl)) his⟩
  · exact assemble_line_error (hnewline line (List.mem_append_right _ List.mem_cons_self)) hblame
  · exact blamed_of_instructionsOf hblame

theorem assemble_error_iff (source : String) :
    (∃ e, assemble source = .error e) ↔
      ∃ line ∈ Text.lines source.toList, ∃ e, assemble (.ofList line) = .error e := by
  constructor
  · rintro ⟨e, h⟩
    obtain ⟨before, line, hfails⟩ := failsAt_of_error h
    obtain ⟨after, rest, -, -, hlines⟩ := hfails.place
    exact ⟨line, by rw [hlines]; simp, _, hfails.alone⟩
  · rintro ⟨line, hline, e, he⟩
    cases h : assemble source with
    | error e' => exact ⟨e', rfl⟩
    | ok code =>
      have hok := instructions_ok_of_assemble h
      obtain ⟨is, his⟩ := (instructionsFrom_ok_iff _ 1).mp hok line hline
      have hcode := assemble_line_ok (Text.newline_not_mem line hline) his
      exact absurd (hcode.symm.trans he) (by simp)

theorem assemble_line_error_iff {line : List Char} (hnewline : '\n' ∉ line) :
    (∃ e, assemble (.ofList line) = .error e) ↔ ∃ cause : Cause, cause.HoldsOn line := by
  constructor
  · rintro ⟨e, he⟩
    cases h : instructionsOf line with
    | error blame => exact ⟨_, holdsOn_of_instructionsOf h⟩
    | ok is => exact absurd ((assemble_line_ok hnewline h).symm.trans he) (by simp)
  · rintro ⟨cause, hcause⟩
    obtain ⟨blame, hblame, -⟩ := instructionsOf_of_holdsOn hcause
    exact ⟨_, assemble_line_error hnewline hblame⟩

/-- **A source text fails exactly if one of its lines fails by itself**, and so exactly if some
cause holds of the words of one of its lines. It fails on the first line that fails by itself: for
the cause that holds of its words, at the column of the word to blame. -/
theorem assemble_fails_at (source : String) :
    ((∃ e, assemble source = .error e) ↔
      ∃ line ∈ Text.lines source.toList, ∃ e, assemble (.ofList line) = .error e) ∧
    ((∃ e, assemble source = .error e) ↔
      ∃ line ∈ Text.lines source.toList, ∃ cause : Cause, cause.HoldsOn line) ∧
    ∀ e, assemble source = .error e → ∃ before line, FailsAt source before line e := by
  have hwords : (∃ line ∈ Text.lines source.toList, ∃ e, assemble (.ofList line) = .error e) ↔
      ∃ line ∈ Text.lines source.toList, ∃ cause : Cause, cause.HoldsOn line :=
    exists_congr fun line => and_congr_right fun hline =>
      assemble_line_error_iff (Text.newline_not_mem line hline)
  have hlines := assemble_error_iff source
  exact ⟨hlines, hlines.trans hwords, fun e h => failsAt_of_error h⟩

/-- The second operand of a push is too many. -/
example : assemble "# sum\nADD\n  PUSH1 2, 3\n" =
    .error { line := 3, column := 12, cause := .operandCount "PUSH1" 1 2 } := by
  decide +kernel

end WordStack.Source
