import WordStack.Proofs.Source.Failure
import WordStack.Source.Diagnostic

/-! # Where the caret stands

A diagnostic ends in the source line, behind its number, and a line with the caret
(`lines_diagnostic`). Each begins with a gutter, and the two gutters are written apart: that of the
number is as wide as the number wants it (`length_gutter`), that of the caret has the width that is
right for four digits.

So the caret stands below the first character of the word to blame on the lines up to 9999, and
further down too far to the left, by one character for each further digit (`caret_below`). -/

namespace WordStack.Source

/-- What stands in front of a source line: its number, to the right of four columns. -/
def gutter (number : Nat) : List Char := (Numeral.decimalAligned 4 number).toList ++ [' ', '|', ' ']

/-- A source line as it is shown, behind its number. -/
def numbered (number : Nat) (line : List Char) : List Char := gutter number ++ Text.dropReturns line

/-- The line with the caret for a column. -/
def caretLine (column : Nat) : List Char :=
  [' ', ' ', ' ', ' ', ' ', '|', ' '] ++ List.replicate (column - 1) ' ' ++ ['^']

/-! ## The two gutters -/

theorem length_gutter (number : Nat) :
    (gutter number).length = 7 + ((Numeral.decimal number).toList.length - 4) := by
  rw [gutter, Numeral.decimalAligned, Numeral.decimal, String.toList_ofList, String.toList_ofList,
    List.length_append, List.length_leftpad]
  show max 4 (Nat.toDigits 10 number).length + 3 = _
  omega

theorem length_decimal_le_four_iff (number : Nat) :
    (Numeral.decimal number).toList.length ≤ 4 ↔ number < 10000 := by
  rw [Numeral.decimal, String.toList_ofList]
  exact Nat.length_toDigits_le_iff (by decide) (by decide)

theorem idxOf_caretLine (column : Nat) : (caretLine column).idxOf '^' = 7 + (column - 1) := by
  have hfront : '^' ∉ [' ', ' ', ' ', ' ', ' ', '|', ' '] ++ List.replicate (column - 1) ' ' := by
    simp
  rw [caretLine, List.idxOf_append_of_notMem hfront, List.length_append, List.length_replicate,
    List.idxOf_cons_self]
  rfl

/-! ## The last two lines -/

theorem newline_not_mem_gutter (number : Nat) : '\n' ∉ gutter number := by
  unfold gutter Numeral.decimalAligned
  rw [String.toList_ofList, List.leftpad, List.mem_append, List.mem_append, List.mem_replicate]
  rintro ((⟨-, h⟩ | h) | h)
  · exact absurd h (by decide)
  · have hdigit := Numeral.isAlphanum_toDigits (by decide) (by decide) number _ h
    exact absurd hdigit (by decide)
  · exact absurd h (by decide)

theorem newline_not_mem_caretLine (column : Nat) : '\n' ∉ caretLine column := by
  simp [caretLine]

/-- Nothing is left out of a numbered line: the carriage returns at its end are so already. -/
theorem dropReturn_numbered (number : Nat) (line : List Char) :
    Text.dropReturn (numbered number line) = numbered number line := by
  apply Text.dropReturn_of_getLast?
  rw [numbered, List.getLast?_append]
  have hline := Text.getLast?_dropReturns line
  cases hlast : (Text.dropReturns line).getLast? with
  | some c =>
    rw [Option.some_or, ← hlast]
    exact hline
  | none => simp [gutter]

theorem dropReturn_caretLine (column : Nat) :
    Text.dropReturn (caretLine column) = caretLine column := by
  apply Text.dropReturn_of_getLast?
  rw [caretLine, List.getLast?_concat]
  decide

/-- **A diagnostic ends in the numbered source line and the line with the caret.** -/
theorem lines_diagnostic {file source : String} {line column : Nat} {message : String}
    {text : List Char} (h : (Text.lines source.toList)[line - 1]? = some text) :
    ∃ front, Text.lines (diagnostic file source line column message).toList =
      front ++ [numbered line text, caretLine column] := by
  have hnewline : '\n' ∉ numbered line text := by
    rw [numbered, List.mem_append, not_or]
    exact ⟨newline_not_mem_gutter line,
      Text.newline_not_mem_dropReturns (Text.newline_not_mem text (List.mem_of_getElem? h))⟩
  have hsplit : ∃ place : List Char, (diagnostic file source line column message).toList =
      place ++ '\n' :: (numbered line text ++ '\n' :: (caretLine column ++ '\n' :: [])) := by
    refine ⟨("error: " ++ message ++ "\n --> " ++ file ++ ":" ++ Numeral.decimal line ++ ":"
      ++ Numeral.decimal column ++ "\n     |").toList, ?_⟩
    simp [diagnostic, h, numbered, gutter, caretLine]
  obtain ⟨place, hplace⟩ := hsplit
  rw [hplace, Text.lines_append, Text.lines_cons hnewline,
    Text.lines_cons (newline_not_mem_caretLine column), Text.lines_nil, dropReturn_numbered,
    dropReturn_caretLine]
  exact ⟨_, rfl⟩

/-! ## The caret and the word -/

/-- **The caret stands below the word to blame exactly on the lines up to 9999.** The numbered line
shows the word where it begins in the source, behind the gutter; the caret is as far from there, to
the left, as the number of the line has digits more than four. -/
theorem caret_below {source : String} {e : Error} (h : assemble source = .error e)
    (file : String) : ∃ front line word start,
      (Text.lines source.toList)[e.line - 1]? = some line ∧
      WordAt line e.cause.blamed e.column word ∧
      Text.lines (diagnostic file source e.line e.column e.cause.message).toList =
        front ++ [numbered e.line line, caretLine e.column] ∧
      start = (gutter e.line).length + (e.column - 1) ∧
      word <+: (numbered e.line line).drop start ∧
      start = (caretLine e.column).idxOf '^' + ((Numeral.decimal e.line).toList.length - 4) ∧
      ((caretLine e.column).idxOf '^' = start ↔ e.line < 10000) := by
  obtain ⟨before, line, hfails⟩ := failsAt_of_error h
  obtain ⟨_, _, -, -, word, -, hword⟩ := hfails.blamed
  obtain ⟨_, rest, -, -, hlines⟩ := hfails.place
  have hline : (Text.lines source.toList)[e.line - 1]? = some line := by
    rw [hlines, hfails.number, Nat.add_sub_cancel, List.getElem?_append_right le_rfl, Nat.sub_self,
      List.getElem?_cons_zero]
  obtain ⟨front, hfront⟩ := lines_diagnostic hline
  have hdigits := length_decimal_le_four_iff e.line
  refine ⟨front, line, word, _, hline, hword, hfront, rfl, ?_, ?_, ?_⟩
  · rw [numbered, List.drop_length_add_append]
    exact wordAt_prefix hword
  · rw [length_gutter, idxOf_caretLine]
    omega
  · rw [length_gutter, idxOf_caretLine, ← hdigits]
    omega

/-- The operand of the second line is too wide, and the caret stands below it. -/
theorem caret_below_operand :
    assemble "ADD\nPUSH1 999" = .error ⟨2, 7, .tooWide "PUSH1" 1 2⟩ ∧
    ∃ front line word start, (Text.lines "ADD\nPUSH1 999".toList)[1]? = some line ∧
      WordAt line 1 7 word ∧
      Text.lines
          (diagnostic "a.asm" "ADD\nPUSH1 999" 2 7 (Cause.tooWide "PUSH1" 1 2).message).toList =
        front ++ [numbered 2 line, caretLine 7] ∧
      word <+: (numbered 2 line).drop start ∧ (caretLine 7).idxOf '^' = start := by
  have h : assemble "ADD\nPUSH1 999" = .error ⟨2, 7, .tooWide "PUSH1" 1 2⟩ := by decide +kernel
  obtain ⟨front, line, word, start, hline, hword, hlines, -, hshown, -, hcaret⟩ :=
    caret_below h "a.asm"
  exact ⟨h, front, line, word, start, hline, hword, hlines, hshown, hcaret.mpr (by decide)⟩

/-! ## Below many blank lines -/

theorem lines_replicate_newline (k : Nat) (rest : List Char) :
    Text.lines (List.replicate k '\n' ++ rest) = List.replicate k [] ++ Text.lines rest := by
  induction k with
  | zero => rfl
  | succ k ih =>
    rw [List.replicate_succ, List.replicate_succ, List.cons_append, List.cons_append, ← ih]
    exact Text.lines_cons List.not_mem_nil _

theorem instructionsFrom_blank (k n : Nat) (lines : List (List Char)) :
    instructionsFrom n (List.replicate k [] ++ lines) = instructionsFrom (n + k) lines := by
  induction k generalizing n with
  | zero => rfl
  | succ k ih =>
    rw [List.replicate_succ, List.cons_append, instructionsFrom_ok_cons instructionsOf_nil, ih,
      Nat.add_assoc, Nat.add_comm 1 k]
    cases instructionsFrom (n + (k + 1)) lines <;> rfl

/-- On line 10000 the caret is one character to the left of the word to blame. -/
theorem caret_left_of_word :
    let source := String.ofList (List.replicate 9999 '\n' ++ ['X'])
    assemble source = .error ⟨10000, 1, .unknownName "X"⟩ ∧
    ∃ front, Text.lines
        (diagnostic "prog.asm" source 10000 1 (Cause.unknownName "X").message).toList =
          front ++ ["10000 | X".toList, "     | ^".toList] ∧
      "10000 | X".toList.idxOf 'X' = 8 ∧ "     | ^".toList.idxOf '^' = 7 := by
  intro source
  have hlines : Text.lines source.toList = List.replicate 9999 [] ++ [['X']] := by
    rw [String.toList_ofList, lines_replicate_newline]
    rfl
  have hline : (Text.lines source.toList)[10000 - 1]? = some ['X'] := by
    rw [hlines, List.getElem?_append_right (by rw [List.length_replicate]), List.length_replicate]
    rfl
  have hassemble : assemble source = .error ⟨10000, 1, .unknownName "X"⟩ := by
    rw [assemble, instructions, hlines, instructionsFrom_blank]
    decide +kernel
  obtain ⟨front, hfront⟩ := lines_diagnostic hline
  refine ⟨hassemble, front, hfront, ?_, ?_⟩
  · decide +kernel
  · decide +kernel

end WordStack.Source
