import Mathlib.Data.List.Forall2
import WordStack.Proofs.Literal
import WordStack.Proofs.Source.Blame
import WordStack.Proofs.Source.Reading

/-! # The layout of a source text

What a source text says is in its sentences: blank lines, comments, separators and line ends do not
matter, nor does the case of names and of hex digits. So two texts whose sentences are the same but
for case (`SameSentence`) have the same code, or else both fail, at sentences with the same index
and for causes of the same kind (`assemble_layout`).

The two texts may have different blank lines. So each of them is first compared with itself without
its blank lines (`instructionsFrom_spoken`): then only the numbers of its lines change. After that
the two texts go line by line together (`instructionsFrom_same`). -/

namespace WordStack.Source

/-! ## The same but for case -/

/-- **Operands that are the same** but for the case of what is behind `0x`. -/
inductive SameOperand : List Char → List Char → Prop where
  | refl (word : List Char) : SameOperand word word
  | hex {digits digits' : List Char} (h : digits.map Char.toUpper = digits'.map Char.toUpper) :
    SameOperand ('0' :: 'x' :: digits) ('0' :: 'x' :: digits')

/-- **Sentences that are the same** but for the case of the name and of hex digits. -/
def SameSentence : List (List Char) → List (List Char) → Prop
  | [], [] => True
  | name :: operands, name' :: operands' =>
    name.map Char.toUpper = name'.map Char.toUpper ∧ List.Forall₂ SameOperand operands operands'
  | _, _ => False

/-- **The kind of a cause** is what the cause says, less the texts that it shows. -/
inductive Kind where
  | unknownName
  | operandCount (expected actual : Nat)
  | notLiteral
  | tooWide (width needed : Nat)
  deriving DecidableEq

def Cause.kind : Cause → Kind
  | .unknownName _ => .unknownName
  | .operandCount _ expected actual => .operandCount expected actual
  | .notLiteral _ => .notLiteral
  | .tooWide _ width needed => .tooWide width needed

theorem ofLiteral?_same {literal literal' : String}
    (h : SameOperand literal.toList literal'.toList) :
    Word.ofLiteral? literal = Word.ofLiteral? literal' := by
  generalize hcs : literal.toList = cs at h
  generalize hcs' : literal'.toList = cs' at h
  cases h with
  | refl => rw [String.toList_inj.mp (hcs.trans hcs'.symm)]
  | @hex digits digits' h =>
    have hlength : digits.length = digits'.length := by
      rw [← List.length_map Char.toUpper, h, List.length_map]
    have hvalue : Numeral.hex? digits = Numeral.hex? digits' := by
      rw [← Numeral.hex?_map_toUpper, h, Numeral.hex?_map_toUpper]
    rw [Word.ofLiteral?_of_hex hcs, Word.ofLiteral?_of_hex hcs', hlength, hvalue]

/-! ## Statements -/

section

variable {name name' : Token} {operands operands' : List Token}

theorem literal_same
    (h : List.Forall₂ (fun t t' => SameOperand t.text.toList t'.text.toList) operands operands') :
    (∃ t t' w, literal name operands = .ok (t, w) ∧ literal name' operands' = .ok (t', w)) ∨
      ∃ blame blame', literal name operands = .error blame ∧
        literal name' operands' = .error blame' ∧ blame.cause.kind = blame'.cause.kind := by
  have hlength := h.length_eq
  by_cases hone : operands.length = 1
  · obtain ⟨t, rfl⟩ := List.length_eq_one_iff.mp hone
    obtain ⟨t', rfl⟩ := List.length_eq_one_iff.mp (hlength.symm.trans hone)
    obtain ⟨hsame, -⟩ := List.forall₂_cons.mp h
    have hword := ofLiteral?_same hsame
    cases hw : Word.ofLiteral? t.text with
    | some w =>
      exact Or.inl ⟨t, t', w, literal_of_some hw, literal_of_some (hword.symm.trans hw)⟩
    | none =>
      exact Or.inr ⟨_, _, literal_of_none hw, literal_of_none (hword.symm.trans hw), rfl⟩
  · refine Or.inr ⟨_, _, literal_of_length_ne hone, literal_of_length_ne (hlength ▸ hone), ?_⟩
    exact congrArg (Kind.operandCount 1) hlength

theorem statement_same (hname : Text.upper name.text = Text.upper name'.text)
    (h : List.Forall₂ (fun t t' => SameOperand t.text.toList t'.text.toList) operands operands') :
    (statement name operands).mapError (·.cause.kind) =
      (statement name' operands').mapError (·.cause.kind) := by
  have hopcode := Opcode.ofMnemonic?_congr hname
  rcases name_cases name.text with ⟨hbare, -⟩ | ⟨hbare, hop, -⟩ | ⟨n, hop, -⟩ | ⟨op, hop, hplain, -⟩
  · rw [statement_bare hbare, statement_bare (hname.symm.trans hbare)]
    rcases literal_same h with ⟨t, t', w, hl, hl'⟩ | ⟨blame, blame', hl, hl', hkind⟩
    · rw [hl, hl']
      rfl
    · rw [hl, hl']
      exact congrArg Except.error hkind
  · rw [statement_unknown hbare hop, statement_unknown (hname ▸ hbare) (hopcode ▸ hop)]
    rfl
  · rw [statement_push hop, statement_push (hopcode ▸ hop)]
    rcases literal_same h with ⟨t, t', w, hl, hl'⟩ | ⟨blame, blame', hl, hl', hkind⟩
    · rw [hl, hl', Except.bind, Except.bind]
      split <;> rfl
    · rw [hl, hl']
      exact congrArg Except.error hkind
  · rw [statement_plain hop hplain, statement_plain (hopcode ▸ hop) hplain]
    cases h with
    | nil => rfl
    | cons _ hrest =>
      rw [if_neg (List.cons_ne_nil _ _), if_neg (List.cons_ne_nil _ _)]
      exact congrArg (fun count => Except.error (Kind.operandCount 0 (count + 1))) hrest.length_eq

end

theorem instructionsOf_same {line line' : List Char}
    (h : SameSentence (words line) (words line')) :
    (instructionsOf line).mapError (·.cause.kind) =
      (instructionsOf line').mapError (·.cause.kind) := by
  rw [← text_tokens, ← text_tokens] at h
  unfold instructionsOf
  match tokens line, tokens line', h with
  | [], [], _ => rfl
  | [], _ :: _, h => exact h.elim
  | _ :: _, [], h => exact h.elim
  | name :: operands, name' :: operands', ⟨hname, hoperands⟩ =>
    rw [List.forall₂_map_left_iff, List.forall₂_map_right_iff] at hoperands
    simp only [mapError_map, statement_same hname hoperands]

/-! ## Lines -/

/-- What is reported of a fault, less the column and the texts. -/
def Error.kind (e : Error) : Nat × Kind := (e.line, e.cause.kind)

/-- **Lines that say the same, one by one,** are read as the same instructions, or fail on the same
line and for the same kind of cause. -/
theorem instructionsFrom_same {lines lines' : List (List Char)}
    (h : List.Forall₂ (fun line line' => SameSentence (words line) (words line')) lines lines')
    (n : Nat) :
    (instructionsFrom n lines).mapError Error.kind =
      (instructionsFrom n lines').mapError Error.kind := by
  induction h generalizing n with
  | nil => rfl
  | cons hline _ ih =>
    rcases mapError_cases (instructionsOf_same hline) with ⟨is, hi, hi'⟩ |
      ⟨blame, blame', hb, hb', hkind⟩
    · rw [instructionsFrom_ok_cons hi, instructionsFrom_ok_cons hi', mapError_map, mapError_map, ih]
    · rw [instructionsFrom_error_cons hb, instructionsFrom_error_cons hb']
      exact congrArg (fun kind => Except.error (n, kind)) hkind

/-! ## Blank lines -/

/-- The lines with a word. -/
def spoken (lines : List (List Char)) : List (List Char) := lines.filter (words · ≠ [])

/-- The numbers of the lines with a word, if the first of the lines has the number `n`. -/
def numbersFrom (n : Nat) (lines : List (List Char)) : List Nat :=
  ((lines.zipIdx n).filter (words ·.1 ≠ [])).map Prod.snd

/-- **The numbers of the lines that are not blank**, in a source text. -/
def numbers (source : String) : List Nat := numbersFrom 1 (Text.lines source.toList)

section

variable {line : List Char} {lines : List (List Char)}

theorem spoken_cons_blank (h : words line = []) : spoken (line :: lines) = spoken lines :=
  List.filter_cons_of_neg (by simpa using h)

theorem spoken_cons (h : words line ≠ []) : spoken (line :: lines) = line :: spoken lines :=
  List.filter_cons_of_pos (by simpa using h)

theorem numbersFrom_cons_blank (h : words line = []) (n : Nat) :
    numbersFrom n (line :: lines) = numbersFrom (n + 1) lines := by
  unfold numbersFrom
  rw [List.zipIdx_cons, List.filter_cons_of_neg (by simpa using h)]

theorem numbersFrom_cons (h : words line ≠ []) (n : Nat) :
    numbersFrom n (line :: lines) = n :: numbersFrom (n + 1) lines := by
  unfold numbersFrom
  rw [List.zipIdx_cons, List.filter_cons_of_pos (by simpa using h), List.map_cons]

end

/-- **Without its blank lines** a text is read as the same instructions, or fails for the same
reason; only the number of the line is another. -/
theorem instructionsFrom_spoken (lines : List (List Char)) (n k : Nat) :
    (∃ is, instructionsFrom n lines = .ok is ∧ instructionsFrom k (spoken lines) = .ok is) ∨
      ∃ e j, instructionsFrom n lines = .error e ∧
        instructionsFrom k (spoken lines) = .error { e with line := k + j } ∧
        (numbersFrom n lines)[j]? = some e.line := by
  induction lines generalizing n k with
  | nil => exact Or.inl ⟨[], rfl, rfl⟩
  | cons line lines ih =>
    by_cases hblank : words line = []
    · rw [spoken_cons_blank hblank, numbersFrom_cons_blank hblank,
        instructionsFrom_ok_cons (instructionsOf_blank hblank)]
      rcases ih (n + 1) k with ⟨is, hi, hs⟩ | ⟨e, j, he, hs, hj⟩
      · exact Or.inl ⟨is, by rw [hi]; rfl, hs⟩
      · exact Or.inr ⟨e, j, by rw [he]; rfl, hs, hj⟩
    · rw [spoken_cons hblank, numbersFrom_cons hblank]
      cases hline : instructionsOf line with
      | error blame =>
        exact Or.inr ⟨blame.onLine n, 0, instructionsFrom_error_cons hline,
          instructionsFrom_error_cons hline, rfl⟩
      | ok is =>
        rw [instructionsFrom_ok_cons hline, instructionsFrom_ok_cons hline]
        rcases ih (n + 1) (k + 1) with ⟨js, hi, hs⟩ | ⟨e, j, he, hs, hj⟩
        · exact Or.inl ⟨is ++ js, by rw [hi]; rfl, by rw [hs]; rfl⟩
        · refine Or.inr ⟨e, j + 1, by rw [he]; rfl, ?_, hj⟩
          rw [hs, Nat.add_right_comm]
          rfl

/-! ## Source texts -/

theorem map_words_spoken (source : String) :
    (spoken (Text.lines source.toList)).map words = sentences source := by
  rw [← sentences_eq, List.filter_map]
  rfl

/-- **The layout of a source text does not matter.** Two texts whose sentences are the same, but for
the case of names and of hex digits, have the same code; or both fail, with lines that have the same
index among those that are not blank, and for the same kind of cause. -/
theorem assemble_layout {source source' : String}
    (h : List.Forall₂ SameSentence (sentences source) (sentences source')) :
    (∃ code, assemble source = .ok code ∧ assemble source' = .ok code) ∨
      ∃ (k : Nat) (e e' : Error), assemble source = .error e ∧ assemble source' = .error e' ∧
        (numbers source)[k]? = some e.line ∧ (numbers source')[k]? = some e'.line ∧
        e.cause.kind = e'.cause.kind := by
  rw [← map_words_spoken, ← map_words_spoken, List.forall₂_map_left_iff,
    List.forall₂_map_right_iff] at h
  have hsame := instructionsFrom_same h 0
  unfold assemble instructions
  rcases instructionsFrom_spoken (Text.lines source.toList) 1 0 with ⟨is, hi, hs⟩ |
    ⟨e, k, he, hs, hk⟩
  · rcases instructionsFrom_spoken (Text.lines source'.toList) 1 0 with ⟨is', hi', hs'⟩ |
      ⟨e', k', -, hs', -⟩
    · rw [hs, hs'] at hsame
      obtain rfl := Except.ok.inj hsame
      exact Or.inl ⟨Builder.assemble is, by rw [hi]; rfl, by rw [hi']; rfl⟩
    · rw [hs, hs'] at hsame
      exact nomatch hsame
  · rcases instructionsFrom_spoken (Text.lines source'.toList) 1 0 with ⟨is', -, hs'⟩ |
      ⟨e', k', he', hs', hk'⟩
    · rw [hs, hs'] at hsame
      exact nomatch hsame
    · rw [hs, hs'] at hsame
      obtain ⟨hindex, hkind⟩ := Prod.mk.inj (Except.error.inj hsame)
      obtain rfl : k = k' := Nat.add_left_cancel hindex
      exact Or.inr ⟨k, e, e', by rw [he]; rfl, by rw [he']; rfl, hk, hk', hkind⟩

/-- A text that fails on its third line, with a blank line before it, and the same without. -/
theorem assemble_layout_add :
    let source := "push1 0xff\n\n  ADD 1 # one too many\n"
    let source' := "PUSH1,0xFF\r\n\tadd, 1"
    assemble source = .error ⟨3, 7, .operandCount "ADD" 0 1⟩ ∧
      List.Forall₂ SameSentence (sentences source) (sentences source') ∧
      ∃ (k : Nat) (e' : Error), assemble source' = .error e' ∧ (numbers source)[k]? = some 3 ∧
        (numbers source')[k]? = some e'.line ∧ e'.cause.kind = .operandCount 0 1 := by
  intro source source'
  have hfails : assemble source = .error ⟨3, 7, .operandCount "ADD" 0 1⟩ := by decide +kernel
  have hsentences : sentences source =
      [["push1".toList, "0xff".toList], ["ADD".toList, "1".toList]] := by decide +kernel
  have hsentences' : sentences source' =
      [["PUSH1".toList, "0xFF".toList], ["add".toList, "1".toList]] := by decide +kernel
  have hsame : List.Forall₂ SameSentence (sentences source) (sentences source') := by
    have hpush : SameOperand "0xff".toList "0xFF".toList :=
      @SameOperand.hex ['f', 'f'] ['F', 'F'] (by decide)
    rw [hsentences, hsentences']
    exact .cons ⟨by decide, .cons hpush .nil⟩ (.cons ⟨by decide, .cons (.refl _) .nil⟩ .nil)
  refine ⟨hfails, hsame, ?_⟩
  rcases assemble_layout hsame with ⟨code, hcode, -⟩ | ⟨k, e, e', he, he', hk, hk', hkind⟩
  · exact absurd (hcode.symm.trans hfails) (by simp)
  · obtain rfl := Except.error.inj (he.symm.trans hfails)
    exact ⟨k, e', he', hk, hk', hkind.symm⟩

end WordStack.Source
