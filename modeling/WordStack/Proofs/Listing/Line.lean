import WordStack.Listing
import WordStack.Proofs.Decode
import WordStack.Proofs.Source.Words

/-! # The lines of a listing

A listing has one line for each fragment of the code (`lines_text`), and `content` is that line
without the newline. What a reader takes from a line is not how it was put together: its words, as
those of a source line, the offset in its comment (`offset?`), and whether it is marked as a byte
that is no opcode or as a truncated push (`MarksUnknown`, `MarksTruncated`).

* `words_content`: the words are those of the instruction, and none if there is no instruction.
* `offset?_content`: the offset is that of the fragment.
* `marksUnknown_iff`, `marksTruncated_iff`: the marks tell the fragments apart, with what they
  say. -/

namespace WordStack.Listing

open Fragment Source Numeral

/-- The comment with an offset. -/
def place (offset : Nat) : List Char := '#' :: ' ' :: (hexPadded 4 offset).toList

/-- An operand in hex. -/
def hexText (operand : List UInt8) : List Char := '0' :: 'x' :: operand.flatMap hexByte

/-- What is behind an opcode in a listing: its operand, if it has one. -/
def operandText (operand : List UInt8) : List Char :=
  if operand = [] then [] else ' ' :: hexText operand

/-- The counts of a truncated push, in words. -/
def counts (available requested : Nat) : List Char :=
  (decimal available).toList ++ " of ".toList ++ (decimal requested).toList ++ " bytes)".toList

/-- The line for the fragment at an offset, without its newline. -/
def content (offset : Nat) : Fragment → List Char
  | .unknown byte => place offset ++ ": invalid opcode 0x".toList ++ [byte].flatMap hexByte
  | .truncated opcode operand =>
    place offset ++ ": ".toList ++ opcode.mnemonic.toList ++ " truncated, operand ".toList
      ++ hexText operand ++ " (".toList ++ counts operand.length opcode.width
  | .instruction i =>
    i.opcode.mnemonic.toList ++ operandText i.operand ++ "  ".toList ++ place offset

/-- The offset that a line of a listing shows: the hex digits behind the number sign. -/
def offset? (line : List Char) : Option Nat :=
  hex? (((line.dropWhile (· ≠ '#')).drop 2).takeWhile Char.isAlphanum)

/-- The line says that this byte is no opcode. -/
def MarksUnknown (byte : UInt8) (line : List Char) : Prop :=
  ": invalid opcode 0x".toList ++ [byte].flatMap hexByte <:+ line

/-- The line says that of an operand of so many bytes only so many are there. -/
def MarksTruncated (requested available : Nat) (line : List Char) : Prop :=
  " (".toList ++ counts available requested <:+ line

/-! ## The text of a line -/

theorem toList_line (offset : Nat) (f : Fragment) :
    (line offset f).toList = content offset f ++ ['\n'] := by
  unfold line content place operandText counts hexBytes
  match f with
  | .unknown byte => simp
  | .truncated opcode operand => simp [hexText]
  | .instruction ⟨opcode, []⟩ => simp
  | .instruction ⟨opcode, b :: operand⟩ => simp [hexText]

/-- The text has only letters, digits and these characters. -/
def Shown (others cs : List Char) : Prop := ∀ c ∈ cs, c.isAlphanum ∨ c ∈ others

instance (others cs : List Char) : Decidable (Shown others cs) := List.decidableBAll _ _

theorem Shown.append {others cs ds : List Char} (hc : Shown others cs) (hd : Shown others ds) :
    Shown others (cs ++ ds) :=
  fun c h => (List.mem_append.mp h).elim (hc c) (hd c)

theorem Shown.of_isAlphanum {others cs : List Char} (h : ∀ c ∈ cs, c.isAlphanum) :
    Shown others cs := fun c hc => Or.inl (h c hc)

theorem Shown.mono {others others' cs : List Char} (h : Shown others cs)
    (hsub : others ⊆ others') : Shown others' cs :=
  fun c hc => (h c hc).imp_right fun ho => hsub ho

theorem Shown.not_mem {others cs : List Char} (h : Shown others cs) {c : Char}
    (hc : c.isAlphanum = false) (ho : c ∉ others) : c ∉ cs := by
  intro hmem
  rcases h c hmem with h | h
  · rw [hc] at h; exact absurd h (by simp)
  · exact ho h

theorem isAlphanum_hexText (operand : List UInt8) : ∀ c ∈ hexText operand, c.isAlphanum := by
  intro c hc
  rcases List.mem_cons.mp hc with rfl | hc
  · rfl
  · rcases List.mem_cons.mp hc with rfl | hc
    · rfl
    · exact isAlphanum_flatMap_hexByte operand c hc

theorem hexText_ne_nil (operand : List UInt8) : hexText operand ≠ [] := List.cons_ne_nil _ _

theorem shown_place (offset : Nat) : Shown [' ', '#'] (place offset) :=
  (by decide : Shown [' ', '#'] "# ".toList).append
    (.of_isAlphanum (isAlphanum_hexPadded 4 offset))

theorem shown_mnemonic (i : Instruction) :
    Shown [' '] (i.opcode.mnemonic.toList ++ operandText i.operand ++ "  ".toList) := by
  have hoperand : Shown [' '] (operandText i.operand) := by
    unfold operandText
    split
    · decide
    · exact (by decide : Shown [' '] " ".toList).append
        (.of_isAlphanum (isAlphanum_hexText _))
  exact ((Shown.of_isAlphanum (Opcode.isAlphanum_mnemonic _)).append hoperand).append (by decide)

theorem shown_counts (a r : Nat) : Shown [' ', ')'] (counts a r) :=
  (((Shown.of_isAlphanum (isAlphanum_decimal a)).append (by decide)).append
    (.of_isAlphanum (isAlphanum_decimal r))).append (by decide)

theorem shown_instruction (offset : Nat) (i : Instruction) :
    Shown [' ', '#'] (content offset (.instruction i)) :=
  ((shown_mnemonic i).mono (by simp)).append (shown_place offset)

theorem shown_unknown (offset : Nat) (byte : UInt8) :
    Shown [' ', '#', ':'] (content offset (.unknown byte)) :=
  (((shown_place offset).mono (by simp)).append (by decide)).append
    (.of_isAlphanum (isAlphanum_flatMap_hexByte [byte]))

theorem shown_truncated (offset : Nat) (op : Opcode) (operand : List UInt8) :
    Shown [' ', '#', ':', ','] (place offset ++ ": ".toList ++ op.mnemonic.toList
      ++ " truncated, operand ".toList ++ hexText operand) :=
  (((((shown_place offset).mono (by simp)).append (by decide)).append
    (.of_isAlphanum (Opcode.isAlphanum_mnemonic op))).append (by decide)).append
    (.of_isAlphanum (isAlphanum_hexText operand))

theorem shown_content (offset : Nat) (f : Fragment) :
    Shown [' ', '#', ':', ',', '(', ')'] (content offset f) := by
  cases f with
  | unknown byte => exact (shown_unknown offset byte).mono (by simp)
  | truncated op operand =>
    exact (((shown_truncated offset op operand).mono (by simp)).append (by decide)).append
      ((shown_counts _ _).mono (by simp))
  | instruction i => exact (shown_instruction offset i).mono (by simp)

/-- **The lines of a listing** are those of the fragments, in order. -/
theorem lines_text (code : Bytecode) :
    Text.lines (text code).toList =
      (located 0 (decode code.toList)).map fun p => content p.1 p.2 := by
  have htext : (text code).toList =
      ((located 0 (decode code.toList)).map fun p => content p.1 p.2).flatMap (· ++ ['\n']) := by
    unfold text
    rw [String.toList_join, List.flatMap_map, List.flatMap_map]
    exact congrArg (List.flatMap · _) (funext fun p => toList_line p.1 p.2)
  have hno : ∀ c : Char, c.isAlphanum = false → c ∉ [' ', '#', ':', ',', '(', ')'] →
      ∀ l ∈ (located 0 (decode code.toList)).map (fun p => content p.1 p.2), c ∉ l := by
    intro c hc ho l hl
    obtain ⟨p, -, rfl⟩ := List.mem_map.mp hl
    exact (shown_content p.1 p.2).not_mem hc ho
  rw [htext, Text.lines_of_ended (hno '\n' (by decide) (by decide))
    (hno '\r' (by decide) (by decide))]

/-! ## Words -/

theorem ne_of_not_mem {front : List Char} (h : '#' ∉ front) :
    ∀ c ∈ front, decide (c ≠ '#') = true := by
  intro c hc
  rw [decide_eq_true_iff]
  rintro rfl
  exact h hc

theorem beforeComment_append {front rest : List Char} (h : '#' ∉ front) :
    beforeComment (front ++ '#' :: rest) = front := by
  unfold beforeComment
  rw [List.takeWhile_append_of_pos (ne_of_not_mem h), List.takeWhile_cons_of_neg (by decide),
    List.append_nil]

/-- **The words of an instruction's line** are its mnemonic and its operand in hex. -/
theorem words_instruction (offset : Nat) (i : Instruction) :
    words (content offset (.instruction i)) =
      i.opcode.mnemonic.toList :: if i.operand = [] then [] else [hexText i.operand] := by
  have hspace : "  ".toList = ' ' :: ' ' :: [] := by decide
  have hnil : (("  ".toList).splitOnP isSeparator).filter (· ≠ []) = ([] : List (List Char)) := by
    rw [hspace, filter_splitOnP_separator isSeparator_space,
      filter_splitOnP_separator isSeparator_space, List.splitOnP_nil]
    rfl
  have hname := not_isSeparator_of_forall (Opcode.isAlphanum_mnemonic i.opcode)
  unfold words
  rw [show content offset (.instruction i) = (i.opcode.mnemonic.toList ++ operandText i.operand
      ++ "  ".toList) ++ '#' :: ' ' :: (hexPadded 4 offset).toList from rfl,
    beforeComment_append ((shown_mnemonic i).not_mem rfl (by simp)), List.append_assoc]
  unfold operandText
  split
  · rw [List.nil_append, filter_splitOnP_word (Opcode.mnemonic_ne_nil _) hname
      (Or.inr ⟨' ', _, hspace, isSeparator_space⟩), hnil]
  · rw [List.cons_append, filter_splitOnP_word (Opcode.mnemonic_ne_nil _) hname
      (Or.inr ⟨' ', _, rfl, isSeparator_space⟩), filter_splitOnP_separator isSeparator_space,
      filter_splitOnP_word (hexText_ne_nil _) (not_isSeparator_of_forall (isAlphanum_hexText _))
        (Or.inr ⟨' ', _, hspace, isSeparator_space⟩), hnil]

theorem words_of_comment (cs : List Char) : words ('#' :: cs) = [] := by
  unfold words beforeComment
  rw [List.takeWhile_cons_of_neg (by decide), List.splitOnP_nil]
  rfl

/-! ## Offsets -/

/-- The offset is read from a comment that goes on with no letter or digit. -/
theorem offset?_of_place (front rest : List Char) (offset : Nat) (h : '#' ∉ front)
    (hrest : rest = [] ∨ ∃ c cs, rest = c :: cs ∧ c.isAlphanum = false) :
    offset? (front ++ place offset ++ rest) = some offset := by
  have hstop : rest.takeWhile Char.isAlphanum = [] := by
    rcases hrest with rfl | ⟨c, cs, rfl, hc⟩
    · rfl
    · exact List.takeWhile_cons_of_neg (by simp [hc])
  unfold offset? place
  rw [List.append_assoc, List.dropWhile_append_of_pos (ne_of_not_mem h), List.cons_append,
    List.dropWhile_cons_of_neg (by decide)]
  simp only [List.cons_append, List.drop_succ_cons, List.drop_zero]
  rw [List.takeWhile_append_of_pos (isAlphanum_hexPadded 4 offset), hstop, List.append_nil,
    hex?_hexPadded]

theorem offset?_content (offset : Nat) (f : Fragment) :
    offset? (content offset f) = some offset := by
  cases f with
  | unknown byte =>
    have h := offset?_of_place [] (": invalid opcode 0x".toList ++ [byte].flatMap hexByte) offset
      (by simp) (Or.inr ⟨':', _, rfl, by decide⟩)
    rwa [List.nil_append, ← List.append_assoc] at h
  | truncated op operand =>
    have h := offset?_of_place [] (": ".toList ++ (op.mnemonic.toList ++
      (" truncated, operand ".toList ++ (hexText operand ++ (" (".toList ++
        counts operand.length op.width))))) offset (by simp) (Or.inr ⟨':', _, rfl, by decide⟩)
    rw [List.nil_append] at h
    simpa only [content, List.append_assoc] using h
  | instruction i =>
    have h := offset?_of_place _ [] offset
      ((shown_mnemonic i).not_mem rfl (by simp) : '#' ∉ _) (Or.inl rfl)
    rwa [List.append_nil] at h

/-! ## Marks -/

theorem marksUnknown_iff {offset : Nat} {f : Fragment} {byte : UInt8} :
    MarksUnknown byte (content offset f) ↔ f = .unknown byte := by
  constructor
  · rintro ⟨front, h⟩
    have hcolon : ':' ∈ content offset f := by rw [← h]; simp
    cases f with
    | unknown byte' =>
      have hbytes := (List.append_inj' ((List.append_assoc _ _ _).trans h) rfl).2
      rw [List.cons.inj (hexBytes_inj (congrArg String.ofList hbytes)) |>.1]
    | truncated op operand =>
      -- The line ends with a parenthesis, the mark with a digit.
      have hbytes : [')'] <:+ " bytes)".toList := ⟨" bytes".toList, rfl⟩
      have hhex : [Nat.digitChar (byte.toNat % 16)] <:+ [byte].flatMap hexByte :=
        ⟨[Nat.digitChar (byte.toNat / 16)], rfl⟩
      have hparen : [')'] <:+ content offset (.truncated op operand) :=
        (hbytes.trans (List.suffix_append _ _)).trans (List.suffix_append _ _)
      have hdigit := (hhex.trans (List.suffix_append _ _)).trans ⟨front, h⟩
      have hsame := (List.suffix_of_suffix_length_le hdigit hparen le_rfl).eq_of_length rfl
      have halnum := isAlphanum_digitChar (d := byte.toNat % 16) (by omega)
      rw [(List.cons.inj hsame).1] at halnum
      exact absurd halnum (by decide)
    | instruction i =>
      exact absurd hcolon ((shown_instruction offset i).not_mem rfl (by simp))
  · rintro rfl
    exact ⟨place offset, by rw [content, List.append_assoc]⟩

theorem append_inj_of_isAlphanum {cs ds xs ys : List Char} {c : Char} (hcs : ∀ c ∈ cs, c.isAlphanum)
    (hds : ∀ c ∈ ds, c.isAlphanum) (hc : c.isAlphanum = false) (h : cs ++ c :: xs = ds ++ c :: ys) :
    cs = ds ∧ xs = ys := by
  have hrun := congrArg (List.takeWhile Char.isAlphanum) h
  rw [List.takeWhile_append_of_pos hcs, List.takeWhile_append_of_pos hds,
    List.takeWhile_cons_of_neg (by simp [hc]), List.takeWhile_cons_of_neg (by simp [hc]),
    List.append_nil, List.append_nil] at hrun
  rw [hrun] at h
  exact ⟨hrun, (List.cons.inj (List.append_cancel_left h)).2⟩

theorem counts_inj {a r a' r' : Nat} (h : counts a r = counts a' r') : a = a' ∧ r = r' := by
  unfold counts at h
  rw [List.append_assoc, List.append_assoc, List.append_assoc, List.append_assoc] at h
  obtain ⟨ha, h⟩ := append_inj_of_isAlphanum (isAlphanum_decimal a) (isAlphanum_decimal a')
    (c := ' ') rfl h
  have hof := List.append_cancel_left (show "of ".toList ++ _ = "of ".toList ++ _ from h)
  obtain ⟨hr, -⟩ := append_inj_of_isAlphanum (isAlphanum_decimal r) (isAlphanum_decimal r')
    (c := ' ') rfl hof
  exact ⟨decimal_inj (String.toList_inj.mp ha), decimal_inj (String.toList_inj.mp hr)⟩

/-- **Only a truncated push is marked as one**, with its counts. -/
theorem marksTruncated_iff {offset : Nat} {f : Fragment} {requested available : Nat} :
    MarksTruncated requested available (content offset f) ↔
      ∃ op operand, f = .truncated op operand ∧ op.width = requested ∧
        operand.length = available := by
  constructor
  · rintro ⟨front, h⟩
    have hparen : ')' ∈ content offset f := by rw [← h]; simp [counts]
    cases f with
    | unknown byte =>
      exact absurd hparen ((shown_unknown offset byte).not_mem rfl (by simp))
    | instruction i =>
      exact absurd hparen ((shown_instruction offset i).not_mem rfl (by simp))
    | truncated op operand =>
      have hfront := (shown_truncated offset op operand).append
        (by decide : Shown [' ', '#', ':', ','] " ".toList)
      have hcounts := (shown_counts operand.length op.width).not_mem
        (c := '(') rfl (by simp)
      have hsplit : front ++ " ".toList ++ '(' :: counts available requested =
          place offset ++ ": ".toList ++ op.mnemonic.toList ++ " truncated, operand ".toList
            ++ hexText operand ++ " ".toList ++ '(' :: counts operand.length op.width := by
        rw [List.append_assoc front, List.append_assoc _ " ".toList]
        rw [content, List.append_assoc _ " (".toList] at h
        exact h
      obtain ⟨-, -, h⟩ := (List.append_cons_inj_of_notMem
        (hfront.not_mem (c := '(') rfl (by simp)) hcounts).mp hsplit.symm
      obtain ⟨ha, hr⟩ := counts_inj h
      exact ⟨op, operand, rfl, hr, ha⟩
  · rintro ⟨op, operand, rfl, rfl, rfl⟩
    exact ⟨_, (List.append_assoc _ " (".toList _).symm⟩

end WordStack.Listing
