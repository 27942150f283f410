import Mathlib.Data.List.DropRight
import WordStack.Proofs.Numeral
import WordStack.Text.Blank

/-! # White space around a text

A text is what is left of it when it is trimmed, with white space in front and behind
(`exists_trim`), and white space that is put around it makes no difference to that
(`trim_surrounded`). What does not begin with white space keeps its beginning, so that only its end
is trimmed (`trim_append_of_forall`). -/

namespace WordStack.Text

/-- Letters and digits are all beyond the white space of ASCII and below the rest of it. -/
theorem isWhiteSpace_of_isAlphanum {c : Char} (h : c.isAlphanum) : isWhiteSpace c = false := by
  rw [Numeral.isAlphanum_iff, Numeral.isAlpha_iff, Numeral.isDigit_iff] at h
  simp only [isWhiteSpace, whiteSpaceRanges, List.any_cons, List.any_nil, Bool.or_eq_false_iff,
    Bool.and_eq_false_iff, decide_eq_false_iff_not, Bool.or_false]
  refine ⟨?_, ?_, ?_, ?_, ?_, ?_, ?_, ?_, ?_, ?_⟩ <;> omega

theorem dropWhile_of_forall {cs : List Char} (h : ∀ c ∈ cs, isWhiteSpace c = false) :
    cs.dropWhile isWhiteSpace = cs := by
  cases cs with
  | nil => rfl
  | cons c cs => exact List.dropWhile_cons_of_neg (by simp [h c List.mem_cons_self])

theorem trim_of_forall {cs : List Char} (h : ∀ c ∈ cs, isWhiteSpace c = false) :
    trim cs = cs := by
  unfold trim
  rw [dropWhile_of_forall h, dropWhile_of_forall (by simpa using h), List.reverse_reverse]

theorem trim_eq (cs : List Char) :
    trim cs = (cs.dropWhile isWhiteSpace).rdropWhile isWhiteSpace := rfl

/-- **What is trimmed off** is white space. -/
theorem exists_trim (cs : List Char) :
    ∃ front back, cs = front ++ trim cs ++ back ∧ (∀ c ∈ front, isWhiteSpace c) ∧
      ∀ c ∈ back, isWhiteSpace c := by
  refine ⟨cs.takeWhile isWhiteSpace, (cs.dropWhile isWhiteSpace).rtakeWhile isWhiteSpace, ?_,
    fun c => List.mem_takeWhile_imp, fun c => List.mem_rtakeWhile_imp⟩
  rw [trim_eq, List.append_assoc, List.rdropWhile_append_rtakeWhile,
    List.takeWhile_append_dropWhile]

section

variable {front back : List Char}

theorem rdropWhile_append_white (h : ∀ c ∈ back, isWhiteSpace c) (cs : List Char) :
    (cs ++ back).rdropWhile isWhiteSpace = cs.rdropWhile isWhiteSpace := by
  unfold List.rdropWhile
  rw [List.reverse_append, List.dropWhile_append_of_pos fun c hc => h c (List.mem_reverse.mp hc)]

theorem trim_surrounded (hfront : ∀ c ∈ front, isWhiteSpace c) (hback : ∀ c ∈ back, isWhiteSpace c)
    (cs : List Char) : trim (front ++ cs ++ back) = trim cs := by
  rw [List.append_assoc, trim_eq, List.dropWhile_append_of_pos hfront, List.dropWhile_append]
  split
  · rename_i hnil
    rw [List.isEmpty_iff] at hnil
    rw [trim_eq, hnil, List.dropWhile_eq_nil_iff.mpr hback]
  · rw [rdropWhile_append_white hback, trim_eq]

/-- **Behind other characters** only the end of a text is trimmed. -/
theorem trim_append_of_forall (hne : front ≠ []) (h : ∀ c ∈ front, isWhiteSpace c = false)
    (cs : List Char) : trim (front ++ cs) = front ++ cs.rdropWhile isWhiteSpace := by
  have hstart : (front ++ cs).dropWhile isWhiteSpace = front ++ cs := by
    rw [List.dropWhile_append, dropWhile_of_forall h, if_neg (by simpa using hne)]
  have hend : front.reverse.dropWhile isWhiteSpace = front.reverse :=
    dropWhile_of_forall (by simpa using h)
  rw [trim_eq, hstart]
  unfold List.rdropWhile
  rw [List.reverse_append, List.dropWhile_append, hend]
  split
  · rename_i hnil
    rw [List.isEmpty_iff.mp hnil, List.reverse_reverse, List.reverse_nil, List.append_nil]
  · rw [List.reverse_append, List.reverse_reverse]

end

end WordStack.Text
