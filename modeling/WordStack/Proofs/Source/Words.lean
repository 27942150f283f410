import WordStack.Proofs.Source.Scan
import WordStack.Proofs.Text.Line

/-! # The words of a source text

The *words* of a line are what stands between separators before its comment, and the *sentences* of
a source text are the words of its lines, without the lines that have none. Here they are read off
by splitting at newlines and at separators, with no regard to columns or to carriage returns.

* `text_tokens`: the tokens of a line are its words.
* `words_pair`: two words of letters and digits with a space between are the words of their line.
* `tokens_dropReturn`: a carriage return at the end of a line changes no token.
* `sentences_eq`: the lines of a source text have its sentences. -/

namespace WordStack

namespace Source

/-- **The words of a line.** -/
def words (line : List Char) : List (List Char) :=
  ((beforeComment line).splitOnP isSeparator).filter (· ≠ [])

/-- **The sentences of a source text**, one for each line with a word. -/
def sentences (source : String) : List (List (List Char)) :=
  ((source.toList.splitOn '\n').map words).filter (· ≠ [])

/-! ## Tokens -/

theorem filter_splitOnP_separator {sep : Char} (h : isSeparator sep = true) (cs : List Char) :
    ((sep :: cs).splitOnP isSeparator).filter (· ≠ []) =
      (cs.splitOnP isSeparator).filter (· ≠ []) := by
  rw [List.splitOnP_cons_eq_if_modifyHead, if_pos h, List.filter_cons_of_neg (by simp)]

theorem filter_splitOnP_word {word cs : List Char} (hne : word ≠ [])
    (h : ∀ c ∈ word, isSeparator c = false)
    (hcs : cs = [] ∨ ∃ sep rest, cs = sep :: rest ∧ isSeparator sep = true) :
    ((word ++ cs).splitOnP isSeparator).filter (· ≠ []) =
      word :: (cs.splitOnP isSeparator).filter (· ≠ []) := by
  rcases hcs with rfl | ⟨sep, rest, rfl, hsep⟩
  · rw [List.append_nil, List.splitOnP_eq_singleton h, List.filter_cons_of_pos (by simpa using hne),
      List.splitOnP_nil]
    rfl
  · rw [List.splitOnP_append_cons_of_forall_mem h sep hsep,
      List.filter_cons_of_pos (by simpa using hne), filter_splitOnP_separator hsep]

theorem text_tokensFrom (column : Nat) (cs : List Char) :
    (tokensFrom column cs).map (·.text.toList) =
      (cs.splitOnP isSeparator).filter (· ≠ []) := by
  fun_induction tokensFrom column cs with
  | case1 => rw [List.splitOnP_nil]; rfl
  | case2 column c rest hc ih => rw [filter_splitOnP_separator hc, ih]
  | case3 column c rest hc run ih =>
    have hrun : ∀ x ∈ run, isSeparator x = false := unbroken_run hc
    have hsplit : c :: rest = run ++ rest.dropWhile (! isSeparator ·) := by
      rw [List.cons_append, List.takeWhile_append_dropWhile]
    rw [List.map_cons, String.toList_ofList, ih, hsplit,
      filter_splitOnP_word (by simp [run]) hrun (dropWhile_not_isSeparator rest)]

/-- **The tokens of a line are its words.** -/
theorem text_tokens (line : List Char) : (tokens line).map (·.text.toList) = words line := by
  rw [tokens_eq]
  exact text_tokensFrom 1 (beforeComment line)

section

variable {name operand : List Char}

theorem mem_pair (hname : ∀ c ∈ name, c.isAlphanum) (hoperand : ∀ c ∈ operand, c.isAlphanum)
    {c : Char} (h : c ∈ name ++ ' ' :: operand) : c.isAlphanum ∨ c = ' ' := by
  rcases List.mem_append.mp h with h | h
  · exact Or.inl (hname c h)
  · rcases List.mem_cons.mp h with rfl | h
    · exact Or.inr rfl
    · exact Or.inl (hoperand c h)

theorem words_pair (hname : name ≠ []) (hnameAll : ∀ c ∈ name, c.isAlphanum)
    (hoperand : operand ≠ []) (hoperandAll : ∀ c ∈ operand, c.isAlphanum) :
    words (name ++ ' ' :: operand) = [name, operand] := by
  have hcomment : beforeComment (name ++ ' ' :: operand) = name ++ ' ' :: operand := by
    refine List.takeWhile_eq_self_iff.mpr fun c hc => ?_
    rw [decide_eq_true_eq]
    rintro rfl
    exact absurd (mem_pair hnameAll hoperandAll hc) (by decide)
  have hlast := filter_splitOnP_word hoperand (not_isSeparator_of_forall hoperandAll) (Or.inl rfl)
  rw [List.append_nil, List.splitOnP_nil] at hlast
  rw [words, hcomment, filter_splitOnP_word hname (not_isSeparator_of_forall hnameAll)
    (Or.inr ⟨' ', _, rfl, isSeparator_space⟩), filter_splitOnP_separator isSeparator_space, hlast]
  rfl

end

theorem tokens_eq_nil_iff {line : List Char} : tokens line = [] ↔ words line = [] := by
  rw [← text_tokens, List.map_eq_nil_iff]

theorem tokensFrom_append_separator {sep : Char} (h : isSeparator sep = true) (column : Nat)
    (cs : List Char) : tokensFrom column (cs ++ [sep]) = tokensFrom column cs := by
  fun_induction tokensFrom column cs with
  | case1 column =>
    rw [List.nil_append, tokensFrom, if_pos h, tokensFrom]
  | case2 column c rest hc ih =>
    rw [List.cons_append, tokensFrom, if_pos hc, ih]
  | case3 column c rest hc run ih =>
    have htake : (rest ++ [sep]).takeWhile (! isSeparator ·) =
        rest.takeWhile (! isSeparator ·) := by
      rw [List.takeWhile_append, takeWhile_separator h, List.append_nil]
      split
      · rename_i hlen
        exact ((List.takeWhile_prefix _).eq_of_length hlen).symm
      · rfl
    have hdrop : (rest ++ [sep]).dropWhile (! isSeparator ·) =
        rest.dropWhile (! isSeparator ·) ++ [sep] := by
      rw [List.dropWhile_append, dropWhile_separator h]
      split
      · rename_i hnil
        rw [List.isEmpty_iff.mp hnil, List.nil_append]
      · rfl
    rw [List.cons_append, tokensFrom, if_neg hc]
    simp only [htake, hdrop]
    rw [ih]

theorem tokens_dropReturn (line : List Char) : tokens (Text.dropReturn line) = tokens line := by
  unfold Text.dropReturn
  split
  · rename_i hlast
    obtain ⟨front, rfl⟩ := List.getLast?_eq_some_iff.mp hlast
    rw [List.dropLast_concat]
    rw [tokens_eq, tokens_eq]
    unfold beforeComment
    rw [List.takeWhile_append]
    split
    · rename_i hlen
      -- Without a comment the carriage return stands at the end as a separator.
      have hfront : front.takeWhile (fun c => decide (c ≠ '#')) = front :=
        (List.takeWhile_prefix _).eq_of_length hlen
      have hreturn : ['\r'].takeWhile (fun c => decide (c ≠ '#')) = ['\r'] := by decide
      rw [hfront, hreturn, tokensFrom_append_separator isSeparator_return]
    · rfl
  · rfl

/-! ## Sentences -/

theorem words_nil : words [] = [] := by
  unfold words beforeComment
  rw [List.takeWhile_nil, List.splitOnP_nil]
  rfl

theorem words_dropReturn (line : List Char) : words (Text.dropReturn line) = words line := by
  rw [← text_tokens, tokens_dropReturn, text_tokens]

/-- **The lines of a source text have its sentences**, in order. -/
theorem sentences_eq (source : String) :
    ((Text.lines source.toList).map words).filter (· ≠ []) = sentences source := by
  have hpieces := List.splitOn_ne_nil '\n' source.toList
  unfold sentences Text.lines
  generalize source.toList.splitOn '\n' = pieces at hpieces
  obtain ⟨front, last, rfl⟩ := List.eq_nil_or_concat pieces |>.resolve_left hpieces
  simp only [List.concat_eq_append, List.dropLast_concat, List.getLast?_concat, Option.toList_some,
    List.map_append, List.map_map, List.filter_append]
  congr 1
  · congr 1
    exact List.map_congr_left fun line _ => words_dropReturn line
  · by_cases hlast : last = []
    · subst hlast
      rw [List.filter_cons_of_neg (by simp), List.map_singleton, words_nil]
      rfl
    · rw [List.filter_cons_of_pos (by simpa using hlast)]
      rfl

end Source

end WordStack
