import WordStack.Proofs.Source.Words

/-! # Words in their columns

A word of a line is a run: a part of the text before the comment, not empty and without separators,
that a separator or an end of the text bounds on both sides (`IsRun`). Its column is the number of
characters in front of it, counted from one, and its index the number of words there (`WordAt`).

* `wordAt_of_getElem?`: the tokens of a line are its words, at their columns and in order.
* `wordAt_prefix`: a word is what the line shows from its column on, also when the carriage returns
  at the end of the line are left out. -/

namespace WordStack.Source

/-- **A run**, between the text in front of it and the text behind it. -/
structure IsRun (front run rest : List Char) : Prop where
  ne_nil : run ≠ []
  unbroken : ∀ c ∈ run, isSeparator c = false
  before : ∀ c ∈ front.getLast?, isSeparator c = true
  behind : ∀ c ∈ rest.head?, isSeparator c = true

/-- **A word with its place in a line**: so many words are in front of it, and its first character
stands at this column. -/
def WordAt (line : List Char) (index column : Nat) (word : List Char) : Prop :=
  ∃ front rest, beforeComment line = front ++ word ++ rest ∧ IsRun front word rest ∧
    column = front.length + 1 ∧ (words front).length = index

theorem IsRun.exists_cons {front run rest : List Char} (h : IsRun front run rest) :
    ∃ c cs, run = c :: cs ∧ isSeparator c = false := by
  obtain ⟨c, cs, rfl⟩ := List.exists_cons_of_ne_nil h.ne_nil
  exact ⟨c, cs, rfl, h.unbroken c List.mem_cons_self⟩

/-- A run of a text that begins with a separator is not at its beginning. -/
theorem IsRun.front_of_append {sep : Char} (hsep : isSeparator sep = true)
    {front run rest cs : List Char} (h : IsRun front run rest)
    (hcs : sep :: cs = front ++ run ++ rest) : ∃ front', front = sep :: front' := by
  match front with
  | [] =>
    obtain ⟨c, run', hrun, hc⟩ := h.exists_cons
    rw [hrun] at hcs
    rw [(List.cons.inj hcs).1, hc] at hsep
    exact absurd hsep (by simp)
  | c :: front =>
    rw [(List.cons.inj hcs).1]
    exact ⟨front, rfl⟩

theorem IsRun.after_run {run cs front next rest : List Char}
    (hcs : cs = [] ∨ ∃ sep rest, cs = sep :: rest ∧ isSeparator sep = true)
    (hsplit : cs = front ++ next ++ rest) (h : IsRun front next rest)
    (hne : run ≠ []) (hrun : ∀ c ∈ run, isSeparator c = false) :
    IsRun (run ++ front) next rest ∧
      (((run ++ front).splitOnP isSeparator).filter (· ≠ [])).length =
        ((front.splitOnP isSeparator).filter (· ≠ [])).length + 1 := by
  rcases hcs with rfl | ⟨sep, cs, rfl, hsep⟩
  · have hnil := List.append_eq_nil_iff.mp (List.append_eq_nil_iff.mp hsplit.symm).1
    exact absurd hnil.2 h.ne_nil
  · obtain ⟨front, rfl⟩ := h.front_of_append hsep hsplit
    refine ⟨⟨h.ne_nil, h.unbroken, ?_, h.behind⟩, ?_⟩
    · have hbefore := h.before
      rwa [List.getLast?_append, List.getLast?_cons, Option.some_or, ← List.getLast?_cons]
    · rw [filter_splitOnP_word hne hrun (Or.inr ⟨sep, front, rfl, hsep⟩), List.length_cons]

theorem isRun_of_getElem? {column k : Nat} {cs : List Char} {t : Token}
    (h : (tokensFrom column cs)[k]? = some t) :
    ∃ front rest, cs = front ++ t.text.toList ++ rest ∧ IsRun front t.text.toList rest ∧
      t.column = column + front.length ∧
      ((front.splitOnP isSeparator).filter (· ≠ [])).length = k := by
  fun_induction tokensFrom column cs generalizing k with
  | case1 => exact absurd h (by simp)
  | case2 column c cs hc ih =>
    obtain ⟨front, rest, rfl, hrun, hcolumn, hindex⟩ := ih h
    refine ⟨c :: front, rest, rfl, ⟨hrun.ne_nil, hrun.unbroken, ?_, hrun.behind⟩, ?_, ?_⟩
    · intro x hx
      cases hlast : front.getLast? with
      | none =>
        rw [List.getLast?_cons, hlast] at hx
        rw [← Option.mem_some.mp hx]
        exact hc
      | some y =>
        rw [List.getLast?_cons, hlast] at hx
        rw [← Option.mem_some.mp hx]
        exact hrun.before y hlast
    · rw [hcolumn, List.length_cons]
      omega
    · rw [filter_splitOnP_separator hc, hindex]
  | case3 column c cs hc run =>
    rename_i ih
    have hne : run ≠ [] := List.cons_ne_nil _ _
    have hunbroken : ∀ x ∈ run, isSeparator x = false := unbroken_run hc
    have hsplit : c :: cs = run ++ cs.dropWhile (! isSeparator ·) := by
      rw [List.cons_append, List.takeWhile_append_dropWhile]
    have hstop := dropWhile_not_isSeparator cs
    cases k with
    | zero =>
      rw [List.getElem?_cons_zero] at h
      obtain rfl := Option.some.inj h
      refine ⟨[], cs.dropWhile (! isSeparator ·), ?_, ⟨?_, ?_, by simp, ?_⟩, rfl, ?_⟩
      · rw [String.toList_ofList]
        exact hsplit
      · rw [String.toList_ofList]
        exact hne
      · rw [String.toList_ofList]
        exact hunbroken
      · rcases hstop with hnil | ⟨sep, rest, hcons, hsep⟩
        · rw [hnil]
          simp
        · rw [hcons]
          simpa using hsep
      · rw [List.splitOnP_nil]
        rfl
    | succ k =>
      rw [List.getElem?_cons_succ] at h
      obtain ⟨front, rest, hcs, hnext, hcolumn, hindex⟩ := ih h
      obtain ⟨hrun, hcount⟩ := hnext.after_run hstop hcs hne hunbroken
      refine ⟨run ++ front, rest, ?_, hrun, ?_, hcount.trans (congrArg (· + 1) hindex)⟩
      · rw [hsplit, hcs, List.append_assoc, List.append_assoc, List.append_assoc]
      · rw [hcolumn, List.length_append, Nat.add_assoc]

theorem beforeComment_of_append {line front rest : List Char}
    (h : beforeComment line = front ++ rest) : beforeComment front = front := by
  have hall : ∀ c ∈ front, decide (c ≠ '#') = true := fun c hc =>
    List.mem_takeWhile_imp (l := line) (h ▸ List.mem_append_left _ hc)
  exact List.takeWhile_eq_self_iff.mpr hall

/-- **The tokens of a line are its words**, at their columns and in order. -/
theorem wordAt_of_getElem? {line : List Char} {k : Nat} {t : Token}
    (h : (tokens line)[k]? = some t) : WordAt line k t.column t.text.toList := by
  rw [tokens_eq] at h
  obtain ⟨front, rest, hline, hrun, hcolumn, hindex⟩ := isRun_of_getElem? h
  refine ⟨front, rest, hline, hrun, hcolumn.trans (Nat.add_comm _ _), ?_⟩
  rw [List.append_assoc] at hline
  unfold words
  rw [beforeComment_of_append hline]
  exact hindex

/-- **A word is what the line shows from its column on**, also without the carriage returns at the
end of the line: they separate, so that no word reaches into them. -/
theorem wordAt_prefix {line word : List Char} {index column : Nat}
    (h : WordAt line index column word) :
    word <+: (Text.dropReturns line).drop (column - 1) := by
  obtain ⟨front, rest, hline, hrun, rfl, -⟩ := h
  have hfront : front ++ word <+: line :=
    (List.prefix_append _ rest).trans (hline ▸ List.takeWhile_prefix _)
  have hlast : (front ++ word).getLast? ≠ some '\r' := by
    rw [List.getLast?_append, List.getLast?_eq_some_getLast hrun.ne_nil, Option.some_or]
    intro hlast
    have hbroken := hrun.unbroken _ (List.getLast_mem hrun.ne_nil)
    rw [Option.some.inj hlast, isSeparator_return] at hbroken
    exact absurd hbroken (by decide)
  obtain ⟨behind, hshown⟩ := Text.prefix_dropReturns hfront hlast
  rw [← hshown, List.append_assoc, Nat.add_sub_cancel, List.drop_left]
  exact List.prefix_append _ _

end WordStack.Source
