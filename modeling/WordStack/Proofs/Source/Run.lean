import WordStack.Proofs.Source.Column

/-! # Tokens are runs

The *code* of a line is what stands before its first `#`, or all of the line. Its tokens are the
runs of its code, all of them and in order.

* `mem_tokensFrom_iff`: what is found in a text are its runs. That every run is found is by
  induction on the text: a run at its beginning is cut off at the next separator
  (`IsRun.eq_takeWhile`), and a run further on lies behind that separator (`IsRun.behind_run`).
* `pairwise_tokensFrom`: no token touches the one before it.
* `tokens_runs`: both together, for a line. -/

namespace WordStack.Source

/-- **The code of a line.** -/
def IsCode (line code : List Char) : Prop :=
  '#' ∉ code ∧ (line = code ∨ ∃ comment, line = code ++ '#' :: comment)

/-- **A token that is a run of a text.** Its column is the number of characters in front of it,
counted from the column of the text. -/
def Token.IsRunOf (column : Nat) (text : List Char) (t : Token) : Prop :=
  ∃ front rest, text = front ++ t.text.toList ++ rest ∧ IsRun front t.text.toList rest ∧
    t.column = column + front.length

theorem isCode_beforeComment (line : List Char) : IsCode line (beforeComment line) := by
  constructor
  · intro h
    exact absurd (List.mem_takeWhile_imp h) (by decide)
  · have hsplit : beforeComment line ++ line.dropWhile (· ≠ '#') = line :=
      List.takeWhile_append_dropWhile
    cases hrest : line.dropWhile (· ≠ '#') with
    | nil =>
      rw [hrest, List.append_nil] at hsplit
      exact Or.inl hsplit.symm
    | cons c comment =>
      have hc := List.head?_dropWhile_not (· ≠ '#') line
      rw [hrest] at hc hsplit
      obtain rfl : c = '#' := by simpa using hc
      exact Or.inr ⟨comment, hsplit.symm⟩

/-! ## All runs are found -/

section

variable {run front next rest cs : List Char}

theorem IsRun.of_append (h : IsRun (cs ++ front) run rest) : IsRun front run rest :=
  ⟨h.ne_nil, h.unbroken, fun c hc => h.before c (by rw [List.getLast?_append, hc]; rfl), h.behind⟩

theorem IsRun.text_ne_nil (h : IsRun front run rest) : front ++ run ++ rest ≠ [] :=
  List.append_ne_nil_of_left_ne_nil (List.append_ne_nil_of_right_ne_nil _ h.ne_nil) _

theorem IsRun.eq_takeWhile (h : IsRun [] run rest) :
    run = (run ++ rest).takeWhile (! isSeparator ·) := by
  have hrest : rest.takeWhile (! isSeparator ·) = [] := by
    cases rest with
    | nil => rfl
    | cons sep rest => exact takeWhile_separator (h.behind sep rfl) rest
  rw [List.takeWhile_append_of_pos fun c hc => by simp [h.unbroken c hc], hrest, List.append_nil]

/-- **A run further on** lies behind the run that the text begins with. -/
theorem IsRun.behind_run (h : IsRun front next rest) (hfront : front ≠ [])
    (hrun : ∀ c ∈ run, isSeparator c = false) (hsplit : run ++ cs = front ++ next ++ rest) :
    ∃ front', front = run ++ front' ∧ cs = front' ++ next ++ rest ∧ IsRun front' next rest := by
  -- The separator in front of the next run is not in the first one.
  have hlast := h.before _ (List.getLast?_eq_some_getLast hfront)
  have hnot : ∀ run', run ≠ front ++ run' := by
    rintro run' rfl
    rw [hrun _ (List.mem_append_left _ (List.getLast_mem hfront))] at hlast
    exact absurd hlast (by simp)
  rw [List.append_assoc, List.append_eq_append_iff] at hsplit
  rcases hsplit with ⟨front', rfl, hcs⟩ | ⟨run', hrun', -⟩
  · exact ⟨front', rfl, by rw [hcs, List.append_assoc], h.of_append⟩
  · exact absurd hrun' (hnot run')

end

/-- **Every run is found**, at its column. -/
theorem mem_tokensFrom_of_isRun {column : Nat} {cs : List Char} {t : Token}
    (h : t.IsRunOf column cs) : t ∈ tokensFrom column cs := by
  obtain ⟨front, rest, hcs, hrun, hcolumn⟩ := h
  fun_induction tokensFrom column cs generalizing front with
  | case1 column => exact absurd hcs.symm hrun.text_ne_nil
  | case2 column sep cs hsep ih =>
    obtain ⟨front, rfl⟩ := hrun.front_of_append hsep hcs
    refine ih front (List.cons.inj hcs).2 (@IsRun.of_append _ front rest [sep] hrun) ?_
    rw [hcolumn, List.length_cons]
    omega
  | case3 column c cs hc run ih =>
    rw [List.mem_cons]
    by_cases hfront : front = []
    · subst hfront
      have htext : t.text.toList = run := by
        rw [hrun.eq_takeWhile]
        rw [List.nil_append] at hcs
        rw [← hcs, takeWhile_run hc]
      refine Or.inl ?_
      rw [← htext, String.ofList_toList]
      rw [List.length_nil] at hcolumn
      cases t
      congr
    · have hsplit : run ++ cs.dropWhile (! isSeparator ·) = front ++ t.text.toList ++ rest := by
        rw [← hcs, List.cons_append, List.takeWhile_append_dropWhile]
      obtain ⟨front', rfl, hrest, hnext⟩ := hrun.behind_run hfront (unbroken_run hc) hsplit
      refine Or.inr (ih front' hrest hnext ?_)
      rw [hcolumn, List.length_append, Nat.add_assoc]

/-- **What is found in a text** are its runs. -/
theorem mem_tokensFrom_iff {column : Nat} {cs : List Char} {t : Token} :
    t ∈ tokensFrom column cs ↔ t.IsRunOf column cs := by
  refine ⟨fun h => ?_, mem_tokensFrom_of_isRun⟩
  obtain ⟨k, hk⟩ := List.mem_iff_getElem?.mp h
  obtain ⟨front, rest, hcs, hrun, hcolumn, -⟩ := isRun_of_getElem? hk
  exact ⟨front, rest, hcs, hrun, hcolumn⟩

/-! ## Their order -/

theorem pairwise_tokensFrom (column : Nat) (cs : List Char) :
    (tokensFrom column cs).Pairwise fun t u => t.column + t.text.length < u.column := by
  fun_induction tokensFrom column cs with
  | case1 => exact List.Pairwise.nil
  | case2 column c cs hc ih => exact ih
  | case3 column c cs hc run ih =>
    refine List.pairwise_cons.mpr ⟨fun u hu => ?_, ih⟩
    obtain ⟨front, rest, hcs, hrun, hcolumn⟩ := mem_tokensFrom_iff.mp hu
    have hfront : 1 ≤ front.length := by
      rcases dropWhile_not_isSeparator cs with hnil | ⟨sep, rest', hdrop, hsep⟩
      · exact absurd (hnil.symm.trans hcs).symm hrun.text_ne_nil
      · rw [hdrop] at hcs
        obtain ⟨front', rfl⟩ := hrun.front_of_append hsep hcs
        rw [List.length_cons]
        omega
    have hlength : (String.ofList run).length = run.length := by
      rw [← String.length_toList, String.toList_ofList]
    show column + (String.ofList run).length < u.column
    omega

/-! ## The tokens of a line -/

/-- **The tokens of a line are the runs of its code**, each of them once and in order. A run is not
empty, has no separator and no `#` in it, and is bounded by separators or the ends of the code; its
column is the number of characters in front of it, counted from one. Between two tokens stands at
least one separator. -/
theorem tokens_runs (line : List Char) :
    ∃ code, IsCode line code ∧
      (∀ t : Token, t ∈ tokens line ↔ t.IsRunOf 1 code) ∧
      (tokens line).Pairwise (fun t u => t.column + t.text.length < u.column) ∧
      ∀ t ∈ tokens line, t.text ≠ "" ∧ ∀ c ∈ t.text.toList, isSeparator c = false ∧ c ≠ '#' := by
  have hcode := isCode_beforeComment line
  rw [tokens_eq]
  refine ⟨beforeComment line, hcode, fun t => mem_tokensFrom_iff, pairwise_tokensFrom 1 _,
    fun t ht => ?_⟩
  obtain ⟨front, rest, hsplit, hrun, -⟩ := mem_tokensFrom_iff.mp ht
  refine ⟨fun hempty => hrun.ne_nil (by rw [hempty]; rfl), fun c hc => ⟨hrun.unbroken c hc, ?_⟩⟩
  rintro rfl
  exact hcode.1 (hsplit ▸ List.mem_append_left _ (List.mem_append_right _ hc))

end WordStack.Source
