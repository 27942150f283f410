import Mathlib.Data.List.TakeWhile
import WordStack.Text.Line

/-! # The lines of a joined text

A text is a line without a newline, or such a line with a newline and a text behind it; so much for
induction (`newline_induction`). Behind a newline a text begins anew: its lines are those in front
of the newline, which are all ended by one, and those behind it (`lines_append`).

* `lines_of_ended`: lines that are ended by newlines are the lines of the text.
* `lines_split`: a text can be cut in front of each of its lines.
* `length_splitOn_newline`: newlines separate one piece more than there are newlines.
* `prefix_dropReturns`: what does not end in a carriage return stays when those at the end
  are left out. -/

namespace WordStack.Text

/-- **Induction over a text**, from one newline to the next. -/
theorem newline_induction {p : List Char → Prop} (last : ∀ line, '\n' ∉ line → p line)
    (ended : ∀ line rest, '\n' ∉ line → p rest → p (line ++ '\n' :: rest)) (text : List Char) :
    p text := by
  induction hn : text.length using Nat.strongRecOn generalizing text with
  | _ n ih =>
    by_cases h : '\n' ∈ text
    · obtain ⟨line, rest, rfl, hline⟩ := List.eq_append_cons_of_mem h
      refine ended line rest hline (ih rest.length ?_ rest rfl)
      rw [← hn, List.length_append, List.length_cons]
      omega
    · exact last text h

/-! ## Lines in front of a newline and behind it -/

theorem lines_of_not_mem {line : List Char} (h : '\n' ∉ line) :
    lines line = [line].filter (· ≠ []) := by
  unfold lines
  rw [List.splitOn_eq_singleton h]
  rfl

theorem lines_nil : lines [] = [] := lines_of_not_mem List.not_mem_nil

/-- **Behind a newline a text begins anew.** -/
theorem lines_append (front rest : List Char) :
    lines (front ++ '\n' :: rest) = (front.splitOn '\n').map dropReturn ++ lines rest := by
  have hrest := List.splitOn_ne_nil '\n' rest
  unfold lines
  simp only [List.splitOn_append_cons_self, List.dropLast_append_of_ne_nil hrest,
    List.getLast?_append, List.getLast?_eq_some_getLast hrest, Option.some_or, List.map_append,
    List.append_assoc]

theorem lines_cons {line : List Char} (h : '\n' ∉ line) (rest : List Char) :
    lines (line ++ '\n' :: rest) = dropReturn line :: lines rest := by
  rw [lines_append, List.splitOn_eq_singleton h]
  rfl

theorem dropReturn_of_getLast? {line : List Char} (h : line.getLast? ≠ some '\r') :
    dropReturn line = line := if_neg h

/-- **Lines that are ended by newlines**, and have no carriage return there, are read back. -/
theorem lines_of_ended {ls : List (List Char)} (h : ∀ l ∈ ls, '\n' ∉ l)
    (hr : ∀ l ∈ ls, '\r' ∉ l) : lines (ls.flatMap (· ++ ['\n'])) = ls := by
  induction ls with
  | nil => exact lines_nil
  | cons l ls ih =>
    have hl : dropReturn l = l := dropReturn_of_getLast? fun hlast =>
      hr l List.mem_cons_self (List.mem_of_getLast? hlast)
    rw [List.flatMap_cons, List.append_assoc, List.singleton_append,
      lines_cons (h l List.mem_cons_self), hl, ih (fun l hl => h l (List.mem_cons_of_mem _ hl))
        fun l hl => hr l (List.mem_cons_of_mem _ hl)]

/-! ## Lines in their places -/

theorem not_mem_dropReturn {c : Char} {line : List Char} (h : c ∉ line) : c ∉ dropReturn line := by
  unfold dropReturn
  split
  · exact fun hc => h (List.dropLast_subset line hc)
  · exact h

theorem newline_not_mem {text : List Char} : ∀ line ∈ lines text, '\n' ∉ line := by
  induction text using newline_induction with
  | last text h =>
    rw [lines_of_not_mem h]
    intro line hline
    rw [List.mem_singleton.mp (List.mem_filter.mp hline).1]
    exact h
  | ended line rest h ih =>
    rw [lines_cons h]
    exact List.forall_mem_cons.mpr ⟨not_mem_dropReturn h, ih⟩

/-- **A text can be cut in front of each of its lines.** -/
theorem lines_split {front : List (List Char)} :
    ∀ {text line : List Char} {rest : List (List Char)}, lines text = front ++ line :: rest →
      ∃ before after, text = before ++ after ∧ lines before = front ∧
        lines after = line :: rest := by
  induction front with
  | nil => exact fun {text} _ _ h => ⟨[], text, rfl, lines_nil, h⟩
  | cons first front ih =>
    intro text line rest h
    by_cases hn : '\n' ∈ text
    · obtain ⟨piece, behind, rfl, hpiece⟩ := List.eq_append_cons_of_mem hn
      rw [lines_cons hpiece, List.cons_append] at h
      obtain ⟨hfirst, h⟩ := List.cons.inj h
      obtain ⟨before, after, rfl, hbefore, hafter⟩ := ih h
      refine ⟨piece ++ '\n' :: before, after, by simp, ?_, hafter⟩
      rw [lines_cons hpiece, hfirst, hbefore]
    · -- There is one line at most, and so none behind another.
      have hle := List.length_filter_le (· ≠ []) [text]
      have hlen := congrArg List.length ((lines_of_not_mem hn).symm.trans h)
      rw [List.length_append, List.length_cons, List.length_cons] at hlen
      rw [List.length_singleton] at hle
      omega

theorem length_splitOn_newline (text : List Char) :
    (text.splitOn '\n').length = 1 + text.count '\n' := by
  induction text using newline_induction with
  | last text h => rw [List.splitOn_eq_singleton h, List.count_eq_zero_of_not_mem h]; rfl
  | ended line rest h ih =>
    rw [List.splitOn_append_cons_self_of_not_mem h, List.length_cons, ih, List.count_append,
      List.count_eq_zero_of_not_mem h, List.count_cons_self]
    omega

/-! ## Carriage returns at the end -/

theorem prefix_dropReturns {front line : List Char} (h : front <+: line)
    (hlast : front.getLast? ≠ some '\r') : front <+: dropReturns line := by
  obtain ⟨rest, rfl⟩ := h
  have hfront : front.reverse.dropWhile (· = '\r') = front.reverse := by
    apply List.dropWhile_eq_self_iff.mpr
    intro hlt hhead
    rw [decide_eq_true_eq] at hhead
    rw [List.getLast?_eq_head?_reverse, List.head?_eq_getElem?, List.getElem?_eq_getElem hlt,
      hhead] at hlast
    exact hlast rfl
  unfold dropReturns
  rw [List.reverse_append, List.dropWhile_append, hfront]
  split
  · exact ⟨[], by rw [List.append_nil, List.reverse_reverse]⟩
  · rw [List.reverse_append, List.reverse_reverse]
    exact List.prefix_append _ _

theorem getLast?_dropReturns (line : List Char) : (dropReturns line).getLast? ≠ some '\r' := by
  unfold dropReturns
  rw [List.getLast?_reverse]
  intro hhead
  have hne := List.head?_dropWhile_not (· = '\r') line.reverse
  rw [hhead] at hne
  simp at hne

theorem newline_not_mem_dropReturns {line : List Char} (h : '\n' ∉ line) :
    '\n' ∉ dropReturns line := by
  unfold dropReturns
  intro hmem
  have hsub := (List.dropWhile_suffix (· = '\r') (l := line.reverse)).subset
  exact h (List.mem_reverse.mp (hsub (List.mem_reverse.mp hmem)))

end WordStack.Text
