import Mathlib.Data.List.TakeWhile
import WordStack.Proofs.Text.Blank
import WordStack.Source.Token

/-! # Scanning for tokens

The scan for tokens goes through a line character by character, and keeps in mind the place at which
a token has begun. What it finds can also be told without such a place: at a separator nothing is
found, and anywhere else the token goes on to the next separator (`tokensFrom`). Both are the same
(`tokens_eq`), since the characters from the place in mind on are always those of a token so far
(`scan_eq`). -/

namespace WordStack.Source

/-! ## Separators -/

theorem not_isSeparator_of_isAlphanum {c : Char} (h : c.isAlphanum) : isSeparator c = false := by
  have hcomma : c ≠ ',' := by
    rintro rfl
    exact absurd h (by decide)
  rw [isSeparator, Text.isWhiteSpace_of_isAlphanum h, Bool.false_or, decide_eq_false_iff_not]
  exact hcomma

theorem not_isSeparator_of_forall {word : List Char} (h : ∀ c ∈ word, c.isAlphanum) :
    ∀ c ∈ word, isSeparator c = false :=
  fun c hc => not_isSeparator_of_isAlphanum (h c hc)

theorem isSeparator_return : isSeparator '\r' = true := by decide

theorem isSeparator_space : isSeparator ' ' = true := by decide

/-- A separator ends a run, and another character goes on with it. -/
theorem takeWhile_separator {c : Char} (hc : isSeparator c = true) (cs : List Char) :
    (c :: cs).takeWhile (! isSeparator ·) = [] :=
  List.takeWhile_cons_of_neg (by simp [hc])

theorem dropWhile_separator {c : Char} (hc : isSeparator c = true) (cs : List Char) :
    (c :: cs).dropWhile (! isSeparator ·) = c :: cs :=
  List.dropWhile_cons_of_neg (by simp [hc])

theorem takeWhile_run {c : Char} (hc : ¬ isSeparator c = true) (cs : List Char) :
    (c :: cs).takeWhile (! isSeparator ·) = c :: cs.takeWhile (! isSeparator ·) :=
  List.takeWhile_cons_of_pos (by simpa using hc)

theorem dropWhile_run {c : Char} (hc : ¬ isSeparator c = true) (cs : List Char) :
    (c :: cs).dropWhile (! isSeparator ·) = cs.dropWhile (! isSeparator ·) :=
  List.dropWhile_cons_of_pos (by simpa using hc)

theorem dropWhile_not_isSeparator (cs : List Char) :
    cs.dropWhile (! isSeparator ·) = [] ∨
      ∃ sep rest, cs.dropWhile (! isSeparator ·) = sep :: rest ∧ isSeparator sep = true := by
  induction cs with
  | nil => exact Or.inl rfl
  | cons c cs ih =>
    by_cases hc : isSeparator c = true
    · exact Or.inr ⟨c, cs, dropWhile_separator hc cs, hc⟩
    · rw [dropWhile_run hc]
      exact ih

theorem unbroken_run {c : Char} {cs : List Char} (hc : ¬ isSeparator c = true) :
    ∀ x ∈ c :: cs.takeWhile (! isSeparator ·), isSeparator x = false := by
  intro x hx
  rcases List.mem_cons.mp hx with rfl | hx
  · simpa using hc
  · simpa using List.mem_takeWhile_imp hx

/-! ## Tokens one after the other -/

/-- The tokens of a text without a comment, whose first character is at `column`. A token goes on
to the next separator. -/
def tokensFrom (column : Nat) : List Char → List Token
  | [] => []
  | c :: rest =>
    if isSeparator c then tokensFrom (column + 1) rest
    else
      let run := c :: rest.takeWhile (! isSeparator ·)
      ⟨String.ofList run, column⟩
        :: tokensFrom (column + run.length) (rest.dropWhile (! isSeparator ·))
termination_by text => text.length
decreasing_by
  · simp
  · have := (List.dropWhile_suffix (! isSeparator ·) : _ <:+ rest).length_le
    simp only [List.length_cons]; omega

section

variable {front run rest : List Char} {c : Char} {column : Nat}

theorem tokensFrom_separator (hc : isSeparator c = true) :
    tokensFrom column (c :: rest) = tokensFrom (column + 1) rest := by
  rw [tokensFrom, if_pos hc]

theorem tokensFrom_run (hc : ¬ isSeparator c = true) :
    tokensFrom column (c :: rest) =
      ⟨String.ofList (c :: rest.takeWhile (! isSeparator ·)), column⟩ ::
        tokensFrom (column + (c :: rest.takeWhile (! isSeparator ·)).length)
          (rest.dropWhile (! isSeparator ·)) := by
  rw [tokensFrom, if_neg hc]

theorem cut_append :
    cut (front ++ run ++ rest) front.length (front.length + run.length) =
      ⟨String.ofList run, front.length + 1⟩ := by
  unfold cut
  rw [← List.length_append, List.take_left, List.drop_left]

/-- **The rest of a scan.** If no token has begun, the next ones are those of the rest. If one has
begun, its other characters come first, and the others are those of what follows on it. -/
theorem scan_eq {code : List Char} (rest : List Char) :
    (∀ front, code = front ++ rest →
      scan code none front.length rest = tokensFrom (front.length + 1) rest) ∧
    ∀ front run, code = front ++ run ++ rest →
      scan code (some front.length) (front.length + run.length) rest =
        ⟨String.ofList (run ++ rest.takeWhile (! isSeparator ·)), front.length + 1⟩ ::
          tokensFrom (front.length + 1 + (run ++ rest.takeWhile (! isSeparator ·)).length)
            (rest.dropWhile (! isSeparator ·)) := by
  induction rest with
  | nil =>
    refine ⟨fun front hcode => by rw [scan, tokensFrom], fun front run hcode => ?_⟩
    have hlength : code.length = front.length + run.length := by
      rw [hcode, List.append_nil, List.length_append]
    rw [scan, hlength, hcode, cut_append, List.takeWhile_nil, List.dropWhile_nil, tokensFrom,
      List.append_nil]
  | cons c rest ih =>
    obtain ⟨ihnone, ihsome⟩ := ih
    by_cases hc : isSeparator c = true
    · refine ⟨fun front hcode => ?_, fun front run hcode => ?_⟩
      · have hnext := ihnone (front ++ [c]) (by rw [hcode, List.append_assoc]; rfl)
        rw [List.length_append] at hnext
        simp only [scan, hc]
        rw [tokensFrom_separator hc]
        exact hnext
      · have hnext := ihnone (front ++ run ++ [c]) (by rw [hcode, List.append_assoc _ [c]]; rfl)
        have hcolumn : front.length + 1 + run.length + 1 = front.length + run.length + 1 + 1 := by
          omega
        rw [List.length_append, List.length_append, List.length_singleton] at hnext
        simp only [scan, hc]
        rw [takeWhile_separator hc, dropWhile_separator hc, List.append_nil,
          tokensFrom_separator hc, hcolumn, ← hnext]
        congr 1
        rw [hcode, cut_append]
    · have hc' : isSeparator c = false := by simpa using hc
      refine ⟨fun front hcode => ?_, fun front run hcode => ?_⟩
      · have hnext := ihsome front [c] (by rw [hcode, List.append_assoc]; rfl)
        simp only [scan, hc']
        rw [tokensFrom_run hc]
        exact hnext
      · have hnext := ihsome front (run ++ [c]) (by
          rw [hcode, List.append_assoc front, List.append_assoc front, List.append_assoc run]
          rfl)
        rw [List.append_assoc run, List.length_append, List.length_singleton,
          ← Nat.add_assoc] at hnext
        simp only [scan, hc']
        rw [takeWhile_run hc, dropWhile_run hc]
        exact hnext

end

/-- **The scan finds the tokens one after the other.** -/
theorem tokens_eq (line : List Char) : tokens line = tokensFrom 1 (beforeComment line) :=
  (scan_eq (beforeComment line)).1 [] rfl

end WordStack.Source
