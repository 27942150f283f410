import WordStack.Proofs.Bytecode

/-! # Hex text under decoration

The hex text of code may be *spread*: its digits may be of either case, with blanks of ASCII
anywhere among them (`Spread`). It may be *decorated* too, with markers in front of the spread text
and with any white space around the whole (`Decorated`). So a decorated text is made from the text
of the code, while bodies and marked texts are told by what is read in them. Two steps lead from the
one to the other:

* `spread_text_iff`: the spread texts of code are the bodies that denote it.
* `marked_iff_decorated`: to trim a decorated text may take blanks off its body, but no digit.

Reading therefore undoes printing under any decoration, and it reads nothing else
(`ofHex_decorated`). -/

namespace WordStack.Bytecode

open Numeral

/-- **Digits spread out**, each in either case, and blanks of ASCII anywhere among them. -/
inductive Spread : List Char → List Char → Prop
  | nil : Spread [] []
  | blank {c : Char} {digits cs : List Char} (hc : Text.isAsciiBlank c) (h : Spread digits cs) :
    Spread digits (c :: cs)
  | digit {c d : Char} {digits cs : List Char} (hc : c.toLower = d) (h : Spread digits cs) :
    Spread (d :: digits) (c :: cs)

/-- **The hex text of code, decorated**: spread out, behind `k` markers and with white space around
the whole. -/
def Decorated (k : Nat) (code : Bytecode) (text : String) : Prop :=
  ∃ front body back, text.toList = front ++ (markers k ++ body) ++ back ∧
    Spread code.text.toList body ∧ (∀ c ∈ front, Text.isWhiteSpace c) ∧
    ∀ c ∈ back, Text.isWhiteSpace c

/-! ## Spread digits -/

theorem Spread.reads {digits cs : List Char} (h : Spread digits cs) {ds : List Nat}
    (hds : digits = ds.map Nat.digitChar) (hlt : ∀ d ∈ ds, d < 16) :
    (∀ c ∈ cs, (hexDigit? c).isSome ∨ Text.isAsciiBlank c) ∧ cs.filterMap hexDigit? = ds := by
  induction h generalizing ds with
  | nil => exact ⟨by simp, (List.map_eq_nil_iff.mp hds.symm).symm⟩
  | blank hc _ ih =>
    obtain ⟨hplain, hread⟩ := ih hds hlt
    refine ⟨List.forall_mem_cons.mpr ⟨Or.inr hc, hplain⟩, ?_⟩
    rw [List.filterMap_cons_none (hexDigit?_of_isAsciiBlank hc), hread]
  | digit hc _ ih =>
    obtain ⟨d, ds, rfl, rfl, rfl⟩ := List.map_eq_cons_iff.mp hds.symm
    obtain ⟨hd, hlt⟩ := List.forall_mem_cons.mp hlt
    obtain ⟨hplain, hread⟩ := ih rfl hlt
    have hdigit := hexDigit?_eq_some_iff.mpr ⟨hd, hc⟩
    refine ⟨List.forall_mem_cons.mpr ⟨Or.inl (by rw [hdigit]; rfl), hplain⟩, ?_⟩
    rw [List.filterMap_cons_some hdigit, hread]

theorem spread_filterMap {cs : List Char}
    (h : ∀ c ∈ cs, (hexDigit? c).isSome ∨ Text.isAsciiBlank c) :
    Spread ((cs.filterMap hexDigit?).map Nat.digitChar) cs := by
  induction cs with
  | nil => exact .nil
  | cons c cs ih =>
    obtain ⟨hc, hcs⟩ := List.forall_mem_cons.mp h
    rcases hc with hdigit | hblank
    · obtain ⟨d, hd⟩ := Option.isSome_iff_exists.mp hdigit
      rw [List.filterMap_cons_some hd, List.map_cons]
      exact .digit (hexDigit?_eq_some_iff.mp hd).2 (ih hcs)
    · rw [List.filterMap_cons_none (hexDigit?_of_isAsciiBlank hblank)]
      exact .blank hblank (ih hcs)

theorem toList_text (code : Bytecode) :
    code.text.toList = (code.toList.flatMap halves).map Nat.digitChar := by
  rw [List.map_flatMap]
  exact String.toList_ofList

theorem spread_text_iff {code : Bytecode} {body : List Char} :
    Spread code.text.toList body ↔ Denotes body code := by
  constructor
  · intro h
    have hlt : ∀ d ∈ code.toList.flatMap halves, d < 16 := by
      intro d hd
      obtain ⟨b, -, hb⟩ := List.mem_flatMap.mp hd
      have hlt := b.toNat_lt
      rcases List.mem_pair.mp hb with rfl | rfl <;> omega
    obtain ⟨hplain, hdigits⟩ := h.reads (toList_text code) hlt
    exact ⟨hplain, hdigits⟩
  · intro h
    rw [toList_text, ← h.digits]
    exact spread_filterMap h.plain

/-! ## Trimming -/

theorem hexDigit?_of_isWhiteSpace {c : Char} (h : Text.isWhiteSpace c) : hexDigit? c = none := by
  cases hdigit : hexDigit? c with
  | none => rfl
  | some d =>
    have hnot := Text.isWhiteSpace_of_isAlphanum
      (isAlphanum_of_hexDigit? (Option.isSome_of_eq_some hdigit))
    rw [h] at hnot
    exact absurd hnot (by simp)

/-- **A body without the white space at its ends** denotes the same code: there are no digits in
white space. -/
theorem Denotes.of_surrounded {front body back : List Char} {code : Bytecode}
    (h : Denotes (front ++ body ++ back) code) (hfront : ∀ c ∈ front, Text.isWhiteSpace c)
    (hback : ∀ c ∈ back, Text.isWhiteSpace c) : Denotes body code := by
  have hnone : ∀ cs : List Char, (∀ c ∈ cs, Text.isWhiteSpace c) → cs.filterMap hexDigit? = [] :=
    fun cs hcs => List.filterMap_eq_nil_iff.mpr fun c hc => hexDigit?_of_isWhiteSpace (hcs c hc)
  constructor
  · exact fun c hc => h.plain c (by simp [hc])
  · rw [← h.digits, List.filterMap_append, List.filterMap_append, hnone front hfront,
      hnone back hback, List.nil_append, List.append_nil]

theorem isWhiteSpace_markers (k : Nat) : ∀ c ∈ markers k, Text.isWhiteSpace c = false := by
  intro c hc
  obtain ⟨cs, hcs, hc⟩ := List.mem_flatten.mp hc
  rw [(List.mem_replicate.mp hcs).2] at hc
  rcases List.mem_pair.mp hc with rfl | rfl <;> decide

/-- **Behind markers a body is trimmed**, and still denotes its code. -/
theorem trim_markers_append (k : Nat) {body : List Char} {code : Bytecode}
    (h : Denotes body code) :
    ∃ body', Text.trim (markers k ++ body) = markers k ++ body' ∧ Denotes body' code := by
  cases k with
  | zero =>
    obtain ⟨front, back, hbody, hfront, hback⟩ := Text.exists_trim body
    rw [hbody] at h
    exact ⟨_, rfl, h.of_surrounded hfront hback⟩
  | succ k =>
    have hbody : Denotes ([] ++ body.rdropWhile Text.isWhiteSpace ++
        body.rtakeWhile Text.isWhiteSpace) code := by
      rw [List.nil_append, List.rdropWhile_append_rtakeWhile]
      exact h
    exact ⟨_, Text.trim_append_of_forall (by simp [markers_succ]) (isWhiteSpace_markers _) body,
      hbody.of_surrounded (by simp) fun c => List.mem_rtakeWhile_imp⟩

/-- **Marked texts are decorated**, and the other way about. -/
theorem marked_iff_decorated {k : Nat} {text : String} {code : Bytecode} :
    Marked k text code ↔ Decorated k code text := by
  constructor
  · rintro ⟨body, htrim, hbody⟩
    obtain ⟨front, back, htext, hfront, hback⟩ := Text.exists_trim text.toList
    rw [htrim] at htext
    exact ⟨front, body, back, htext, spread_text_iff.mpr hbody, hfront, hback⟩
  · rintro ⟨front, body, back, htext, hbody, hfront, hback⟩
    obtain ⟨body', htrim, hbody'⟩ := trim_markers_append k (spread_text_iff.mp hbody)
    refine ⟨body', ?_, hbody'⟩
    rw [htext, Text.trim_surrounded hfront hback, htrim]

/-- **Reading hex text undoes printing it**, however it is decorated: with the case of its digits
changed, with blanks among them, also between the two digits of a byte, behind a marker or none, and
with white space around the whole. There may be more markers, and this is all that is read as the
code. -/
theorem ofHex_decorated (code : Bytecode) (text : String) :
    ofHex text = .ok code ↔ ∃ k, Decorated k code text := by
  rw [ofHex_eq_ok_iff, ofHex?_eq_some_iff]
  exact exists_congr fun k => marked_iff_decorated

example : ofHex "\u3000 0x0 A\tbC\n" = .ok #[0x0a, 0xbc] := by decide +kernel

end WordStack.Bytecode
