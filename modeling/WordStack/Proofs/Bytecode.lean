import WordStack.Error
import WordStack.Proofs.Text.Blank

/-! # Hex text of code

A hex text has a *body* of hex digits and blanks whose digits, two by two, are those of the code
(`Denotes`). The body may have white space around it, and *markers* `0x` in front. One marker is
meant to be the most there is (`Documented`), but code is read behind any number of them (`Marked`).
A body has no `x` in it, so that the markers are as many as there are `x` in the text.

* `ofHex?_eq_some_iff`: code is read from marked texts and from no others.
* `ofHex?_text`: the hex text that is written for code is read back, by itself and behind a marker.
* `ofHex_accepts`: the marked texts with two markers or more are those that are read although they
  have not the documented form; a text that is not marked is refused.
* `not_documented`: there are such texts. -/

namespace WordStack

open Numeral

namespace Bytecode

/-- **The body of a hex text** has only hex digits and blanks of ASCII. Its digits are those of the
bytes, two for each and in order, so that their number is even. -/
structure Denotes (body : List Char) (code : Bytecode) : Prop where
  plain : ∀ c ∈ body, (hexDigit? c).isSome ∨ Text.isAsciiBlank c
  digits : body.filterMap hexDigit? = code.toList.flatMap halves

/-- So many markers `0x`. -/
def markers (k : Nat) : List Char := (List.replicate k ['0', 'x']).flatten

/-- The text without the white space around it is a body behind `k` markers. -/
def Marked (k : Nat) (text : String) (code : Bytecode) : Prop :=
  ∃ body, Text.trim text.toList = markers k ++ body ∧ Denotes body code

/-- **The documented form** has at most one marker. -/
def Documented (text : String) (code : Bytecode) : Prop := ∃ k ≤ 1, Marked k text code

/-! ## Bodies -/

theorem hexDigit?_of_isAsciiBlank {c : Char} (h : Text.isAsciiBlank c) : hexDigit? c = none := by
  simp only [Text.isAsciiBlank, Bool.or_eq_true, decide_eq_true_eq] at h
  rcases h with (((rfl | rfl) | rfl) | rfl) | rfl <;> decide

theorem map_hexDigit?_eq_iff {cs : List Char} {ds : List Nat} :
    (cs.filter (! Text.isAsciiBlank ·)).map hexDigit? = ds.map some ↔
      (∀ c ∈ cs, (hexDigit? c).isSome ∨ Text.isAsciiBlank c) ∧ cs.filterMap hexDigit? = ds := by
  induction cs generalizing ds with
  | nil => cases ds <;> simp
  | cons c cs ih =>
    rw [List.forall_mem_cons]
    by_cases hblank : Text.isAsciiBlank c = true
    · rw [List.filter_cons_of_neg (by simp [hblank]), ih,
        List.filterMap_cons_none (hexDigit?_of_isAsciiBlank hblank)]
      simp [hblank]
    · rw [List.filter_cons_of_pos (by simpa using hblank), List.map_cons]
      cases hdigit : hexDigit? c with
      | none => cases ds <;> simp [hblank]
      | some d =>
        rw [List.filterMap_cons_some hdigit]
        cases ds with
        | nil => simp
        | cons d' ds =>
          rw [List.map_cons, List.cons.injEq, List.cons.injEq, ih, Option.some.injEq]
          simp [and_left_comm]

/-- **The code of a body** is read from its digits, the blanks left out. -/
theorem denotes_iff {body : List Char} {code : Bytecode} :
    Denotes body code ↔
      (hexPairs? (body.filter (! Text.isAsciiBlank ·))).map List.toArray = some code := by
  rw [Option.map_eq_some_iff]
  constructor
  · intro h
    exact ⟨code.toList, hexPairs?_eq_some_iff.mpr (map_hexDigit?_eq_iff.mpr ⟨h.plain, h.digits⟩),
      Array.toArray_toList⟩
  · rintro ⟨bytes, hbytes, rfl⟩
    obtain ⟨hplain, hdigits⟩ := map_hexDigit?_eq_iff.mp (hexPairs?_eq_some_iff.mp hbytes)
    exact ⟨hplain, hdigits⟩

theorem Denotes.not_mem {body : List Char} {code : Bytecode} (h : Denotes body code) :
    'x' ∉ body := by
  intro hx
  exact absurd (h.plain 'x' hx) (by decide)

theorem denotes_text (code : Bytecode) : Denotes code.text.toList code := by
  have htext : code.text.toList = code.toList.flatMap hexByte := String.toList_ofList
  have hmap := map_hexDigit?_flatMap_hexByte code.toList
  rw [htext]
  constructor
  · intro c hc
    have hdigit : hexDigit? c ∈ (code.toList.flatMap halves).map some := by
      rw [← hmap]
      exact List.mem_map_of_mem hc
    obtain ⟨d, -, hd⟩ := List.mem_map.mp hdigit
    exact Or.inl (by rw [← hd]; rfl)
  · calc (code.toList.flatMap hexByte).filterMap hexDigit?
        = ((code.toList.flatMap hexByte).map hexDigit?).filterMap id := by
          rw [List.filterMap_map, Function.id_comp]
      _ = ((code.toList.flatMap halves).map some).filterMap id := by rw [hmap]
      _ = code.toList.flatMap halves := by
          rw [List.filterMap_map, Function.id_comp, List.filterMap_some]

/-! ## Markers -/

theorem markers_succ (k : Nat) : markers (k + 1) = '0' :: 'x' :: markers k := rfl

theorem count_markers (k : Nat) : (markers k).count 'x' = k := by
  induction k with
  | zero => rfl
  | succ k ih =>
    rw [markers_succ, List.count_cons_of_ne (by decide), List.count_cons_self, ih]

theorem dropMarkers_of_not_mem {cs : List Char} (h : 'x' ∉ cs) : dropMarkers cs = cs := by
  unfold dropMarkers
  split
  · exact absurd (List.mem_cons_of_mem _ List.mem_cons_self) h
  · rfl

theorem dropMarkers_markers {body : List Char} (h : 'x' ∉ body) (k : Nat) :
    dropMarkers (markers k ++ body) = body := by
  induction k with
  | zero => exact dropMarkers_of_not_mem h
  | succ k ih =>
    rw [markers_succ, List.cons_append, List.cons_append, dropMarkers, ih]

theorem exists_markers (cs : List Char) : ∃ k, cs = markers k ++ dropMarkers cs := by
  fun_induction dropMarkers cs with
  | case1 rest ih =>
    obtain ⟨k, hk⟩ := ih
    exact ⟨k + 1, by rw [markers_succ, List.cons_append, List.cons_append, ← hk]⟩
  | case2 cs _ => exact ⟨0, rfl⟩

theorem Marked.count {k : Nat} {text : String} {code : Bytecode} (h : Marked k text code) :
    (Text.trim text.toList).count 'x' = k := by
  obtain ⟨body, htext, hbody⟩ := h
  rw [htext, List.count_append, count_markers, List.count_eq_zero_of_not_mem hbody.not_mem,
    Nat.add_zero]

/-! ## What is read -/

/-- **Code is read from a body** behind markers, and from nothing else. -/
theorem ofHex?_eq_some_iff {text : String} {code : Bytecode} :
    ofHex? text = some code ↔ ∃ k, Marked k text code := by
  constructor
  · intro h
    obtain ⟨k, hk⟩ := exists_markers (Text.trim text.toList)
    exact ⟨k, dropMarkers (Text.trim text.toList), hk, denotes_iff.mpr h⟩
  · rintro ⟨k, body, htext, hbody⟩
    unfold ofHex?
    rw [htext, dropMarkers_markers hbody.not_mem]
    exact denotes_iff.mp hbody

theorem isWhiteSpace_digitChar {d : Nat} (h : d < 16) :
    Text.isWhiteSpace (Nat.digitChar d) = false :=
  Text.isWhiteSpace_of_isAlphanum (isAlphanum_digitChar h)

/-- **The hex text of code is read back as the code**, behind a `0x` too. -/
theorem ofHex?_text (code : Bytecode) :
    ofHex? code.text = some code ∧ ofHex? ("0x" ++ code.text) = some code := by
  have htext : code.text.toList = code.toList.flatMap hexByte := String.toList_ofList
  have hwhite : ∀ c ∈ code.text.toList, Text.isWhiteSpace c = false := by
    rw [htext]
    exact forall_mem_flatMap_hexByte (fun _ => isWhiteSpace_digitChar) code.toList
  constructor
  · exact ofHex?_eq_some_iff.mpr
      ⟨0, code.text.toList, Text.trim_of_forall hwhite, denotes_text code⟩
  · have hmarked : ("0x" ++ code.text).toList = '0' :: 'x' :: code.text.toList :=
      String.toList_append
    have hwhite' : ∀ c ∈ '0' :: 'x' :: code.text.toList, Text.isWhiteSpace c = false :=
      List.forall_mem_cons.mpr ⟨by decide, List.forall_mem_cons.mpr ⟨by decide, hwhite⟩⟩
    refine ofHex?_eq_some_iff.mpr ⟨1, code.text.toList, ?_, denotes_text code⟩
    rw [hmarked, Text.trim_of_forall hwhite']
    rfl

/-! ## What is accepted -/

theorem ofHex_eq_ok_iff {text : String} {code : Bytecode} :
    ofHex text = .ok code ↔ ofHex? text = some code := by
  unfold ofHex
  cases ofHex? text <;> simp

theorem ofHex_eq_error_iff {text : String} {e : Error} :
    ofHex text = .error e ↔ ofHex? text = none ∧ e = .invalidHex text := by
  unfold ofHex
  cases ofHex? text <;> simp [eq_comm]

/-- **Hex text**: code is read from a text exactly if the text, without the white space around it,
is a body of hex digits and blanks that denotes the code, behind any number of markers. It has the
documented form unless these are two or more. Every other text is refused, and is shown as it was
given. -/
theorem ofHex_accepts (text : String) :
    (∀ code, ofHex text = .ok code ↔ ∃ k, Marked k text code) ∧
      (∀ code, ofHex text = .ok code ∧ ¬ Documented text code ↔
        ∃ k, 2 ≤ k ∧ Marked k text code) ∧
      (ofHex text = .error (.invalidHex text) ↔ ¬ ∃ k code, Marked k text code) := by
  have hok : ∀ code, ofHex text = .ok code ↔ ∃ k, Marked k text code := fun code => by
    rw [ofHex_eq_ok_iff, ofHex?_eq_some_iff]
  refine ⟨hok, fun code => ?_, ?_⟩
  · rw [hok]
    constructor
    · rintro ⟨⟨k, hk⟩, hnot⟩
      exact ⟨k, Nat.lt_of_not_le fun hle => hnot ⟨k, hle, hk⟩, hk⟩
    · rintro ⟨k, htwo, hk⟩
      refine ⟨⟨k, hk⟩, ?_⟩
      rintro ⟨j, hj, hmarked⟩
      have hsame : j = k := hmarked.count.symm.trans hk.count
      omega
  · rw [ofHex_eq_error_iff, Option.eq_none_iff_forall_not_mem]
    simp only [Option.mem_def, ofHex?_eq_some_iff, and_true, not_exists]
    exact forall_comm

/-- A second marker is dropped too. -/
theorem not_documented : ¬ ∀ (text : String) (code : Bytecode),
    ofHex text = .ok code → Documented text code := by
  intro h
  have haccepted : ofHex "0x0x00" = .ok #[0] := by decide +kernel
  obtain ⟨k, hk, hmarked⟩ := h "0x0x00" #[0] haccepted
  have hcount : (Text.trim "0x0x00".toList).count 'x' = 2 := by decide
  rw [hmarked.count] at hcount
  omega

end Bytecode

end WordStack
