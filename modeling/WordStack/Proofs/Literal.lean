import Mathlib.Data.String.Basic
import WordStack.Proofs.Bytecode
import WordStack.Proofs.Word
import WordStack.Source.Literal

/-! # Reading literals

Hex digits are read as code, after they have been filled up with zeros to those of 32 bytes. In code
white space is trimmed off, markers are dropped and blanks are skipped, but digits have nothing of
the kind (`ofHex?_of_hexDigits`), and two of them make a byte. So what comes out is the word of the
number that the digits spell (`ofHexDigits?_eq`), as it is with decimal digits
(`ofLiteral?_of_decimal`).

A literal that is accepted stands for its value (`toNat_of_ofLiteral?`). Accepted are the digits of
at most 32 bytes (`ofLiteral?_hexBytes`) and the text of any word (`ofLiteral?_text`). -/

namespace WordStack

open Numeral

theorem Bytecode.ofHex?_of_hexDigits {digits : List Char}
    (h : ∀ c ∈ digits, (hexDigit? c).isSome) :
    ofHex? (String.ofList digits) = (hexPairs? digits).map List.toArray := by
  have hwhite : ∀ c ∈ digits, Text.isWhiteSpace c = false := fun c hc =>
    Text.isWhiteSpace_of_isAlphanum (isAlphanum_of_hexDigit? (h c hc))
  have hmarker : 'x' ∉ digits := fun hx => absurd (h 'x' hx) (by decide)
  have hblank : digits.filter (! Text.isAsciiBlank ·) = digits := by
    refine List.filter_eq_self.mpr fun c hc => ?_
    cases hb : Text.isAsciiBlank c with
    | false => rfl
    | true =>
      have hdigit := h c hc
      rw [hexDigit?_of_isAsciiBlank hb] at hdigit
      exact absurd hdigit (by simp)
  unfold ofHex?
  rw [String.toList_ofList, Text.trim_of_forall hwhite, dropMarkers_of_not_mem hmarker, hblank]

namespace Word

/-! ## Hex digits -/

theorem utf8ByteSize_of_hexDigits {digits : List Char} (h : ∀ c ∈ digits, (hexDigit? c).isSome) :
    (String.ofList digits).utf8ByteSize = digits.length := by
  rw [String.utf8ByteSize_ofList]
  induction digits with
  | nil => rfl
  | cons c digits ih =>
    obtain ⟨hc, hdigits⟩ := List.forall_mem_cons.mp h
    have hsize : c.utf8Size = 1 := by
      have halnum := isAlphanum_of_hexDigit? hc
      rw [isAlphanum_iff, isAlpha_iff, isDigit_iff] at halnum
      exact Char.utf8Size_eq_one_iff.mpr (UInt32.le_iff_toNat_le.mpr (by
        show c.toNat ≤ 127
        omega))
    rw [String.utf8Len_cons, ih hdigits, hsize, List.length_cons]

/-- Digits are filled up to an even number, which can be read in pairs, and as the same number. -/
theorem ofHex?_leftpad {digits : List Char} (hlen : digits.length ≤ 2 * size)
    (h : ∀ c ∈ digits, (hexDigit? c).isSome) :
    ∃ bytes : List UInt8,
      Bytecode.ofHex? (String.ofList (digits.leftpad (2 * size) '0')) = some bytes.toArray ∧
        readFrom 16 hexDigit? 0 digits = some (bytesValue bytes) := by
  have hall : ∀ c ∈ digits.leftpad (2 * size) '0', (hexDigit? c).isSome := by
    intro c hc
    rcases List.mem_append.mp hc with hzero | hdigit
    · rw [(List.mem_replicate.mp hzero).2]
      decide
    · exact h c hdigit
  have heven : (digits.leftpad (2 * size) '0').length % 2 = 0 := by
    rw [List.length_leftpad, Nat.max_eq_left hlen]
    exact Nat.mul_mod_right 2 size
  obtain ⟨bytes, hbytes⟩ := exists_hexPairs? hall heven
  refine ⟨bytes, ?_, ?_⟩
  · rw [Bytecode.ofHex?_of_hexDigits hall, hbytes]
    rfl
  · have hnumber := readFrom_of_hexPairs? hbytes 0
    rw [foldl_bytes, List.leftpad, readFrom_replicate_zero (by decide)] at hnumber
    exact hnumber

/-- **Hex digits are read as the word of their number**, though by way of code. -/
theorem ofHexDigits?_eq (digits : List Char) :
    ofHexDigits? digits =
      if digits.length ≤ 2 * size then (hex? digits).map (BitVec.ofNat 256) else none := by
  unfold ofHexDigits? hex?
  by_cases hnil : digits = []
  · simp [hnil]
  by_cases hall : ∀ c ∈ digits, (hexDigit? c).isSome
  · have hall' : (digits.all fun c => (hexDigit? c).isSome) = true := List.all_eq_true.mpr hall
    rw [utf8ByteSize_of_hexDigits hall, if_neg hnil]
    by_cases hlen : digits.length ≤ 2 * size
    · obtain ⟨bytes, hcode, hnumber⟩ := ofHex?_leftpad hlen hall
      rw [if_neg (by simp [hnil, hall', hlen]), if_pos hlen, hnumber]
      simp only [hcode, Option.map_some]
      rw [ofBytes_eq_ofNat]
    · rw [if_pos (Or.inr (Or.inl (Nat.lt_of_not_le hlen))), if_neg hlen]
  · have hnone : readFrom 16 hexDigit? 0 digits = none := by
      cases hread : readFrom 16 hexDigit? 0 digits with
      | none => rfl
      | some n => exact absurd (isSome_of_readFrom hread) hall
    have hall' : ¬ (digits.all fun c => (hexDigit? c).isSome) = true :=
      fun h => hall (List.all_eq_true.mp h)
    rw [if_pos (Or.inr (Or.inr hall')), if_neg hnil, hnone, Option.map_none, ite_self]

/-! ## Literals -/

section

variable {literal : String} {digits : List Char}

theorem ofLiteral?_of_hex (h : literal.toList = '0' :: 'x' :: digits) :
    ofLiteral? literal =
      if digits.length ≤ 2 * size then (hex? digits).map (BitVec.ofNat 256) else none := by
  unfold ofLiteral?
  rw [h]
  exact ofHexDigits?_eq digits

theorem ofLiteral?_of_decimal (h : ∀ digits, literal.toList ≠ '0' :: 'x' :: digits) :
    ofLiteral? literal =
      ((decimal? literal.toList).filter (· < count)).map (BitVec.ofNat 256) := by
  unfold ofLiteral?
  split
  · next digits hdigits => exact absurd hdigits (h digits)
  · split
    · next hguard =>
      have hnone : decimal? literal.toList = none := by
        unfold decimal?
        split
        · rfl
        · next hnil =>
          cases hread : readFrom 10 decimalDigit? 0 literal.toList with
          | none => rfl
          | some n =>
            have hall := List.all_eq_true.mpr (isSome_of_readFrom hread)
            exact absurd hguard (by simp [hnil, hall])
      rw [hnone]
      rfl
    · rfl

end

theorem ofLiteral?_hexBytes {bytes : List UInt8} (h1 : 1 ≤ bytes.length) (h : bytes.length ≤ 32) :
    ofLiteral? ("0x" ++ hexBytes bytes) = some (ofBytes bytes) := by
  have hlen := length_flatMap_hexByte bytes
  have hlist : ("0x" ++ hexBytes bytes).toList = '0' :: 'x' :: bytes.flatMap hexByte := by
    simp only [hexBytes, String.toList_append, String.toList_ofList]
    rfl
  have hne : bytes.flatMap hexByte ≠ [] := by
    intro he
    rw [he, List.length_nil] at hlen
    omega
  have hread : hex? (bytes.flatMap hexByte) = some (bytesValue bytes) := by
    rw [hex?, if_neg hne, readFrom_flatMap_hexByte, foldl_bytes]
  rw [ofLiteral?_of_hex hlist, if_pos (by unfold size; omega), hread, Option.map_some,
    ofBytes_eq_ofNat]

/-- **The text of a word is a literal for it.** -/
theorem ofLiteral?_text (w : Word) : ofLiteral? w.text = some w := by
  have hlist : w.text.toList = '0' :: 'x' :: (hex w.toNat).toList := by
    rw [text, String.toList_append]
    rfl
  have hlen : (hex w.toNat).toList.length ≤ 2 * size := length_hex_le (by decide) w.isLt
  rw [ofLiteral?_of_hex hlist, if_pos hlen, hex_eq, hex?_hexPadded, Option.map_some,
    BitVec.ofNat_toNat, BitVec.setWidth_eq]

/-- The value of a literal: in base sixteen after `0x`, else in base ten. -/
def literalValue : List Char → Nat
  | '0' :: 'x' :: digits => value 16 digits
  | digits => value 10 digits

theorem lt_of_hexDigits {digits : List Char} {n : Nat} (hlen : digits.length ≤ 64)
    (h : hex? digits = some n) : n < 2 ^ 256 :=
  calc n < 16 ^ digits.length := lt_of_hex? h
    _ ≤ 16 ^ 64 := Nat.pow_le_pow_right (by omega) hlen
    _ = 2 ^ 256 := rfl

/-- **A literal stands for its value.** -/
theorem toNat_of_ofLiteral? {literal : String} {w : Word} (h : ofLiteral? literal = some w) :
    w.toNat = literalValue literal.toList := by
  by_cases hhex : ∃ digits, literal.toList = '0' :: 'x' :: digits
  · obtain ⟨digits, hdigits⟩ := hhex
    rw [ofLiteral?_of_hex hdigits] at h
    split at h
    · rename_i hlen
      obtain ⟨v, hv, rfl⟩ := Option.map_eq_some_iff.mp h
      rw [hdigits, BitVec.toNat_ofNat, Nat.mod_eq_of_lt (lt_of_hexDigits hlen hv), literalValue]
      exact value_of_hex? hv
    · exact absurd h (by simp)
  · have hnot : ∀ digits, literal.toList ≠ '0' :: 'x' :: digits := not_exists.mp hhex
    rw [ofLiteral?_of_decimal hnot] at h
    obtain ⟨v, hv, rfl⟩ := Option.map_eq_some_iff.mp h
    obtain ⟨hv, hlt⟩ := Option.filter_eq_some_iff.mp hv
    rw [decide_eq_true_eq, show count = 2 ^ 256 from rfl] at hlt
    rw [BitVec.toNat_ofNat, Nat.mod_eq_of_lt hlt, literalValue.eq_2 _ hnot]
    exact value_of_decimal? hv

end Word

end WordStack
