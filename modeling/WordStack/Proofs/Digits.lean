import Mathlib.Data.List.Lex
import WordStack.Proofs.Numeral
import WordStack.Proofs.Word

/-! # Digits in the order of the numbers

Texts that begin with parts of one length compare by these parts first (`append_lt_append_iff`).
Hence numbers that are written with one number of digits, the most significant first, compare as
their digits do (`Positional.lt_iff`), whatever the base and the digits are. Bytes
(`positional_bigEndian`) and decimals with zeros in front (`Numeral.positional_decimalPadded`) are
written in this way. -/

namespace WordStack

/-- **Text behind parts of one length** matters where these are the same. -/
theorem append_lt_append_iff {α : Type} [LT α] [Std.Irrefl (· < · : α → α → Prop)]
    {front front' rest rest' : List α} (h : front.length = front'.length) :
    front ++ rest < front' ++ rest' ↔ front < front' ∨ front = front' ∧ rest < rest' := by
  induction front generalizing front' with
  | nil =>
    obtain rfl : front' = [] := List.length_eq_zero_iff.mp h.symm
    simp
  | cons a front ih =>
    obtain ⟨b, front', rfl⟩ := List.exists_cons_of_length_eq_add_one h.symm
    rw [List.cons_append, List.cons_append, List.cons_lt_cons_iff, List.cons_lt_cons_iff,
      ih (Nat.succ.inj h), List.cons.injEq]
    tauto

theorem lt_iff_div_mod (base m n : Nat) :
    m < n ↔ m / base < n / base ∨ m / base = n / base ∧ m % base < n % base := by
  have hm := Nat.div_add_mod m base
  have hn := Nat.div_add_mod n base
  rcases Nat.lt_trichotomy (m / base) (n / base) with h | h | h
  · have := Nat.lt_of_div_lt_div h
    omega
  · rw [h] at hm
    omega
  · have := Nat.lt_of_div_lt_div h
    omega

/-- **A positional notation**: the last digit is that of the remainder, the others are those of the
quotient, and the digits are in the order of their values. -/
structure Positional {α : Type} [LT α] (base : Nat) (digit : Nat → α)
    (write : Nat → Nat → List α) : Prop where
  one : ∀ d < base, write 1 d = [digit d]
  succ : ∀ width ≥ 1, ∀ n, ∀ d < base,
    write (width + 1) (n * base + d) = write width n ++ [digit d]
  digit_lt : ∀ d < base, ∀ e < base, (digit d < digit e ↔ d < e)

namespace Positional

variable {α : Type} [LT α] {base width : Nat} {digit : Nat → α}
  {write : Nat → Nat → List α}

theorem eq_append (h : Positional base digit write) (hbase : 0 < base) (hw : 1 ≤ width) (n : Nat) :
    write (width + 1) n = write width (n / base) ++ [digit (n % base)] := by
  rw [← h.succ width hw (n / base) (n % base) (Nat.mod_lt n hbase), Nat.div_add_mod']

theorem length_eq (h : Positional base digit write) (hbase : 0 < base) (hw : 1 ≤ width) :
    ∀ {n : Nat}, n < base ^ width → (write width n).length = width := by
  induction width, hw using Nat.le_induction with
  | base =>
    intro n hn
    rw [h.one n (by rwa [pow_one] at hn), List.length_singleton]
  | succ width hw ih =>
    intro n hn
    rw [h.eq_append hbase hw, List.length_append, List.length_singleton,
      ih (Nat.div_lt_of_lt_mul (by rwa [pow_succ'] at hn))]

theorem eq_iff_of_lt_iff [Std.Irrefl (· < · : α → α → Prop)] {f : Nat → List α} {m n : Nat}
    (h : f m < f n ↔ m < n) (h' : f n < f m ↔ n < m) : f m = f n ↔ m = n := by
  refine ⟨fun heq => ?_, fun heq => by rw [heq]⟩
  have hirrefl := List.lt_irrefl (f n)
  rw [heq] at h h'
  apply Nat.le_antisymm
  · exact Nat.le_of_not_lt fun hlt => hirrefl (h'.mpr hlt)
  · exact Nat.le_of_not_lt fun hlt => hirrefl (h.mpr hlt)

/-- **Numbers compare as their digits do.** -/
theorem lt_iff [Std.Irrefl (· < · : α → α → Prop)] (h : Positional base digit write)
    (hbase : 0 < base) (hw : 1 ≤ width) :
    ∀ {m n : Nat}, m < base ^ width → n < base ^ width →
      (write width m < write width n ↔ m < n) := by
  induction width, hw using Nat.le_induction with
  | base =>
    intro m n hm hn
    rw [pow_one] at hm hn
    rw [h.one m hm, h.one n hn, List.cons_lt_cons_iff, h.digit_lt m hm n hn]
    simp
  | succ width hw ih =>
    intro m n hm hn
    have hm' : m / base < base ^ width := Nat.div_lt_of_lt_mul (by rwa [pow_succ'] at hm)
    have hn' : n / base < base ^ width := Nat.div_lt_of_lt_mul (by rwa [pow_succ'] at hn)
    have heq : write width (m / base) = write width (n / base) ↔ m / base = n / base :=
      eq_iff_of_lt_iff (ih hm' hn') (ih hn' hm')
    rw [h.eq_append hbase hw, h.eq_append hbase hw,
      append_lt_append_iff ((h.length_eq hbase hw hm').trans (h.length_eq hbase hw hn').symm),
      ih hm' hn', heq, List.cons_lt_cons_iff,
      h.digit_lt _ (Nat.mod_lt m hbase) _ (Nat.mod_lt n hbase), lt_iff_div_mod base m n]
    simp

/-- **Numbers in front of other text** are compared first. -/
theorem append_lt_append_iff [Std.Irrefl (· < · : α → α → Prop)] (h : Positional base digit write)
    (hbase : 0 < base) (hw : 1 ≤ width) {m n : Nat} (hm : m < base ^ width) (hn : n < base ^ width)
    (rest rest' : List α) :
    write width m ++ rest < write width n ++ rest' ↔ m < n ∨ m = n ∧ rest < rest' := by
  have hlt := h.lt_iff hbase hw hm hn
  rw [WordStack.append_lt_append_iff
    ((h.length_eq hbase hw hm).trans (h.length_eq hbase hw hn).symm), hlt,
    eq_iff_of_lt_iff hlt (h.lt_iff hbase hw hn hm)]

end Positional

/-! ## Bytes -/

theorem positional_bigEndian : Positional 256 UInt8.ofNat bigEndian where
  one d _ := rfl
  succ width _ n d hd := by
    have hdiv : (n * 256 + d) / 256 = n := by omega
    have hbyte : UInt8.ofNat (n * 256 + d) = UInt8.ofNat d := by
      apply UInt8.toNat_inj.mp
      rw [UInt8.toNat_ofNat', UInt8.toNat_ofNat']
      omega
    rw [bigEndian, hdiv, hbyte]
  digit_lt d hd e he := by
    rw [UInt8.lt_iff_toNat_lt, UInt8.toNat_ofNat_of_lt' hd, UInt8.toNat_ofNat_of_lt' he]

/-! ## Decimals -/

theorem Numeral.positional_decimalPadded :
    Positional 10 Nat.digitChar fun width n => (decimalPadded width n).toList where
  one d hd := by
    unfold decimalPadded
    rw [String.toList_ofList, Nat.toDigits_of_lt_base hd]
    rfl
  succ width hw n d hd := by
    unfold decimalPadded
    rw [String.toList_ofList, String.toList_ofList, leftpad_toDigits_succ (by omega) n hw hd]
  digit_lt d hd e he := by
    have all : ∀ d e : Fin 10, Nat.digitChar d < Nat.digitChar e ↔ d < e := by decide
    exact all ⟨d, hd⟩ ⟨e, he⟩

namespace Numeral

variable {width m n : Nat}

theorem length_decimalPadded (hw : 1 ≤ width) (hn : n < 10 ^ width) :
    (decimalPadded width n).toList.length = width :=
  positional_decimalPadded.length_eq (by omega) hw hn

theorem decimalPadded_lt_iff (hw : 1 ≤ width) (hm : m < 10 ^ width) (hn : n < 10 ^ width) :
    (decimalPadded width m).toList < (decimalPadded width n).toList ↔ m < n :=
  positional_decimalPadded.lt_iff (by omega) hw hm hn

theorem decimalPadded_append_lt_iff (hw : 1 ≤ width) (hm : m < 10 ^ width) (hn : n < 10 ^ width)
    (rest rest' : List Char) :
    (decimalPadded width m).toList ++ rest < (decimalPadded width n).toList ++ rest' ↔
      m < n ∨ m = n ∧ rest < rest' :=
  positional_decimalPadded.append_lt_append_iff (by omega) hw hm hn rest rest'

end Numeral

end WordStack
