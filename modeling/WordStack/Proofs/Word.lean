import Mathlib.Data.List.Induction
import Mathlib.Data.Nat.Digits.Lemmas
import WordStack.Proofs.Numeral
import WordStack.Word

/-! # Words and their bytes

A byte string has a value, with its first byte the most significant (`bytesValue`). A word read from
bytes has this value modulo `2 ^ 256` (`toNat_ofBytes`), and `width` bytes hold exactly the numbers
below `256 ^ width` (`bytesValue_bigEndian`, `bigEndian_bytesValue`, `byteLength_le_iff`). -/

namespace WordStack

/-- **The value of a byte string**, the first byte being the most significant. -/
def bytesValue (bytes : List UInt8) : Nat := Nat.ofDigits 256 (bytes.reverse.map UInt8.toNat)

theorem bytesValue_append_singleton (bytes : List UInt8) (b : UInt8) :
    bytesValue (bytes ++ [b]) = bytesValue bytes * 256 + b.toNat := by
  unfold bytesValue
  rw [List.reverse_append, List.reverse_singleton, List.singleton_append, List.map_cons,
    Nat.ofDigits_cons]
  omega

theorem bytesValue_lt (bytes : List UInt8) : bytesValue bytes < 256 ^ bytes.length := by
  have h := Nat.ofDigits_lt_base_pow_length (b := 256) (l := bytes.reverse.map UInt8.toNat)
    (by omega) (fun x hx => by
      obtain ⟨b, -, rfl⟩ := List.mem_map.mp hx
      exact b.toNat_lt)
  rw [List.length_map, List.length_reverse] at h
  exact h

theorem foldl_bytes (bytes : List UInt8) :
    bytes.foldl (fun n b => n * 256 + b.toNat) 0 = bytesValue bytes := by
  induction bytes using List.reverseRecOn with
  | nil => rfl
  | append_singleton bytes b ih =>
    rw [List.foldl_append, ih, bytesValue_append_singleton, List.foldl_cons, List.foldl_nil]

theorem bytesValue_bigEndian (width n : Nat) :
    bytesValue (bigEndian width n) = n % 256 ^ width := by
  induction width generalizing n with
  | zero => rw [pow_zero, Nat.mod_one]; rfl
  | succ width ih =>
    have hpow : 256 ^ (width + 1) = 256 * 256 ^ width := Nat.pow_succ'
    rw [bigEndian, bytesValue_append_singleton, ih, UInt8.toNat_ofNat', hpow, Nat.mod_mul]
    omega

theorem bigEndian_bytesValue (bytes : List UInt8) :
    bigEndian bytes.length (bytesValue bytes) = bytes := by
  induction bytes using List.reverseRecOn with
  | nil => rfl
  | append_singleton bytes b ih =>
    have hb := b.toNat_lt
    have hdiv : (bytesValue bytes * 256 + b.toNat) / 256 = bytesValue bytes := by omega
    have hmod : UInt8.ofNat (bytesValue bytes * 256 + b.toNat) = b := by
      apply UInt8.toNat_inj.mp
      rw [UInt8.toNat_ofNat']
      omega
    rw [List.length_append, List.length_singleton, bytesValue_append_singleton, bigEndian, hdiv, ih,
      hmod]

theorem eq_of_bytesValue {bytes bytes' : List UInt8} (hlen : bytes.length = bytes'.length)
    (hvalue : bytesValue bytes = bytesValue bytes') : bytes = bytes' := by
  rw [← bigEndian_bytesValue bytes, hlen, hvalue, bigEndian_bytesValue]

theorem bytesValue_zeros_append (k : Nat) (bytes : List UInt8) :
    bytesValue (List.replicate k 0 ++ bytes) = bytesValue bytes := by
  unfold bytesValue
  rw [List.reverse_append, List.reverse_replicate, List.map_append, List.map_replicate]
  exact Nat.ofDigits_append_replicate_zero _

/-- **A number in more bytes than it needs** has zeros in front. -/
theorem bigEndian_of_lt {width k n : Nat} (h : n < 256 ^ k) (hk : k ≤ width) :
    bigEndian width n = List.replicate (width - k) 0 ++ bigEndian k n := by
  have hlt : n < 256 ^ width := h.trans_le (Nat.pow_le_pow_right (by omega) hk)
  apply eq_of_bytesValue
  · rw [List.length_append, List.length_replicate, length_bigEndian, length_bigEndian,
      Nat.sub_add_cancel hk]
  · rw [bytesValue_zeros_append, bytesValue_bigEndian, bytesValue_bigEndian, Nat.mod_eq_of_lt hlt,
      Nat.mod_eq_of_lt h]

theorem drop_bigEndian {width k : Nat} (h : k ≤ width) (n : Nat) :
    (bigEndian width n).drop (width - k) = bigEndian k n := by
  induction k generalizing width n with
  | zero => exact List.drop_eq_nil_of_le (length_bigEndian width n).le
  | succ k ih =>
    obtain ⟨width, rfl⟩ := Nat.exists_eq_add_of_le' (show 1 ≤ width by omega)
    have hle : width - k ≤ (bigEndian width (n / 256)).length := by
      rw [length_bigEndian]
      omega
    rw [bigEndian, bigEndian, Nat.add_sub_add_right, List.drop_append_of_le_length hle,
      ih (by omega)]

/-- **The hex digits of bytes** are those of their value, with zeros in front to two for a byte. -/
theorem flatMap_hexByte {bytes : List UInt8} (h : bytes ≠ []) :
    bytes.flatMap Numeral.hexByte =
      (Numeral.hexPadded (2 * bytes.length) (bytesValue bytes)).toList := by
  induction bytes using List.reverseRecOn with
  | nil => exact absurd rfl h
  | append_singleton bytes b ih =>
    have hb := b.toNat_lt
    have hsum : bytesValue bytes * 256 + b.toNat =
        (bytesValue bytes * 16 + b.toNat / 16) * 16 + b.toNat % 16 := by omega
    have hhigh : (Numeral.hexPadded (2 * bytes.length + 1)
        (bytesValue bytes * 16 + b.toNat / 16)).toList =
          bytes.flatMap Numeral.hexByte ++ [Nat.digitChar (b.toNat / 16)] := by
      by_cases hnil : bytes = []
      · have hzero : bytesValue [] * 16 + b.toNat / 16 = b.toNat / 16 := Nat.zero_add _
        rw [hnil, hzero]
        exact Numeral.toList_hexPadded_of_lt (by omega)
      · have hpos := List.length_pos_iff.mpr hnil
        rw [Numeral.toList_hexPadded_succ _ (by omega) (by omega), ih hnil]
    rw [List.length_append, List.length_singleton, Nat.mul_add_one, bytesValue_append_singleton,
      hsum, Numeral.toList_hexPadded_succ _ (by omega) (by omega), hhigh, List.flatMap_append,
      List.flatMap_singleton, List.append_assoc]
    rfl

namespace Word

theorem count_eq : 256 ^ 32 = 2 ^ 256 := rfl

/-! ## Bytes -/

theorem toNat_ofBytes (bytes : List UInt8) :
    (ofBytes bytes).toNat = bytesValue bytes % 2 ^ 256 := by
  induction bytes using List.reverseRecOn with
  | nil => rfl
  | append_singleton bytes b ih =>
    have hb := b.toNat_lt
    unfold ofBytes at ih ⊢
    have h256 : BitVec.toNat (256 : Word) = 256 := rfl
    rw [List.foldl_append, List.foldl_cons, List.foldl_nil, BitVec.toNat_add, BitVec.toNat_mul, ih,
      bytesValue_append_singleton, BitVec.toNat_ofNat, h256]
    omega

theorem bytesValue_lt_count {bytes : List UInt8} (h : bytes.length ≤ 32) :
    bytesValue bytes < 2 ^ 256 :=
  calc bytesValue bytes < 256 ^ bytes.length := bytesValue_lt bytes
    _ ≤ 256 ^ 32 := Nat.pow_le_pow_right (by omega) h
    _ = 2 ^ 256 := count_eq

theorem toNat_ofBytes_of_le {bytes : List UInt8} (h : bytes.length ≤ 32) :
    (ofBytes bytes).toNat = bytesValue bytes := by
  rw [toNat_ofBytes, Nat.mod_eq_of_lt (bytesValue_lt_count h)]

theorem ofBytes_eq_ofNat (bytes : List UInt8) :
    ofBytes bytes = BitVec.ofNat 256 (bytesValue bytes) := by
  apply BitVec.eq_of_toNat_eq
  rw [toNat_ofBytes, BitVec.toNat_ofNat]

/-! ## The narrowest width -/

theorem log2_div_eight (n : Nat) : n.log2 / 8 = Nat.log 256 n := by
  rw [Nat.log2_eq_log_two, show 256 = 2 ^ 8 by rfl]
  by_cases hn : n = 0
  · rw [hn, Nat.log_zero_right, Nat.log_zero_right]
  · apply Nat.le_antisymm
    · rw [Nat.le_log_iff_pow_le (by omega) hn, ← pow_mul]
      exact (Nat.pow_le_pow_right (by omega) (Nat.mul_div_le _ 8)).trans (Nat.pow_log_le_self 2 hn)
    · rw [Nat.le_div_iff_mul_le (by omega), Nat.mul_comm, Nat.le_log_iff_pow_le (by omega) hn,
        pow_mul]
      exact Nat.pow_log_le_self _ hn

theorem byteLength_eq (w : Word) : w.byteLength = Nat.log 256 w.toNat + 1 := by
  unfold byteLength
  rw [log2_div_eight]

/-- **A width suffices** from the word's own byte length on. -/
theorem byteLength_le_iff {w : Word} {width : Nat} (h : 1 ≤ width) :
    w.byteLength ≤ width ↔ w.toNat < 256 ^ width := by
  rw [byteLength_eq, Nat.succ_le_iff]
  by_cases hw : w.toNat = 0
  · rw [hw, Nat.log_zero_right]
    exact ⟨fun _ => by positivity, fun _ => by omega⟩
  · exact Nat.log_lt_iff_lt_pow (by omega) hw

theorem byteLength_le (w : Word) : w.byteLength ≤ 32 := by
  rw [byteLength_le_iff (by omega), count_eq]
  exact w.isLt

theorem lastBytes_eq {width : Nat} (h : width ≤ size) (w : Word) :
    w.lastBytes width = bigEndian width w.toNat :=
  drop_bigEndian h w.toNat

end Word

end WordStack
