import Mathlib.Data.List.DropRight
import WordStack.Proofs.Digits

/-! # The forms of a word

A word is a number below `2 ^ 256`, a string of 32 bytes and a string of as many bytes as it needs,
and each of the three gives the other two.

* `bytesValue_rtake`: the last bytes of a string have its value modulo a power of 256. So a word
  read from any byte string has the last 32 of its bytes, with zeros in front (`toBytes_ofBytes`).
* `isShortest_minimalBytes`: no other byte string is as short as the fewest bytes of a word.
* `byteLength_eq_max`, `minimalBytes_eq_drop`: how many they are, and which, is found by counting
  the zeros in front. A word that is zero keeps its last byte.
* `byte_forms`: all of this, and that words are in the order of their bytes. -/

namespace WordStack

/-! ## Values of byte strings -/

theorem bytesValue_append (front bytes : List UInt8) :
    bytesValue (front ++ bytes) = bytesValue front * 256 ^ bytes.length + bytesValue bytes := by
  unfold bytesValue
  rw [List.reverse_append, List.map_append, Nat.ofDigits_append, List.length_map,
    List.length_reverse, Nat.mul_comm, Nat.add_comm]

/-- **The last bytes of a string** have what remains of its value. -/
theorem bytesValue_rtake (k : Nat) (bytes : List UInt8) :
    bytesValue (bytes.rtake k) = bytesValue bytes % 256 ^ k := by
  unfold List.rtake
  by_cases h : k ≤ bytes.length
  · have hlen : (bytes.drop (bytes.length - k)).length = k := by
      rw [List.length_drop]
      omega
    have hlast := bytesValue_lt (bytes.drop (bytes.length - k))
    have hsplit := bytesValue_append (bytes.take (bytes.length - k)) (bytes.drop (bytes.length - k))
    rw [hlen] at hlast hsplit
    rw [← List.take_append_drop (bytes.length - k) bytes, hsplit, Nat.mul_add_mod',
      List.take_append_drop, Nat.mod_eq_of_lt hlast]
  · have hle : bytes.length ≤ k := Nat.le_of_not_le h
    have hlt := (bytesValue_lt bytes).trans_le (Nat.pow_le_pow_right (by omega) hle)
    rw [Nat.sub_eq_zero_of_le hle, List.drop_zero, Nat.mod_eq_of_lt hlt]

/-- **The shortest bytes** of a number: any others that have its value are more. -/
structure IsShortest (n : Nat) (bytes : List UInt8) : Prop where
  ne_nil : bytes ≠ []
  value : bytesValue bytes = n
  lt_length : ∀ other ≠ [], bytesValue other = n → other ≠ bytes → bytes.length < other.length

namespace Word

/-! ## All bytes -/

theorem bytesValue_toBytes (w : Word) : bytesValue w.toBytes = w.toNat := by
  unfold toBytes
  rw [bytesValue_bigEndian]
  exact Nat.mod_eq_of_lt w.isLt

theorem ofBytes_of_bytesValue {bytes : List UInt8} {w : Word} (h : bytesValue bytes = w.toNat) :
    ofBytes bytes = w := by
  rw [ofBytes_eq_ofNat, h, BitVec.ofNat_toNat, BitVec.setWidth_eq]

/-- **A word read from bytes** has the last 32 of them, and zeros in front if they are fewer. -/
theorem toBytes_ofBytes (bytes : List UInt8) :
    (ofBytes bytes).toBytes = (bytes.rtake size).leftpad size 0 := by
  apply eq_of_bytesValue
  · have hlen : (bytes.rtake size).length ≤ size := by
      unfold List.rtake
      rw [List.length_drop]
      omega
    unfold toBytes
    rw [length_bigEndian, List.length_leftpad, Nat.max_eq_left hlen]
  · unfold List.leftpad
    rw [bytesValue_toBytes, toNat_ofBytes, bytesValue_zeros_append, bytesValue_rtake]
    rfl

/-- **Words are in the order of their bytes.** -/
theorem toBytes_lt_iff (a b : Word) : a.toBytes < b.toBytes ↔ a < b :=
  positional_bigEndian.lt_iff (by omega) (by decide) a.isLt b.isLt

/-! ## The fewest bytes -/

theorem length_minimalBytes (w : Word) : w.minimalBytes.length = w.byteLength :=
  length_bigEndian _ _

theorem byteLength_pos (w : Word) : 1 ≤ w.byteLength := Nat.le_add_left 1 _

theorem bytesValue_minimalBytes (w : Word) : bytesValue w.minimalBytes = w.toNat := by
  unfold minimalBytes
  rw [bytesValue_bigEndian]
  exact Nat.mod_eq_of_lt ((byteLength_le_iff w.byteLength_pos).mp le_rfl)

theorem isShortest_minimalBytes (w : Word) : IsShortest w.toNat w.minimalBytes where
  ne_nil := by
    rw [← List.length_pos_iff, length_minimalBytes]
    exact w.byteLength_pos
  value := w.bytesValue_minimalBytes
  lt_length := by
    intro other hne hvalue hother
    have hlt := bytesValue_lt other
    rw [hvalue, ← byteLength_le_iff (List.length_pos_iff.mpr hne), ← length_minimalBytes] at hlt
    refine lt_of_le_of_ne hlt fun hlen => hother ?_
    exact eq_of_bytesValue hlen.symm (hvalue.trans w.bytesValue_minimalBytes.symm)

/-! ## Counting zeros -/

/-- The zeros among the bytes of a word that stand in front of all others. -/
def leadingZeroBytes (w : Word) : Nat := w.clz.toNat / 8

theorem log2_toNat {w : Word} (h : w ≠ 0) : w.toNat.log2 + w.clz.toNat = 255 := by
  have hlow := BitVec.two_pow_sub_clz_le_toNat_of_ne_zero (by omega) h
  have hhigh := BitVec.toNat_lt_two_pow_sub_clz (x := w)
  have hclz : w.clz.toNat < 256 := BitVec.lt_def.mp (BitVec.clz_lt_iff_ne_zero.mpr h)
  have hne : w.toNat ≠ 0 := by
    intro hzero
    exact h (BitVec.eq_of_toNat_eq hzero)
  rw [← Nat.le_log2 hne] at hlow
  rw [← Nat.log2_lt hne] at hhigh
  omega

theorem byteLength_eq_max (w : Word) : w.byteLength = max (size - w.leadingZeroBytes) 1 := by
  unfold byteLength leadingZeroBytes size
  by_cases h : w = 0
  · rw [BitVec.clz_eq_iff_eq_zero.mpr h, h]
    decide
  · have := log2_toNat h
    omega

theorem minimalBytes_eq_drop (w : Word) :
    w.minimalBytes = w.toBytes.drop (min w.leadingZeroBytes (size - 1)) := by
  have hskip : min w.leadingZeroBytes (size - 1) = size - w.byteLength := by
    rw [byteLength_eq_max]
    unfold size
    omega
  have hle : w.byteLength ≤ size := w.byteLength_le
  rw [hskip]
  exact (drop_bigEndian hle w.toNat).symm

/-! ## The three forms -/

/-- **A word as a number, as 32 bytes and as its fewest bytes.** Bytes are read as their value
modulo `2 ^ 256`, that is as the last 32 of them, with zeros in front if they are fewer. A word is
read back from all of its bytes and from the fewest, which are the shortest bytes of its value, and
are what is left of all when the zeros in front of them are dropped, but for the last byte. Words
compare as numbers in the same way as their bytes do in the order of a lexicon. -/
theorem byte_forms :
    (∀ bytes : List UInt8, (ofBytes bytes).toNat = bytesValue bytes % 2 ^ 256 ∧
        (ofBytes bytes).toBytes = (bytes.rtake 32).leftpad 32 0) ∧
      (∀ w : Word, ofBytes w.toBytes = w ∧ ofBytes w.minimalBytes = w ∧
        IsShortest w.toNat w.minimalBytes ∧
        w.minimalBytes = w.toBytes.drop (min w.leadingZeroBytes 31) ∧
        w.byteLength = w.minimalBytes.length ∧ w.byteLength = max (32 - w.leadingZeroBytes) 1) ∧
      ∀ a b : Word, a < b ↔ a.toBytes < b.toBytes := by
  refine ⟨fun bytes => ⟨toNat_ofBytes bytes, toBytes_ofBytes bytes⟩, fun w => ?_, fun a b =>
    (toBytes_lt_iff a b).symm⟩
  exact ⟨ofBytes_of_bytesValue w.bytesValue_toBytes,
    ofBytes_of_bytesValue w.bytesValue_minimalBytes, w.isShortest_minimalBytes,
    w.minimalBytes_eq_drop, w.length_minimalBytes.symm, w.byteLength_eq_max⟩

end Word

end WordStack
