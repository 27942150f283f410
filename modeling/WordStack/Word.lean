import WordStack.Numeral

/-! # Words

A word is an integer modulo `2 ^ 256`: sums and differences wrap around, and no operation on words
can fail. Its byte forms are big-endian, the most significant byte first.

* `bigEndian width n`: the `width` low-order bytes of a number.
* `Word.ofBytes`: any byte string, of which only the last 32 bytes count.
* `Word.toBytes`, `Word.minimalBytes` and `Word.lastBytes`: all 32 bytes, the fewest that hold the
  word, and as many as are wanted. -/

namespace WordStack

/-- The `width` low-order bytes of `n`, most significant first. -/
def bigEndian : Nat → Nat → List UInt8
  | 0, _ => []
  | width + 1, n => bigEndian width (n / 256) ++ [UInt8.ofNat n]

theorem length_bigEndian (width n : Nat) : (bigEndian width n).length = width := by
  induction width generalizing n with
  | zero => rfl
  | succ width ih => simp [bigEndian, ih]

/-- **A machine word**, the content of one place on the stack. -/
abbrev Word := BitVec 256

namespace Word

/-- The number of bytes of a word. -/
def size : Nat := 32

/-- The number of words, `2 ^ 256`. -/
def count : Nat := Nat.pow 256 size

/-! ## Bytes -/

/-- A byte string read as a number, byte after byte, each time moving the word so far one byte up.
What leaves the word at its upper end is lost, so of a longer string the last 32 bytes remain. -/
def ofBytes (bytes : List UInt8) : Word :=
  bytes.foldl (fun w b => w * 256 + BitVec.ofNat 256 b.toNat) 0

/-- All 32 bytes. -/
def toBytes (w : Word) : List UInt8 := bigEndian size w.toNat

/-- How many bytes the word needs. Zero needs one. -/
def byteLength (w : Word) : Nat := w.toNat.log2 / 8 + 1

/-- The fewest bytes that hold the word. -/
def minimalBytes (w : Word) : List UInt8 := bigEndian w.byteLength w.toNat

/-- The last `width` bytes, of at most 32. -/
def lastBytes (width : Nat) (w : Word) : List UInt8 := w.toBytes.drop (size - width)

/-! ## Truth values -/

/-- One for true, zero for false. -/
def ofBool (b : Bool) : Word := if b then 1 else 0

/-! ## Text -/

/-- The word in base sixteen, after `0x` and without leading zeros. -/
def text (w : Word) : String := "0x" ++ Numeral.hex w.toNat

end Word

end WordStack
