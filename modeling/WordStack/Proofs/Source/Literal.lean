import WordStack.Proofs.Literal
import WordStack.Source.Statement

/-! # Literals and the numbers that they spell

A literal is `0x` with 1 to 64 hex digits behind it, or decimal digits alone. It *spells* the number
that its digits make up (`Spells`); how many zeros are in front makes no difference, nor does the
case of hex digits. The operand of a push is read exactly if it spells a number that fits in a word,
and then as the word of this number (`ofLiteral?_eq_some_iff`, `literal_spelled`). -/

namespace WordStack

open Numeral

namespace Source

/-- **A literal and the number that it spells**, by its digits, the most significant first. -/
inductive Spells : List Char → Nat → Prop
  /-- Behind `0x` stand 1 to 64 hex digits, each in either case. -/
  | hex {digits : List Char} {ds : List Nat} (hpos : 1 ≤ ds.length) (hle : ds.length ≤ 64)
    (hlt : ∀ d ∈ ds, d < 16) (hdigits : digits.map Char.toLower = ds.map Nat.digitChar) :
    Spells ('0' :: 'x' :: digits) (Nat.ofDigits 16 ds.reverse)
  /-- Without it there are decimal digits and nothing else. -/
  | decimal {ds : List Nat} (hpos : 1 ≤ ds.length) (hlt : ∀ d ∈ ds, d < 10) :
    Spells (ds.map Nat.digitChar) (Nat.ofDigits 10 ds.reverse)

/-- An `x` is no decimal digit. -/
theorem x_not_mem_digits {ds : List Nat} (h : ∀ d ∈ ds, d < 10) : 'x' ∉ ds.map Nat.digitChar := by
  intro hx
  obtain ⟨d, hd, hchar⟩ := List.mem_map.mp hx
  have hdigit := decimalDigit?_digitChar (h d hd)
  have hnone : decimalDigit? 'x' = none := by decide
  rw [hchar, hnone] at hdigit
  exact absurd hdigit (by simp)

theorem spells_hex_iff {digits : List Char} {n : Nat} :
    Spells ('0' :: 'x' :: digits) n ↔ digits.length ≤ 64 ∧ hex? digits = some n := by
  have hlen : ∀ {ds : List Nat}, digits.map Char.toLower = ds.map Nat.digitChar →
      digits.length = ds.length := by
    intro ds hds
    simpa using congrArg List.length hds
  rw [hex?, read_eq_some_iff hexDigit?_eq_some_iff]
  constructor
  · intro h
    generalize hcs : '0' :: 'x' :: digits = cs at h
    cases h with
    | @hex digits' ds hpos hle hlt hdigits =>
      obtain rfl : digits = digits' := by simpa using hcs
      exact ⟨by rw [hlen hdigits]; exact hle, ds, hpos, hlt, hdigits, rfl⟩
    | decimal _ hlt =>
      exact absurd (hcs ▸ List.mem_cons_of_mem _ List.mem_cons_self) (x_not_mem_digits hlt)
  · rintro ⟨hle, ds, hpos, hlt, hdigits, rfl⟩
    exact .hex hpos (by rw [← hlen hdigits]; exact hle) hlt hdigits

theorem spells_decimal_iff {cs : List Char} {n : Nat} (h : ∀ digits, cs ≠ '0' :: 'x' :: digits) :
    Spells cs n ↔ decimal? cs = some n := by
  have hdigit : ∀ {c : Char} {d : Nat}, decimalDigit? c = some d ↔ d < 10 ∧ id c = d.digitChar :=
    decimalDigit?_eq_some_iff
  rw [decimal?, read_eq_some_iff hdigit, List.map_id]
  constructor
  · intro hs
    cases hs with
    | hex => exact absurd rfl (h _)
    | decimal hpos hlt => exact ⟨_, hpos, hlt, rfl, rfl⟩
  · rintro ⟨ds, hpos, hlt, rfl, rfl⟩
    exact .decimal hpos hlt

theorem isAlphanum_of_spells {cs : List Char} {n : Nat} (h : Spells cs n) :
    ∀ c ∈ cs, c.isAlphanum := by
  cases h with
  | @hex digits ds _ _ hlt hdigits =>
    have hread := (map_digit?_iff hexDigit?_eq_some_iff).mpr ⟨hlt, hdigits⟩
    have hall : ∀ c ∈ digits, c.isAlphanum := by
      intro c hc
      have hmem : hexDigit? c ∈ ds.map some := hread ▸ List.mem_map_of_mem hc
      obtain ⟨d, -, hd⟩ := List.mem_map.mp hmem
      exact isAlphanum_of_hexDigit? (Option.isSome_of_eq_some hd.symm)
    exact List.forall_mem_cons.mpr ⟨rfl, List.forall_mem_cons.mpr ⟨rfl, hall⟩⟩
  | decimal _ hlt =>
    intro c hc
    obtain ⟨d, hd, rfl⟩ := List.mem_map.mp hc
    have := hlt d hd
    exact isAlphanum_digitChar (by omega)

theorem ne_nil_of_spells {cs : List Char} {n : Nat} (h : Spells cs n) : cs ≠ [] := by
  cases h with
  | hex => exact List.cons_ne_nil _ _
  | decimal hpos _ => exact fun hnil => List.ne_nil_of_length_pos hpos (List.map_eq_nil_iff.mp hnil)

end Source

open Source

namespace Word

theorem map_ofNat_eq_some_iff {x : Option Nat} (hx : ∀ n ∈ x, n < 2 ^ 256) {w : Word} :
    x.map (BitVec.ofNat 256) = some w ↔ x = some w.toNat := by
  rw [Option.map_eq_some_iff]
  constructor
  · rintro ⟨n, rfl, rfl⟩
    rw [BitVec.toNat_ofNat, Nat.mod_eq_of_lt (hx n rfl)]
  · intro h
    exact ⟨w.toNat, h, by rw [BitVec.ofNat_toNat, BitVec.setWidth_eq]⟩

/-- **A literal is read as a word** exactly if it spells the value of the word. -/
theorem ofLiteral?_eq_some_iff {literal : String} {w : Word} :
    ofLiteral? literal = some w ↔ Spells literal.toList w.toNat := by
  by_cases hhex : ∃ digits, literal.toList = '0' :: 'x' :: digits
  · obtain ⟨digits, hdigits⟩ := hhex
    rw [ofLiteral?_of_hex hdigits, hdigits, spells_hex_iff]
    by_cases hlen : digits.length ≤ 64
    · rw [if_pos (show digits.length ≤ 2 * size from hlen),
        map_ofNat_eq_some_iff fun n hn => lt_of_hexDigits hlen hn, and_iff_right hlen]
    · rw [if_neg (show ¬ digits.length ≤ 2 * size from hlen)]
      exact ⟨fun h => absurd h (by simp), fun h => absurd h.1 hlen⟩
  · have hnot : ∀ digits, literal.toList ≠ '0' :: 'x' :: digits := not_exists.mp hhex
    rw [ofLiteral?_of_decimal hnot, spells_decimal_iff hnot, map_ofNat_eq_some_iff,
      Option.filter_eq_some_iff]
    · exact and_iff_left (decide_eq_true w.isLt)
    · exact fun n hn => of_decide_eq_true (Option.filter_eq_some_iff.mp hn).2

end Word

namespace Source

theorem literal_singleton (name operand : Token) :
    literal name [operand] = match Word.ofLiteral? operand.text with
      | some word => .ok (operand, word)
      | none => .error ⟨operand.column, .notLiteral operand.text⟩ := rfl

/-- **The operand of a push is a literal** exactly if it spells a number that fits in a word, and
then it is read as the word of this number; any other operand is refused as it is written. So all
spellings of a number, in base ten and in base sixteen, are the same word. -/
theorem literal_spelled (name : Token) (text : String) (column : Nat) :
    (∀ (operand : Token) (w : Word), literal name [⟨text, column⟩] = .ok (operand, w) ↔
        operand = ⟨text, column⟩ ∧ Spells text.toList w.toNat) ∧
      (literal name [⟨text, column⟩] = .error ⟨column, .notLiteral text⟩ ↔
        ∀ n < 2 ^ 256, ¬ Spells text.toList n) ∧
      ∀ (text' : String) (column' n : Nat), n < 2 ^ 256 → Spells text.toList n →
        Spells text'.toList n → ∃ w : Word, w.toNat = n ∧
          literal name [⟨text, column⟩] = .ok (⟨text, column⟩, w) ∧
          literal name [⟨text', column'⟩] = .ok (⟨text', column'⟩, w) := by
  have hread : ∀ {text : String} {n : Nat}, n < 2 ^ 256 → Spells text.toList n →
      Word.ofLiteral? text = some (BitVec.ofNat 256 n) := by
    intro text n hn hs
    rw [Word.ofLiteral?_eq_some_iff, BitVec.toNat_ofNat, Nat.mod_eq_of_lt hn]
    exact hs
  refine ⟨fun operand w => ?_, ?_, fun text' column' n hn hs hs' => ?_⟩
  · rw [literal_singleton, ← Word.ofLiteral?_eq_some_iff]
    cases Word.ofLiteral? text <;> simp [eq_comm]
  · rw [literal_singleton]
    cases hw : Word.ofLiteral? text with
    | some w =>
      have hs := Word.ofLiteral?_eq_some_iff.mp hw
      simp only [reduceCtorEq, false_iff]
      exact fun hnone => hnone _ w.isLt hs
    | none =>
      simp only [true_iff]
      intro n hn hs
      rw [hread hn hs] at hw
      exact absurd hw (by simp)
  · refine ⟨BitVec.ofNat 256 n, by rw [BitVec.toNat_ofNat, Nat.mod_eq_of_lt hn], ?_, ?_⟩
    · simp only [literal_singleton, hread hn hs]
    · simp only [literal_singleton, hread hn hs']

/-- Zeros in front and capitals make no difference. -/
theorem literal_spelled_byte :
    Spells "0x00fF".toList 255 ∧ Spells "0255".toList 255 ∧
      ∃ w : Word, w.toNat = 255 ∧
        literal ⟨"PUSH", 1⟩ [⟨"0x00fF", 6⟩] = .ok (⟨"0x00fF", 6⟩, w) ∧
        literal ⟨"PUSH", 1⟩ [⟨"0255", 6⟩] = .ok (⟨"0255", 6⟩, w) := by
  have hhex : Spells "0x00fF".toList 255 :=
    @Spells.hex "00fF".toList [0, 0, 15, 15] (by decide) (by decide) (by decide) (by decide)
  have hdecimal : Spells "0255".toList 255 :=
    @Spells.decimal [0, 2, 5, 5] (by decide) (by decide)
  obtain ⟨-, -, hsame⟩ := literal_spelled ⟨"PUSH", 1⟩ "0x00fF" 6
  exact ⟨hhex, hdecimal, hsame "0255" 6 255 (by decide) hhex hdecimal⟩

end Source

end WordStack
