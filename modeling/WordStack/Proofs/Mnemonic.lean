import WordStack.Error
import WordStack.Proofs.Opcode

/-! # The names of opcodes

A name is meant to stand for an opcode in use if it is the opcode's mnemonic, in whatever case
(`Spelled`). Such names are accepted, and so are others: the number of a family member is read as a
number that may have a sign, so that it may also be written with a plus in front, and then with
zeros behind the plus (`Signed`). A zero without a sign is refused.

* `ofMnemonic_accepts`: these two kinds of names are accepted and no others, and no name is of both.
* `not_spelled`: so a name can be accepted that is no mnemonic. -/

namespace WordStack.Opcode

open Numeral

/-- **The name is the mnemonic** of the opcode of some byte, but for the case of letters. -/
def Spelled (name : String) (op : Opcode) : Prop :=
  (∃ byte, ofByte? byte = some op) ∧ Text.upper name = Text.upper op.mnemonic

/-- The name has a plus, and then any number of zeros, in front of the number in the mnemonic. -/
def Signed (name : String) (op : Opcode) : Prop :=
  (∃ byte, ofByte? byte = some op) ∧
    ∃ number zeros, number ≠ [] ∧ op.mnemonic.toList = op.stem.toList ++ number ∧
      Text.upper name = op.stem.toList ++ '+' :: (List.replicate zeros '0' ++ number)

/-! ## Mnemonics -/

theorem inUse_iff {op : Opcode} : op.InUse ↔ ∃ byte, ofByte? byte = some op :=
  ⟨fun h => ⟨op.toByte, h⟩, fun ⟨_, h⟩ => inUse_of_ofByte? h⟩

theorem upper_mnemonic {op : Opcode} (h : op.InUse) :
    Text.upper op.mnemonic = op.mnemonic.toList :=
  of_decide_eq_true <|
    h.of_all (p := fun op => Text.upper op.mnemonic = op.mnemonic.toList) (by decide +kernel)

theorem mnemonic_of_mem_plain {op : Opcode} (h : op ∈ plain) : op.mnemonic = op.stem := by
  have all : ∀ op ∈ plain, op.mnemonic = op.stem := by decide
  exact all op h

theorem plus_not_mem_mnemonic (op : Opcode) : '+' ∉ op.mnemonic.toList := fun h =>
  absurd (isAlphanum_mnemonic op '+' h) (by decide)

/-- A number behind the stem shows that the opcode is in a family. -/
theorem family_of_mnemonic {op : Opcode} {number : List Char} (hne : number ≠ [])
    (h : op.mnemonic.toList = op.stem.toList ++ number) :
    ∃ n : UInt8, (op = push n ∨ op = dup n ∨ op = swap n) ∧ number = (decimal n.toNat).toList := by
  cases op with
  | push n =>
    exact ⟨n, Or.inl rfl, (List.append_cancel_left (String.toList_append.symm.trans h)).symm⟩
  | dup n =>
    exact ⟨n, Or.inr (Or.inl rfl),
      (List.append_cancel_left (String.toList_append.symm.trans h)).symm⟩
  | swap n =>
    exact ⟨n, Or.inr (Or.inr rfl),
      (List.append_cancel_left (String.toList_append.symm.trans h)).symm⟩
  | _ => exact absurd (List.append_cancel_left ((List.append_nil _).trans h)).symm hne

/-! ## What is accepted -/

theorem ofMnemonic?_of_spelled {name : String} {op : Opcode} (h : Spelled name op) :
    ofMnemonic? name = some op := by
  obtain ⟨hop, hname⟩ := h
  rw [ofMnemonic?_congr hname]
  exact ofMnemonic?_mnemonic (inUse_iff.mpr hop)

theorem unsigned?_plus {bound n : Nat} (h : n < bound) (zeros : Nat) :
    unsigned? bound ('+' :: (List.replicate zeros '0' ++ (decimal n).toList)) = some n := by
  have hread : decimal? (List.replicate zeros '0' ++ (decimal n).toList) = some n :=
    decimal?_eq_some_iff.mpr ⟨zeros, rfl⟩
  unfold unsigned?
  simp only [hread]
  rw [Option.filter_some, if_pos (by simpa using h)]

theorem member?_plus {stem : String} {build : UInt8 → Option Opcode} (n : UInt8) (zeros : Nat) :
    member? stem build
      (stem.toList ++ '+' :: (List.replicate zeros '0' ++ (decimal n.toNat).toList)) =
      build n := by
  unfold member?
  rw [List.isPrefixOf?_eq_some_iff_append_eq.mpr rfl, Option.bind_some, if_neg (by simp),
    unsigned?_plus n.toNat_lt, Option.bind_some, UInt8.ofNat_toNat]

theorem find?_plain_of_plus {name : List Char} (h : '+' ∈ name) :
    plain.find? (fun op => op.stem.toList = name) = none := by
  rw [List.find?_eq_none]
  intro op _ hstem
  rw [← of_decide_eq_true hstem] at h
  exact absurd (isAlpha_stem op '+' h) (by decide)

theorem ofMnemonic?_of_signed {name : String} {op : Opcode} (h : Signed name op) :
    ofMnemonic? name = some op := by
  obtain ⟨hop, number, zeros, hne, hmnemonic, hname⟩ := h
  obtain ⟨n, hfamily, rfl⟩ := family_of_mnemonic hne hmnemonic
  have hplus : '+' ∈ Text.upper name := by
    rw [hname]
    simp
  have huse := inUse_iff.mpr hop
  show (plain.find? (fun op => op.stem.toList = Text.upper name) <|> _ <|> _ <|> _) = some op
  rw [find?_plain_of_plus hplus, hname]
  -- The stems of the families begin with letters of their own, so that at most one reads the name.
  rcases hfamily with rfl | rfl | rfl
  · have hbuild : push? n = some (push n) := if_pos (inUse_push.mp huse)
    rw [stem, member?_plus, hbuild]
    rfl
  · have hbuild : dup? n = some (dup n) := if_pos (inUse_dup.mp huse)
    rw [stem, member?_plus, hbuild]
    rfl
  · have hbuild : swap? n = some (swap n) := if_pos (inUse_swap.mp huse)
    rw [stem, member?_plus, hbuild]
    rfl

/-! ## What else is not -/

/-- The number of a family member that is accepted has no zero in front, or it has a sign. -/
theorem number_of_unsigned? {digits : List Char} {n : Nat} (hzero : digits.head? ≠ some '0')
    (h : unsigned? 256 digits = some n) :
    n < 256 ∧ (digits = (decimal n).toList ∨
      ∃ zeros, digits = '+' :: (List.replicate zeros '0' ++ (decimal n).toList)) := by
  unfold unsigned? at h
  obtain ⟨hread, hlt⟩ := Option.filter_eq_some_iff.mp h
  refine ⟨by simpa using hlt, ?_⟩
  split at hread
  · obtain ⟨zeros, hrest⟩ := decimal?_eq_some_iff.mp hread
    exact Or.inr ⟨zeros, by rw [hrest]⟩
  · obtain ⟨zeros, rfl⟩ := decimal?_eq_some_iff.mp hread
    cases zeros with
    | zero => exact Or.inl rfl
    | succ zeros => exact absurd rfl hzero

theorem spelled_or_signed {name : String} {op : Opcode} (h : ofMnemonic? name = some op) :
    Spelled name op ∨ Signed name op := by
  obtain ⟨huse, ⟨hplain, hname⟩ | ⟨digits, n, hfamily, hname, hzero, hdigits⟩⟩ :=
    ofMnemonic?_eq_some h
  · refine Or.inl ⟨inUse_iff.mp huse, ?_⟩
    rw [hname, upper_mnemonic huse, mnemonic_of_mem_plain hplain]
  · obtain ⟨hlt, hnumber⟩ := number_of_unsigned? hzero hdigits
    have hmnemonic : op.mnemonic.toList = op.stem.toList ++ (decimal n).toList := by
      have hbyte : (UInt8.ofNat n).toNat = n := Nat.mod_eq_of_lt hlt
      rcases hfamily with rfl | rfl | rfl <;> rw [mnemonic, hbyte, String.toList_append, stem]
    rcases hnumber with rfl | ⟨zeros, rfl⟩
    · refine Or.inl ⟨inUse_iff.mp huse, ?_⟩
      rw [hname, upper_mnemonic huse, hmnemonic]
    · refine Or.inr ⟨inUse_iff.mp huse, (decimal n).toList, zeros, ?_, hmnemonic, hname⟩
      rw [decimal, String.toList_ofList]
      exact Nat.toDigits_ne_nil

theorem ofMnemonic?_eq_some_iff {name : String} {op : Opcode} :
    ofMnemonic? name = some op ↔ Spelled name op ∨ Signed name op :=
  ⟨spelled_or_signed, fun h => h.elim ofMnemonic?_of_spelled ofMnemonic?_of_signed⟩

/-- A mnemonic has no sign in it. -/
theorem not_signed_of_spelled {name : String} {op op' : Opcode} (h : Spelled name op) :
    ¬ Signed name op' := by
  rintro ⟨-, number, zeros, -, -, hname⟩
  refine plus_not_mem_mnemonic op ?_
  rw [← upper_mnemonic (inUse_iff.mpr h.1), ← h.2, hname]
  simp

theorem ofMnemonic_eq_ok_iff {name : String} {op : Opcode} :
    ofMnemonic name = .ok op ↔ ofMnemonic? name = some op := by
  unfold ofMnemonic
  cases ofMnemonic? name <;> simp

theorem ofMnemonic_eq_error_iff {name : String} {e : Error} :
    ofMnemonic name = .error e ↔ ofMnemonic? name = none ∧ e = .statement (.unknownName name) := by
  unfold ofMnemonic
  cases ofMnemonic? name <;> simp [eq_comm]

/-- **The names of opcodes**: a name is accepted exactly if it is the mnemonic of an opcode that
some byte decodes to, but for the case of letters, or if it has a sign in front of the number. No
name is of both kinds. Every other name is refused, and is shown as it is written. -/
theorem ofMnemonic_accepts (name : String) :
    (∀ op, ofMnemonic name = .ok op ↔ Spelled name op ∨ Signed name op) ∧
      (∀ op op', ¬ (Spelled name op ∧ Signed name op')) ∧
      (ofMnemonic name = .error (.statement (.unknownName name)) ↔
        ∀ op, ¬ Spelled name op ∧ ¬ Signed name op) := by
  refine ⟨fun op => ?_, fun op op' h => not_signed_of_spelled h.1 h.2, ?_⟩
  · rw [ofMnemonic_eq_ok_iff, ofMnemonic?_eq_some_iff]
  · rw [ofMnemonic_eq_error_iff, Option.eq_none_iff_forall_not_mem]
    simp only [Option.mem_def, ofMnemonic?_eq_some_iff, not_or, and_true]

/-- A name with a plus stands for an opcode, although it is not the mnemonic of any. -/
theorem not_spelled : ¬ ∀ (name : String) (op : Opcode),
    ofMnemonic name = .ok op ↔ Spelled name op := by
  intro h
  have haccepted : ofMnemonic "PUSH+5" = .ok (push 5) := rfl
  obtain ⟨-, hname⟩ := (h "PUSH+5" (push 5)).mp haccepted
  exact absurd hname (by decide)

end WordStack.Opcode
