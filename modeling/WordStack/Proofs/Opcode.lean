import Mathlib.Data.List.Basic
import WordStack.Proofs.Numeral
import WordStack.Opcode

/-! # Opcodes in use

An opcode is in use if its byte decodes to it (`InUse`): the eight plain opcodes, `PUSH1` to
`PUSH32`, `DUP1` to `DUP16` and `SWAP1` to `SWAP16` (`inUse_push`, `inUse_dup`, `inUse_swap`).

The mnemonic of an opcode in use names it (`ofMnemonic?_mnemonic`), and a name stands for an opcode
only if it is the stem of the opcode and, in a family, the number of the member
(`ofMnemonic?_eq_some`). -/

namespace WordStack.Opcode

/-- **The opcode's byte decodes to it.** -/
def InUse (op : Opcode) : Prop := ofByte? op.toByte = some op

instance (op : Opcode) : Decidable op.InUse := by
  unfold InUse; infer_instance

theorem inUse_of_ofByte? {b : UInt8} {op : Opcode} (h : ofByte? b = some op) : op.InUse := by
  unfold InUse
  rw [toByte_of_ofByte? h]
  exact h

theorem InUse.of_all {p : Opcode → Bool} (h : ∀ n : Fin 256, (ofByte? (.ofFin n)).all p)
    {op : Opcode} (hop : op.InUse) : p op := by
  have hb := h op.toByte.toFin
  rw [UInt8.ofFin_toFin, hop] at hb
  exact hb

/-! ## The families -/

theorem inUse_push {n : UInt8} : (push n).InUse ↔ 1 ≤ n.toNat ∧ n.toNat ≤ 32 := by
  have all : ∀ n : Fin 256, (push (.ofFin n)).InUse ↔ 1 ≤ n.val ∧ n.val ≤ 32 := by decide +kernel
  exact all n.toFin

theorem inUse_dup {n : UInt8} : (dup n).InUse ↔ 1 ≤ n.toNat ∧ n.toNat ≤ 16 := by
  have all : ∀ n : Fin 256, (dup (.ofFin n)).InUse ↔ 1 ≤ n.val ∧ n.val ≤ 16 := by decide +kernel
  exact all n.toFin

theorem inUse_swap {n : UInt8} : (swap n).InUse ↔ 1 ≤ n.toNat ∧ n.toNat ≤ 16 := by
  have all : ∀ n : Fin 256, (swap (.ofFin n)).InUse ↔ 1 ≤ n.val ∧ n.val ≤ 16 := by decide +kernel
  exact all n.toFin

theorem inUse_of_mem_plain {op : Opcode} (h : op ∈ plain) : op.InUse := by
  have all : ∀ op ∈ plain, op.InUse := by decide
  exact all op h

theorem width_le {op : Opcode} (h : op.InUse) : op.width ≤ 32 := by
  cases op with
  | push n => exact (inUse_push.mp h).2
  | _ => exact Nat.zero_le _

theorem width_pos {n : UInt8} (h : (push n).InUse) : 1 ≤ (push n).width := (inUse_push.mp h).1

/-! ## Mnemonics -/

theorem ofMnemonic?_mnemonic {op : Opcode} (h : op.InUse) : ofMnemonic? op.mnemonic = some op :=
  of_decide_eq_true <|
    h.of_all (p := fun op => ofMnemonic? op.mnemonic = some op) (by decide +kernel)

theorem ofMnemonic?_congr {name name' : String} (h : Text.upper name = Text.upper name') :
    ofMnemonic? name = ofMnemonic? name' := by
  unfold ofMnemonic?
  rw [h]

theorem upper_ne_of_ofMnemonic? {name : String} {op : Opcode}
    (h : ofMnemonic? name = some op) : Text.upper name ≠ "PUSH".toList := by
  intro hname
  have hnone : ofMnemonic? name = none := by
    unfold ofMnemonic?
    rw [hname]
    decide
  rw [hnone] at h
  exact absurd h (by simp)

theorem isAlpha_stem (op : Opcode) : ∀ c ∈ op.stem.toList, c.isAlpha := by
  cases op <;> rw [stem] <;> exact List.all_eq_true.mp rfl

theorem stem_ne_nil (op : Opcode) : op.stem.toList ≠ [] := by
  cases op <;> rw [stem] <;> exact List.cons_ne_nil _ _

theorem toList_mnemonic (op : Opcode) :
    ∃ digits, op.mnemonic.toList = op.stem.toList ++ digits ∧ ∀ c ∈ digits, c.isAlphanum := by
  cases op with
  | push n => exact ⟨_, String.toList_append, Numeral.isAlphanum_decimal n.toNat⟩
  | dup n => exact ⟨_, String.toList_append, Numeral.isAlphanum_decimal n.toNat⟩
  | swap n => exact ⟨_, String.toList_append, Numeral.isAlphanum_decimal n.toNat⟩
  | _ => exact ⟨[], (List.append_nil _).symm, by simp⟩

theorem isAlphanum_mnemonic (op : Opcode) : ∀ c ∈ op.mnemonic.toList, c.isAlphanum := by
  intro c hc
  obtain ⟨digits, he, hdigits⟩ := toList_mnemonic op
  rw [he, List.mem_append] at hc
  rcases hc with hc | hc
  · exact Numeral.isAlphanum_iff.mpr (Or.inl (isAlpha_stem op c hc))
  · exact hdigits c hc

theorem mnemonic_ne_nil (op : Opcode) : op.mnemonic.toList ≠ [] := by
  obtain ⟨digits, he, -⟩ := toList_mnemonic op
  rw [he]
  exact List.append_ne_nil_of_left_ne_nil (stem_ne_nil op) digits

/-! ## Names -/

theorem member?_eq_some {stem : String} {build : UInt8 → Option Opcode} (make : UInt8 → Opcode)
    (hb : ∀ n : Fin 256, (build (.ofFin n)).all fun op => op = make (.ofFin n) ∧ op.InUse)
    (hstem : ∀ n, (make n).stem = stem) {name : List Char} {op : Opcode}
    (h : member? stem build name = some op) :
    op.InUse ∧ ∃ digits n, op = make (UInt8.ofNat n) ∧ name = op.stem.toList ++ digits ∧
      digits.head? ≠ some '0' ∧ Numeral.unsigned? 256 digits = some n := by
  unfold member? at h
  rw [Option.bind_eq_some_iff] at h
  obtain ⟨digits, hp, h⟩ := h
  split at h
  · exact absurd h (by simp)
  · rename_i hz
    rw [Option.bind_eq_some_iff] at h
    obtain ⟨n, hn, h⟩ := h
    have hop := hb (UInt8.ofNat n).toFin
    rw [UInt8.ofFin_toFin, h, Option.all_some, decide_eq_true_eq] at hop
    refine ⟨hop.2, digits, n, hop.1, ?_, hz, hn⟩
    rw [hop.1, hstem]
    exact (List.isPrefixOf?_eq_some_iff_append_eq.mp hp).symm

/-- **What a name can stand for:** a plain opcode by its stem, or a member of a family by the stem
and its number. -/
theorem ofMnemonic?_eq_some {name : String} {op : Opcode} (h : ofMnemonic? name = some op) :
    op.InUse ∧
      (op ∈ plain ∧ Text.upper name = op.stem.toList ∨
        ∃ digits n, (op = push (UInt8.ofNat n) ∨ op = dup (UInt8.ofNat n) ∨
          op = swap (UInt8.ofNat n)) ∧ Text.upper name = op.stem.toList ++ digits ∧
          digits.head? ≠ some '0' ∧ Numeral.unsigned? 256 digits = some n) := by
  unfold ofMnemonic? at h
  simp only [Option.orElse_eq_orElse, Option.orElse_eq_or, Option.or_eq_some_iff] at h
  rcases h with h | ⟨-, h | ⟨-, h | ⟨-, h⟩⟩⟩
  · have hp : op ∈ plain := List.mem_of_find?_eq_some h
    have hs := List.find?_some h
    exact ⟨inUse_of_mem_plain hp, Or.inl ⟨hp, (of_decide_eq_true hs).symm⟩⟩
  · obtain ⟨hop, digits, n, he, hrest⟩ :=
      member?_eq_some push (by decide +kernel) (fun _ => rfl) h
    exact ⟨hop, Or.inr ⟨digits, n, Or.inl he, hrest⟩⟩
  · obtain ⟨hop, digits, n, he, hrest⟩ :=
      member?_eq_some dup (by decide +kernel) (fun _ => rfl) h
    exact ⟨hop, Or.inr ⟨digits, n, Or.inr (Or.inl he), hrest⟩⟩
  · obtain ⟨hop, digits, n, he, hrest⟩ :=
      member?_eq_some swap (by decide +kernel) (fun _ => rfl) h
    exact ⟨hop, Or.inr ⟨digits, n, Or.inr (Or.inr he), hrest⟩⟩

end WordStack.Opcode
