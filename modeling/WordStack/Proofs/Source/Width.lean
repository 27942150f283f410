import Mathlib.Order.Bounds.Basic
import WordStack.Proofs.Source.Failure
import WordStack.Proofs.Source.Literal
import WordStack.Proofs.Source.Rebuilt

/-! # Pushes of every width

A number needs as many bytes as its width says, the least positive number of bytes that can hold it
(`Word.isLeast_byteLength`). A line with `PUSH` and a literal takes that many (`assemble_bare`), and
one with `PUSHn` takes `n`, or is refused if these are too few (`assemble_wide`). More bytes than
the least are these with zeros in front, so it makes no difference to a run which of the lines that
are accepted has been assembled: each pushes the word of the literal (`assemble_push`). -/

namespace WordStack

/-- **The width of a word** is the least in which it fits. -/
theorem Word.isLeast_byteLength (w : Word) :
    IsLeast {k | 1 ≤ k ∧ w.toNat < 256 ^ k} w.byteLength := by
  have hpos : 1 ≤ w.byteLength := by
    rw [byteLength_eq]
    omega
  exact ⟨⟨hpos, (byteLength_le_iff hpos).mp le_rfl⟩, fun k hk => (byteLength_le_iff hk.1).mpr hk.2⟩

theorem Opcode.toByte_push (n : UInt8) : (push n).toByte = UInt8.ofNat (0x5f + n.toNat) := by
  have all : ∀ n : Fin 256, (push (.ofFin n)).toByte = UInt8.ofNat (0x5f + n.val) := by
    decide +kernel
  exact all n.toFin

/-- **A run of the code pushes the word**, in one step and on any machine that has room for it and
may take a step. -/
def Bytecode.Pushes (code : Bytecode) (w : Word) : Prop :=
  ∀ m : Machine, m.stack.size < m.stack.capacity → m.config.stepLimit ≠ some 0 →
    ∃ after, m.execute code = .ok () after ∧ after.stack.toList = w :: m.stack.toList ∧
      after.steps = 1

theorem Builder.assemble_singleton (i : Instruction) : assemble [i] = i.encode.toArray := by
  apply Array.toList_inj.mp
  rw [toList_assemble, List.flatMap_singleton]

theorem Instruction.pushes {i : Instruction} {k : Nat} {w : Word} (h : i.WellFormed)
    (hcommand : i.command = .push k w.toNat) : (Builder.assemble [i]).Pushes w := by
  intro m hroom hlimit
  have hcode : (m.load (Builder.assemble [i])).remaining = [i].flatMap Instruction.encode :=
    List.drop_zero.trans (Builder.toList_assemble [i])
  have hallowed : m.config.stepLimit.filter (· ≤ 0) = none := by
    rw [Option.filter_eq_none_iff]
    rintro limit hsome hle
    obtain rfl : limit = 0 := by simpa using hle
    exact hlimit hsome
  have hact : (Source.Command.push k w.toNat).act m.stack.capacity
      (m.stack.toList.map BitVec.toNat) = .ok (w.toNat :: m.stack.toList.map BitVec.toNat) := by
    refine if_pos ?_
    rw [List.length_map, Stack.length_toList]
    exact hroom
  have hrun : Machine.outcome (m.execute (Builder.assemble [i])) =
      ⟨none, (w :: m.stack.toList).map BitVec.toNat, 1⟩ := by
    rw [Machine.execute, Machine.outcome_run [i] _ (by simpa using h) hcode hroom.le,
      List.map_singleton, hcommand]
    exact Source.interpret_ok hallowed hact (by simp)
  exact Machine.ok_of_outcome hrun

namespace Source

/-- The line with a name and an operand. -/
def lineOf (name operand : String) : String := name ++ " " ++ operand

/-- The name of the push of so many bytes. -/
def pushName (n : Nat) : String := "PUSH" ++ Numeral.decimal n

section

variable {operand : String} {w : Word}

theorem toList_lineOf (name : String) :
    (lineOf name operand).toList = name.toList ++ ' ' :: operand.toList := by
  rw [lineOf, String.toList_append, String.toList_append, List.append_assoc]
  rfl

/-- **A line with a name and a literal** has these two words and no newline. -/
theorem words_lineOf {name : String} (hname : name.toList ≠ [])
    (hall : ∀ c ∈ name.toList, c.isAlphanum) (h : Word.ofLiteral? operand = some w) :
    words (lineOf name operand).toList = [name.toList, operand.toList] ∧
      '\n' ∉ (lineOf name operand).toList := by
  have hspells := Word.ofLiteral?_eq_some_iff.mp h
  have hoperand := isAlphanum_of_spells hspells
  rw [toList_lineOf]
  exact ⟨words_pair hname hall (ne_nil_of_spells hspells) hoperand,
    fun hmem => absurd (mem_pair hall hoperand hmem) (by decide)⟩

theorem assemble_bare (h : Word.ofLiteral? operand = some w) :
    assemble (lineOf "PUSH" operand) = .ok (Builder.assemble [.pushWord w]) := by
  obtain ⟨hwords, hnewline⟩ := words_lineOf (by decide) isAlphanum_push h
  have hcode := assemble_line_ok hnewline (instructionsOf_bare hwords h)
  rwa [String.ofList_toList] at hcode

/-- **A push of a literal with its number of bytes** needs enough of them. -/
theorem assemble_wide {n : UInt8} (hn : (Opcode.push n).InUse)
    (h : Word.ofLiteral? operand = some w) :
    (w.byteLength ≤ n.toNat → assemble (lineOf (Opcode.push n).mnemonic operand) =
      .ok (Builder.assemble [⟨.push n, bigEndian n.toNat w.toNat⟩])) ∧
    (n.toNat < w.byteLength → ∃ column, assemble (lineOf (Opcode.push n).mnemonic operand) =
      .error ⟨1, column, .tooWide (Opcode.push n).mnemonic n.toNat w.byteLength⟩) := by
  generalize hname : (Opcode.push n).mnemonic = name
  have hop : Opcode.ofMnemonic? name = some (.push n) := hname ▸ Opcode.ofMnemonic?_mnemonic hn
  obtain ⟨hwords, hnewline⟩ := words_lineOf
    (hname ▸ Opcode.mnemonic_ne_nil _) (hname ▸ Opcode.isAlphanum_mnemonic _) h
  obtain ⟨nameColumn, column, hline⟩ := instructionsOf_pair hwords
  have hliteral : literal ⟨name, nameColumn⟩ [⟨operand, column⟩] = .ok (⟨operand, column⟩, w) :=
    literal_of_some h
  have hstatement : statement ⟨name, nameColumn⟩ [⟨operand, column⟩] = _ := statement_push hop
  rw [hstatement, hliteral, Except.bind] at hline
  refine ⟨fun hfits => ?_, fun hwide => ⟨column, ?_⟩⟩
  · rw [if_pos hfits] at hline
    have hcode := assemble_line_ok hnewline hline
    rwa [String.ofList_toList] at hcode
  · rw [if_neg (Nat.not_le.mpr hwide)] at hline
    have hcode := assemble_line_error hnewline hline
    rwa [String.ofList_toList] at hcode

/-- **The bare push is the narrowest of the pushes that are accepted.** Its operand is the bytes of
the literal's value, in the least width that this has. A push of as many bytes or more is accepted
too and has zeros in front of them; one of fewer bytes is refused, and the message tells both
widths. All that are accepted push the same word. -/
theorem assemble_push {k : Nat} (h : Word.ofLiteral? operand = some w)
    (hk : IsLeast {k | 1 ≤ k ∧ w.toNat < 256 ^ k} k) :
    ∃ bytes : List UInt8, bytes.length = k ∧ bytesValue bytes = w.toNat ∧
      (∃ code : Bytecode, code.toList = UInt8.ofNat (0x5f + k) :: bytes ∧ code.Pushes w ∧
        assemble (lineOf "PUSH" operand) = .ok code) ∧
      ∀ n, 1 ≤ n → n ≤ 32 →
        ((∃ code, assemble (lineOf (pushName n) operand) = .ok code) ↔ k ≤ n) ∧
        (k ≤ n → ∃ code : Bytecode,
          code.toList = UInt8.ofNat (0x5f + n) :: (List.replicate (n - k) 0 ++ bytes) ∧
            code.Pushes w ∧ assemble (lineOf (pushName n) operand) = .ok code) ∧
        (n < k → ∃ e, assemble (lineOf (pushName n) operand) = .error e ∧
          e.cause = .tooWide (pushName n) n k ∧
          e.cause.message = pushName n ++ " operand needs " ++ Numeral.decimal k ++
            " bytes but the instruction holds " ++ Numeral.decimal n) := by
  obtain rfl : w.byteLength = k := w.isLeast_byteLength.unique hk
  have hfits := hk.1.2
  have hbyte : ∀ {n : Nat}, n ≤ 32 → (UInt8.ofNat n).toNat = n := fun hn =>
    Nat.mod_eq_of_lt (by omega)
  refine ⟨bigEndian w.byteLength w.toNat, length_bigEndian _ _, ?_, ?_, fun n h1 h32 => ?_⟩
  · rw [bytesValue_bigEndian, Nat.mod_eq_of_lt hfits]
  · obtain ⟨hwf, hcommand⟩ := wellFormed_pushWord w
    refine ⟨_, ?_, Instruction.pushes hwf hcommand, assemble_bare h⟩
    rw [Builder.assemble_singleton, Instruction.encode, pushWord_eq, Opcode.toByte_push,
      hbyte w.byteLength_le]
  · have huse : (Opcode.push (UInt8.ofNat n)).InUse := by
      rw [Opcode.inUse_push, hbyte h32]
      exact ⟨h1, h32⟩
    obtain ⟨hnarrow, hwide⟩ := assemble_wide huse h
    have hmnemonic : (Opcode.push (UInt8.ofNat n)).mnemonic = pushName n := by
      rw [Opcode.mnemonic, hbyte h32, pushName]
    rw [hmnemonic, hbyte h32] at hnarrow hwide
    refine ⟨⟨?_, fun hle => ⟨_, hnarrow hle⟩⟩, fun hle => ?_, fun hlt => ?_⟩
    · rintro ⟨code, hcode⟩
      by_contra hlt
      obtain ⟨column, herror⟩ := hwide (Nat.not_le.mp hlt)
      rw [hcode] at herror
      exact absurd herror (by simp)
    · obtain ⟨hwf, hcommand⟩ := wellFormed_push huse (by rwa [hbyte h32])
      rw [hbyte h32] at hwf hcommand
      refine ⟨_, ?_, Instruction.pushes hwf hcommand, hnarrow hle⟩
      rw [Builder.assemble_singleton, Instruction.encode, Opcode.toByte_push, hbyte h32,
        bigEndian_of_lt hfits hle]
    · obtain ⟨column, herror⟩ := hwide hlt
      exact ⟨_, herror, rfl, rfl⟩

end

/-- Two bytes are needed: one is refused, and four begin with two zeros. -/
theorem assemble_push_pair :
    Word.ofLiteral? "0x0102" = some 0x0102 ∧
      IsLeast {k | 1 ≤ k ∧ (0x0102 : Word).toNat < 256 ^ k} 2 ∧
      assemble "PUSH 0x0102" = .ok #[0x61, 1, 2] ∧
      assemble "PUSH4 0x0102" = .ok #[0x63, 0, 0, 1, 2] ∧
      ∃ e, assemble "PUSH1 0x0102" = .error e ∧
        e.cause = .tooWide "PUSH1" 1 2 ∧
        e.cause.message = "PUSH1 operand needs 2 bytes but the instruction holds 1" := by
  have hliteral : Word.ofLiteral? "0x0102" = some 0x0102 := by decide +kernel
  have hleast : IsLeast {k | 1 ≤ k ∧ (0x0102 : Word).toNat < 256 ^ k} 2 := by
    refine ⟨by decide, fun k hk => ?_⟩
    by_contra hlt
    obtain rfl : k = 1 := by
      have := hk.1
      omega
    exact absurd hk.2 (by decide)
  obtain ⟨bytes, hlen, hvalue, ⟨bare, hbare, -, hline⟩, hall⟩ := assemble_push hliteral hleast
  obtain rfl : bytes = [1, 2] := eq_of_bytesValue hlen hvalue
  obtain ⟨-, hwide, -⟩ := hall 4 (by decide) (by decide)
  obtain ⟨wide, hwide, -, hline'⟩ := hwide (by decide)
  obtain ⟨-, -, hnarrow⟩ := hall 1 (by decide) (by decide)
  obtain rfl : bare = #[0x61, 1, 2] := Array.toList_inj.mp hbare
  obtain rfl : wide = #[0x63, 0, 0, 1, 2] := Array.toList_inj.mp hwide
  exact ⟨hliteral, hleast, hline, hline', hnarrow (by decide)⟩

end Source

end WordStack
