import WordStack.Proofs.Opcode
import WordStack.Proofs.Word
import WordStack.Source.Statement

/-! # What is wrong with a statement

A cause says something about the words of a statement: that the name is none, that there are too
many operands or too few, that the operand is no literal, or that it is too wide. If it is so, the
cause *holds* of the words (`Cause.Holds`). It blames the word with the index `Cause.blamed`, which
is zero for the name.

* `statement_cases`: a statement is read, or refused for a cause that holds.
* `statement_error_iff`: it is refused for a cause exactly if the cause holds of its words, and the
  column is that of the word to blame. So no two causes hold of the same words. -/

namespace WordStack.Source

/-- How many operands the instruction of this name takes, if there is one: a push takes one. -/
def arity? (name : String) : Option Nat :=
  if Text.upper name = "PUSH".toList then some 1
  else (Opcode.ofMnemonic? name).map fun opcode => if opcode.width = 0 then 0 else 1

/-- **The words of a statement are as the cause says.** -/
inductive Cause.Holds (name : String) (operands : List String) : Cause → Prop where
  | unknownName (hname : arity? name = none) : Holds name operands (.unknownName name)
  | operandCount {expected : Nat} (hname : arity? name = some expected)
    (hcount : operands.length ≠ expected) :
    Holds name operands (.operandCount name expected operands.length)
  | notLiteral {token : String} (hname : arity? name = some 1) (hoperand : operands = [token])
    (hliteral : Word.ofLiteral? token = none) : Holds name operands (.notLiteral token)
  | tooWide {n : UInt8} {token : String} {word : Word}
    (hname : Opcode.ofMnemonic? name = some (.push n)) (hoperand : operands = [token])
    (hliteral : Word.ofLiteral? token = some word) (hwide : n.toNat < word.byteLength) :
    Holds name operands (.tooWide name n.toNat word.byteLength)

/-- **The index of the word to blame**: of too many operands the first that is too many, of too few
the name. -/
def Cause.blamed : Cause → Nat
  | .unknownName _ => 0
  | .operandCount _ expected actual => if actual < expected then 0 else expected + 1
  | .notLiteral _ => 1
  | .tooWide _ _ _ => 1

/-! ## Names -/

theorem arity?_bare {name : String} (h : Text.upper name = "PUSH".toList) : arity? name = some 1 :=
  if_pos h

theorem arity?_unknown {name : String} (hname : Text.upper name ≠ "PUSH".toList)
    (h : Opcode.ofMnemonic? name = none) : arity? name = none := by
  rw [arity?, if_neg hname, h, Option.map_none]

theorem arity?_push {name : String} {n : UInt8} (h : Opcode.ofMnemonic? name = some (.push n)) :
    arity? name = some 1 := by
  have hpos := Opcode.width_pos (Opcode.ofMnemonic?_eq_some h).1
  rw [arity?, if_neg (Opcode.upper_ne_of_ofMnemonic? h), h, Option.map_some, if_neg (by omega)]

theorem arity?_plain {name : String} {op : Opcode} (h : Opcode.ofMnemonic? name = some op)
    (hop : ∀ n, op ≠ .push n) : arity? name = some 0 := by
  have hwidth : op.width = 0 := by
    cases op with
    | push n => exact absurd rfl (hop n)
    | _ => rfl
  rw [arity?, if_neg (Opcode.upper_ne_of_ofMnemonic? h), h, Option.map_some, if_pos hwidth]

theorem name_cases (name : String) :
    Text.upper name = "PUSH".toList ∧ arity? name = some 1 ∨
      Text.upper name ≠ "PUSH".toList ∧ Opcode.ofMnemonic? name = none ∧ arity? name = none ∨
      (∃ n, Opcode.ofMnemonic? name = some (.push n) ∧ arity? name = some 1) ∨
      ∃ op, Opcode.ofMnemonic? name = some op ∧ (∀ n, op ≠ .push n) ∧ arity? name = some 0 := by
  by_cases hname : Text.upper name = "PUSH".toList
  · exact Or.inl ⟨hname, arity?_bare hname⟩
  · refine Or.inr ?_
    cases hop : Opcode.ofMnemonic? name with
    | none => exact Or.inl ⟨hname, rfl, arity?_unknown hname hop⟩
    | some op =>
      refine Or.inr ?_
      by_cases hpush : ∃ n, op = .push n
      · obtain ⟨n, rfl⟩ := hpush
        exact Or.inl ⟨n, rfl, arity?_push hop⟩
      · have hplain : ∀ n, op ≠ .push n := fun n hn => hpush ⟨n, hn⟩
        exact Or.inr ⟨op, rfl, hplain, arity?_plain hop hplain⟩

section

variable {name : Token} {operands : List Token} {cause : Cause}

theorem statement_bare (h : Text.upper name.text = "PUSH".toList) :
    statement name operands = (literal name operands).map fun p => .pushWord p.2 := if_pos h

theorem statement_unknown (hname : Text.upper name.text ≠ "PUSH".toList)
    (h : Opcode.ofMnemonic? name.text = none) :
    statement name operands = .error ⟨name.column, .unknownName name.text⟩ := by
  rw [statement, if_neg hname, h]

theorem statement_push {n : UInt8} (h : Opcode.ofMnemonic? name.text = some (.push n)) :
    statement name operands = (literal name operands).bind fun p =>
      if p.2.byteLength ≤ n.toNat then .ok ⟨.push n, bigEndian n.toNat p.2.toNat⟩
      else .error ⟨p.1.column, .tooWide name.text n.toNat p.2.byteLength⟩ := by
  have hwidth : n.toNat ≤ Word.size := (Opcode.inUse_push.mp (Opcode.ofMnemonic?_eq_some h).1).2
  rw [statement, if_neg (Opcode.upper_ne_of_ofMnemonic? h), h]
  simp only [Word.lastBytes_eq hwidth]

theorem statement_plain {op : Opcode} (h : Opcode.ofMnemonic? name.text = some op)
    (hop : ∀ n, op ≠ .push n) :
    statement name operands =
      if operands = [] then .ok ⟨op, []⟩ else .error (miscounted name operands 0) := by
  rw [statement, if_neg (Opcode.upper_ne_of_ofMnemonic? h), h]
  cases op with
  | push n => exact absurd rfl (hop n)
  | _ => rfl

/-! ## Statements that are refused -/

/-- The blame for a cause, put on the word that the cause names. -/
def Cause.blameOn (cause : Cause) (name : Token) (operands : List Token) : Blame :=
  { column := ((name :: operands)[cause.blamed]?.getD name).column, cause }

theorem miscounted_eq (expected : Nat) :
    miscounted name operands expected =
      (Cause.operandCount name.text expected operands.length).blameOn name operands := by
  unfold miscounted Cause.blameOn
  rw [Cause.blamed]
  split
  · rename_i hlt
    rw [List.getElem?_eq_none (Nat.le_of_lt hlt)]
    rfl
  · rw [List.getElem?_cons_succ]

theorem literal_of_length_ne (h : operands.length ≠ 1) :
    literal name operands =
      .error ((Cause.operandCount name.text 1 operands.length).blameOn name operands) := by
  rw [← miscounted_eq]
  match operands with
  | [] => rfl
  | [_] => exact absurd rfl h
  | _ :: _ :: _ => rfl

theorem literal_of_none {operand : Token} (h : Word.ofLiteral? operand.text = none) :
    literal name [operand] = .error ((Cause.notLiteral operand.text).blameOn name [operand]) := by
  simp only [literal, h]
  rfl

theorem literal_of_some {operand : Token} {word : Word}
    (h : Word.ofLiteral? operand.text = some word) :
    literal name [operand] = .ok (operand, word) := by
  simp only [literal, h]

theorem literal_cases (operands : List Token) (ha : arity? name.text = some 1) :
    (∃ operand word, operands = [operand] ∧ Word.ofLiteral? operand.text = some word ∧
      literal name operands = .ok (operand, word)) ∨
      ∃ cause : Cause, cause.Holds name.text (operands.map (·.text)) ∧
        literal name operands = .error (cause.blameOn name operands) := by
  by_cases hlen : operands.length = 1
  · obtain ⟨operand, rfl⟩ := List.length_eq_one_iff.mp hlen
    cases hw : Word.ofLiteral? operand.text with
    | some word => exact Or.inl ⟨operand, word, rfl, hw, literal_of_some hw⟩
    | none => exact Or.inr ⟨_, .notLiteral ha rfl hw, literal_of_none hw⟩
  · refine Or.inr ⟨_, ?_, literal_of_length_ne hlen⟩
    rw [← List.length_map (·.text)] at hlen ⊢
    exact .operandCount ha hlen

/-- **A statement is read, or refused for a cause that holds.** -/
theorem statement_cases (name : Token) (operands : List Token) :
    (∃ i, statement name operands = .ok i) ∨
      ∃ cause : Cause, cause.Holds name.text (operands.map (·.text)) ∧
        statement name operands = .error (cause.blameOn name operands) := by
  rcases name_cases name.text with ⟨hname, ha⟩ | ⟨hname, hop, ha⟩ | ⟨n, hop, ha⟩ |
    ⟨op, hop, hplain, ha⟩
  · rw [statement_bare hname]
    rcases literal_cases operands ha with ⟨operand, word, -, -, hl⟩ | ⟨cause, hc, hl⟩
    · exact Or.inl ⟨_, by rw [hl]; rfl⟩
    · exact Or.inr ⟨cause, hc, by rw [hl]; rfl⟩
  · exact Or.inr ⟨_, .unknownName ha, statement_unknown hname hop⟩
  · rw [statement_push hop]
    rcases literal_cases operands ha with ⟨operand, word, rfl, hw, hl⟩ |
      ⟨cause, hc, hl⟩
    · rw [hl, Except.bind]
      split
      · exact Or.inl ⟨_, rfl⟩
      · rename_i hwide
        exact Or.inr ⟨_, .tooWide hop rfl hw (Nat.lt_of_not_le hwide), rfl⟩
    · exact Or.inr ⟨cause, hc, by rw [hl]; rfl⟩
  · rw [statement_plain hop hplain]
    split
    · exact Or.inl ⟨_, rfl⟩
    · rename_i hne
      have hlen : operands.length ≠ 0 := fun h0 => hne (List.length_eq_zero_iff.mp h0)
      refine Or.inr ⟨_, ?_, congrArg Except.error (miscounted_eq 0)⟩
      rw [← List.length_map (·.text)] at hlen ⊢
      exact .operandCount ha hlen

/-- **A cause that holds of a statement is reported**, and put on the word that it blames. -/
theorem statement_of_holds (h : cause.Holds name.text (operands.map (·.text))) :
    statement name operands = .error (cause.blameOn name operands) := by
  cases h with
  | unknownName hnone =>
    rcases name_cases name.text with ⟨-, ha⟩ | ⟨hname, hop, -⟩ | ⟨n, -, ha⟩ | ⟨op, -, -, ha⟩
    · exact absurd (hnone.symm.trans ha) (by simp)
    · exact statement_unknown hname hop
    · exact absurd (hnone.symm.trans ha) (by simp)
    · exact absurd (hnone.symm.trans ha) (by simp)
  | operandCount hsome hne =>
    rw [List.length_map] at hne ⊢
    rcases name_cases name.text with ⟨hname, ha⟩ | ⟨-, -, ha⟩ | ⟨n, hop, ha⟩ | ⟨op, hop, hplain, ha⟩
    · obtain rfl := Option.some.inj (hsome.symm.trans ha)
      rw [statement_bare hname, literal_of_length_ne hne]
      rfl
    · exact absurd (hsome.symm.trans ha) (by simp)
    · obtain rfl := Option.some.inj (hsome.symm.trans ha)
      rw [statement_push hop, literal_of_length_ne hne]
      rfl
    · obtain rfl := Option.some.inj (hsome.symm.trans ha)
      rw [statement_plain hop hplain, if_neg fun hnil => hne (by rw [hnil]; rfl), miscounted_eq]
  | notLiteral hsome hoperand hw =>
    obtain ⟨operand, rfl, rfl⟩ := List.map_eq_singleton_iff.mp hoperand
    rcases name_cases name.text with ⟨hname, -⟩ | ⟨-, -, ha⟩ | ⟨n, hop, -⟩ | ⟨op, -, -, ha⟩
    · rw [statement_bare hname, literal_of_none hw]
      rfl
    · exact absurd (hsome.symm.trans ha) (by simp)
    · rw [statement_push hop, literal_of_none hw]
      rfl
    · exact absurd (hsome.symm.trans ha) (by simp)
  | tooWide hop hoperand hw hwide =>
    obtain ⟨operand, rfl, rfl⟩ := List.map_eq_singleton_iff.mp hoperand
    rw [statement_push hop, literal_of_some hw, Except.bind, if_neg (Nat.not_le_of_lt hwide)]
    rfl

/-- **A statement is refused for a cause exactly if the cause holds of its words**, and the column
is that of the word to blame. -/
theorem statement_error_iff {blame : Blame} :
    statement name operands = .error blame ↔
      blame.cause.Holds name.text (operands.map (·.text)) ∧
        blame = blame.cause.blameOn name operands := by
  constructor
  · intro h
    rcases statement_cases name operands with ⟨i, hi⟩ | ⟨cause, hc, he⟩
    · rw [hi] at h
      exact absurd h (by simp)
    · obtain rfl := Except.error.inj (h.symm.trans he)
      exact ⟨hc, rfl⟩
  · rintro ⟨hc, he⟩
    rw [statement_of_holds hc, ← he]

theorem Cause.Holds.blamed_lt {name : String} {operands : List String}
    (h : cause.Holds name operands) : cause.blamed < operands.length + 1 := by
  cases h with
  | unknownName _ => exact Nat.succ_pos _
  | operandCount _ hne =>
    rw [blamed]
    split
    · exact Nat.succ_pos _
    · omega
  | notLiteral _ hoperand _ => rw [hoperand]; exact Nat.one_lt_two
  | tooWide _ hoperand _ _ => rw [hoperand]; exact Nat.one_lt_two

end

end WordStack.Source
