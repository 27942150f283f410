import WordStack.Proofs.Decode
import WordStack.Proofs.Literal
import WordStack.Proofs.Result
import WordStack.Proofs.Source.Words
import WordStack.Proofs.Stack
import WordStack.Source.Program

/-! # What a source program means

The words of a line are a *command* with numbers for its parts (`command?`), and a source text is
the program of its sentences (`program?`). A command acts on a list of numbers, the top of the stack
first (`Command.act`), and a program acts line after line (`interpret`), with no code in between.

Here no rule of the assembler is used to say what a line means. The instruction of a line has a
meaning too (`Instruction.command`), and it is the same (`statement_ok`), so that the instructions
of a source text mean its program (`instructions_ok`). -/

namespace WordStack

open Numeral

namespace Source

/-- **A line of a program**, as it is meant. A push also says how many bytes its value is given. -/
inductive Command where
  | stop
  | add
  | sub
  | lt
  | gt
  | eq
  | isZero
  | pop
  | push (width value : Nat)
  | dup (place : Nat)
  | swap (distance : Nat)
  deriving DecidableEq

/-- The number in a name. -/
def number (name : List Char) : Nat := value 10 (name.filter Char.isDigit)

/-- **The command in the words of a line.** -/
def command? : List (List Char) → Option Command
  | [] => none
  | name :: operands =>
    let name := name.map Char.toUpper
    match String.ofList (name.takeWhile Char.isAlpha), operands with
    | "STOP", [] => some .stop
    | "ADD", [] => some .add
    | "SUB", [] => some .sub
    | "LT", [] => some .lt
    | "GT", [] => some .gt
    | "EQ", [] => some .eq
    | "ISZERO", [] => some .isZero
    | "POP", [] => some .pop
    | "PUSH", [literal] =>
      let value := Word.literalValue literal
      -- Without a number the value is given as few bytes as it needs.
      let width := if name = "PUSH".toList then Nat.log 256 value + 1 else number name
      some (.push width value)
    | "DUP", [] => some (.dup (number name))
    | "SWAP", [] => some (.swap (number name))
    | _, _ => none

/-- **The program of a source text**, one command for each line that is not blank. -/
def program? (source : String) : Option (List Command) := (sentences source).mapM command?

/-- How many bytes a command takes in code. -/
def Command.length : Command → Nat
  | .push width _ => 1 + width
  | _ => 1

/-- **What a command does** to a stack of numbers below `2 ^ 256`. A fault tells what is left: of
too few words, nothing. -/
def Command.act (capacity : Nat) : Command → List Nat → Except (Fault × List Nat) (List Nat)
  | .stop, s => .ok s
  | .add, a :: b :: s => .ok ((a + b) % 2 ^ 256 :: s)
  | .sub, a :: b :: s => .ok ((((a : Int) - b) % 2 ^ 256).toNat :: s)
  | .lt, a :: b :: s => .ok ((if a < b then 1 else 0) :: s)
  | .gt, a :: b :: s => .ok ((if a > b then 1 else 0) :: s)
  | .eq, a :: b :: s => .ok ((if a = b then 1 else 0) :: s)
  | .isZero, a :: s => .ok ((if a = 0 then 1 else 0) :: s)
  | .pop, _ :: s => .ok s
  | .push _ v, s =>
    if s.length < capacity then .ok (v :: s) else .error (.stackOverflow capacity, s)
  | .dup place, s =>
    match s[place - 1]? with
    | none => .error (.indexOutOfRange (place - 1) s.length, s)
    | some v => if s.length < capacity then .ok (v :: s) else .error (.stackOverflow capacity, s)
  | .swap distance, s =>
    if distance < s.length then .ok (Stack.exchange s distance)
    else .error (.indexOutOfRange distance s.length, s)
  | _, _ => .error (.stackUnderflow, [])

/-- How a program ends. -/
structure Outcome where
  fault : Option Fault
  stack : List Nat
  steps : Nat

/-- **A program, line after line**, up to a `STOP`, the end, the first fault or the limit. -/
def interpret (capacity : Nat) (limit : Option Nat) : List Command → List Nat → Nat → Outcome
  | [], stack, steps => ⟨none, stack, steps⟩
  | command :: rest, stack, steps =>
    match limit.filter (· ≤ steps) with
    | some limit => ⟨some (.stepLimitExceeded limit), stack, steps⟩
    | none =>
      match command.act capacity stack with
      | .error (fault, stack) => ⟨some fault, stack, steps⟩
      | .ok stack =>
        if command = .stop then ⟨none, stack, steps + 1⟩
        else interpret capacity limit rest stack (steps + 1)

section

variable {capacity steps : Nat} {limit : Option Nat} {command : Command} {rest : List Command}
  {stack : List Nat}

theorem interpret_limited {reached : Nat} (h : limit.filter (· ≤ steps) = some reached) :
    interpret capacity limit (command :: rest) stack steps =
      ⟨some (.stepLimitExceeded reached), stack, steps⟩ := by
  rw [interpret, h]

theorem interpret_error {fault : Fault} {left : List Nat} (h : limit.filter (· ≤ steps) = none)
    (hact : command.act capacity stack = .error (fault, left)) :
    interpret capacity limit (command :: rest) stack steps = ⟨some fault, left, steps⟩ := by
  rw [interpret, h]
  simp only [hact]

theorem interpret_stop {after : List Nat} (h : limit.filter (· ≤ steps) = none)
    (hact : command.act capacity stack = .ok after) (hstop : command = .stop) :
    interpret capacity limit (command :: rest) stack steps = ⟨none, after, steps + 1⟩ := by
  rw [interpret, h]
  simp only [hact, if_pos hstop]

theorem interpret_ok {after : List Nat} (h : limit.filter (· ≤ steps) = none)
    (hact : command.act capacity stack = .ok after) (hstop : command ≠ .stop) :
    interpret capacity limit (command :: rest) stack steps =
      interpret capacity limit rest after (steps + 1) := by
  rw [interpret, h]
  simp only [hact, if_neg hstop]

end

end Source

open Source

/-- The command that an instruction carries out. -/
def Instruction.command (i : Instruction) : Command :=
  match i.opcode with
  | .stop => .stop
  | .add => .add
  | .sub => .sub
  | .lt => .lt
  | .gt => .gt
  | .eq => .eq
  | .isZero => .isZero
  | .pop => .pop
  | .push n => .push n.toNat (bytesValue i.operand)
  | .dup n => .dup n.toNat
  | .swap n => .swap n.toNat

theorem Instruction.length_command {i : Instruction} (h : i.WellFormed) :
    i.command.length = i.encode.length := by
  rw [length_encode h]
  obtain ⟨op, operand⟩ := i
  cases op <;> rfl

theorem Instruction.length_commands {is : List Instruction} (h : ∀ i ∈ is, i.WellFormed) :
    (is.map Fragment.instruction).map (·.bytes.length) = (is.map command).map Command.length := by
  rw [List.map_map, List.map_map]
  exact List.map_congr_left fun i hi => (length_command (h i hi)).symm

theorem Instruction.command_eq_stop_iff {i : Instruction} :
    i.command = .stop ↔ i.opcode = .stop := by
  obtain ⟨op, operand⟩ := i
  cases op <;> simp [command]

/-- The number in an opcode's name. -/
def Opcode.modifier : Opcode → Nat
  | .push n => n.toNat
  | .dup n => n.toNat
  | .swap n => n.toNat
  | _ => 0

/-! ## Names -/

/-- What follows the stem in a name: a number, behind at most one sign. -/
theorem value_of_unsigned? {bound n : Nat} {cs : List Char} (h : unsigned? bound cs = some n) :
    n < bound ∧ cs ≠ [] ∧ cs.takeWhile Char.isAlpha = [] ∧ number cs = n := by
  have hdigits : ∀ ds, decimal? ds = some n → ds ≠ [] ∧ ds.takeWhile Char.isAlpha = [] ∧
      number ds = n := by
    intro ds hds
    have hvalue := value_of_decimal? hds
    unfold decimal? at hds
    split at hds
    · exact absurd hds (by simp)
    · rename_i hne
      have hall : ∀ c ∈ ds, c.isDigit := fun c hc =>
        isDigit_of_decimalDigit? (isSome_of_readFrom hds c hc)
      obtain ⟨c, rest, rfl⟩ := List.exists_cons_of_ne_nil hne
      have halpha : ¬ c.isAlpha := by
        have hc := isDigit_iff.mp (hall c List.mem_cons_self)
        rw [isAlpha_iff]
        omega
      refine ⟨hne, List.takeWhile_cons_of_neg halpha, ?_⟩
      unfold number
      rw [List.filter_eq_self.mpr hall, ← hvalue]
  unfold unsigned? at h
  obtain ⟨h, hlt⟩ := Option.filter_eq_some_iff.mp h
  refine ⟨by simpa using hlt, ?_⟩
  split at h
  · obtain ⟨-, -, hn⟩ := hdigits _ h
    refine ⟨by simp, List.takeWhile_cons_of_neg (by decide), ?_⟩
    rw [← hn]
    unfold number
    rw [List.filter_cons_of_neg (by decide)]
  · exact hdigits _ h

theorem filter_isDigit_stem (op : Opcode) : op.stem.toList.filter Char.isDigit = [] := by
  cases op <;> rw [Opcode.stem] <;> rfl

theorem takeWhile_stem_append (op : Opcode) {rest : List Char}
    (h : rest.takeWhile Char.isAlpha = []) :
    (op.stem.toList ++ rest).takeWhile Char.isAlpha = op.stem.toList := by
  rw [List.takeWhile_append_of_pos (Opcode.isAlpha_stem op), h, List.append_nil]

theorem number_stem_append (op : Opcode) (rest : List Char) :
    number (op.stem.toList ++ rest) = number rest := by
  unfold number
  rw [List.filter_append, filter_isDigit_stem, List.nil_append]

/-- **A name is its opcode's stem and number**, and names a push without a number only if it is that
word. -/
theorem name_of_ofMnemonic? {name : String} {op : Opcode} (h : Opcode.ofMnemonic? name = some op) :
    (Text.upper name).takeWhile Char.isAlpha = op.stem.toList ∧
      (op.modifier ≠ 0 → number (Text.upper name) = op.modifier) := by
  obtain ⟨-, ⟨hplain, hname⟩ | ⟨digits, n, hop, hname, -, hdigits⟩⟩ := Opcode.ofMnemonic?_eq_some h
  · have hmodifier : ∀ op ∈ Opcode.plain, op.modifier = 0 := by decide
    rw [hname]
    refine ⟨?_, fun hne => absurd (hmodifier op hplain) hne⟩
    have htake := takeWhile_stem_append op List.takeWhile_nil
    rwa [List.append_nil] at htake
  · obtain ⟨hlt, -, hstop, hnumber⟩ := value_of_unsigned? hdigits
    have hmodifier : op.modifier = n := by
      rcases hop with rfl | rfl | rfl <;> exact Nat.mod_eq_of_lt hlt
    rw [hname, takeWhile_stem_append op hstop, number_stem_append, hnumber, hmodifier]
    exact ⟨rfl, fun _ => rfl⟩

/-! ## Statements -/

theorem literal_eq_ok {name : Token} {operands : List Token} {token : Token} {w : Word}
    (h : literal name operands = .ok (token, w)) :
    operands = [token] ∧ w.toNat = Word.literalValue token.text.toList := by
  unfold literal at h
  split at h
  · split at h
    · rename_i hw
      obtain ⟨rfl, rfl⟩ := Prod.mk.inj (Except.ok.inj h)
      exact ⟨rfl, Word.toNat_of_ofLiteral? hw⟩
    · exact absurd h (by simp)
  · exact absurd h (by simp)

theorem command?_plain {name : List Char} {op : Opcode} (hop : op.InUse)
    (hpush : ∀ n, op ≠ .push n)
    (hstem : (name.map Char.toUpper).takeWhile Char.isAlpha = op.stem.toList)
    (hnumber : op.modifier ≠ 0 → number (name.map Char.toUpper) = op.modifier) :
    command? [name] = some (Instruction.command ⟨op, []⟩) := by
  unfold command?
  simp only [hstem, String.ofList_toList]
  cases op with
  | push n => exact absurd rfl (hpush n)
  | dup n =>
    have hpos := (Opcode.inUse_dup.mp hop).1
    rw [hnumber (by rw [Opcode.modifier]; omega)]
    rfl
  | swap n =>
    have hpos := (Opcode.inUse_swap.mp hop).1
    rw [hnumber (by rw [Opcode.modifier]; omega)]
    rfl
  | _ => rfl

theorem command?_push {name literal : List Char}
    (hstem : (name.map Char.toUpper).takeWhile Char.isAlpha = "PUSH".toList) :
    command? [name, literal] = some (.push
      (if name.map Char.toUpper = "PUSH".toList then Nat.log 256 (Word.literalValue literal) + 1
        else number (name.map Char.toUpper)) (Word.literalValue literal)) := by
  unfold command?
  simp only [hstem, String.ofList_toList]

theorem wellFormed_push {width : UInt8} {w : Word} (h : (Opcode.push width).InUse)
    (hfits : w.byteLength ≤ width.toNat) :
    Instruction.WellFormed ⟨.push width, bigEndian width.toNat w.toNat⟩ ∧
      Instruction.command ⟨.push width, bigEndian width.toNat w.toNat⟩ =
        .push width.toNat w.toNat := by
  have hlt := (Word.byteLength_le_iff (Opcode.inUse_push.mp h).1).mp hfits
  refine ⟨⟨h, length_bigEndian _ _⟩, ?_⟩
  show Command.push width.toNat (bytesValue (bigEndian width.toNat w.toNat)) = _
  rw [bytesValue_bigEndian, Nat.mod_eq_of_lt hlt]

/-- The shortest push is named by the number of its bytes. -/
theorem pushWord_eq (w : Word) :
    Instruction.pushWord w =
      ⟨.push (UInt8.ofNat w.byteLength), bigEndian w.byteLength w.toNat⟩ := by
  have hlen : w.minimalBytes.length = w.byteLength := length_bigEndian _ _
  have hname : 1 + UInt8.ofNat (w.byteLength - 1) = UInt8.ofNat w.byteLength := by
    rw [Word.byteLength, Nat.add_sub_cancel, UInt8.add_comm, UInt8.ofNat_add]
    rfl
  rw [Instruction.pushWord, hlen, hname]
  rfl

theorem wellFormed_pushWord (w : Word) :
    (Instruction.pushWord w).WellFormed ∧
      (Instruction.pushWord w).command = .push w.byteLength w.toNat := by
  have hle := Word.byteLength_le w
  have hbyte : (UInt8.ofNat w.byteLength).toNat = w.byteLength :=
    Nat.mod_eq_of_lt (show w.byteLength < 256 by omega)
  have huse : (Opcode.push (UInt8.ofNat w.byteLength)).InUse := by
    rw [Opcode.inUse_push, hbyte]
    exact ⟨by rw [Word.byteLength_eq]; omega, hle⟩
  have h := wellFormed_push huse (le_of_eq hbyte.symm)
  rw [hbyte] at h
  rw [pushWord_eq]
  exact h

theorem pushWord_ok {name literal : List Char} {w : Word}
    (hname : name.map Char.toUpper = "PUSH".toList) (hvalue : w.toNat = Word.literalValue literal) :
    (Instruction.pushWord w).WellFormed ∧
      command? [name, literal] = some (Instruction.pushWord w).command := by
  obtain ⟨hwf, hcommand⟩ := wellFormed_pushWord w
  have hstem : (name.map Char.toUpper).takeWhile Char.isAlpha = "PUSH".toList := by
    rw [hname]
    rfl
  refine ⟨hwf, (command?_push hstem).trans ?_⟩
  rw [if_pos hname, ← hvalue, ← Word.byteLength_eq, hcommand]

theorem push_ok {name : String} {literal : List Char} {width : UInt8} {w : Word}
    (hop : Opcode.ofMnemonic? name = some (.push width))
    (hname : name.toList.map Char.toUpper ≠ "PUSH".toList) (hfits : w.byteLength ≤ width.toNat)
    (hvalue : w.toNat = Word.literalValue literal) :
    Instruction.WellFormed ⟨.push width, bigEndian width.toNat w.toNat⟩ ∧
      command? [name.toList, literal] =
        some (Instruction.command ⟨.push width, bigEndian width.toNat w.toNat⟩) := by
  have huse := (Opcode.ofMnemonic?_eq_some hop).1
  have hpos := (Opcode.inUse_push.mp huse).1
  obtain ⟨hstem, hnumber⟩ := name_of_ofMnemonic? hop
  obtain ⟨hwf, hcommand⟩ := wellFormed_push huse hfits
  have hwidth : number (name.toList.map Char.toUpper) = width.toNat :=
    hnumber (by rw [Opcode.modifier]; omega)
  refine ⟨hwf, (command?_push hstem).trans ?_⟩
  rw [if_neg hname, hwidth, ← hvalue, hcommand]

/-- **The instruction of a statement means what its words say.** -/
theorem statement_ok {name : Token} {operands : List Token} {i : Instruction}
    (h : statement name operands = .ok i) :
    i.WellFormed ∧
      command? (name.text.toList :: operands.map (·.text.toList)) = some i.command := by
  unfold statement at h
  split at h
  · rename_i hname
    obtain ⟨⟨token, w⟩, hl, rfl⟩ := map_eq_ok_iff.mp h
    obtain ⟨rfl, hvalue⟩ := literal_eq_ok hl
    exact pushWord_ok hname hvalue
  · rename_i hname
    split at h
    · exact absurd h (by simp)
    · rename_i width hop
      obtain ⟨⟨token, w⟩, hl, hi⟩ := bind_eq_ok_iff.mp h
      obtain ⟨rfl, hvalue⟩ := literal_eq_ok hl
      simp only at hi
      split at hi
      · rename_i hfits
        have hwidth : width.toNat ≤ Word.size :=
          (Opcode.inUse_push.mp (Opcode.ofMnemonic?_eq_some hop).1).2
        rw [← Except.ok.inj hi, Word.lastBytes_eq hwidth]
        exact push_ok hop hname hfits hvalue
      · exact absurd hi (by simp)
    · rename_i op hpush hop
      have huse := (Opcode.ofMnemonic?_eq_some hop).1
      obtain ⟨hstem, hnumber⟩ := name_of_ofMnemonic? hop
      have hpush : ∀ n, op ≠ .push n := hpush
      have hwidth : op.width = 0 := by
        cases op with
        | push n => exact absurd rfl (hpush n)
        | _ => rfl
      split at h
      · rename_i hnone
        rw [hnone, ← Except.ok.inj h]
        exact ⟨⟨huse, hwidth.symm⟩, command?_plain huse hpush hstem hnumber⟩
      · exact absurd h (by simp)

/-! ## Programs -/

theorem instructionsFrom_ok :
    ∀ (lines : List (List Char)) (line : Nat) (is : List Instruction),
      instructionsFrom line lines = .ok is →
      (∀ i ∈ is, i.WellFormed) ∧
        ((lines.map words).filter (· ≠ [])).mapM command? = some (is.map Instruction.command)
  | [], _, is, h => by
    rw [← Except.ok.inj h]
    exact ⟨by simp, rfl⟩
  | text :: rest, line, is, h => by
    rw [instructionsFrom] at h
    rw [List.map_cons]
    split at h
    · rename_i htokens
      rw [List.filter_cons_of_neg (by simpa using tokens_eq_nil_iff.mp htokens)]
      exact instructionsFrom_ok rest _ is h
    · rename_i name operands htokens
      have hwords := text_tokens text
      rw [htokens, List.map_cons] at hwords
      rw [← hwords, List.filter_cons_of_pos (by simp)]
      split at h
      · exact absurd h (by simp)
      · rename_i i hi
        obtain ⟨hwf, hcommand⟩ := statement_ok hi
        obtain ⟨js, hrest, rfl⟩ := map_eq_ok_iff.mp h
        obtain ⟨hjs, hprogram⟩ := instructionsFrom_ok rest _ js hrest
        refine ⟨fun j hj => ?_, ?_⟩
        · rcases List.mem_cons.mp hj with rfl | hj
          · exact hwf
          · exact hjs j hj
        · rw [List.mapM_cons, hcommand, hprogram]
          rfl

/-- **The instructions of a source text mean its program.** -/
theorem instructions_ok {source : String} {is : List Instruction}
    (h : instructions source = .ok is) :
    (∀ i ∈ is, i.WellFormed) ∧ program? source = some (is.map Instruction.command) := by
  obtain ⟨hwf, hprogram⟩ := instructionsFrom_ok _ _ _ h
  rw [sentences_eq] at hprogram
  exact ⟨hwf, hprogram⟩

theorem assemble_ok {source : String} {code : Bytecode} (h : assemble source = .ok code) :
    ∃ is : List Instruction, (∀ i ∈ is, i.WellFormed) ∧
      program? source = some (is.map Instruction.command) ∧
      code.toList = is.flatMap Instruction.encode := by
  obtain ⟨is, his, rfl⟩ := map_eq_ok_iff.mp h
  obtain ⟨hwf, hprogram⟩ := instructions_ok his
  exact ⟨is, hwf, hprogram, Builder.toList_assemble is⟩

end WordStack
