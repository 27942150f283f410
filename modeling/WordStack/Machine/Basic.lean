import WordStack.Instruction
import WordStack.Stack

/-! # The machine

The machine goes through its code from the left to the right. A step decodes the opcode at the
program counter, applies its effect to the stack and moves the counter past the opcode and its
operand. There are no jumps. At the end of the code the machine is halted; a fault leaves the
counter on the instruction that faulted.

* `effect`: what an instruction does to the stack.
* `stepWith`: one instruction, with a log of some kind beside the machine.
* `step`: one instruction. A step that succeeds moves the counter on (`step_running`).
* `notice?`: what a step tells about itself. -/

namespace WordStack

/-- What limits a machine. -/
structure Machine.Config where
  /-- How many words the stack may hold. -/
  stackCapacity : Nat := Stack.defaultCapacity
  /-- How many instructions one load of code may execute, if that is limited. -/
  stepLimit : Option Nat := none

/-- Is there code left? -/
inductive Machine.Status where
  | running
  | halted
  deriving DecidableEq

/-- **A machine.** Its stack outlives the code: loading other code resets only the program counter
and the count of steps. -/
structure Machine where
  code : Bytecode := #[]
  /-- The offset of the next opcode. -/
  pc : Nat := 0
  /-- The instructions executed since the code was loaded. -/
  steps : Nat := 0
  stack : Stack
  config : Machine.Config

namespace Machine

/-- A machine with an empty stack and no code. -/
def new (config : Config) : Machine :=
  { stack := { capacity := config.stackCapacity }, config }

/-- Loads code and goes to its first byte. -/
def load (m : Machine) (code : Bytecode) : Machine := { m with code, pc := 0, steps := 0 }

/-- The machine is halted at the end of the code, and running before it. -/
def status (m : Machine) : Status := if m.pc < m.code.size then .running else .halted

theorem status_eq_running_iff {m : Machine} : m.status = .running ↔ m.pc < m.code.size := by
  unfold status
  split <;> simp_all

theorem status_eq_halted_iff {m : Machine} : m.status = .halted ↔ m.code.size ≤ m.pc := by
  unfold status
  split <;> simp_all

/-! ## Effects on the stack -/

/-- Removes the top `a` and then the word `b` below it, and pushes `f a b`. If `b` is missing, `a`
is gone all the same. -/
def binary (f : Word → Word → Word) : Stack.Action Unit := do
  let a ← Stack.pop
  let b ← Stack.pop
  Stack.push (f a b)

/-- Removes the top `a` and pushes `f a`. -/
def unary (f : Word → Word) : Stack.Action Unit := do
  let a ← Stack.pop
  Stack.push (f a)

/-- **What an instruction does to the stack.** The operand counts for a push only. -/
def effect (opcode : Opcode) (operand : Word) : Stack.Action Unit :=
  match opcode with
  | .stop => pure ()
  | .add => binary (· + ·)
  | .sub => binary (· - ·)
  | .lt => binary fun a b => Word.ofBool (a < b)
  | .gt => binary fun a b => Word.ofBool (b < a)
  | .eq => binary fun a b => Word.ofBool (a == b)
  | .isZero => unary fun a => Word.ofBool (a == 0)
  | .pop => do let _ ← Stack.pop
  | .push _ => Stack.push operand
  | .dup place => Stack.duplicate (place.toNat - 1)
  | .swap distance => Stack.swap distance.toNat

/-! ## Notices -/

/-- Something that a machine tells about itself. -/
inductive Notice where
  /-- The opcode at this offset is about to be executed. -/
  | executing (pc : Nat) (opcode : Opcode)
  /-- The run has ended without a fault. -/
  | halted (steps size : Nat)
  deriving DecidableEq

/-- The wording of a notice. -/
def Notice.message : Notice → String
  | executing pc opcode => Numeral.hexPadded 4 pc ++ ": " ++ opcode.mnemonic
  | halted steps size =>
    "halted after " ++ Numeral.decimal steps ++ " steps with " ++ Numeral.decimal size
      ++ " words on the stack"

/-! ## Steps -/

/-- The opcode at the program counter of a running machine, if the limit allows another step. -/
def fetch (m : Machine) (byte : UInt8) : Except Fault Opcode :=
  match m.config.stepLimit.filter (· ≤ m.steps) with
  | some limit => .error (.stepLimitExceeded limit)
  | none =>
    match Opcode.ofByte? byte with
    | none => .error (.invalidOpcode byte m.pc)
    | some opcode => .ok opcode

/-- The operand of the opcode at the program counter, as a word. -/
def operand (m : Machine) (opcode : Opcode) : Except Fault Word :=
  let start := m.pc + 1
  if start + opcode.width ≤ m.code.size then
    .ok (Word.ofBytes (m.code.extract start (start + opcode.width)).toList)
  else .error (.truncatedOperand m.pc opcode.width (m.code.size - start))

/-- Where the program counter goes from an opcode that succeeded. `STOP` has already moved it to the
end of the code by itself; else it is moved past the operand. -/
def next (m : Machine) (opcode : Opcode) : Nat :=
  let moved := if opcode = .stop then m.code.size else m.pc
  if moved = m.pc then m.pc + 1 + opcode.width else moved

theorem next_of_ne {opcode : Opcode} (m : Machine) (h : opcode ≠ .stop) :
    m.next opcode = m.pc + 1 + opcode.width := by
  unfold next
  simp only [if_neg h, if_true]

theorem next_stop {m : Machine} (h : m.pc < m.code.size) : m.next .stop = m.code.size := by
  unfold next
  simp only [if_true]
  rw [if_neg (by omega)]

theorem size_le_next_stop (m : Machine) : m.code.size ≤ m.next .stop := by
  unfold next
  simp only [if_true]
  split <;> omega

/-- **One step** of a machine that has a log beside it, in which it records the opcode before it
reads the operand. On a halted machine it does nothing. The stack is the only part of the machine
that a fault can change. -/
def stepWith {σ : Type} (record : Notice → σ → σ) : EStateM Fault (Machine × σ) Status :=
  fun (m, log) =>
    if h : m.pc < m.code.size then
      match m.fetch m.code[m.pc] with
      | .error fault => .error fault (m, log)
      | .ok opcode =>
        let log := record (.executing m.pc opcode) log
        match m.operand opcode with
        | .error fault => .error fault (m, log)
        | .ok operand =>
          match effect opcode operand m.stack with
          | .error fault stack => .error fault ({ m with stack }, log)
          | .ok _ stack =>
            let after := { m with stack, pc := m.next opcode, steps := m.steps + 1 }
            .ok after.status (after, log)
    else .ok .halted (m, log)

/-- A result without the log beside the machine. -/
def alone {σ α : Type} : EStateM.Result Fault (Machine × σ) α → EStateM.Result Fault Machine α
  | .ok a (m, _) => .ok a m
  | .error fault (m, _) => .error fault m

/-- The log beside the machine in a result. -/
def beside {σ α : Type} : EStateM.Result Fault (Machine × σ) α → σ
  | .ok _ (_, log) => log
  | .error _ (_, log) => log

/-- **One step** of a machine without a log. -/
def step : EStateM Fault Machine Status := fun m => alone (stepWith (fun _ log => log) (m, ()))

/-- What a step tells: the opcode, if it gets so far. -/
def notice? (m : Machine) : Option Notice :=
  beside (stepWith (fun notice _ => some notice) (m, none))

/-- Whatever is recorded, the step is the one without a log. -/
theorem alone_stepWith {σ : Type} (record : Notice → σ → σ) (m : Machine) (log : σ) :
    alone (stepWith record (m, log)) = m.step := by
  unfold step stepWith
  by_cases hpc : m.pc < m.code.size
  · simp only [dif_pos hpc]
    cases m.fetch m.code[m.pc] with
    | error fault => rfl
    | ok opcode =>
      simp only []
      cases m.operand opcode with
      | error fault => rfl
      | ok operand =>
        simp only []
        cases effect opcode operand m.stack <;> rfl
  · simp only [dif_neg hpc]
    rfl

/-- A step that succeeds and does not end the run moves the program counter on, in the same code. -/
theorem step_running {m after : Machine} (h : m.step = .ok .running after) :
    m.pc < after.pc ∧ after.pc < after.code.size ∧ after.code = m.code := by
  unfold step stepWith at h
  by_cases hpc : m.pc < m.code.size
  · simp only [dif_pos hpc] at h
    cases hf : m.fetch m.code[m.pc] with
    | error fault => simp [hf, alone] at h
    | ok opcode =>
      cases ho : m.operand opcode with
      | error fault => simp [hf, ho, alone] at h
      | ok operand =>
        cases he : effect opcode operand m.stack with
        | error fault stack => simp [hf, ho, he, alone] at h
        | ok _ stack =>
          simp only [hf, ho, he, alone, EStateM.Result.ok.injEq] at h
          obtain ⟨hs, rfl⟩ := h
          refine ⟨?_, status_eq_running_iff.mp hs, rfl⟩
          show m.pc < m.next opcode
          by_cases hstop : opcode = .stop
          · rw [hstop, next_stop hpc]
            exact hpc
          · rw [next_of_ne m hstop]
            omega
  · simp [dif_neg hpc, alone] at h

end Machine

end WordStack
