import WordStack.Machine.Basic

/-! # Runs

A run goes on stepping to the end of the code or to the first fault. The program counter grows with
each step, so a run ends. It tells of each opcode before it reads the operand, so also of one that
then faults, and at last that the machine is halted.

* `runWith`: a run with a log of some kind beside the machine.
* `run`: the machine after a run, and how it ended.
* `notices`: what a run has to tell about itself, in order. -/

namespace WordStack.Machine

theorem stepWith_running {σ : Type} {record : Notice → σ → σ} {m after : Machine} {log log' : σ}
    (h : stepWith record (m, log) = .ok .running (after, log')) : m.step = .ok .running after := by
  rw [← alone_stepWith record m log, h]
  rfl

/-- **Steps up to the end of the code or the first fault**, with all that is to tell recorded. -/
def runWith {σ : Type} (record : Notice → σ → σ) (m : Machine) (log : σ) :
    EStateM.Result Fault (Machine × σ) Unit :=
  match _h : stepWith record (m, log) with
  | .error fault after => .error fault after
  | .ok .halted (after, log) => .ok () (after, record (.halted after.steps after.stack.size) log)
  | .ok .running (after, log) => runWith record after log
termination_by m.code.size - m.pc
decreasing_by
  obtain ⟨hpc, hend, hcode⟩ := step_running (stepWith_running _h)
  rw [hcode] at hend ⊢
  omega

/-- **Steps up to the end of the code or the first fault.** -/
def run (m : Machine) : EStateM.Result Fault Machine Unit :=
  alone (m.runWith (fun _ log => log) ())

/-- Loads code and runs it. -/
def execute (m : Machine) (code : Bytecode) : EStateM.Result Fault Machine Unit := (m.load code).run

/-- **What a run tells**, in order. -/
def notices (m : Machine) : List Notice :=
  (beside (m.runWith (fun notice told => told.push notice) #[])).toList

/-- A run is a step and the run that follows on it. -/
theorem run_eq (m : Machine) : m.run =
    match m.step with
    | .error fault after => .error fault after
    | .ok .halted after => .ok () after
    | .ok .running after => after.run := by
  unfold run
  rw [runWith, ← alone_stepWith (fun _ log => log) m ()]
  split <;> simp_all [alone]

end WordStack.Machine
