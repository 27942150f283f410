import WordStack.Proofs.Machine.Stepping

/-! # Runs end

Every step that executes an instruction moves the program counter on, and none moves it past the end
of the code. So a run takes at most as many steps as there are bytes from the program counter on.
Then it has come to the end of the code or to a fault (`Takes`, `exists_takes`).

The program counter and the count of steps are at most as large as the code. What a step works out
from them is larger by no more than an opcode with its operand, and fits in 64 bits if the code has
at most `2 ^ 63 - 1` bytes, which is as long as a slice of memory can be.

`run_ends` says this of every machine with a history. -/

namespace WordStack.Machine

open Fragment

/-- How a run ends on the machine that it has come to: the machine is halted, or its next step
faults. -/
inductive EndsAt (s : Machine) : EStateM.Result Fault Machine Unit → Prop where
  | halted (h : s.status = .halted) : EndsAt s (.ok () s)
  | faulted {fault : Fault} {after : Machine} (h : s.step = .error fault after) :
      EndsAt s (.error fault after)

/-- **The run takes `k` steps**: so many succeed on a running machine, one after the other, they are
counted, and after them the run ends. -/
structure Takes (m : Machine) (k : Nat) : Prop where
  executes : ∀ j < k, (m.stepped j).status = .running ∧
    ∃ status, (m.stepped j).step = .ok status (m.stepped (j + 1))
  steps_eq : (left m.run).steps = m.steps + k
  ends : (m.stepped k).EndsAt m.run

variable {config : Config} {m after : Machine} {status : Status}

/-! ## The steps of a run -/

theorem takes_zero (hsteps : (left m.run).steps = m.steps) (hends : m.EndsAt m.run) :
    m.Takes 0 where
  executes _ hj := absurd hj (Nat.not_lt_zero _)
  steps_eq := hsteps
  ends := hends

theorem stepped_succ (h : m.step = .ok status after) (k : Nat) :
    m.stepped (k + 1) = after.stepped k := by
  rw [stepped, h, left_ok]

theorem Takes.succ {k : Nat} (ht : after.Takes k) (hpc : m.pc < m.code.size)
    (h : m.step = .ok status after) : m.Takes (k + 1) := by
  have hrun := run_of_ok h
  obtain ⟨-, -, -, -, hsteps, -⟩ := step_ok h hpc
  refine ⟨fun j hj => ?_, ?_, ?_⟩
  · cases j with
    | zero =>
      rw [stepped_succ h]
      exact ⟨status_eq_running_iff.mpr hpc, status, h⟩
    | succ j =>
      rw [stepped_succ h, stepped_succ h]
      exact ht.executes j (by omega)
  · rw [hrun, ht.steps_eq]
    omega
  · rw [stepped_succ h, hrun]
    exact ht.ends

/-- **A run takes at most as many steps as there are bytes left.** -/
theorem exists_takes (m : Machine) : ∃ k ≤ m.code.size - m.pc, m.Takes k := by
  induction m using run_induction with
  | halted m hle hrun =>
    refine ⟨0, Nat.zero_le _, takes_zero ?_ ?_⟩
    · rw [hrun, left_ok]
    · rw [hrun]
      exact .halted (status_eq_halted_iff.mpr hle)
  | faulted m after fault h hrun =>
    obtain ⟨-, hafter⟩ := step_error h
    refine ⟨0, Nat.zero_le _, takes_zero ?_ ?_⟩
    · rw [hrun, left_error, hafter]
    · rw [hrun]
      exact .faulted h
  | stepped m after status hpc h hrun ih =>
    obtain ⟨hlt, hle, hcode, -, -, -⟩ := step_ok h hpc
    obtain ⟨k, hk, ht⟩ := ih
    rw [hcode] at hk
    exact ⟨k + 1, by omega, ht.succ hpc h⟩

/-! ## What steps keep -/

theorem code_left_step (m : Machine) : (left m.step).code = m.code := by
  cases h : m.step with
  | ok status after =>
    rw [left_ok]
    by_cases hpc : m.pc < m.code.size
    · obtain ⟨-, -, hcode, -, -, -⟩ := step_ok h hpc
      exact hcode
    · rw [step_of_le (by omega)] at h
      cases h
      rfl
  | error fault after =>
    obtain ⟨-, hafter⟩ := step_error h
    rw [left_error, hafter]

theorem code_stepped (m : Machine) (k : Nat) : (m.stepped k).code = m.code := by
  induction k generalizing m with
  | zero => rfl
  | succ k ih => rw [stepped, ih, code_left_step]

theorem Within.stepped (h : Within config m) (k : Nat) : Within config (m.stepped k) := by
  induction k generalizing m with
  | zero => exact h
  | succ k ih => exact ih h.step

theorem run_error {fault : Fault} (h : m.run = .error fault after) :
    after.code = m.code ∧ after.pc < m.code.size := by
  obtain ⟨k, -, ht⟩ := exists_takes m
  have hends := ht.ends
  rw [h] at hends
  cases hends with
  | faulted hs =>
    obtain ⟨hpc, hafter⟩ := step_error hs
    rw [code_stepped] at hpc
    rw [hafter]
    exact ⟨code_stepped m k, hpc⟩

theorem Within.steps_le_size (h : Within config m) : m.steps ≤ m.code.size :=
  h.steps_le.trans h.pc_le

theorem Within.fits (h : Within config m) (hsize : m.code.size ≤ 2 ^ 63 - 1) {op : Opcode}
    (hop : m.code[m.pc]?.bind Opcode.ofByte? = some op) :
    m.pc + 1 + op.width < 2 ^ 64 ∧ m.steps + 1 < 2 ^ 64 := by
  obtain ⟨byte, -, hbyte⟩ := Option.bind_eq_some_iff.mp hop
  have hwidth := Opcode.width_le (Opcode.inUse_of_ofByte? hbyte)
  have hpc := h.pc_le
  have hsteps := h.steps_le_size
  omega

/-- **Runs end**, after every history: a step that succeeds on a running machine moves the program
counter on, to the end of the code at most. So the run takes at most as many steps as there are
bytes left; then the machine is halted at the end of the code, or a fault has left the counter
inside. No code takes more steps than it has bytes, and on code of at most `2 ^ 63 - 1` bytes no
step counts beyond 64 bits. -/
theorem run_ends (config : Config) (calls : List Call) :
    let m := history config calls
    (∀ status after, m.status = .running → m.step = .ok status after →
      m.pc < after.pc ∧ after.pc ≤ m.code.size ∧ after.code = m.code) ∧
    (∃ k ≤ m.code.size - m.pc, m.Takes k) ∧
    (∀ after, m.run = .ok () after →
      after.code = m.code ∧ after.pc = m.code.size ∧ after.status = .halted) ∧
    (∀ fault after, m.run = .error fault after →
      after.code = m.code ∧ after.pc < m.code.size) ∧
    (∀ code, (left (m.execute code)).steps ≤ code.size) ∧
    (m.code.size ≤ 2 ^ 63 - 1 → ∀ j op, m.code[(m.stepped j).pc]?.bind Opcode.ofByte? = some op →
      (m.stepped j).pc + 1 + op.width < 2 ^ 64 ∧ (m.stepped j).steps + 1 < 2 ^ 64) := by
  intro m
  have hm : Within config m := within_history config calls
  refine ⟨fun status after hstatus h => ?_, exists_takes m, fun after h => ?_,
    fun fault after h => run_error h, fun code => ?_, fun hsize j op hop => ?_⟩
  · obtain ⟨hlt, hle, hcode, -, -, -⟩ := step_ok h (status_eq_running_iff.mp hstatus)
    exact ⟨hlt, hle, hcode⟩
  · obtain ⟨hpc, hcode, -⟩ := run_ok m h hm.pc_le
    refine ⟨hcode, hpc, status_eq_halted_iff.mpr ?_⟩
    rw [hpc, hcode]
  · obtain ⟨k, hk, ht⟩ := exists_takes (m.load code)
    have hsteps : (left (m.execute code)).steps = 0 + k := ht.steps_eq
    have hk' : k ≤ code.size := hk
    omega
  · refine (hm.stepped j).fits ?_ ?_
    · rw [code_stepped]
      exact hsize
    · rw [code_stepped]
      exact hop

/-- The push behind the first one is cut short. -/
theorem run_ends_truncated :
    let m := history {} [.stack (.push 1), .load #[0x60, 7, 0x61, 0], .step]
    (∃ after, m.run = .error (.truncatedOperand 2 2 1) after ∧ after.pc < 4) ∧
      (∃ k ≤ 2, m.Takes k) ∧ m.pc + 1 + 2 < 2 ^ 64 ∧ m.steps + 1 < 2 ^ 64 := by
  intro m
  obtain ⟨-, htakes, -, hfault, -, hfits⟩ :=
    run_ends {} [.stack (.push 1), .load #[0x60, 7, 0x61, 0], .step]
  have hstep : m.step = .error (.truncatedOperand 2 2 1) m := by
    unfold m
    rfl
  have hrun := run_of_error hstep
  exact ⟨⟨m, hrun, (hfault _ m hrun).2⟩, htakes, hfits (by decide) 0 (.push 2) rfl⟩

end WordStack.Machine
