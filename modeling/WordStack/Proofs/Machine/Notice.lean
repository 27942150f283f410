import WordStack.Proofs.Machine.Trail

/-! # Steps and runs with a log

A machine may have a log of any kind beside it, in which it records what there is to tell as it
goes. The log has no part in what the machine does: a step with a log is the step, and its notice is
recorded (`stepWith_eq`); a run with a log is the run, and its notices are recorded in order
(`runWith_eq`). The notices themselves are read off a run that collects them, so that it must be
shown first that they do not depend on the log (`exists_notices`). -/

namespace WordStack.Machine

open Fragment

variable {σ : Type} {record : Notice → σ → σ} {m after : Machine} {status : Status} {fault : Fault}

/-- A result, with a log beside the machine. -/
def noted {α : Type} (log : σ) :
    EStateM.Result Fault Machine α → EStateM.Result Fault (Machine × σ) α
  | .ok a m => .ok a (m, log)
  | .error fault m => .error fault (m, log)

theorem beside_noted {α : Type} (log : σ) (r : EStateM.Result Fault Machine α) :
    beside (noted log r) = log := by
  cases r <;> rfl

/-! ## Steps -/

/-- The log after a step. -/
def noting (record : Notice → σ → σ) (m : Machine) (log : σ) : σ :=
  m.notice?.elim log (record · log)

/-- **A step with a log** is the step, and its notice is recorded. -/
theorem stepWith_eq (record : Notice → σ → σ) (m : Machine) (log : σ) :
    stepWith record (m, log) = noted (noting record m log) m.step := by
  unfold noting notice? step stepWith
  by_cases hpc : m.pc < m.code.size
  · simp only [dif_pos hpc]
    cases m.fetch m.code[m.pc] with
    | error fault => rfl
    | ok opcode =>
      simp only []
      cases m.operand opcode with
      | error fault => rfl
      | ok operand =>
        simp only []
        cases effect opcode operand m.stack <;> rfl
  · simp only [dif_neg hpc]
    rfl

theorem notice?_of_le (h : m.code.size ≤ m.pc) : m.notice? = none := by
  unfold notice? stepWith
  simp only [dif_neg (Nat.not_lt.mpr h)]
  rfl

theorem notice?_of_fetch_error (hpc : m.pc < m.code.size)
    (h : m.fetch m.code[m.pc] = .error fault) : m.notice? = none := by
  unfold notice? stepWith
  simp only [dif_pos hpc, h]
  rfl

theorem noting_of_le (h : m.code.size ≤ m.pc) (log : σ) : noting record m log = log := by
  rw [noting, notice?_of_le h]
  rfl

/-! ## Runs -/

theorem runWith_of_error (h : m.step = .error fault after) (log : σ) :
    m.runWith record log = .error fault (after, noting record m log) := by
  have hs := stepWith_eq record m log
  rw [h, noted] at hs
  rw [runWith]
  split <;> simp_all

theorem runWith_of_halted (h : m.step = .ok .halted after) (log : σ) :
    m.runWith record log =
      .ok () (after, record (.halted after.steps after.stack.size) (noting record m log)) := by
  have hs := stepWith_eq record m log
  rw [h, noted] at hs
  rw [runWith]
  split <;> simp_all

theorem runWith_of_running (h : m.step = .ok .running after) (log : σ) :
    m.runWith record log = after.runWith record (noting record m log) := by
  have hs := stepWith_eq record m log
  rw [h, noted] at hs
  rw [runWith]
  split <;> simp_all

theorem runWith_of_le (h : m.code.size ≤ m.pc) (log : σ) :
    m.runWith record log = .ok () (m, record (.halted m.steps m.stack.size) log) := by
  rw [runWith_of_halted (step_of_le h), noting_of_le h]

theorem runWith_of_ok (hpc : m.pc < m.code.size) (h : m.step = .ok status after) (log : σ) :
    m.runWith record log = after.runWith record (noting record m log) := by
  cases status with
  | running => exact runWith_of_running h log
  | halted =>
    obtain ⟨-, -, -, -, -, hstatus⟩ := step_ok h hpc
    rw [runWith_of_halted h, runWith_of_le (status_eq_halted_iff.mp hstatus.symm)]

/-! ## The notices of a run -/

/-- The log after some notices. -/
def recorded (record : Notice → σ → σ) (notices : List Notice) (log : σ) : σ :=
  notices.foldl (fun log notice => record notice log) log

theorem recorded_cons_elim (notice? : Option Notice) (notices : List Notice) (log : σ) :
    recorded record (notice?.toList ++ notices) log =
      recorded record notices (notice?.elim log (record · log)) := by
  cases notice? <;> rfl

/-- The notices of a run are the same for every log. -/
theorem exists_notices (m : Machine) : ∃ notices : List Notice,
    ∀ {σ : Type} (record : Notice → σ → σ) (log : σ),
      m.runWith record log = noted (recorded record notices log) m.run := by
  induction m using run_induction with
  | halted m hle hrun =>
    refine ⟨[.halted m.steps m.stack.size], fun record log => ?_⟩
    rw [runWith_of_le hle, hrun]
    rfl
  | faulted m after fault h hrun =>
    refine ⟨m.notice?.toList, fun record log => ?_⟩
    rw [runWith_of_error h, hrun, ← List.append_nil m.notice?.toList, recorded_cons_elim]
    rfl
  | stepped m after status hpc h hrun ih =>
    obtain ⟨notices, hnotices⟩ := ih
    refine ⟨m.notice?.toList ++ notices, fun record log => ?_⟩
    rw [runWith_of_ok hpc h, hrun, recorded_cons_elim]
    exact hnotices record _

theorem recorded_push {α : Type} (f : Notice → α) (notices : List Notice) (told : Array α) :
    (recorded (fun notice told => told.push (f notice)) notices told).toList =
      told.toList ++ notices.map f := by
  rw [recorded, List.foldl_push_eq_append, Array.toList_append]

/-- **A run with a log** is the run, and its notices are recorded in order. -/
theorem runWith_eq (record : Notice → σ → σ) (m : Machine) (log : σ) :
    m.runWith record log = noted (recorded record m.notices log) m.run := by
  obtain ⟨notices, hnotices⟩ := exists_notices m
  have hcollected : m.notices = notices := by
    rw [Machine.notices, hnotices, beside_noted]
    exact (recorded_push id notices #[]).trans (List.map_id notices)
  rw [hcollected]
  exact hnotices record log

theorem notices_of_le (h : m.code.size ≤ m.pc) : m.notices = [.halted m.steps m.stack.size] := by
  rw [notices, runWith_of_le h]
  rfl

theorem notices_of_error (h : m.step = .error fault after) : m.notices = m.notice?.toList := by
  rw [notices, runWith_of_error h, noting]
  cases m.notice? <;> rfl

theorem notices_of_ok (hpc : m.pc < m.code.size) (h : m.step = .ok status after) :
    m.notices = m.notice?.toList ++ after.notices := by
  have hrest := recorded_push id after.notices (noting (fun notice told => told.push notice) m #[])
  rw [List.map_id] at hrest
  rw [notices, runWith_of_ok hpc h, runWith_eq, beside_noted]
  refine hrest.trans ?_
  rw [noting]
  cases m.notice? <;> rfl

end WordStack.Machine
