import WordStack.Proofs.Machine.Stepping

/-! # Runs under a step limit

A step limit only cuts runs short. Below the limit a machine takes the same steps as without one
(`step_limited`). A machine that has taken as many steps as the limit allows and is still running is
stopped, even if its next step would have faulted for another reason (`step_at_limit`). So a run
that halts may use up the limit, and a run that faults must get to its fault before
(`run_limited`). -/

namespace WordStack.Machine

open Fragment

variable {m : Machine} {limit : Nat}

/-- The machine under another step limit, or under none. -/
def limited (m : Machine) (limit : Option Nat) : Machine :=
  { m with config := { m.config with stepLimit := limit } }

/-! ## Steps -/

theorem step_limited (hfree : m.config.stepLimit = none) (hlt : m.steps < limit) :
    (m.limited (some limit)).step = carry id (·.limited (some limit)) m.step := by
  have ha : (m.limited (some limit)).Allowed := by
    intro l hl
    cases hl
    exact hlt
  have hc := step_cases m
  generalize hr : m.step = r at hc
  cases hc with
  | halted hd =>
    have hle := (decode_eq_nil_iff m).mp hd
    exact step_of_le hle
  | limited _ hl =>
    rw [hfree] at hl
    exact absurd hl (by simp)
  | unknown hd => exact step_of_unknown hd ha
  | truncated hd => exact step_of_truncated hd ha
  | faulted hd _ he => exact step_of_effect_error hd ha he
  | executed hd _ he => exact step_of_effect_ok hd ha he

theorem step_at_limit (hpc : m.pc < m.code.size) (hle : limit ≤ m.steps) :
    (m.limited (some limit)).step =
      .error (.stepLimitExceeded limit) (m.limited (some limit)) := by
  have hfetch := fetch_of_limit (m := m.limited (some limit)) rfl hle
  exact step_of_fetch_error (m := m.limited (some limit)) hpc (hfetch _)

/-! ## Counting steps -/

theorem steps_le_run (m : Machine) : m.steps ≤ (left m.run).steps := by
  induction m using run_induction with
  | halted m _ hrun => rw [hrun, left_ok]
  | faulted m after fault h hrun =>
    obtain ⟨-, hafter⟩ := step_error h
    rw [hrun, left_error, hafter]
  | stepped m after status hpc h hrun ih =>
    obtain ⟨-, -, -, -, hsteps, -⟩ := step_ok h hpc
    rw [hrun]
    omega

theorem steps_stepped (m : Machine) : ∀ k, m.steps + k ≤ (left m.run).steps →
    (m.stepped k).steps = m.steps + k := by
  induction m using run_induction with
  | halted m _ hrun =>
    intro k hk
    rw [hrun, left_ok] at hk
    have hzero : k = 0 := by omega
    rw [hzero]
    rfl
  | faulted m after fault h hrun =>
    intro k hk
    obtain ⟨-, hafter⟩ := step_error h
    rw [hrun, left_error, hafter] at hk
    have hzero : k = 0 := by
      change m.steps + k ≤ m.steps at hk
      omega
    rw [hzero]
    rfl
  | stepped m after status hpc h hrun ih =>
    intro k hk
    obtain ⟨-, -, -, -, hsteps, -⟩ := step_ok h hpc
    cases k with
    | zero => rfl
    | succ k =>
      rw [hrun] at hk
      rw [stepped, h, left_ok, ih k (by omega)]
      omega

/-! ## Runs -/

/-- What a run without limit comes to under one, if the limit stops the machine at `cut`: a run that
halts may use up the limit, but one that faults needs a step more. -/
def underLimit (limit : Nat) (cut : Machine) :
    EStateM.Result Fault Machine Unit → EStateM.Result Fault Machine Unit
  | .ok _ after =>
    if after.steps ≤ limit then .ok () (after.limited (some limit))
    else .error (.stepLimitExceeded limit) (cut.limited (some limit))
  | .error fault after =>
    if after.steps < limit then .error fault (after.limited (some limit))
    else .error (.stepLimitExceeded limit) (cut.limited (some limit))

theorem underLimit_of_lt {cut : Machine} {r : EStateM.Result Fault Machine Unit}
    (h : limit < (left r).steps) :
    underLimit limit cut r = .error (.stepLimitExceeded limit) (cut.limited (some limit)) := by
  cases r with
  | ok u after =>
    rw [left_ok] at h
    exact if_neg (by omega)
  | error fault after =>
    rw [left_error] at h
    exact if_neg (by omega)

theorem run_limited (hfree : m.config.stepLimit = none) (hle : m.steps ≤ limit) :
    (m.limited (some limit)).run = underLimit limit (m.stepped (limit - m.steps)) m.run := by
  induction m using run_induction with
  | halted m hpc hrun =>
    rw [hrun, underLimit, if_pos hle]
    exact run_of_le hpc
  | faulted m after fault h hrun =>
    obtain ⟨hpc, hafter⟩ := step_error h
    have hsteps : after.steps = m.steps := by rw [hafter]
    rw [hrun, underLimit, hsteps]
    by_cases hlt : m.steps < limit
    · have hl := step_limited hfree hlt
      rw [h, carry_error] at hl
      rw [if_pos hlt, run_of_error hl, id]
    · have hzero : limit - m.steps = 0 := by omega
      rw [if_neg hlt, hzero, stepped, run_of_error (step_at_limit hpc (by omega))]
  | stepped m after status hpc h hrun ih =>
    obtain ⟨-, -, -, hconfig, hsteps, -⟩ := step_ok h hpc
    by_cases hlt : m.steps < limit
    · have hl := step_limited hfree hlt
      rw [h, carry_ok] at hl
      have hk : limit - m.steps = (limit - after.steps) + 1 := by omega
      rw [run_of_ok hl, hrun, hk, stepped, h, left_ok]
      exact ih (by rw [hconfig]; exact hfree) (by omega)
    · -- The limit is used up, and the run without it counts at least one step more.
      have hover := steps_le_run after
      have hzero : limit - m.steps = 0 := by omega
      rw [hrun, underLimit_of_lt (by omega), hzero, stepped,
        run_of_error (step_at_limit hpc (by omega))]

/-- **A step limit only cuts runs short**, for every code, whatever is on the stack: a run that
halts within the limit, or faults before it is used up, is the same as without it. Every other run
is stopped after as many steps as the limit allows, on the machine that the run without limit has
after as many. -/
theorem execute_limited (m : Machine) (code : Bytecode) (limit : Nat) :
    let free := (m.limited none).load code
    (m.limited (some limit)).execute code =
      underLimit limit (free.stepped limit) ((m.limited none).execute code) ∧
    ∀ k ≤ (left ((m.limited none).execute code)).steps, (free.stepped k).steps = k := by
  intro free
  refine ⟨run_limited (m := free) rfl (Nat.zero_le limit), fun k hk => ?_⟩
  have hsteps := steps_stepped free k (by rw [show free.steps = 0 from rfl, Nat.zero_add]; exact hk)
  rw [hsteps]
  exact Nat.zero_add k

/-- An addition that misses its second word is not reached, if the limit allows only the push. -/
theorem execute_limited_underflow :
    let free := ((new {}).limited none).load #[0x60, 5, 0x01]
    ((new {}).limited (some 1)).execute #[0x60, 5, 0x01] =
      .error (.stepLimitExceeded 1) ((free.stepped 1).limited (some 1)) ∧
    1 ≤ (left free.run).steps ∧ (free.stepped 1).steps = 1 := by
  intro free
  obtain ⟨hrun, hsteps⟩ := execute_limited (new {}) #[0x60, 5, 0x01] 1
  obtain ⟨after, hfree, hone⟩ : ∃ after, ((new {}).limited none).execute #[0x60, 5, 0x01] =
      .error .stackUnderflow after ∧ after.steps = 1 :=
    ⟨_, (run_of_ok rfl).trans (run_of_error rfl), rfl⟩
  have hle : 1 ≤ (left (((new {}).limited none).execute #[0x60, 5, 0x01])).steps := by
    rw [hfree, left_error, hone]
  rw [hfree, underLimit, if_neg (by omega)] at hrun
  exact ⟨hrun, hle, hsteps 1 hle⟩

end WordStack.Machine
