import WordStack.Proofs.Machine.Step

/-! # The trail of a run

The *trail* of a machine is the list of the machines before the steps of its run, in order, without
the one that finds the code at its end. So a run executes an instruction on each machine of the
trail, except that on the last one it may fault or be stopped by the limit.

* `run_induction`: what holds of all machines whose runs are over, and is handed back from the
  machine after a step, holds of every machine.
* `run_carry`: a change of machines that the steps respect is respected by runs.
* `ending_run`: the run ends as the last step on the trail does.
* `trail_located`: the machines on the trail stand at the fragments that are decoded from the
  program counter on, in order, and each is about to do what its fragment says. -/

namespace WordStack.Machine

open Fragment

/-- **The machines before the steps of a run.** -/
def trail (m : Machine) : List Machine :=
  if _hpc : m.pc < m.code.size then
    match _h : m.step with
    | .error _ _ => [m]
    | .ok _ after => m :: trail after
  else []
termination_by m.code.size - m.pc
decreasing_by
  obtain ⟨hlt, hle, hcode, -⟩ := step_ok _h _hpc
  rw [hcode]
  omega

theorem trail_of_le {m : Machine} (h : m.code.size ≤ m.pc) : m.trail = [] := by
  rw [trail, dif_neg (by omega)]

/-! ## Runs -/

theorem run_of_le {m : Machine} (h : m.code.size ≤ m.pc) : m.run = .ok () m := by
  rw [run_eq, step_of_le h]

theorem run_of_error {m after : Machine} {fault : Fault} (h : m.step = .error fault after) :
    m.run = .error fault after := by
  rw [run_eq, h]

theorem run_of_halted {m after : Machine} (h : m.step = .ok .halted after) :
    m.run = .ok () after := by
  rw [run_eq, h]

theorem run_of_ok {m after : Machine} {status : Status} (h : m.step = .ok status after) :
    m.run = after.run := by
  cases status with
  | running =>
    rw [run_eq, h]
  | halted =>
    have hle : after.code.size ≤ after.pc := by
      by_cases hpc : m.pc < m.code.size
      · obtain ⟨-, -, -, -, -, hs⟩ := step_ok h hpc
        exact status_eq_halted_iff.mp hs.symm
      · rw [step_of_le (by omega)] at h
        injection h with _ h
        rw [← h]
        omega
    rw [run_of_le hle, run_of_halted h]

theorem config_of_step {m after : Machine} {status : Status} (h : m.step = .ok status after) :
    after.config = m.config := by
  by_cases hpc : m.pc < m.code.size
  · obtain ⟨-, -, -, hconfig, -, -⟩ := step_ok h hpc
    exact hconfig
  · rw [step_of_le (by omega)] at h
    injection h with _ hm
    rw [hm]

theorem run_advance_stop (m : Machine) (stack : Stack) :
    (m.advance .stop stack).run = .ok () (m.advance .stop stack) := by
  exact run_of_le (size_le_next_stop m)

/-- **Induction along a run**, which ends on a halted machine or at a fault, and else goes on from
where its first step ends. -/
@[elab_as_elim]
theorem run_induction {motive : Machine → Prop} (m : Machine)
    (halted : ∀ m : Machine, m.code.size ≤ m.pc → m.run = .ok () m → motive m)
    (faulted : ∀ (m after : Machine) (fault : Fault), m.step = .error fault after →
      m.run = .error fault after → motive m)
    (stepped : ∀ (m after : Machine) (status : Status), m.pc < m.code.size →
      m.step = .ok status after → m.run = after.run → motive after → motive m) : motive m := by
  fun_induction trail m with
  | case1 m hpc fault after h => exact faulted m after fault h (run_of_error h)
  | case2 m hpc status after h ih => exact stepped m after status hpc h (run_of_ok h) ih
  | case3 m hpc =>
    have hle : m.code.size ≤ m.pc := by omega
    exact halted m hle (run_of_le hle)

/-- **A run that succeeds ends at the end of the code**, which it leaves as it was. -/
theorem run_ok (m : Machine) : ∀ {after : Machine}, m.run = .ok () after → m.pc ≤ m.code.size →
    after.pc = m.code.size ∧ after.code = m.code ∧ after.config = m.config := by
  induction m using run_induction with
  | halted m hle hrun =>
    intro after h hpc
    rw [hrun] at h
    cases h
    exact ⟨by omega, rfl, rfl⟩
  | faulted m stop fault _ hrun =>
    intro after h _
    rw [hrun] at h
    exact absurd h (by simp)
  | stepped m next status hpc hm hrun ih =>
    intro after h _
    obtain ⟨-, hle, hcode, hconfig, -, -⟩ := step_ok hm hpc
    rw [hrun] at h
    obtain ⟨hpc', hcode', hconfig'⟩ := ih h (by rw [hcode]; exact hle)
    rw [hcode] at hpc' hcode'
    exact ⟨hpc', hcode', hconfig'.trans hconfig⟩

/-! ## Runs of changed machines -/

/-- The machine of a result changed by `f`, and its fault, if it is one, by `g`. -/
def carry {α : Type} (g : Fault → Fault) (f : Machine → Machine) :
    EStateM.Result Fault Machine α → EStateM.Result Fault Machine α
  | .ok a m => .ok a (f m)
  | .error fault m => .error (g fault) (f m)

@[simp] theorem carry_ok {α : Type} (g : Fault → Fault) (f : Machine → Machine) (a : α)
    (m : Machine) : carry g f (.ok a m) = .ok a (f m) := rfl

@[simp] theorem carry_error {α : Type} (g : Fault → Fault) (f : Machine → Machine) (fault : Fault)
    (m : Machine) : carry g f (.error fault m : EStateM.Result Fault Machine α) =
      .error (g fault) (f m) := rfl

/-- **A change of machines that all steps respect is respected by runs.** The condition `P` holds
along the run. -/
theorem run_carry {g : Fault → Fault} {f : Machine → Machine} {P : Machine → Prop}
    (hstep : ∀ m, P m → (f m).step = carry g f m.step)
    (hkeep : ∀ m status after, P m → m.step = .ok status after → P after) {m : Machine} (hm : P m) :
    (f m).run = carry g f m.run := by
  induction m using run_induction with
  | halted m hpc hrun =>
    have h := hstep m hm
    rw [step_of_le hpc, carry_ok] at h
    rw [hrun, run_of_halted h, carry_ok]
  | faulted m after fault hm' hrun =>
    have h := hstep m hm
    rw [hm', carry_error] at h
    rw [hrun, run_of_error h, carry_error]
  | stepped m after status hpc hm' hrun ih =>
    have h := hstep m hm
    rw [hm', carry_ok] at h
    rw [hrun, run_of_ok h]
    exact ih (hkeep m status after hm hm')

/-! ## The end of a run -/

/-- What a run from `m` that takes the steps on a trail comes to: the end of the last step, and `m`
itself if there is none. -/
def ending (m : Machine) (trail : List Machine) : EStateM.Result Fault Machine Unit :=
  match trail.getLast? with
  | none => .ok () m
  | some last =>
    match last.step with
    | .ok _ after => .ok () after
    | .error fault after => .error fault after

/-- **A run ends as the last step on its trail.** -/
theorem ending_run (m : Machine) : m.run = m.ending m.trail := by
  fun_induction trail m with
  | case1 m hpc fault after h =>
    rw [run_of_error h, ending, List.getLast?_singleton]
    simp only [h]
  | case2 m hpc status after h ih =>
    rw [run_of_ok h, ih]
    unfold ending
    cases hl : after.trail with
    | nil =>
      rw [List.getLast?_nil, List.getLast?_singleton]
      simp only [h]
    | cons x xs =>
      rw [List.getLast?_cons_cons]
      cases hlast : (x :: xs).getLast? with
      | none => exact absurd (List.getLast?_eq_none_iff.mp hlast) (by simp)
      | some last => rfl
  | case3 m hpc => rw [run_of_le (by omega)]; rfl

/-- A run that faults does so in its last step. -/
theorem step_of_run_error {m after : Machine} {fault : Fault} (h : m.run = .error fault after) :
    ∃ last, m.trail.getLast? = some last ∧ last.step = .error fault after := by
  rw [ending_run] at h
  unfold ending at h
  split at h
  · exact absurd h (by simp)
  · rename_i last hlast
    split at h
    · exact absurd h (by simp)
    · rename_i hstep
      cases h
      exact ⟨last, hlast, hstep⟩

/-! ## The trail and the code -/

theorem trail_step {m after : Machine} {status : Status} (hpc : m.pc < m.code.size)
    (h : m.step = .ok status after) :
    ∃ i fs, decode m.remaining = instruction i :: fs ∧ i.WellFormed ∧
      (i.opcode = .stop ∧ after.trail = [] ∨
        after.pc = m.pc + i.encode.length ∧ decode after.remaining = fs) := by
  have hc := step_cases m
  rw [h] at hc
  cases hc with
  | halted hd => exact absurd hd ((pc_lt_iff m).mp hpc)
  | @executed i fs stack hd ha he =>
    obtain ⟨-, -, hsound, -⟩ := decode_eq_cons hd
    have hleft := decode_advance stack hd
    refine ⟨i, fs, hd, hsound, ?_⟩
    by_cases hop : i.opcode = .stop
    · rw [if_pos hop] at hleft
      exact Or.inl ⟨hop, trail_of_le ((decode_eq_nil_iff _).mp hleft)⟩
    · rw [if_neg hop] at hleft
      refine Or.inr ⟨?_, hleft⟩
      show m.next i.opcode = _
      rw [next_of_ne m hop, Instruction.length_encode hsound, Nat.add_assoc]

/-- **The trail stands at the fragments of the code**, the `k`-th machine at the `k`-th fragment. -/
theorem trail_located (m : Machine) : ∀ {k : Nat} {s : Machine}, m.trail[k]? = some s →
    s.code = m.code ∧ s.config = m.config ∧ s.steps = m.steps + k ∧
      ∃ f fs, decode s.remaining = f :: fs ∧
        (located m.pc (decode m.remaining))[k]? = some (s.pc, f) := by
  have hhere : ∀ m : Machine, m.pc < m.code.size → ∃ f fs, decode m.remaining = f :: fs ∧
      (located m.pc (decode m.remaining))[0]? = some (m.pc, f) := by
    intro m hpc
    obtain ⟨f, fs, hd⟩ := List.exists_cons_of_ne_nil ((pc_lt_iff m).mp hpc)
    exact ⟨f, fs, hd, by rw [hd]; rfl⟩
  fun_induction trail m with
  | case1 m hpc fault after h =>
    intro k s hk
    match k with
    | 0 =>
      rw [← Option.some.inj hk]
      exact ⟨rfl, rfl, rfl, hhere m hpc⟩
    | k + 1 => exact absurd hk (by simp)
  | case2 m hpc status after h ih =>
    intro k s hk
    match k with
    | 0 =>
      rw [← Option.some.inj hk]
      exact ⟨rfl, rfl, rfl, hhere m hpc⟩
    | k + 1 =>
      rw [List.getElem?_cons_succ] at hk
      obtain ⟨-, -, hcode, hconfig, hsteps, -⟩ := step_ok h hpc
      obtain ⟨hcode', hconfig', hsteps', f, fs, hd, hl⟩ := ih hk
      refine ⟨hcode'.trans hcode, hconfig'.trans hconfig, by omega, f, fs, hd, ?_⟩
      obtain ⟨i, gs, hm, -, ⟨-, hnil⟩ | ⟨hnext, hgs⟩⟩ := trail_step hpc h
      · rw [hnil] at hk
        exact absurd hk (by simp)
      · rw [hm, located, List.getElem?_cons_succ, bytes, ← hnext, ← hgs, hl]
  | case3 m hpc => exact fun hk => absurd hk (by simp)

end WordStack.Machine
