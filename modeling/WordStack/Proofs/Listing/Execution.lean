import WordStack.Proofs.Listing.Reassembly
import WordStack.Proofs.Machine.Trail

/-! # Runs of reassembled code

What a listing assembles to is the code without the bytes that are no opcodes and without a
truncated push. A run decodes such bytes only to fault for them; and up to the first of them no
offset has changed. So the machine goes through the reassembled code as through the code itself, as
long as that does not fault for its code.

There is one exception. A step limit is looked at before anything is decoded. If it is reached where
no instruction is left (`ahead`), but bytes are, the reassembled code is at its end there, and its
run succeeds.

* `run_recoded`: the two runs, from machines that have the same instructions before them.
* `execute_reassembled`: so it is for the code of a listing. -/

namespace WordStack

open Fragment

/-- The fault is one of the code: a byte that is no opcode, or a push that is cut short. -/
inductive Fault.OfCode : Fault → Prop where
  | unknown {byte : UInt8} {offset : Nat} : OfCode (.invalidOpcode byte offset)
  | truncated {offset requested available : Nat} :
      OfCode (.truncatedOperand offset requested available)

/-- Does the fault tell that the step limit was reached? -/
def Fault.isLimit : Fault → Bool
  | stepLimitExceeded _ => true
  | _ => false

theorem Fault.OfStack.not_isLimit {fault : Fault} (h : fault.OfStack) : ¬ fault.isLimit := by
  cases h <;> simp [isLimit]

namespace Machine

/-- The instructions that are left before the program counter. -/
def ahead (m : Machine) : List Instruction := (decode m.remaining).filterMap instruction?

/-- The machine with other code. -/
def recoded (r : Bytecode) (m : Machine) : Machine := { m with code := r }

/-- **What a run comes to on the code `r`**, to which its code was reduced. It ends at the end of
`r`, also if it was stopped by the limit where no instruction was left. -/
def reduced (r : Bytecode) : EStateM.Result Fault Machine Unit → EStateM.Result Fault Machine Unit
  | .ok _ after => .ok () { after with code := r, pc := r.size }
  | .error fault after =>
    if fault.isLimit ∧ after.ahead = [] then .ok () (after.recoded r)
    else .error fault (after.recoded r)

variable {m : Machine} {r : Bytecode}

theorem reduced_error {fault : Fault} {after : Machine} (h : ¬ fault.isLimit) :
    reduced r (.error fault after) = .error fault (after.recoded r) := if_neg fun hc => h hc.1

theorem ahead_eq_cons {i : Instruction} {fs : List Fragment}
    (hd : decode m.remaining = instruction i :: fs) :
    m.ahead = i :: fs.filterMap instruction? := by
  unfold ahead
  rw [hd]
  rfl

theorem advance_recoded (m : Machine) {op : Opcode} (hop : op ≠ .stop) (stack : Stack) :
    (m.recoded r).advance op stack = (m.advance op stack).recoded r := by
  have hnext : (m.recoded r).next op = m.next op := by
    rw [next_of_ne _ hop, next_of_ne _ hop]
    rfl
  unfold advance
  rw [hnext]
  rfl

theorem run_recoded_of_limit {limit : Nat}
    (hd : decode (m.recoded r).remaining = m.ahead.map instruction)
    (hl : m.config.stepLimit = some limit) (hle : limit ≤ m.steps) :
    (m.recoded r).run = reduced r (.error (.stepLimitExceeded limit) m) := by
  rw [reduced]
  by_cases hnil : m.ahead = []
  · rw [if_pos ⟨rfl, hnil⟩]
    rw [hnil] at hd
    exact run_of_le ((decode_eq_nil_iff _).mp hd)
  · rw [if_neg fun hc => hnil hc.2]
    have hpc : (m.recoded r).pc < (m.recoded r).code.size := by
      rw [pc_lt_iff, hd]
      simpa using hnil
    exact run_of_error (step_of_fetch_error hpc (fetch_of_limit hl hle _))

/-- **A run on the code without what is no instruction**, from where it has the same instructions
before it, as long as the run does not fault for its code. -/
theorem run_recoded (hd : decode (m.recoded r).remaining = m.ahead.map instruction)
    (hpc : m.pc ≤ m.code.size) (hpc' : m.pc ≤ r.size)
    (hcode : ∀ fault after, m.run = .error fault after → ¬ fault.OfCode) :
    (m.recoded r).run = reduced r m.run := by
  induction m using run_induction with
  | halted m hle hrun =>
    have hnil : m.ahead = [] := by
      unfold ahead
      rw [(decode_eq_nil_iff m).mpr hle]
      rfl
    rw [hnil] at hd
    have hend : r.size ≤ m.pc := (decode_eq_nil_iff _).mp hd
    have hsame : m.recoded r = { m with code := r, pc := r.size } := by
      rw [← Nat.le_antisymm hpc' hend]
      rfl
    rw [hrun, reduced, ← hsame]
    exact run_of_le hend
  | faulted m after fault h hrun =>
    have hne := hcode fault after hrun
    have hc := step_cases m
    rw [hrun]
    rw [h] at hc
    cases hc with
    | limited _ hl hle => exact run_recoded_of_limit hd hl hle
    | unknown => exact absurd .unknown hne
    | truncated => exact absurd .truncated hne
    | @faulted i fs _ stack hd' ha he =>
      have hfault := stackFaults_effect _ _ _ _ _ he
      rw [ahead_eq_cons hd'] at hd
      rw [reduced_error hfault.not_isLimit]
      exact run_of_error (step_of_effect_error hd ha he)
  | stepped m after status hlt h hrun ih =>
    have hc := step_cases m
    rw [h] at hc
    cases hc with
    | halted hnil => exact absurd hnil ((pc_lt_iff m).mp hlt)
    | @executed i fs stack hd' ha he =>
      rw [ahead_eq_cons hd'] at hd
      have hs : (m.recoded r).step = _ := step_of_effect_ok hd ha he
      obtain ⟨-, hle, -⟩ := step_ok h hlt
      have hlt' : (m.recoded r).pc < (m.recoded r).code.size :=
        (pc_lt_iff _).mpr (by rw [hd]; simp)
      obtain ⟨-, hle', -⟩ := step_ok hs hlt'
      rw [hrun, run_of_ok hs]
      by_cases hop : i.opcode = .stop
      · -- Each machine is at the end of its own code.
        rw [hop, run_advance_stop, run_advance_stop, advance_stop hlt']
        rfl
      · rw [advance_recoded m hop] at hle' ⊢
        have hahead := decode_advance stack hd'
        have hahead' := decode_advance stack hd
        rw [if_neg hop] at hahead hahead'
        rw [advance_recoded m hop] at hahead'
        refine ih ?_ hle hle' fun fault after hfault => hcode fault after (hrun.trans hfault)
        rw [hahead', ahead, hahead]

end Machine

namespace Listing

open Machine Source

/-- **Reassembled code runs as the code itself**, whatever the limits and the stack, unless the run
of the code faults for its code: with the same result, the same stack and as many steps, and with
the program counter at the same place after a fault. Only a run that is stopped by the limit where
no instruction is left succeeds on the reassembled code. -/
theorem execute_reassembled (m : Machine) (code : Bytecode)
    (hcode : ∀ fault after, m.execute code = .error fault after → ¬ fault.OfCode) :
    ∃ r, assemble (text code) = .ok r ∧ m.execute r = reduced r (m.execute code) := by
  have hsweep := Bytecode.sweep_iff.mpr (Eq.refl ((decode code.toList).filterMap instruction?))
  refine ⟨_, assemble_text_eq code, run_recoded (m := m.load code) ?_ ?_ ?_ hcode⟩
  · have hcode' : (m.load code).ahead = (decode code.toList).filterMap instruction? := by
      rw [ahead, remaining]
      rfl
    rw [hcode', ← decode_flatMap_encode hsweep.wellFormed]
    rfl
  · exact Nat.zero_le _
  · exact Nat.zero_le _

/-- Both runs succeed, or both end with the same fault. They leave the same stack after as many
steps, and if they fault, the program counter at the same place. -/
inductive SameEnd :
    EStateM.Result Fault Machine Unit → EStateM.Result Fault Machine Unit → Prop where
  | ok {after after' : Machine} (hstack : after.stack = after'.stack)
      (hsteps : after.steps = after'.steps) : SameEnd (.ok () after) (.ok () after')
  | error {fault : Fault} {after after' : Machine} (hstack : after.stack = after'.stack)
      (hsteps : after.steps = after'.steps) (hpc : after.pc = after'.pc) :
      SameEnd (.error fault after) (.error fault after')

/-- Only a byte that is no opcode is left when the limit is reached. The reassembled code has come
to its end there, so its run succeeds. -/
theorem not_sameEnd_reassembled : ¬ ∀ (m : Machine) (code r : Bytecode),
    (∀ fault after, m.execute code = .error fault after → ¬ fault.OfCode) →
      assemble (text code) = .ok r → SameEnd (m.execute code) (m.execute r) := by
  intro h
  have hlimited : ∃ after, (new { stepLimit := some 1 }).execute #[0x60, 5, 0xfe] =
      .error (.stepLimitExceeded 1) after := ⟨_, (run_of_ok rfl).trans (run_of_error rfl)⟩
  have hended : ∃ after, (new { stepLimit := some 1 }).execute #[0x60, 5] = .ok () after :=
    ⟨_, (run_of_ok rfl).trans (run_of_le (by decide))⟩
  obtain ⟨after, hlimited⟩ := hlimited
  obtain ⟨after', hended⟩ := hended
  have hsame := h (new { stepLimit := some 1 }) #[0x60, 5, 0xfe] #[0x60, 5] ?_ (by decide +kernel)
  · rw [hlimited, hended] at hsame
    cases hsame
  · intro fault stop hstop hfault
    rw [hlimited] at hstop
    cases hstop
    cases hfault

theorem execute_reassembled_underflow :
    assemble (text #[0x60, 5, 0x01, 0xfe, 0x61, 0]) = .ok #[0x60, 5, 0x01] ∧
      ∃ after, (new {}).execute #[0x60, 5, 0x01] = .error .stackUnderflow after ∧
        after.pc = 2 ∧ after.steps = 1 ∧ after.stack.toList = [] := by
  have hfault : ∃ after,
      (new {}).execute #[0x60, 5, 0x01, 0xfe, 0x61, 0] = .error .stackUnderflow after ∧
        after.pc = 2 ∧ after.steps = 1 ∧ after.stack.toList = [] :=
    ⟨_, (run_of_ok rfl).trans (run_of_error rfl), rfl, rfl, rfl⟩
  obtain ⟨after, hfault, hpc, hsteps, hstack⟩ := hfault
  have htext : assemble (text #[0x60, 5, 0x01, 0xfe, 0x61, 0]) = .ok #[0x60, 5, 0x01] := by
    decide +kernel
  obtain ⟨r, hr, hrun⟩ := execute_reassembled (new {}) #[0x60, 5, 0x01, 0xfe, 0x61, 0] (by
    intro fault stop hstop hcode
    rw [hfault] at hstop
    cases hstop
    cases hcode)
  rw [htext] at hr
  cases hr
  rw [hfault, reduced_error (by decide)] at hrun
  exact ⟨htext, _, hrun, hpc, hsteps, hstack⟩

end Listing

end WordStack
