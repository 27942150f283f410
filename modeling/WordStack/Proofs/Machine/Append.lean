import WordStack.Proofs.Machine.Trail

/-! # Runs of code that is put together

Let `a` be well-formed code. The machine goes through `a ++ b` as it goes through `a`, up to the end
of `a` or a fault (`run_extended`). If it meets no `STOP` on the way, it goes on from there as it
goes through `b` on the same stack; only that offsets are counted from the beginning of `a`, and the
steps in `a` count too (`run_behind`). If there is a `STOP` in `a`, nothing depends on `b`.

`execute_append` puts these together. -/

namespace WordStack

open Fragment

/-- Among what the code decodes to is a `STOP`. -/
def Bytecode.HasStop (code : List UInt8) : Prop := instruction ⟨.stop, []⟩ ∈ decode code

instance (code : List UInt8) : Decidable (Bytecode.HasStop code) := by
  unfold Bytecode.HasStop; infer_instance

/-- The fault with its offset, if it tells one, counted from a place `distance` bytes before. -/
def Fault.shift (distance : Nat) : Fault → Fault
  | truncatedOperand offset requested available =>
    truncatedOperand (distance + offset) requested available
  | invalidOpcode byte offset => invalidOpcode byte (distance + offset)
  | fault => fault

theorem Fault.OfStack.shift_eq {fault : Fault} (h : fault.OfStack) (distance : Nat) :
    fault.shift distance = fault := by
  cases h <;> rfl

/-! ## Where there is a `STOP` -/

namespace Bytecode

theorem not_hasStop_nil : ¬ HasStop [] := by
  unfold HasStop
  rw [decode_nil]
  exact List.not_mem_nil

theorem hasStop_encode_append {i : Instruction} (hi : i.WellFormed) (rest : List UInt8) :
    HasStop (i.encode ++ rest) ↔ i.opcode = .stop ∨ HasStop rest := by
  unfold HasStop
  rw [decode_encode_append hi, List.mem_cons]
  refine or_congr_left ⟨fun h => ?_, fun hop => ?_⟩
  · rw [← Fragment.instruction.inj h]
  · obtain ⟨op, operand⟩ := i
    obtain ⟨-, hlen⟩ := hi
    subst hop
    have hnil : operand = [] := List.eq_nil_of_length_eq_zero hlen
    rw [hnil]

end Bytecode

namespace Machine

variable {m : Machine}

theorem allowed_of_free (hfree : m.config.stepLimit = none) : m.Allowed := by
  intro limit hl
  rw [hfree] at hl
  exact absurd hl (by simp)

/-! ## Other code in front -/

/-- The machine with other code in front of its own, which took `done` steps. -/
def behind (a : Bytecode) (done : Nat) (m : Machine) : Machine :=
  { m with code := a ++ m.code, pc := a.size + m.pc, steps := done + m.steps }

theorem remaining_behind (a : Bytecode) (done : Nat) (m : Machine) :
    (m.behind a done).remaining = m.remaining := by
  show (a ++ m.code).toList.drop (a.size + m.pc) = m.code.toList.drop m.pc
  rw [Array.toList_append, ← Array.length_toList, List.drop_length_add_append]

theorem status_behind (a : Bytecode) (done : Nat) (m : Machine) :
    (m.behind a done).status = m.status := by
  show (if a.size + m.pc < (a ++ m.code).size then _ else _) = if m.pc < m.code.size then _ else _
  rw [Array.size_append]
  by_cases h : m.pc < m.code.size
  · rw [if_pos h, if_pos (by omega)]
  · rw [if_neg h, if_neg (by omega)]

theorem advance_behind (a : Bytecode) (done : Nat) (m : Machine) (op : Opcode) (stack : Stack) :
    (m.behind a done).advance op stack = (m.advance op stack).behind a done := by
  have hnext : (m.behind a done).next op = a.size + m.next op := by
    have hsize : (m.behind a done).code.size = a.size + m.code.size := Array.size_append
    have hpc : (m.behind a done).pc = a.size + m.pc := rfl
    unfold next
    simp only [hsize, hpc]
    split <;> split <;> split <;> omega
  have hsteps : (m.behind a done).steps + 1 = done + (m.steps + 1) := Nat.add_assoc _ _ _
  unfold advance
  rw [hnext, hsteps]
  rfl

theorem step_behind (a : Bytecode) (done : Nat) (m : Machine) (hfree : m.config.stepLimit = none) :
    (m.behind a done).step = carry (·.shift a.size) (·.behind a done) m.step := by
  have ha : (m.behind a done).Allowed := allowed_of_free hfree
  have hremaining := remaining_behind a done m
  have hc := step_cases m
  generalize hr : m.step = r at hc
  cases hc with
  | halted hd =>
    have hle : (m.behind a done).code.size ≤ (m.behind a done).pc := by
      rw [← decode_eq_nil_iff, hremaining]
      exact hd
    exact step_of_le hle
  | limited _ hl =>
    rw [hfree] at hl
    exact absurd hl (by simp)
  | unknown hd =>
    rw [← hremaining] at hd
    exact step_of_unknown hd ha
  | truncated hd =>
    rw [← hremaining] at hd
    exact step_of_truncated hd ha
  | faulted hd _ he =>
    rw [← hremaining] at hd
    have hfault := stackFaults_effect _ _ _ _ _ he
    rw [carry_error, hfault.shift_eq]
    exact step_of_effect_error hd ha he
  | executed hd _ he =>
    rw [← hremaining] at hd
    have hs := step_of_effect_ok hd ha he
    rw [advance_behind, status_behind] at hs
    exact hs

theorem run_behind (a : Bytecode) (done : Nat) (hfree : m.config.stepLimit = none) :
    (m.behind a done).run = carry (·.shift a.size) (·.behind a done) m.run := by
  refine run_carry (step_behind a done) (fun m status after hm h => ?_) hfree
  rw [config_of_step h]
  exact hm

/-! ## Other code behind -/

/-- The machine with other code behind its own. -/
def extended (b : Bytecode) (m : Machine) : Machine := { m with code := m.code ++ b }

theorem remaining_extended (b : Bytecode) (hpc : m.pc ≤ m.code.size) :
    (m.extended b).remaining = m.remaining ++ b.toList := by
  show (m.code ++ b).toList.drop m.pc = m.code.toList.drop m.pc ++ b.toList
  rw [Array.toList_append, List.drop_append_of_le_length (by rw [Array.length_toList]; exact hpc)]

theorem advance_extended (b : Bytecode) (m : Machine) {op : Opcode} (hop : op ≠ .stop)
    (stack : Stack) : (m.extended b).advance op stack = (m.advance op stack).extended b := by
  have hnext : (m.extended b).next op = m.next op := by
    rw [next_of_ne _ hop, next_of_ne _ hop]
    rfl
  unfold advance
  rw [hnext]
  rfl

/-- The machine at the end of its code. -/
def atEnd (m : Machine) : Machine := { m with pc := m.code.size }

theorem advance_stop_extended (b : Bytecode) (hpc : m.pc < m.code.size) (stack : Stack) :
    (m.extended b).advance .stop stack = ((m.advance .stop stack).extended b).atEnd := by
  have hlt : (m.extended b).pc < (m.extended b).code.size := by
    show m.pc < (m.code ++ b).size
    rw [Array.size_append]
    omega
  rw [advance_stop hlt]
  rfl

/-- How the run of well-formed code ends if the code `b` follows it, from how it ends alone. -/
def onward (b : Bytecode) (code : List UInt8) :
    EStateM.Result Fault Machine Unit → EStateM.Result Fault Machine Unit
  | .error fault after => .error fault (after.extended b)
  | .ok _ after =>
    if Bytecode.HasStop code then .ok () (after.extended b).atEnd else (after.extended b).run

theorem onward_congr (b : Bytecode) {code code' : List UInt8}
    (h : Bytecode.HasStop code ↔ Bytecode.HasStop code')
    (r : EStateM.Result Fault Machine Unit) : onward b code r = onward b code' r := by
  cases r with
  | error fault after => rfl
  | ok u after => simp only [onward, h]

/-- **Well-formed code is gone through to its end**, whatever follows it: up to a fault, up to a
`STOP`, or up to where the code behind it begins. -/
theorem run_extended (b : Bytecode) {code : List UInt8} (hwf : Bytecode.WellFormed code) :
    ∀ {m : Machine}, m.remaining = code → m.pc ≤ m.code.size → m.config.stepLimit = none →
      (m.extended b).run = onward b code m.run := by
  -- The machine varies along the code: after an instruction it stands at the rest.
  induction hwf with
  | nil =>
    intro m hcode hle hfree
    have hlen := congrArg List.length hcode
    rw [length_remaining, List.length_nil] at hlen
    have hend : m.run = .ok () m := run_of_le (by omega)
    rw [hend, onward, if_neg Bytecode.not_hasStop_nil]
  | @cons byte op operand rest hop hlen hrest ih =>
    intro m hcode hle hfree
    have hi : Instruction.WellFormed ⟨op, operand⟩ := ⟨Opcode.inUse_of_ofByte? hop, hlen⟩
    have hbytes : byte :: (operand ++ rest) = Instruction.encode ⟨op, operand⟩ ++ rest := by
      rw [Instruction.encode, Opcode.toByte_of_ofByte? hop, List.cons_append]
    rw [hbytes] at hcode ⊢
    have hd : decode m.remaining = instruction ⟨op, operand⟩ :: decode rest := by
      rw [hcode, decode_encode_append hi]
    have hd' : decode (m.extended b).remaining =
        instruction ⟨op, operand⟩ :: decode (rest ++ b.toList) := by
      rw [remaining_extended b hle, hcode, List.append_assoc, decode_encode_append hi]
    have ha : m.Allowed := allowed_of_free hfree
    have ha' : (m.extended b).Allowed := allowed_of_free hfree
    cases he : effect op (Word.ofBytes operand) m.stack with
    | error fault stack =>
      have hs := step_of_effect_error hd ha he
      have hs' := step_of_effect_error hd' ha' he
      rw [run_of_error hs, run_of_error hs']
      rfl
    | ok u stack =>
      have hs := step_of_effect_ok hd ha he
      have hs' := step_of_effect_ok hd' ha' he
      have hstops := Bytecode.hasStop_encode_append hi rest
      rw [run_of_ok hs, run_of_ok hs']
      by_cases hstop : op = .stop
      · subst hstop
        have hpc := (pc_lt_iff m).mpr (by rw [hd]; simp)
        rw [run_advance_stop, run_advance_stop, onward, if_pos (hstops.mpr (Or.inl rfl)),
          advance_stop_extended b hpc]
      · have hsame : Bytecode.HasStop (Instruction.encode ⟨op, operand⟩ ++ rest) ↔
            Bytecode.HasStop rest := hstops.trans (or_iff_right hstop)
        have hrest' := remaining_advance hcode hi hstop stack
        have hpc := (pc_lt_iff m).mpr (by rw [hd]; simp)
        obtain ⟨-, hle', -, -, -, -⟩ := step_ok hs hpc
        rw [advance_extended b m hstop, onward_congr b hsame]
        exact ih hrest' hle' hfree

/-! ## Code that is put together -/

/-- **Programs compose**: well-formed code `a` in front of any other code `b`, without a step limit
and whatever is on the stack. A fault in `a` ends the run as it ends that of `a`, and after a `STOP`
in `a` nothing more is done. Else the run is that of `a` and then, on the machine that this leaves,
that of `b`, with offsets moved on by the length of `a` and the steps of both. -/
theorem execute_append {a : Bytecode} (ha : Bytecode.WellFormed a.toList) (b : Bytecode)
    (hfree : m.config.stepLimit = none) :
    m.execute (a ++ b) =
      match m.execute a with
      | .error fault after => .error fault (after.extended b)
      | .ok _ middle =>
        if Bytecode.HasStop a.toList then .ok () (middle.extended b).atEnd
        else carry (·.shift a.size) (·.behind a middle.steps) (middle.execute b) := by
  have hrun : m.execute (a ++ b) = onward b a.toList (m.execute a) :=
    run_extended b ha (m := m.load a) List.drop_zero (Nat.zero_le _) hfree
  rw [hrun]
  cases hr : m.execute a with
  | error fault after => rfl
  | ok u middle =>
    obtain ⟨hpc, hcode, hconfig⟩ := run_ok (m.load a) hr (Nat.zero_le _)
    have hresume : middle.extended b = (middle.load b).behind a middle.steps := by
      unfold extended behind load
      rw [hcode, hpc]
      rfl
    have hfree' : (middle.load b).config.stepLimit = none := by
      show middle.config.stepLimit = none
      rw [hconfig]
      exact hfree
    have hrest : (middle.extended b).run =
        carry (·.shift a.size) (·.behind a middle.steps) (middle.execute b) := by
      rw [hresume]
      exact run_behind a middle.steps hfree'
    rw [onward, hrest]

theorem execute_append_unknown :
    ∃ after, (new {}).execute (#[0x60, 5] ++ #[0x50, 0xfe]) = .error (.invalidOpcode 0xfe 3) after ∧
      after.pc = 3 ∧ after.steps = 2 ∧ after.stack.toList = [] := by
  have ha : Bytecode.WellFormed [0x60, 5] :=
    @Bytecode.WellFormed.cons 0x60 (.push 1) [5] [] rfl rfl .nil
  have hstop : ¬ Bytecode.HasStop (#[0x60, 5] : Bytecode).toList := by decide +kernel
  obtain ⟨middle, hmiddle, hsteps, last, hlast, hpc, hcount, hstack⟩ :
      ∃ middle, (new {}).execute #[0x60, 5] = .ok () middle ∧ middle.steps = 1 ∧
        ∃ last, middle.execute #[0x50, 0xfe] = .error (.invalidOpcode 0xfe 1) last ∧ last.pc = 1 ∧
          last.steps = 1 ∧ last.stack.toList = [] :=
    ⟨_, (run_of_ok rfl).trans (run_of_le (by decide)), rfl, _,
      (run_of_ok rfl).trans (run_of_error rfl), rfl, rfl, rfl⟩
  have hrun := execute_append (m := new {}) (a := #[0x60, 5]) ha #[0x50, 0xfe] rfl
  simp only [hmiddle, hlast, if_neg hstop, carry_error] at hrun
  refine ⟨_, hrun, ?_, ?_, hstack⟩
  · show 2 + last.pc = 3
    omega
  · show middle.steps + last.steps = 2
    omega

end Machine

end WordStack
