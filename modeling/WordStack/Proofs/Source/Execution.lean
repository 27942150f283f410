import WordStack.Proofs.Machine.History
import WordStack.Proofs.Source.Meaning

/-! # Runs of assembled programs

The code of a source text does what its program says. An instruction does to the words on the stack
what its command does to their values (`realizes_effect`); so a run of instructions is the program
of their commands, step after step (`run_program`), and a run of assembled code is the program of
the source (`execute_assembled`). -/

namespace WordStack

open Fragment Source

/-- The command does to the values of the words what was done to the words. -/
inductive Source.Command.Realizes (capacity : Nat) (command : Command) (l : List Word) :
    EStateM.Result Fault Stack Unit → Prop where
  | ok {l' : List Word}
      (h : command.act capacity (l.map BitVec.toNat) = .ok (l'.map BitVec.toNat)) :
      Realizes capacity command l (.ok () (Stack.ofList capacity l'))
  | error {fault : Fault} {l' : List Word}
      (h : command.act capacity (l.map BitVec.toNat) = .error (fault, l'.map BitVec.toNat)) :
      Realizes capacity command l (.error fault (Stack.ofList capacity l'))

namespace Machine

open Stack

variable {capacity : Nat} {l : List Word}

/-! ## Instructions -/

theorem toNat_ofBool (b : Bool) : (Word.ofBool b).toNat = if b then 1 else 0 := by
  cases b <;> rfl

theorem realizes_binary {f : Word → Word → Word} {command : Command} (hl : l.length ≤ capacity)
    (hnil : command.act capacity [] = .error (.stackUnderflow, []))
    (hone : ∀ a, command.act capacity [a] = .error (.stackUnderflow, []))
    (htwo : ∀ (a b : Word) s,
      command.act capacity (a.toNat :: b.toNat :: s) = .ok ((f a b).toNat :: s)) :
    command.Realizes capacity l (binary f (ofList capacity l)) := by
  rw [binary_ofList]
  match l with
  | [] => exact .error hnil
  | [a] => exact .error (hone a.toNat)
  | a :: b :: l =>
    rw [List.length_cons, List.length_cons] at hl
    simp only []
    rw [push_ofList, if_pos (by omega)]
    exact .ok (htwo a b _)

theorem realizes_unary {f : Word → Word} {command : Command} (hl : l.length ≤ capacity)
    (hnil : command.act capacity [] = .error (.stackUnderflow, []))
    (hone : ∀ (a : Word) s, command.act capacity (a.toNat :: s) = .ok ((f a).toNat :: s)) :
    command.Realizes capacity l (unary f (ofList capacity l)) := by
  rw [unary_ofList]
  match l with
  | [] => exact .error hnil
  | a :: l =>
    rw [List.length_cons] at hl
    simp only []
    rw [push_ofList, if_pos (by omega)]
    exact .ok (hone a _)

theorem realizes_pop : Command.pop.Realizes capacity l (effect .pop 0 (ofList capacity l)) := by
  show Command.pop.Realizes capacity l ((Stack.pop >>= fun _ => pure ()) (ofList capacity l))
  match l with
  | [] => rw [bind_of_error (pop_ofList_nil capacity)]; exact .error rfl
  | a :: l => rw [bind_of_ok (pop_ofList_cons capacity a l)]; exact .ok rfl

theorem realizes_push (width : Nat) (w : Word) :
    (Command.push width w.toNat).Realizes capacity l (push w (ofList capacity l)) := by
  rw [push_ofList]
  split
  · rename_i h
    refine .ok ?_
    rw [Command.act, if_pos (by rw [List.length_map]; exact h)]
    rfl
  · rename_i h
    refine .error ?_
    rw [Command.act, if_neg (by rw [List.length_map]; exact h)]

theorem realizes_duplicate (place : Nat) :
    (Command.dup place).Realizes capacity l (duplicate (place - 1) (ofList capacity l)) := by
  have hget := List.getElem?_map (f := BitVec.toNat) (l := l) (i := place - 1)
  rw [duplicate_ofList]
  cases hw : l[place - 1]? with
  | none =>
    rw [hw] at hget
    refine .error ?_
    rw [Command.act, hget, List.length_map]
    rfl
  | some w =>
    rw [hw] at hget
    simp only []
    rw [push_ofList]
    split
    · rename_i h
      refine .ok ?_
      rw [Command.act, hget]
      exact if_pos (by rw [List.length_map]; exact h)
    · rename_i h
      refine .error ?_
      rw [Command.act, hget]
      exact if_neg (by rw [List.length_map]; exact h)

theorem realizes_swap (distance : Nat) :
    (Command.swap distance).Realizes capacity l (swap distance (ofList capacity l)) := by
  rw [swap_ofList]
  split
  · rename_i h
    refine .ok ?_
    rw [Command.act, if_pos (by rw [List.length_map]; exact h), map_exchange]
  · rename_i h
    refine .error ?_
    rw [Command.act, if_neg (by rw [List.length_map]; exact h), List.length_map]

/-- **An instruction does what its command says.** -/
theorem realizes_effect {i : Instruction} (hi : i.WellFormed) (hl : l.length ≤ capacity) :
    i.command.Realizes capacity l
      (effect i.opcode (Word.ofBytes i.operand) (ofList capacity l)) := by
  have hbytes := Word.toNat_ofBytes_of_le (Instruction.length_operand_le hi)
  obtain ⟨op, operand⟩ := i
  cases op with
  | stop => exact .ok rfl
  | add =>
    refine realizes_binary hl rfl (fun _ => rfl) fun a b s => ?_
    show Command.act capacity .add _ = _
    rw [Command.act, BitVec.toNat_add]
  | sub =>
    refine realizes_binary hl rfl (fun _ => rfl) fun a b s => ?_
    show Command.act capacity .sub _ = _
    have ha := a.isLt
    have hb := b.isLt
    have hsub : (((a.toNat : Int) - b.toNat) % 2 ^ 256).toNat =
        (2 ^ 256 - b.toNat + a.toNat) % 2 ^ 256 := by omega
    rw [Command.act, BitVec.toNat_sub, hsub]
  | lt =>
    refine realizes_binary hl rfl (fun _ => rfl) fun a b s => ?_
    show Command.act capacity .lt _ = _
    rw [Command.act, toNat_ofBool]
    simp only [decide_eq_true_eq, BitVec.lt_def]
  | gt =>
    refine realizes_binary hl rfl (fun _ => rfl) fun a b s => ?_
    show Command.act capacity .gt _ = _
    rw [Command.act, toNat_ofBool]
    simp only [decide_eq_true_eq, BitVec.lt_def, gt_iff_lt]
  | eq =>
    refine realizes_binary hl rfl (fun _ => rfl) fun a b s => ?_
    show Command.act capacity .eq _ = _
    rw [Command.act, toNat_ofBool]
    simp only [beq_iff_eq, BitVec.toNat_inj]
  | isZero =>
    refine realizes_unary hl rfl fun a s => ?_
    show Command.act capacity .isZero _ = _
    have hzero : a.toNat = 0 ↔ a = 0 := BitVec.toNat_inj (x := a) (y := 0)
    rw [Command.act, toNat_ofBool]
    simp only [beq_iff_eq, hzero]
  | pop => exact realizes_pop
  | push width =>
    show (Command.push width.toNat (bytesValue operand)).Realizes capacity l
      (push (Word.ofBytes operand) (ofList capacity l))
    rw [← hbytes]
    exact realizes_push _ _
  | dup place => exact realizes_duplicate _
  | swap distance => exact realizes_swap _

/-! ## Runs -/

/-- How a run ended, in numbers. -/
def outcome : EStateM.Result Fault Machine Unit → Outcome
  | .ok _ after => ⟨none, after.stack.toList.map BitVec.toNat, after.steps⟩
  | .error fault after => ⟨some fault, after.stack.toList.map BitVec.toNat, after.steps⟩

/-- **A run of instructions is the program of their commands.** -/
theorem outcome_run : ∀ (is : List Instruction) (m : Machine), (∀ i ∈ is, i.WellFormed) →
    m.remaining = is.flatMap Instruction.encode → m.stack.size ≤ m.stack.capacity →
    outcome m.run = interpret m.stack.capacity m.config.stepLimit (is.map Instruction.command)
      (m.stack.toList.map BitVec.toNat) m.steps
  | [], m, _, hcode, _ => by
    have hle : m.code.size ≤ m.pc := by
      have hlen := congrArg List.length hcode
      rw [length_remaining, List.flatMap_nil, List.length_nil] at hlen
      omega
    rw [run_of_le hle]
    rfl
  | i :: is, m, hwf, hcode, hsize => by
    have hi := hwf i List.mem_cons_self
    have hd : decode m.remaining = instruction i :: decode (is.flatMap Instruction.encode) := by
      rw [hcode, List.flatMap_cons, decode_encode_append hi]
    have hrealizes := realizes_effect hi (l := m.stack.toList)
      (show _ ≤ m.stack.capacity by rw [length_toList]; exact hsize)
    rw [ofList_toList] at hrealizes
    rw [List.map_cons]
    have hc := step_cases m
    generalize hr : m.step = r at hc
    cases hc with
    | halted hn => rw [hn] at hd; exact absurd hd (by simp)
    | unknown hn => rw [hn] at hd; exact absurd hd (by simp)
    | truncated hn => rw [hn] at hd; exact absurd hd (by simp)
    | limited _ hlimit hle =>
      rw [run_of_error hr, interpret_limited (filter_of_limit hlimit hle)]
      rfl
    | faulted hj ha he =>
      rw [hj] at hd
      cases (List.cons.inj hd).1
      rw [he] at hrealizes
      cases hrealizes with
      | error hact =>
        rw [run_of_error hr, interpret_error (filter_of_allowed ha) hact, outcome, toList_ofList]
    | executed hj ha he =>
      rw [hj] at hd
      cases (List.cons.inj hd).1
      have hkeeps := keeps_effect i.opcode (Word.ofBytes i.operand) m.stack hsize
      rw [he] at hrealizes hkeeps
      cases hrealizes with
      | @ok l' hact =>
        rw [run_of_ok hr]
        by_cases hstop : i.opcode = .stop
        · have hle : (m.advance i.opcode (ofList m.stack.capacity l')).code.size ≤
              (m.advance i.opcode (ofList m.stack.capacity l')).pc := by
            rw [hstop]
            exact size_le_next_stop m
          rw [run_of_le hle, interpret_stop (filter_of_allowed ha) hact
            (Instruction.command_eq_stop_iff.mpr hstop)]
          simp only [outcome, advance, toList_ofList]
        · have hrest := remaining_advance (hcode.trans List.flatMap_cons) hi hstop
            (ofList m.stack.capacity l')
          have hwf' : ∀ j ∈ is, j.WellFormed := fun j hj => hwf j (List.mem_cons_of_mem _ hj)
          rw [outcome_run is _ hwf' hrest hkeeps.2, interpret_ok (filter_of_allowed ha) hact
            fun h => hstop (Instruction.command_eq_stop_iff.mp h)]
          simp only [advance, toList_ofList, capacity_ofList]

/-- **Where a run of instructions faults**: in front of one of them, with all those before it
executed, and neither for a byte that is no opcode nor for a truncated push. -/
theorem fault_run {is : List Instruction} {m after : Machine} {fault : Fault}
    (hwf : ∀ i ∈ is, i.WellFormed) (hcode : m.remaining = is.flatMap Instruction.encode)
    (h : m.run = .error fault after) :
    ∃ k, after.steps = m.steps + k ∧
      after.pc = m.pc + (((is.map Instruction.command).take k).map Command.length).sum ∧
      (∀ byte offset, fault ≠ .invalidOpcode byte offset) ∧
      ∀ offset requested available, fault ≠ .truncatedOperand offset requested available := by
  obtain ⟨last, hlast, hstep⟩ := step_of_run_error h
  rw [List.getLast?_eq_getElem?] at hlast
  obtain ⟨-, -, hsteps, f, fs, hd, hlocated⟩ := trail_located m hlast
  rw [hcode, decode_flatMap_encode hwf] at hlocated
  obtain ⟨hf, hpc⟩ := getElem?_located _ hlocated
  obtain ⟨-, hafter⟩ := step_error hstep
  rw [List.getElem?_map] at hf
  obtain ⟨i, hi, rfl⟩ := Option.map_eq_some_iff.mp hf
  refine ⟨m.trail.length - 1, ?_, ?_, ?_, ?_⟩
  · rw [hafter]
    exact hsteps
  · rw [hafter, List.map_take, ← Instruction.length_commands hwf, ← List.map_take]
    exact hpc
  · intro byte offset hfault
    rw [hfault] at hstep
    have hunknown := (step_invalidOpcode_iff hd (by rw [hstep]; simp) byte offset).mp ⟨after, hstep⟩
    exact absurd hunknown.2 (by simp)
  · intro offset requested available hfault
    rw [hfault] at hstep
    obtain ⟨-, op, operand, htruncated, -⟩ := (step_truncatedOperand_iff hd (by rw [hstep]; simp)
      offset requested available).mp ⟨after, hstep⟩
    exact absurd htruncated (by simp)

/-- **Assembled code does what the source says**, line after line, on every machine whose stack is
within its capacity: with the same fault or none, the same words on the stack at the end and the
same count of steps. A fault leaves the program counter behind the bytes of the lines before, and it
is never one of the code. -/
theorem execute_assembled {source : String} {code : Bytecode} {m : Machine}
    (h : assemble source = .ok code) (hcapacity : m.stack.capacity = m.config.stackCapacity)
    (hsize : m.stack.size ≤ m.config.stackCapacity) :
    ∃ commands, program? source = some commands ∧
      (commands.map Command.length).sum = code.size ∧
      outcome (m.execute code) = interpret m.config.stackCapacity m.config.stepLimit commands
        (m.stack.toList.map BitVec.toNat) 0 ∧
      ∀ fault after, m.execute code = .error fault after →
        after.pc = ((commands.take after.steps).map Command.length).sum ∧
        (∀ byte offset, fault ≠ .invalidOpcode byte offset) ∧
        ∀ offset requested available, fault ≠ .truncatedOperand offset requested available := by
  unfold assemble at h
  cases his : instructions source with
  | error e => rw [his] at h; exact absurd h (by simp [Except.map])
  | ok is =>
    rw [his] at h
    obtain ⟨hwf, hprogram⟩ := instructions_ok his
    have hcode : code.toList = is.flatMap Instruction.encode := by
      rw [← Except.ok.inj h, Builder.toList_assemble]
    have hremaining : (m.load code).remaining = is.flatMap Instruction.encode :=
      List.drop_zero.trans hcode
    refine ⟨_, hprogram, ?_, ?_, fun fault after hrun => ?_⟩
    · rw [← Array.length_toList, hcode, List.length_flatMap, List.map_map]
      exact congrArg List.sum
        (List.map_congr_left fun i hi => Instruction.length_command (hwf i hi))
    · have hrun := outcome_run is (m.load code) hwf hremaining (le_of_le_of_eq hsize hcapacity.symm)
      rw [← hcapacity]
      exact hrun
    · obtain ⟨k, hk, hpc, hfault⟩ := fault_run hwf hremaining hrun
      have hk : after.steps = k := hk.trans (Nat.zero_add k)
      rw [hk]
      exact ⟨hpc.trans (Nat.zero_add _), hfault⟩

theorem execute_assembled_underflow :
    assemble "PUSH 5\nadd" = .ok #[0x60, 5, 1] ∧
      ∃ commands, program? "PUSH 5\nadd" = some commands ∧
        outcome ((new {}).execute #[0x60, 5, 1]) = interpret 1024 none commands [] 0 := by
  have h : assemble "PUSH 5\nadd" = .ok #[0x60, 5, 1] := by decide +kernel
  obtain ⟨commands, hprogram, -, hrun, -⟩ := execute_assembled (m := new {}) h rfl (by decide)
  exact ⟨h, commands, hprogram, hrun⟩

end Machine

end WordStack
