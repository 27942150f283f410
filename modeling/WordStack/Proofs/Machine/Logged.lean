import WordStack.Machine.Trace
import WordStack.Proofs.Machine.Notice
import WordStack.Proofs.Machine.Termination

/-! # Runs that write their log

A run tells of each instruction before it reads the operand, and at last that it is halted. With a
log beside it, a machine writes each notice at the moment at which it has it (`runLogged`).

* `runLogged_eq`: the log does not disturb the run, whatever is written, and what it has in the end
  is the trace of the run.
* `exists_opcodes`: there is a notice for each step, one more for an instruction that is decoded and
  then faults, and one for the end, if the run gets there.
* `execute_logged`: both together, in the words of the log. -/

namespace WordStack

open Fragment Numeral

/-- Does the fault come from an instruction, after it was decoded? -/
def Fault.isDecoded : Fault → Bool
  | invalidOpcode _ _ | stepLimitExceeded _ => false
  | _ => true

theorem Fault.OfStack.isDecoded {fault : Fault} (h : fault.OfStack) : fault.isDecoded := by
  cases h <;> rfl

namespace Machine

variable {m after : Machine} {status : Status} {fault : Fault} {op : Opcode}

/-! ## The notice of a step -/

/-- The machine stands at this opcode, and tells of it before it does anything else. -/
structure Tells (m : Machine) (op : Opcode) : Prop where
  opcode_eq : m.code[m.pc]?.bind Opcode.ofByte? = some op
  notice_eq : m.notice? = some (.executing m.pc op)

theorem tells_of_byte (hpc : m.pc < m.code.size) (ha : m.Allowed)
    (h : Opcode.ofByte? m.code[m.pc] = some op) : m.Tells op where
  opcode_eq := by rw [Array.getElem?_eq_getElem hpc, Option.bind_some, h]
  notice_eq := notice?_of_fetch hpc (fetch_of_some ha h)

theorem tells_of_instruction {i : Instruction} {fs : List Fragment}
    (hd : decode m.remaining = instruction i :: fs) (ha : m.Allowed) : m.Tells i.opcode := by
  obtain ⟨hpc, hbyte, hsound, -⟩ := code_of_decode hd rfl
  exact tells_of_byte hpc ha (by rw [hbyte]; exact hsound.inUse)

theorem tells_of_truncated {operand : List UInt8} {fs : List Fragment}
    (hd : decode m.remaining = truncated op operand :: fs) (ha : m.Allowed) : m.Tells op := by
  obtain ⟨hpc, hbyte, hsound, -⟩ := code_of_decode hd rfl
  exact tells_of_byte hpc ha (by rw [hbyte]; exact hsound.1)

theorem tells_of_ok (hpc : m.pc < m.code.size) (h : m.step = .ok status after) :
    ∃ op, m.Tells op := by
  have hc := step_cases m
  rw [h] at hc
  cases hc with
  | halted hd => exact absurd hd ((pc_lt_iff m).mp hpc)
  | executed hd ha he => exact ⟨_, tells_of_instruction hd ha⟩

theorem tells_of_error (h : m.step = .error fault after) :
    if fault.isDecoded then ∃ op, m.Tells op else m.notice? = none := by
  have hc := step_cases m
  obtain ⟨hpc, -⟩ := step_error h
  rw [h] at hc
  cases hc with
  | limited _ hl hle => exact notice?_of_fetch_error hpc (fetch_of_limit hl hle _)
  | unknown hd ha =>
    obtain ⟨hpc, hbyte, hsound, -⟩ := code_of_decode hd rfl
    exact notice?_of_fetch_error hpc (fetch_of_none ha (by rw [hbyte]; exact hsound))
  | truncated hd ha => exact ⟨_, tells_of_truncated hd ha⟩
  | faulted hd ha he =>
    rw [if_pos (stackFaults_effect _ _ _ _ _ he).isDecoded]
    exact ⟨_, tells_of_instruction hd ha⟩

/-! ## The notices of a run -/

/-- The number of instructions that a run has decoded: those executed, and one more that faulted. -/
def decodings : EStateM.Result Fault Machine Unit → Nat
  | .ok _ after => after.steps
  | .error fault after => after.steps + if fault.isDecoded then 1 else 0

/-- The notice of the end of a run, if it comes there. -/
def closing : EStateM.Result Fault Machine Unit → List Notice
  | .ok _ after => [.halted after.steps after.stack.size]
  | .error _ _ => []

theorem exists_opcodes_of_error (h : m.step = .error fault after) : ∃ opcodes : List Opcode,
    opcodes.length = (if fault.isDecoded then 1 else 0) ∧
    (∀ k op, opcodes[k]? = some op →
      (m.stepped k).code[(m.stepped k).pc]?.bind Opcode.ofByte? = some op) ∧
    m.notices = opcodes.mapIdx fun k op => Notice.executing (m.stepped k).pc op := by
  have htells := tells_of_error h
  rw [notices_of_error h]
  by_cases hf : fault.isDecoded
  · rw [if_pos hf] at htells ⊢
    obtain ⟨op, ht⟩ := htells
    refine ⟨[op], rfl, fun k op' hk => ?_, ?_⟩
    · cases k with
      | zero =>
        rw [← Option.some.inj hk]
        exact ht.opcode_eq
      | succ k => exact absurd hk (by simp)
    · rw [ht.notice_eq]
      rfl
  · rw [if_neg hf] at htells ⊢
    refine ⟨[], rfl, fun k op hk => absurd hk (by simp), ?_⟩
    rw [htells]
    rfl

/-- **The notices of a run**: one for each instruction that it decodes, in order and with the place
at which the machine stands then, and one for the end. -/
theorem exists_opcodes (m : Machine) : ∃ opcodes : List Opcode,
    m.steps + opcodes.length = decodings m.run ∧
    (∀ k op, opcodes[k]? = some op →
      (m.stepped k).code[(m.stepped k).pc]?.bind Opcode.ofByte? = some op) ∧
    m.notices =
      (opcodes.mapIdx fun k op => Notice.executing (m.stepped k).pc op) ++ closing m.run := by
  induction m using run_induction with
  | halted m hle hrun =>
    refine ⟨[], ?_, fun k op hk => absurd hk (by simp), ?_⟩
    · rw [hrun]
      rfl
    · rw [hrun, notices_of_le hle]
      rfl
  | faulted m after fault h hrun =>
    obtain ⟨-, hafter⟩ := step_error h
    obtain ⟨opcodes, hlen, hops, hnotices⟩ := exists_opcodes_of_error h
    refine ⟨opcodes, ?_, hops, ?_⟩
    · rw [hrun, decodings, hlen, hafter]
    · rw [hrun, hnotices, closing, List.append_nil]
  | stepped m after status hpc h hrun ih =>
    obtain ⟨-, -, -, -, hsteps, -⟩ := step_ok h hpc
    obtain ⟨op, ht⟩ := tells_of_ok hpc h
    obtain ⟨opcodes, hlen, hops, hnotices⟩ := ih
    refine ⟨op :: opcodes, ?_, fun k op' hk => ?_, ?_⟩
    · rw [hrun, ← hlen, List.length_cons]
      omega
    · cases k with
      | zero =>
        rw [← Option.some.inj hk]
        exact ht.opcode_eq
      | succ k =>
        rw [stepped_succ h]
        exact hops k op' hk
    · rw [notices_of_ok hpc h, ht.notice_eq, hrun, hnotices, List.mapIdx_cons]
      simp only [stepped_succ h]
      rfl

/-! ## The log beside the machine -/

/-- The text of some notices in the log. -/
def told (logger : Log.Logger) (notices : List Notice) : String :=
  String.join (notices.map fun notice => logger.report .debug notice.message)

section

variable {logger : Log.Logger}

theorem recorded_report (notices : List Notice) (log : String) :
    recorded (fun notice log => log ++ logger.report .debug notice.message) notices log =
      log ++ told logger notices := by
  induction notices generalizing log with
  | nil => exact (String.append_empty).symm
  | cons notice notices ih =>
    rw [told, List.map_cons, String.join_cons, ← String.append_assoc]
    exact ih _

/-- **The log does not disturb the run**, and what it has in the end is the trace of the run. -/
theorem runLogged_eq (logger : Log.Logger) (m : Machine) (log : String) :
    m.runLogged logger log = noted (log ++ m.trace logger) m.run := by
  rw [runLogged, runWith_eq, recorded_report]
  rfl

/-! ## The words of the log -/

theorem report_debug (message : String) :
    logger.report .debug message =
      if logger.settings.threshold = .debug then logger.write .debug message else "" := by
  unfold Log.Logger.report Log.Logger.enabled
  cases logger.settings.threshold <;> rfl

theorem told_eq (notices : List Notice) :
    told logger notices =
      if logger.settings.threshold = .debug then
        String.join ((notices.map Notice.message).map (logger.write .debug))
      else "" := by
  split
  · next h =>
    simp only [told, report_debug, if_pos h, List.map_map, Function.comp_def]
  · next h =>
    simp only [told, report_debug, if_neg h]
    induction notices with
    | nil => rfl
    | cons notice notices ih => rw [List.map_cons, String.join_cons, ih, String.append_empty]

end

theorem map_message_executing (opcodes : List Opcode) (place : Nat → Nat) :
    (opcodes.mapIdx fun k op => Notice.executing (place k) op).map Notice.message =
      opcodes.mapIdx fun k op => hexPadded 4 (place k) ++ ": " ++ op.mnemonic := by
  refine List.ext_getElem? fun k => ?_
  rw [List.getElem?_map, List.getElem?_mapIdx, List.getElem?_mapIdx, Option.map_map]
  rfl

theorem map_message_closing (result : EStateM.Result Fault Machine Unit) :
    (closing result).map Notice.message = match result with
      | .ok _ after => ["halted after " ++ decimal after.steps ++ " steps with " ++
          decimal after.stack.size ++ " words on the stack"]
      | .error _ _ => [] := by
  cases result <;> rfl

/-- **The trace is the run.** At the level of debugging, the log gets a line for each instruction
that is decoded, in order: the instructions of the steps that the run takes, and then one that
faults, unless the run ends for another reason. The last line is that of the end, if the run comes
there. Above that level the log gets nothing. Whatever is logged, a run that writes its log as it
goes ends like one that has none, on the same machine. -/
theorem execute_logged (logger : Log.Logger) (m : Machine) (code : Bytecode) (log : String) :
    let start := m.load code
    start.Takes (left (m.execute code)).steps ∧
    (∃ opcodes : List Opcode,
      opcodes.length = decodings (m.execute code) ∧
      (∀ k op, opcodes[k]? = some op →
        code[(start.stepped k).pc]?.bind Opcode.ofByte? = some op) ∧
      start.trace logger =
        if logger.settings.threshold = .debug then
          String.join (((opcodes.mapIdx fun k op =>
            hexPadded 4 (start.stepped k).pc ++ ": " ++ op.mnemonic) ++
              match m.execute code with
              | .ok _ after => ["halted after " ++ decimal after.steps ++ " steps with " ++
                  decimal after.stack.size ++ " words on the stack"]
              | .error _ _ => []).map (logger.write .debug))
        else "") ∧
    start.runLogged logger log = noted (log ++ start.trace logger) (m.execute code) := by
  intro start
  obtain ⟨k, -, htakes⟩ := exists_takes start
  obtain ⟨opcodes, hlen, hops, hnotices⟩ := exists_opcodes start
  have hsteps : (left (m.execute code)).steps = k := by
    rw [← Nat.zero_add k]
    exact htakes.steps_eq
  refine ⟨hsteps ▸ htakes, ⟨opcodes, ?_, fun k op hk => ?_, ?_⟩, runLogged_eq logger start log⟩
  · rw [← Nat.zero_add opcodes.length]
    exact hlen
  · rw [← hops k op hk, code_stepped]
    rfl
  · show told logger start.notices = _
    rw [told_eq, hnotices, List.map_append, map_message_executing, map_message_closing]
    rfl

end Machine

end WordStack
