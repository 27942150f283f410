import WordStack.Machine.Run
import WordStack.Proofs.Decode
import WordStack.Proofs.Stack

/-! # What a step can do

A step is told by the first fragment of the code from the program counter on (`remaining`).
`step_cases` says everything that a step can do: nothing on a halted machine, a fault for the step
limit, for a byte that is no opcode, for a truncated push or for what the instruction does to the
stack, and else the instruction. What the other statements about steps need follows from it. -/

namespace WordStack.Machine

open Fragment

/-- The code from the program counter on. -/
def remaining (m : Machine) : List UInt8 := m.code.toList.drop m.pc

/-- The limit allows another step. -/
def Allowed (m : Machine) : Prop := ∀ limit, m.config.stepLimit = some limit → m.steps < limit

/-- The machine after an instruction that leaves this stack. -/
def advance (m : Machine) (op : Opcode) (stack : Stack) : Machine :=
  { m with stack, pc := m.next op, steps := m.steps + 1 }

/-- **What a step can do**, by what is decoded at the program counter. -/
inductive StepCase (m : Machine) : EStateM.Result Fault Machine Status → Prop where
  | halted (hd : decode m.remaining = []) : StepCase m (.ok .halted m)
  | limited {f : Fragment} {fs : List Fragment} {limit : Nat} (hd : decode m.remaining = f :: fs)
      (hl : m.config.stepLimit = some limit) (hle : limit ≤ m.steps) :
      StepCase m (.error (.stepLimitExceeded limit) m)
  | unknown {byte : UInt8} {fs : List Fragment} (hd : decode m.remaining = unknown byte :: fs)
      (ha : m.Allowed) : StepCase m (.error (.invalidOpcode byte m.pc) m)
  | truncated {op : Opcode} {operand : List UInt8} {fs : List Fragment}
      (hd : decode m.remaining = truncated op operand :: fs) (ha : m.Allowed) :
      StepCase m (.error (.truncatedOperand m.pc op.width operand.length) m)
  | faulted {i : Instruction} {fs : List Fragment} {fault : Fault} {stack : Stack}
      (hd : decode m.remaining = instruction i :: fs) (ha : m.Allowed)
      (he : effect i.opcode (Word.ofBytes i.operand) m.stack = .error fault stack) :
      StepCase m (.error fault { m with stack })
  | executed {i : Instruction} {fs : List Fragment} {stack : Stack}
      (hd : decode m.remaining = instruction i :: fs) (ha : m.Allowed)
      (he : effect i.opcode (Word.ofBytes i.operand) m.stack = .ok () stack) :
      StepCase m (.ok (m.advance i.opcode stack).status (m.advance i.opcode stack))

/-! ## The code from the program counter on -/

theorem length_remaining (m : Machine) : m.remaining.length = m.code.size - m.pc := by
  simp [remaining]

theorem pc_lt_iff (m : Machine) : m.pc < m.code.size ↔ decode m.remaining ≠ [] := by
  constructor
  · intro h he
    have hbytes := bytes_decode m.remaining
    have hlen := length_remaining m
    rw [he, List.flatMap_nil] at hbytes
    rw [← hbytes, List.length_nil] at hlen
    omega
  · intro h
    by_contra hle
    have hnil : m.remaining = [] := by
      apply List.drop_eq_nil_of_le
      rw [Array.length_toList]
      omega
    rw [hnil] at h
    exact h decode_nil

theorem decode_eq_nil_iff (m : Machine) : decode m.remaining = [] ↔ m.code.size ≤ m.pc := by
  rw [← not_iff_not, ← ne_eq, ← pc_lt_iff]
  omega

theorem remaining_eq_cons {m : Machine} (h : m.pc < m.code.size) :
    m.remaining = m.code[m.pc] :: m.code.toList.drop (m.pc + 1) := by
  unfold remaining
  rw [List.drop_eq_getElem_cons (by rw [Array.length_toList]; exact h), Array.getElem_toList]

theorem toList_extract_succ (m : Machine) (n : Nat) :
    (m.code.extract (m.pc + 1) (m.pc + 1 + n)).toList =
      (m.code.toList.drop (m.pc + 1)).take n := by
  rw [Array.toList_extract, List.extract_eq_take_drop, Nat.add_sub_cancel_left]

/-! ## The parts of a step -/

theorem limited_or_allowed (m : Machine) :
    (∃ limit, m.config.stepLimit = some limit ∧ limit ≤ m.steps) ∨ m.Allowed := by
  by_cases h : ∃ limit, m.config.stepLimit = some limit ∧ limit ≤ m.steps
  · exact Or.inl h
  · refine Or.inr fun limit hl => ?_
    by_contra hle
    exact h ⟨limit, hl, by omega⟩

theorem filter_of_limit {m : Machine} {limit : Nat} (hl : m.config.stepLimit = some limit)
    (hle : limit ≤ m.steps) : m.config.stepLimit.filter (· ≤ m.steps) = some limit := by
  rw [hl, Option.filter_some, if_pos (by simpa using hle)]

theorem filter_of_allowed {m : Machine} (ha : m.Allowed) :
    m.config.stepLimit.filter (· ≤ m.steps) = none := by
  rw [Option.filter_eq_none_iff]
  intro limit hl
  have hlt := ha limit hl
  simpa using hlt

theorem fetch_of_limit {m : Machine} {limit : Nat} (hl : m.config.stepLimit = some limit)
    (hle : limit ≤ m.steps) (byte : UInt8) : m.fetch byte = .error (.stepLimitExceeded limit) := by
  unfold fetch
  rw [filter_of_limit hl hle]

theorem fetch_of_none {m : Machine} (ha : m.Allowed) {byte : UInt8}
    (h : Opcode.ofByte? byte = none) : m.fetch byte = .error (.invalidOpcode byte m.pc) := by
  unfold fetch
  rw [filter_of_allowed ha]
  simp only [h]

theorem fetch_of_some {m : Machine} (ha : m.Allowed) {byte : UInt8} {op : Opcode}
    (h : Opcode.ofByte? byte = some op) : m.fetch byte = .ok op := by
  unfold fetch
  rw [filter_of_allowed ha]
  simp only [h]

theorem operand_of_append {m : Machine} {op : Opcode} {bytes rest : List UInt8}
    (hpc : m.pc < m.code.size) (hlen : bytes.length = op.width)
    (h : m.code.toList.drop (m.pc + 1) = bytes ++ rest) :
    m.operand op = .ok (Word.ofBytes bytes) := by
  have hsize := congrArg List.length h
  rw [List.length_drop, Array.length_toList, List.length_append] at hsize
  unfold operand
  simp only []
  rw [if_pos (by omega), toList_extract_succ, h, ← hlen, List.take_left]

theorem operand_of_lt {m : Machine} {op : Opcode} {bytes : List UInt8}
    (hpc : m.pc < m.code.size) (hlt : bytes.length < op.width)
    (h : m.code.toList.drop (m.pc + 1) = bytes) :
    m.operand op = .error (.truncatedOperand m.pc op.width bytes.length) := by
  have hsize := congrArg List.length h
  rw [List.length_drop, Array.length_toList] at hsize
  unfold operand
  simp only []
  rw [if_neg (by omega), hsize]

theorem step_of_le {m : Machine} (h : m.code.size ≤ m.pc) : m.step = .ok .halted m := by
  unfold step stepWith
  simp only [dif_neg (Nat.not_lt.mpr h)]
  rfl

theorem step_of_fetch_error {m : Machine} {fault : Fault} (hpc : m.pc < m.code.size)
    (h : m.fetch m.code[m.pc] = .error fault) : m.step = .error fault m := by
  unfold step stepWith
  simp only [dif_pos hpc, h]
  rfl

theorem step_of_operand_error {m : Machine} {op : Opcode} {fault : Fault} (hpc : m.pc < m.code.size)
    (h : m.fetch m.code[m.pc] = .ok op) (ho : m.operand op = .error fault) :
    m.step = .error fault m := by
  unfold step stepWith
  simp only [dif_pos hpc, h, ho]
  rfl

theorem step_of_operand {m : Machine} {op : Opcode} {w : Word} (hpc : m.pc < m.code.size)
    (h : m.fetch m.code[m.pc] = .ok op) (ho : m.operand op = .ok w) :
    m.step =
      match effect op w m.stack with
      | .error fault stack => .error fault { m with stack }
      | .ok _ stack => .ok (m.advance op stack).status (m.advance op stack) := by
  unfold step stepWith
  simp only [dif_pos hpc, h, ho]
  cases effect op w m.stack <;> rfl

theorem notice?_of_fetch {m : Machine} {op : Opcode} (hpc : m.pc < m.code.size)
    (h : m.fetch m.code[m.pc] = .ok op) : m.notice? = some (.executing m.pc op) := by
  unfold notice? stepWith
  simp only [dif_pos hpc, h]
  cases m.operand op with
  | error fault => rfl
  | ok w =>
    simp only []
    cases effect op w m.stack <;> rfl

/-! ## Steps by what is decoded -/

section

variable {m : Machine} {f : Fragment} {fs : List Fragment}

theorem code_of_decode {byte : UInt8} {operand : List UInt8} (hd : decode m.remaining = f :: fs)
    (hf : f.bytes = byte :: operand) :
    ∃ hpc : m.pc < m.code.size, m.code[m.pc] = byte ∧ f.Sound ∧
      ∃ rest, m.code.toList.drop (m.pc + 1) = operand ++ rest ∧
        (∀ opcode operand, f = truncated opcode operand → rest = []) := by
  have hpc := (pc_lt_iff m).mpr (by rw [hd]; simp)
  obtain ⟨rest, hcode, hsound, -, hend⟩ := decode_eq_cons hd
  rw [remaining_eq_cons hpc, hf] at hcode
  obtain ⟨hbyte, hrest⟩ := List.cons.inj hcode
  exact ⟨hpc, hbyte, hsound, rest, hrest, hend⟩

theorem allowed_of_step (hd : decode m.remaining = f :: fs)
    (hl : ∀ limit after, m.step ≠ .error (.stepLimitExceeded limit) after) : m.Allowed := by
  have hpc := (pc_lt_iff m).mpr (by rw [hd]; simp)
  intro limit hlimit
  by_contra hle
  exact hl limit m (step_of_fetch_error hpc (fetch_of_limit hlimit (by omega) _))

theorem step_of_unknown {byte : UInt8} (hd : decode m.remaining = unknown byte :: fs)
    (ha : m.Allowed) : m.step = .error (.invalidOpcode byte m.pc) m := by
  obtain ⟨hpc, hbyte, hsound, -⟩ := code_of_decode hd rfl
  rw [step_of_fetch_error hpc (fetch_of_none ha (by rw [hbyte]; exact hsound)), hbyte]

theorem step_of_truncated {op : Opcode} {operand : List UInt8}
    (hd : decode m.remaining = truncated op operand :: fs) (ha : m.Allowed) :
    m.step = .error (.truncatedOperand m.pc op.width operand.length) m := by
  obtain ⟨hpc, hbyte, hsound, rest, hrest, hend⟩ := code_of_decode hd rfl
  rw [hend op operand rfl, List.append_nil] at hrest
  exact step_of_operand_error hpc (fetch_of_some ha (by rw [hbyte]; exact hsound.1))
    (operand_of_lt hpc hsound.2 hrest)

theorem step_of_instruction {i : Instruction} (hd : decode m.remaining = instruction i :: fs)
    (ha : m.Allowed) :
    m.step =
      match effect i.opcode (Word.ofBytes i.operand) m.stack with
      | .error fault stack => .error fault { m with stack }
      | .ok _ stack => .ok (m.advance i.opcode stack).status (m.advance i.opcode stack) := by
  obtain ⟨hpc, hbyte, hsound, rest, hrest, -⟩ := code_of_decode hd rfl
  exact step_of_operand hpc (fetch_of_some ha (by rw [hbyte]; exact hsound.inUse))
    (operand_of_append hpc hsound.2 hrest)

theorem step_of_effect_ok {i : Instruction} {stack : Stack}
    (hd : decode m.remaining = instruction i :: fs) (ha : m.Allowed)
    (he : effect i.opcode (Word.ofBytes i.operand) m.stack = .ok () stack) :
    m.step = .ok (m.advance i.opcode stack).status (m.advance i.opcode stack) := by
  rw [step_of_instruction hd ha]
  simp only [he]

theorem step_of_effect_error {i : Instruction} {fault : Fault} {stack : Stack}
    (hd : decode m.remaining = instruction i :: fs) (ha : m.Allowed)
    (he : effect i.opcode (Word.ofBytes i.operand) m.stack = .error fault stack) :
    m.step = .error fault { m with stack } := by
  rw [step_of_instruction hd ha]
  simp only [he]

theorem notice?_of_instruction {i : Instruction} (hd : decode m.remaining = instruction i :: fs)
    (ha : m.Allowed) : m.notice? = some (.executing m.pc i.opcode) := by
  obtain ⟨hpc, hbyte, hsound, -⟩ := code_of_decode hd rfl
  exact notice?_of_fetch hpc (fetch_of_some ha (by rw [hbyte]; exact hsound.inUse))

/-- **Nothing else happens in a step.** -/
theorem step_cases (m : Machine) : m.StepCase m.step := by
  by_cases hpc : m.pc < m.code.size
  · obtain ⟨f, fs, hd⟩ := List.exists_cons_of_ne_nil ((pc_lt_iff m).mp hpc)
    rcases limited_or_allowed m with ⟨limit, hl, hle⟩ | ha
    · rw [step_of_fetch_error hpc (fetch_of_limit hl hle _)]
      exact .limited hd hl hle
    · cases f with
      | unknown byte => rw [step_of_unknown hd ha]; exact .unknown hd ha
      | truncated op operand => rw [step_of_truncated hd ha]; exact .truncated hd ha
      | instruction i =>
        rw [step_of_instruction hd ha]
        cases he : effect i.opcode (Word.ofBytes i.operand) m.stack with
        | ok u stack => exact .executed hd ha he
        | error fault stack => exact .faulted hd ha he
  · have hnil : decode m.remaining = [] := by
      by_contra hne
      exact hpc ((pc_lt_iff m).mpr hne)
    rw [step_of_le (Nat.le_of_not_lt hpc)]
    exact .halted hnil

/-! ## Faults of the code -/

theorem ofStack_of_step {i : Instruction} {fault : Fault} {after : Machine}
    (hd : decode m.remaining = instruction i :: fs) (ha : m.Allowed)
    (h : m.step = .error fault after) : fault.OfStack := by
  rw [step_of_instruction hd ha] at h
  cases he : effect i.opcode (Word.ofBytes i.operand) m.stack with
  | ok u stack => rw [he] at h; exact absurd h (by simp)
  | error e stack =>
    rw [he] at h
    cases h
    exact stackFaults_effect _ _ _ _ _ he

/-- **A byte that is no opcode** is the only cause of its fault. -/
theorem step_invalidOpcode_iff (hd : decode m.remaining = f :: fs)
    (hl : ∀ limit after, m.step ≠ .error (.stepLimitExceeded limit) after) (byte : UInt8)
    (offset : Nat) :
    (∃ after, m.step = .error (.invalidOpcode byte offset) after) ↔
      offset = m.pc ∧ f = unknown byte := by
  have ha := allowed_of_step hd hl
  cases f with
  | unknown byte' =>
    rw [step_of_unknown hd ha]
    constructor
    · rintro ⟨after, h⟩
      cases h
      exact ⟨rfl, rfl⟩
    · rintro ⟨rfl, h⟩
      cases h
      exact ⟨m, rfl⟩
  | truncated op operand => simp [step_of_truncated hd ha]
  | instruction i =>
    constructor
    · rintro ⟨after, h⟩
      exact absurd (ofStack_of_step hd ha h) (by rintro ⟨⟩)
    · exact fun h => absurd h.2 (by simp)

/-- **A truncated push** is the only cause of its fault. -/
theorem step_truncatedOperand_iff (hd : decode m.remaining = f :: fs)
    (hl : ∀ limit after, m.step ≠ .error (.stepLimitExceeded limit) after)
    (offset requested available : Nat) :
    (∃ after, m.step = .error (.truncatedOperand offset requested available) after) ↔
      offset = m.pc ∧ ∃ op operand, f = truncated op operand ∧ op.width = requested ∧
        operand.length = available := by
  have ha := allowed_of_step hd hl
  cases f with
  | unknown byte => simp [step_of_unknown hd ha]
  | truncated op operand =>
    rw [step_of_truncated hd ha]
    constructor
    · rintro ⟨after, h⟩
      cases h
      exact ⟨rfl, op, operand, rfl, rfl, rfl⟩
    · rintro ⟨rfl, op', operand', h, rfl, rfl⟩
      cases h
      exact ⟨m, rfl⟩
  | instruction i =>
    constructor
    · rintro ⟨after, h⟩
      exact absurd (ofStack_of_step hd ha h) (by rintro ⟨⟩)
    · rintro ⟨-, op, operand, h, -⟩
      exact absurd h (by simp)

end

/-! ## The machine after a step -/

theorem advance_stop {m : Machine} (hpc : m.pc < m.code.size) (stack : Stack) :
    m.advance .stop stack = { m with stack, pc := m.code.size, steps := m.steps + 1 } := by
  rw [advance, next_stop hpc]

theorem remaining_advance {m : Machine} {i : Instruction} {rest : List UInt8}
    (h : m.remaining = i.encode ++ rest) (hi : i.WellFormed) (hop : i.opcode ≠ .stop)
    (stack : Stack) : (m.advance i.opcode stack).remaining = rest := by
  have hdrop : (m.advance i.opcode stack).remaining = m.remaining.drop i.encode.length := by
    show m.code.toList.drop (m.next i.opcode) = m.remaining.drop i.encode.length
    rw [next_of_ne m hop, remaining, List.drop_drop, Instruction.length_encode hi, Nat.add_assoc]
  rw [hdrop, h, List.drop_left]

theorem decode_advance {m : Machine} {i : Instruction} {fs : List Fragment} (stack : Stack)
    (hd : decode m.remaining = instruction i :: fs) :
    decode (m.advance i.opcode stack).remaining = if i.opcode = .stop then [] else fs := by
  obtain ⟨rest, hcode, hsound, hrest, -⟩ := decode_eq_cons hd
  split
  · rename_i hop
    rw [decode_eq_nil_iff]
    rw [hop]
    exact size_le_next_stop m
  · rename_i hop
    rw [remaining_advance hcode hsound hop, hrest]

/-- **A step that succeeds on a running machine moves on**, in the same code and under the same
limits, and counts. -/
theorem step_ok {m after : Machine} {status : Status} (h : m.step = .ok status after)
    (hpc : m.pc < m.code.size) :
    m.pc < after.pc ∧ after.pc ≤ m.code.size ∧ after.code = m.code ∧ after.config = m.config ∧
      after.steps = m.steps + 1 ∧ status = after.status := by
  have hc := step_cases m
  rw [h] at hc
  cases hc with
  | halted hd => exact absurd hd ((pc_lt_iff m).mp hpc)
  | @executed i fs stack hd ha he =>
    obtain ⟨rest, hcode, hsound, -, -⟩ := decode_eq_cons hd
    have hlen := congrArg List.length hcode
    rw [length_remaining, List.length_append, bytes, Instruction.length_encode hsound] at hlen
    have hnext : m.pc < m.next i.opcode ∧ m.next i.opcode ≤ m.code.size := by
      by_cases hop : i.opcode = .stop
      · rw [hop, next_stop hpc]
        exact ⟨hpc, le_rfl⟩
      · rw [next_of_ne m hop]
        omega
    exact ⟨hnext.1, hnext.2, rfl, rfl, rfl, rfl⟩

/-- **A fault changes at most the stack.** -/
theorem step_error {m after : Machine} {fault : Fault} (h : m.step = .error fault after) :
    m.pc < m.code.size ∧ after = { m with stack := after.stack } := by
  have hc := step_cases m
  rw [h] at hc
  rw [pc_lt_iff]
  cases hc with
  | limited hd _ _ => exact ⟨by rw [hd]; simp, rfl⟩
  | unknown hd _ => exact ⟨by rw [hd]; simp, rfl⟩
  | truncated hd _ => exact ⟨by rw [hd]; simp, rfl⟩
  | faulted hd _ _ => exact ⟨by rw [hd]; simp, rfl⟩

end WordStack.Machine
