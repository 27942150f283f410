import WordStack.Error
import WordStack.Proofs.Machine.Fault

/-! # What decides a step

Where a machine stands, several things can be wrong at once. A step reports the first of them in
this order: the step limit is reached, the byte there is no opcode, its operand goes past the end of
the code, and last, what the opcode misses on the stack. `fault?` says so without carrying anything
out; of the stack it knows only the number of words and the capacity (`Opcode.fault?`).

* `reported_effect`: an instruction faults as its opcode says.
* `reported_step`: a step reports `fault?`, and succeeds if there is none.
* `step_decided`: so it is after every history, and what a fault leaves is the machine before it,
  but for the word that an instruction on two words has taken.

That a result always finds room rests on the bound of the stack: an instruction that gives a word
for those that it takes does not look at the capacity before it has taken them. -/

namespace WordStack

/-- **What an opcode faults for**, on a stack of this many words. A place that is out of range is
reported even if the stack is full. -/
def Opcode.fault? (size capacity : Nat) : Opcode → Option Fault
  | stop => none
  | add | sub | lt | gt | eq => if size < 2 then some .stackUnderflow else none
  | isZero | pop => if size = 0 then some .stackUnderflow else none
  | dup n =>
    if size < n.toNat then some (.indexOutOfRange (n.toNat - 1) size)
    else if size = capacity then some (.stackOverflow capacity)
    else none
  | swap n => if size ≤ n.toNat then some (.indexOutOfRange n.toNat size) else none
  | push _ => if size = capacity then some (.stackOverflow capacity) else none

namespace Machine

open Fragment Stack

/-- The step limit, if it is reached. -/
def limitFault? (m : Machine) : Option Fault :=
  m.config.stepLimit.bind fun limit =>
    if limit ≤ m.steps then some (.stepLimitExceeded limit) else none

/-- A push whose operand goes past the end of the code. -/
def operandFault? (m : Machine) : Opcode → Option Fault
  | .push n =>
    if m.code.size < m.pc + 1 + n.toNat then
      some (.truncatedOperand m.pc n.toNat (m.code.size - m.pc - 1))
    else none
  | _ => none

/-- **The fault of the next step**, if it has one: the first that there is, of the limit, of the
byte, of the operand and of the stack. -/
def fault? (m : Machine) : Option Fault :=
  if h : m.pc < m.code.size then
    m.limitFault? <|>
      match Opcode.ofByte? m.code[m.pc] with
      | none => some (.invalidOpcode m.code[m.pc] m.pc)
      | some op => m.operandFault? op <|> op.fault? m.stack.size m.stack.capacity
  else none

/-- The fault that a result reports. -/
def reported {ε σ α : Type} : EStateM.Result ε σ α → Option ε
  | .ok _ _ => none
  | .error e _ => some e

theorem reported_eq_some_iff {ε σ α : Type} {r : EStateM.Result ε σ α} {e : ε} :
    reported r = some e ↔ ∃ s, r = .error e s := by
  cases r <;> simp [reported]

theorem reported_eq_none_iff {ε σ α : Type} {r : EStateM.Result ε σ α} :
    reported r = none ↔ ∃ a s, r = .ok a s := by
  cases r <;> simp [reported]

/-! ## The stack -/

section

variable {c : Nat} {l : List Word}

theorem reported_push (w : Word) (hl : l.length ≤ c) :
    reported (push w (ofList c l)) = if l.length = c then some (.stackOverflow c) else none := by
  rw [push_ofList]
  by_cases h : l.length = c
  · rw [if_neg (by omega), if_pos h]
    rfl
  · rw [if_pos (by omega), if_neg h]
    rfl

theorem reported_push_of_lt (w : Word) (hl : l.length < c) :
    reported (push w (ofList c l)) = none := by
  rw [reported_push w hl.le, if_neg hl.ne]

theorem reported_binary (f : Word → Word → Word) (hl : l.length ≤ c) :
    reported (binary f (ofList c l)) = if l.length < 2 then some .stackUnderflow else none := by
  rw [binary_ofList]
  match l with
  | [] => rfl
  | [a] => rfl
  | a :: b :: l =>
    rw [List.length_cons, List.length_cons] at hl
    rw [List.length_cons, List.length_cons, if_neg (by omega)]
    exact reported_push_of_lt _ (by omega)

theorem reported_unary (f : Word → Word) (hl : l.length ≤ c) :
    reported (unary f (ofList c l)) = if l.length = 0 then some .stackUnderflow else none := by
  rw [unary_ofList]
  match l with
  | [] => rfl
  | a :: l =>
    rw [List.length_cons] at hl
    rw [List.length_cons, if_neg (by omega)]
    exact reported_push_of_lt _ (by omega)

theorem reported_pop :
    reported ((do let _ ← pop : Action Unit) (ofList c l)) =
      if l.length = 0 then some .stackUnderflow else none := by
  match l with
  | [] => rw [bind_of_error (pop_ofList_nil c)]; rfl
  | a :: l => rw [bind_of_ok (pop_ofList_cons c a l)]; rfl

theorem reported_duplicate (i : Nat) (hl : l.length ≤ c) :
    reported (duplicate i (ofList c l)) =
      if l.length ≤ i then some (.indexOutOfRange i l.length)
      else if l.length = c then some (.stackOverflow c)
      else none := by
  rw [duplicate_ofList]
  by_cases h : l.length ≤ i
  · rw [List.getElem?_eq_none h, if_pos h]
    rfl
  · rw [List.getElem?_eq_getElem (by omega), if_neg h]
    exact reported_push _ hl

theorem reported_swap (i : Nat) :
    reported (Stack.swap i (ofList c l)) =
      if l.length ≤ i then some (.indexOutOfRange i l.length) else none := by
  rw [swap_ofList]
  by_cases h : l.length ≤ i
  · rw [if_neg (by omega), if_pos h]
    rfl
  · rw [if_pos (by omega), if_neg h]
    rfl

end

/-- **An instruction faults as its opcode says.** -/
theorem reported_effect {op : Opcode} (hop : op.InUse) (w : Word) {s : Stack}
    (hs : s.size ≤ s.capacity) :
    reported (effect op w s) = op.fault? s.size s.capacity := by
  obtain ⟨c, l, rfl⟩ : ∃ c l, s = ofList c l := ⟨_, _, (ofList_toList s).symm⟩
  rw [size_ofList, capacity_ofList] at hs ⊢
  cases op with
  | stop => rfl
  | pop => exact reported_pop
  | isZero => exact reported_unary _ hs
  | push n => exact reported_push w hs
  | swap n => exact reported_swap _
  | dup n =>
    have hpos := (Opcode.inUse_dup.mp hop).1
    have hplace : l.length ≤ n.toNat - 1 ↔ l.length < n.toNat := by omega
    rw [effect, reported_duplicate _ hs, Opcode.fault?]
    simp only [hplace]
  | _ => exact reported_binary _ hs

/-! ## The machine -/

variable {m : Machine}

theorem limitFault?_of_limit {limit : Nat} (hl : m.config.stepLimit = some limit)
    (hle : limit ≤ m.steps) : m.limitFault? = some (.stepLimitExceeded limit) := by
  rw [limitFault?, hl, Option.bind_some, if_pos hle]

theorem limitFault?_of_allowed (ha : m.Allowed) : m.limitFault? = none := by
  unfold limitFault?
  cases hl : m.config.stepLimit with
  | none => rfl
  | some limit =>
    have hlt := ha limit hl
    rw [Option.bind_some, if_neg (by omega)]

theorem operandFault?_of_le {op : Opcode} (h : m.pc + 1 + op.width ≤ m.code.size) :
    m.operandFault? op = none := by
  cases op with
  | push n =>
    have hle : m.pc + 1 + n.toNat ≤ m.code.size := h
    rw [operandFault?, if_neg (by omega)]
  | _ => rfl

theorem operandFault?_of_lt {op : Opcode} (hpc : m.pc < m.code.size)
    (h : m.code.size < m.pc + 1 + op.width) :
    m.operandFault? op =
      some (.truncatedOperand m.pc op.width (m.code.size - m.pc - 1)) := by
  cases op with
  | push n => exact if_pos h
  | _ => exact absurd h (by simp only [Opcode.width]; omega)

theorem fault?_of_limit {limit : Nat} (hpc : m.pc < m.code.size)
    (hl : m.config.stepLimit = some limit) (hle : limit ≤ m.steps) :
    m.fault? = some (.stepLimitExceeded limit) := by
  rw [fault?, dif_pos hpc, limitFault?_of_limit hl hle]
  rfl

theorem fault?_of_none (hpc : m.pc < m.code.size) (ha : m.Allowed)
    (h : Opcode.ofByte? m.code[m.pc] = none) :
    m.fault? = some (.invalidOpcode m.code[m.pc] m.pc) := by
  rw [fault?, dif_pos hpc, limitFault?_of_allowed ha, h]
  rfl

theorem fault?_of_some {op : Opcode} (hpc : m.pc < m.code.size) (ha : m.Allowed)
    (h : Opcode.ofByte? m.code[m.pc] = some op) :
    m.fault? = (m.operandFault? op <|> op.fault? m.stack.size m.stack.capacity) := by
  rw [fault?, dif_pos hpc, limitFault?_of_allowed ha, h]
  rfl

theorem fault?_of_instruction {i : Instruction} {fs : List Fragment}
    (hd : decode m.remaining = instruction i :: fs) (ha : m.Allowed) :
    i.opcode.InUse ∧ m.fault? = i.opcode.fault? m.stack.size m.stack.capacity := by
  obtain ⟨hpc, hbyte, hsound, rest, hrest, -⟩ := code_of_decode hd rfl
  have hlen := congrArg List.length hrest
  have hwidth : i.operand.length = i.opcode.width := hsound.2
  rw [List.length_drop, Array.length_toList, List.length_append] at hlen
  have hop : Opcode.ofByte? m.code[m.pc] = some i.opcode := by
    rw [hbyte]
    exact hsound.inUse
  refine ⟨hsound.inUse, ?_⟩
  rw [fault?_of_some hpc ha hop, operandFault?_of_le (by omega)]
  rfl

/-- **A step reports the fault that is due**, and succeeds if there is none. -/
theorem reported_step (hs : m.stack.size ≤ m.stack.capacity) : reported m.step = m.fault? := by
  have hc := step_cases m
  generalize m.step = r at hc
  cases hc with
  | halted hd =>
    have hle := (decode_eq_nil_iff m).mp hd
    rw [fault?, dif_neg (by omega)]
    rfl
  | limited hd hl hle =>
    have hpc := (pc_lt_iff m).mpr (by rw [hd]; simp)
    exact (fault?_of_limit hpc hl hle).symm
  | unknown hd ha =>
    obtain ⟨hpc, hbyte, hsound, -⟩ := code_of_decode hd rfl
    rw [fault?_of_none hpc ha (by rw [hbyte]; exact hsound), hbyte]
    rfl
  | @truncated op operand fs hd ha =>
    obtain ⟨hpc, hbyte, hsound, rest, hrest, hend⟩ := code_of_decode hd rfl
    rw [hend op operand rfl, List.append_nil] at hrest
    have hlen := congrArg List.length hrest
    rw [List.length_drop, Array.length_toList] at hlen
    have hlt : operand.length < op.width := hsound.2
    have havailable : operand.length = m.code.size - m.pc - 1 := by omega
    rw [fault?_of_some hpc ha (by rw [hbyte]; exact hsound.1),
      operandFault?_of_lt hpc (by omega), havailable]
    rfl
  | @faulted i fs fault stack hd ha he =>
    obtain ⟨hop, hfault⟩ := fault?_of_instruction hd ha
    rw [hfault, ← reported_effect hop _ hs, he]
    rfl
  | @executed i fs stack hd ha he =>
    obtain ⟨hop, hfault⟩ := fault?_of_instruction hd ha
    rw [hfault, ← reported_effect hop _ hs, he]
    rfl

theorem fault?_of_stackOverflow {op : Opcode} {capacity : Nat}
    (hop : m.code[m.pc]?.bind Opcode.ofByte? = some op)
    (h : m.fault? = some (.stackOverflow capacity)) :
    op.fault? m.stack.size m.stack.capacity = some (.stackOverflow capacity) := by
  obtain ⟨byte, hbyte, hop⟩ := Option.bind_eq_some_iff.mp hop
  obtain ⟨hpc, rfl⟩ := Array.getElem?_eq_some_iff.mp hbyte
  rcases limited_or_allowed m with ⟨limit, hl, hle⟩ | ha
  · rw [fault?_of_limit hpc hl hle] at h
    exact absurd h (by simp)
  · rw [fault?_of_some hpc ha hop] at h
    by_cases hfits : m.pc + 1 + op.width ≤ m.code.size
    · rwa [operandFault?_of_le hfits] at h
    · rw [operandFault?_of_lt hpc (by omega)] at h
      exact absurd h (by simp)

theorem fault?_ne_stackOverflow {op : Opcode} (hop : op ∈ Opcode.isZero :: Opcode.binary)
    (size capacity limit : Nat) : op.fault? size capacity ≠ some (.stackOverflow limit) := by
  have hunderflow : ∀ (p : Prop) [Decidable p],
      (if p then some Fault.stackUnderflow else none) ≠ some (.stackOverflow limit) := by
    intro p _
    split <;> simp
  simp only [Opcode.binary, List.mem_cons, List.not_mem_nil, or_false] at hop
  rcases hop with rfl | rfl | rfl | rfl | rfl | rfl <;> exact hunderflow _

/-- **What decides a step**, after every history: it reports the fault that is due, or succeeds if
there is none. An instruction that gives a word for those that it takes never finds the stack too
full. What a fault leaves is the machine before the step, but for the word that an instruction on
two words has taken before it missed the other. -/
theorem step_decided (config : Config) (calls : List Call) :
    let m := history config calls
    (∀ fault, (∃ after, m.step = .error fault after) ↔ m.fault? = some fault) ∧
      ((∃ status after, m.step = .ok status after) ↔ m.fault? = none) ∧
      (∀ op ∈ Opcode.isZero :: Opcode.binary, m.code[m.pc]?.bind Opcode.ofByte? = some op →
        ∀ capacity after, m.step ≠ .error (.stackOverflow capacity) after) ∧
      ∀ fault after, m.step = .error fault after →
        (Error.fault fault).isFault ∧ after.code = m.code ∧ after.pc = m.pc ∧
          after.steps = m.steps ∧
          after.stack =
            if fault = .stackUnderflow ∧ m.atBinary ∧ m.stack.size = 1 then
              { m.stack with words := #[] }
            else m.stack := by
  intro m
  have hm : Within config m := within_history config calls
  have hstep : reported m.step = m.fault? := reported_step hm.size_le_capacity
  refine ⟨fun fault => ?_, ?_, fun op hop hbyte capacity after h => ?_, fun fault after h => ?_⟩
  · rw [← hstep, reported_eq_some_iff]
  · rw [← hstep, reported_eq_none_iff]
  · have hdue : m.fault? = some (.stackOverflow capacity) := by
      rw [← hstep, h]
      rfl
    exact fault?_ne_stackOverflow hop _ _ _ (fault?_of_stackOverflow hbyte hdue)
  · have hafter := step_afterFault hm h
    unfold afterFault at hafter
    refine ⟨rfl, ?_⟩
    split at hafter
    · rename_i htaken
      rw [hafter, if_pos htaken]
      exact ⟨rfl, rfl, rfl, rfl⟩
    · rename_i htaken
      rw [hafter, if_neg htaken]
      exact ⟨rfl, rfl, rfl, rfl⟩

/-- On a full stack of one word, what `DUP2` misses is the second word and not the room. -/
theorem step_decided_dup :
    let m := history { stackCapacity := 1 } [.stack (.push 7), .load #[0x81]]
    m.step = .error (.indexOutOfRange 1 1) m ∧ m.fault? = some (.indexOutOfRange 1 1) := by
  have h : (history { stackCapacity := 1 } [.stack (.push 7), .load #[0x81]]).step =
      .error (.indexOutOfRange 1 1) (history { stackCapacity := 1 } [.stack (.push 7),
        .load #[0x81]]) := rfl
  exact ⟨h, ((step_decided { stackCapacity := 1 } [.stack (.push 7), .load #[0x81]]).1 _).mp ⟨_, h⟩⟩

end Machine

end WordStack
