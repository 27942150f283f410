import WordStack.Proofs.Cli.Command
import WordStack.Proofs.Machine.History

/-! # What a fault leaves behind

A step that faults changes nothing, but for one case: an instruction on two words that finds a
single one has taken it before it misses the other, and leaves the stack empty. `afterFault` is the
machine that this leaves.

* `effect_error`: the stack after an instruction that faults.
* `fault_leaves`: after every history a step that faults leaves `afterFault`, a run leaves it of the
  last machine on its trail, and the stack of that machine is what the command shows. -/

namespace WordStack

/-- The opcodes that take two words and give one. -/
def Opcode.binary : List Opcode := [add, sub, lt, gt, eq]

namespace Machine

open Fragment Stack

/-- Does the machine stand at an instruction on two words? -/
def atBinary (m : Machine) : Bool :=
  (m.code[m.pc]?.bind Opcode.ofByte?).any fun op => op ∈ Opcode.binary

/-- **The machine after a step that faults**, from the one before it. -/
def afterFault (m : Machine) (fault : Fault) : Machine :=
  if fault = .stackUnderflow ∧ m.atBinary ∧ m.stack.size = 1 then
    { m with stack := { m.stack with words := #[] } }
  else m

/-! ## The stack -/

theorem binary_error {f : Word → Word → Word} {c : Nat} {l : List Word} {fault : Fault}
    {stack : Stack} (hl : l.length ≤ c) (h : binary f (ofList c l) = .error fault stack) :
    fault = .stackUnderflow ∧ stack = ofList c [] ∧ l.length ≤ 1 := by
  rw [binary_ofList] at h
  match l with
  | [] => cases h; exact ⟨rfl, rfl, by simp⟩
  | [a] => cases h; exact ⟨rfl, rfl, by simp⟩
  | a :: b :: l =>
    rw [List.length_cons, List.length_cons] at hl
    simp only [] at h
    rw [push_ofList, if_pos (by omega)] at h
    exact absurd h (by simp)

theorem unary_error {f : Word → Word} {c : Nat} {l : List Word} {fault : Fault} {stack : Stack}
    (hl : l.length ≤ c) (h : unary f (ofList c l) = .error fault stack) : stack = ofList c l := by
  rw [unary_ofList] at h
  match l with
  | [] => cases h; rfl
  | a :: l =>
    rw [List.length_cons] at hl
    simp only [] at h
    rw [push_ofList, if_pos (by omega)] at h
    exact absurd h (by simp)

theorem push_error {w : Word} {s stack : Stack} {fault : Fault}
    (h : push w s = .error fault stack) : stack = s := by
  unfold push at h
  split at h <;> cases h
  rfl

theorem pop_error {s stack : Stack} {fault : Fault} (h : pop s = .error fault stack) :
    stack = s := by
  unfold pop at h
  split at h <;> cases h
  rfl

theorem duplicate_error {i : Nat} {s stack : Stack} {fault : Fault}
    (h : duplicate i s = .error fault stack) : stack = s := by
  rw [← ofList_toList s] at h ⊢
  rw [duplicate_ofList] at h
  split at h
  · exact push_error h
  · cases h; rfl

theorem swap_error {i : Nat} {s stack : Stack} {fault : Fault}
    (h : swap i s = .error fault stack) : stack = s := by
  unfold swap at h
  split at h <;> cases h
  rfl

/-- **An instruction that faults** leaves the stack alone, unless it takes two words. Then it has
missed one of them, and leaves none. -/
theorem effect_error {op : Opcode} {w : Word} {s stack : Stack} {fault : Fault}
    (hs : s.size ≤ s.capacity) (h : effect op w s = .error fault stack) :
    op ∉ Opcode.binary ∧ stack = s ∨
      op ∈ Opcode.binary ∧ fault = .stackUnderflow ∧ s.size ≤ 1 ∧
        stack = { s with words := #[] } := by
  have hbinary : ∀ f : Word → Word → Word, binary f s = .error fault stack →
      fault = .stackUnderflow ∧ s.size ≤ 1 ∧ stack = { s with words := #[] } := by
    intro f hf
    rw [← ofList_toList s] at hf
    rw [← length_toList] at hs
    obtain ⟨hfault, hstack, hle⟩ := binary_error hs hf
    exact ⟨hfault, by rw [← length_toList]; exact hle, hstack⟩
  cases op with
  | stop => exact absurd h (by simp [effect, pure, EStateM.pure])
  | add => exact Or.inr ⟨by decide, hbinary _ h⟩
  | sub => exact Or.inr ⟨by decide, hbinary _ h⟩
  | lt => exact Or.inr ⟨by decide, hbinary _ h⟩
  | gt => exact Or.inr ⟨by decide, hbinary _ h⟩
  | eq => exact Or.inr ⟨by decide, hbinary _ h⟩
  | isZero =>
    refine Or.inl ⟨by decide, ?_⟩
    rw [← ofList_toList s] at h ⊢
    exact unary_error (by rw [length_toList]; exact hs) h
  | pop =>
    refine Or.inl ⟨by decide, ?_⟩
    change (Stack.pop >>= fun _ => pure ()) s = _ at h
    cases hp : Stack.pop s with
    | ok word t => rw [bind_of_ok hp] at h; exact absurd h (by simp [pure, EStateM.pure])
    | error e t =>
      rw [bind_of_error hp] at h
      cases h
      exact pop_error hp
  | push width => exact Or.inl ⟨by simp [Opcode.binary], push_error h⟩
  | dup place => exact Or.inl ⟨by simp [Opcode.binary], duplicate_error h⟩
  | swap distance => exact Or.inl ⟨by simp [Opcode.binary], swap_error h⟩

/-! ## The machine -/

theorem atBinary_iff {m : Machine} {i : Instruction} {fs : List Fragment}
    (hd : decode m.remaining = instruction i :: fs) :
    m.atBinary ↔ i.opcode ∈ Opcode.binary := by
  obtain ⟨hpc, hbyte, hsound, -⟩ := code_of_decode hd rfl
  have hop : Opcode.ofByte? i.opcode.toByte = some i.opcode := hsound.inUse
  unfold atBinary
  rw [Array.getElem?_eq_getElem hpc, hbyte, Option.bind_some, hop, Option.any_some,
    decide_eq_true_iff]

theorem afterFault_of_ne {m : Machine} {fault : Fault} (h : fault ≠ .stackUnderflow) :
    m.afterFault fault = m := if_neg fun hc => h hc.1

theorem step_afterFault {config : Config} {m after : Machine} {fault : Fault}
    (hm : Within config m) (h : m.step = .error fault after) : after = m.afterFault fault := by
  have hc := step_cases m
  rw [h] at hc
  cases hc with
  | limited => exact (afterFault_of_ne (by simp)).symm
  | unknown => exact (afterFault_of_ne (by simp)).symm
  | truncated => exact (afterFault_of_ne (by simp)).symm
  | @faulted i fs _ stack hd ha he =>
    unfold afterFault
    rcases effect_error hm.size_le_capacity he with ⟨hop, hstack⟩ | ⟨hop, hfault, hle, hstack⟩
    · rw [if_neg fun hc => hop ((atBinary_iff hd).mp hc.2.1), hstack]
    · by_cases hone : m.stack.size = 1
      · rw [if_pos ⟨hfault, (atBinary_iff hd).mpr hop, hone⟩, hstack]
      · have hzero : m.stack.words = #[] := Array.eq_empty_of_size_eq_zero (by
          show m.stack.size = 0
          omega)
        rw [if_neg fun hc => hone hc.2.2, hstack, ← hzero]

theorem run_afterFault {config : Config} {m after : Machine} {fault : Fault}
    (hm : Within config m) (h : m.run = .error fault after) :
    ∃ last, m.trail.getLast? = some last ∧ last.step = .error fault after ∧
      after = last.afterFault fault := by
  obtain ⟨last, hlast, hstep⟩ := step_of_run_error h
  have hlast' := hm.trail last (List.mem_of_getLast? hlast)
  exact ⟨last, hlast, hstep, step_afterFault hlast' hstep⟩

/-- The word that an instruction on two words has taken is gone, so a step that faults is not always
without effect. -/
theorem step_changes_on_fault : ¬ ∀ (config : Config) (calls : List Call) (fault : Fault)
    (after : Machine), (history config calls).step = .error fault after →
      after = history config calls := by
  intro h
  have hsame := h {} [.stack (.push 1), .load #[0x01]] .stackUnderflow _ rfl
  exact absurd (congrArg (fun m => m.stack.size) hsame) (by decide)

/-- **What a fault leaves**, after every history: the machine before the step, but for the word that
an instruction on two words has taken. So it is for the last step of a run, and the stack that the
command shows after a failure is the one left by the instruction that faulted. -/
theorem fault_leaves (config : Config) (calls : List Call) :
    (∀ fault after, (history config calls).step = .error fault after →
      after = (history config calls).afterFault fault) ∧
    (∀ fault after, (history config calls).run = .error fault after →
      ∃ last, (history config calls).trail.getLast? = some last ∧
        last.step = .error fault after ∧ after = last.afterFault fault) ∧
    ∀ (o : Cli.Options) (earlier : List Cli.Event) (code : Bytecode) (fault : Fault)
      (after : Machine), ((new o.config).load code).run = .error fault after →
      ∃ last, ((new o.config).load code).trail.getLast? = some last ∧
        last.step = .error fault after ∧
        (Cli.execution o earlier code).events.getLast? =
          some (.print (Cli.stackText (last.afterFault fault).stack)) := by
  have hm := within_history config calls
  refine ⟨fun _ _ => step_afterFault hm, fun _ _ => run_afterFault hm, ?_⟩
  intro o earlier code fault after h
  obtain ⟨last, hlast, hstep, hafter⟩ := run_afterFault ((within_new o.config).load code) h
  refine ⟨last, hlast, hstep, ?_⟩
  rw [Cli.execution_of_error o earlier code h, List.getLast?_append, ← hafter]
  rfl

theorem fault_leaves_add :
    let m := history {} [.stack (.push 1), .load #[0x01]]
    m.step = .error .stackUnderflow { m with stack := { capacity := 1024 } } ∧
      { m with stack := { capacity := 1024 } } = m.afterFault .stackUnderflow :=
  ⟨rfl, (fault_leaves {} [.stack (.push 1), .load #[0x01]]).1 _ _ rfl⟩

end Machine

end WordStack
