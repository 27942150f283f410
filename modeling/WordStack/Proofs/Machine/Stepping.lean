import WordStack.Proofs.Machine.Fault

/-! # Stepping and running

A run can be taken up after any number of single steps: it ends as it would have from the beginning,
also if some of the steps have faulted. For a fault is *stable*: on the machine that it leaves, the
next step faults in the same way and leaves that machine again. This needs an argument only for an
instruction on two words that has taken the last word before it missed the other. It then finds
none, and misses its first word.

* `step_of_step_error`: a fault is stable.
* `run_after_steps`: after every history, a run that follows some steps ends as the run itself, and
  a fault comes again until the code or the stack is changed. -/

namespace WordStack

/-- Does the request load code or change the stack from outside? -/
def Machine.Call.edits : Machine.Call → Bool
  | .load _ | .execute _ => true
  | .step | .run => false
  | .stack .top | .stack (.elementAt _) => false
  | .stack _ => true

namespace Machine

open Fragment Stack

variable {config : Config} {m after : Machine} {fault : Fault}

/-- The machine after some steps, whether they succeed or fault. -/
def stepped (m : Machine) : Nat → Machine
  | 0 => m
  | k + 1 => (left m.step).stepped k

/-! ## Faults are stable -/

/-- An instruction on two words misses the first of them on an empty stack. -/
theorem effect_of_empty {op : Opcode} (hop : op ∈ Opcode.binary) (w : Word) (s : Stack) :
    effect op w { s with words := #[] } = .error .stackUnderflow { s with words := #[] } := by
  have hbinary : ∀ f : Word → Word → Word,
      binary f { s with words := #[] } = .error .stackUnderflow { s with words := #[] } :=
    fun f => binary_ofList f s.capacity []
  simp only [Opcode.binary, List.mem_cons, List.not_mem_nil, or_false] at hop
  rcases hop with rfl | rfl | rfl | rfl | rfl <;> exact hbinary _

/-- **A fault is stable**: the next step faults in the same way, and changes nothing more. -/
theorem step_of_step_error (hm : Within config m) (h : m.step = .error fault after) :
    after.step = .error fault after := by
  have hc := step_cases m
  rw [h] at hc
  cases hc with
  | limited => exact h
  | unknown => exact h
  | truncated => exact h
  | @faulted i fs _ stack hd ha he =>
    rcases effect_error hm.size_le_capacity he with ⟨-, hstack⟩ | ⟨hop, hfault, -, hstack⟩
    · rw [hstack] at h ⊢
      exact h
    · -- No word is left, so the same instruction misses its first word, which is the same fault.
      have hd' : decode ({ m with stack } : Machine).remaining = instruction i :: fs := hd
      have ha' : ({ m with stack } : Machine).Allowed := ha
      have he' : effect i.opcode (Word.ofBytes i.operand) stack =
          .error .stackUnderflow stack := by
        rw [hstack]
        exact effect_of_empty hop _ m.stack
      have hs := step_of_effect_error hd' ha' he'
      rw [hfault]
      exact hs

theorem run_left_step (hm : Within config m) : (left m.step).run = m.run := by
  cases h : m.step with
  | ok status after => exact (run_of_ok h).symm
  | error fault after =>
    have hstable := step_of_step_error hm h
    rw [left_error, run_of_error hstable, run_of_error h]

theorem run_stepped (hm : Within config m) (k : Nat) : (m.stepped k).run = m.run := by
  induction k generalizing m with
  | zero => rfl
  | succ k ih =>
    have hleft := hm.step
    rw [stepped, ih hleft, run_left_step hm]

/-! ## Requests after a fault -/

theorem leaves_of_step_error {call : Call} (h : m.step = .error fault m) (hcall : ¬ call.edits) :
    call.leaves m = m := by
  cases call with
  | load code => exact absurd rfl hcall
  | execute code => exact absurd rfl hcall
  | step => rw [leaves_step, h, left_error]
  | run => rw [leaves_run, run_of_error h, left_error]
  | stack call =>
    have hkeep : left (call.perform m.stack) = m.stack := by
      cases call with
      | top => exact (left_map some Stack.top m.stack).trans (left_top m.stack)
      | elementAt i =>
        exact (left_map some (Stack.elementAt i) m.stack).trans (left_elementAt i m.stack)
      | _ => exact absurd rfl hcall
    rw [leaves_stack, hkeep]

theorem foldl_leaves_of_step_error (h : m.step = .error fault m) (later : List Call)
    (hlater : ∀ call ∈ later, ¬ call.edits) :
    later.foldl (fun m call => call.leaves m) m = m := by
  induction later with
  | nil => rfl
  | cons call later ih =>
    have hcall := leaves_of_step_error h (hlater call List.mem_cons_self)
    rw [List.foldl_cons, hcall]
    exact ih fun c hc => hlater c (List.mem_cons_of_mem _ hc)

/-- **Stepping and running agree**, after every history: a run that follows some steps, whatever
they come to, ends as the run itself. And once a step has faulted, the machine stays as the fault
has left it, and every step and every run faults in the same way, as long as no request loads code
or edits the stack. -/
theorem run_after_steps (config : Config) (calls : List Call) :
    (∀ k, ((history config calls).stepped k).run = (history config calls).run) ∧
    ∀ (fault : Fault) (after : Machine), (history config calls).step = .error fault after →
      ∀ later : List Call, (∀ call ∈ later, ¬ call.edits) →
        let m := history config (calls ++ .step :: later)
        m = after ∧ m.step = .error fault after ∧ m.run = .error fault after := by
  have hm := within_history config calls
  refine ⟨run_stepped hm, fun fault after h later hlater => ?_⟩
  have hstable := step_of_step_error hm h
  have hafter : history config (calls ++ .step :: later) = after := by
    show (calls ++ .step :: later).foldl (fun m call => call.leaves m) (new config) = after
    rw [List.foldl_append, List.foldl_cons, leaves_step]
    show later.foldl (fun m call => call.leaves m) (left (history config calls).step) = after
    rw [h, left_error]
    exact foldl_leaves_of_step_error hstable later hlater
  simp only [hafter]
  exact ⟨trivial, hstable, run_of_error hstable⟩

theorem run_after_steps_add :
    let start := history {} [.stack (.push 1), .load #[0x01]]
    let after := { start with stack := { capacity := 1024 } }
    let m := history {} [.stack (.push 1), .load #[0x01], .step, .run, .stack .top]
    start.step = .error .stackUnderflow after ∧
      m = after ∧ m.step = .error .stackUnderflow after ∧ m.run = .error .stackUnderflow after :=
  ⟨rfl, (run_after_steps {} [.stack (.push 1), .load #[0x01]]).2 _ _ rfl [.run, .stack .top]
    (by decide)⟩

end Machine

end WordStack
