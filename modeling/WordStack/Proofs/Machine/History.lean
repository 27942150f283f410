import WordStack.Machine.Call
import WordStack.Proofs.Machine.Trail
import WordStack.Proofs.Stack

/-! # Histories of a machine

A machine comes to be what it is by requests, of which some may have faulted. `history` is the
machine after a list of them. What every request keeps is `Within`: the program counter stays within
the code, the steps within the limit, and the words within the capacity of the stack, which stays
the one configured.

* `within_leaves`: one request keeps it.
* `within_history`: so it holds of every machine with a history. `history_within_limits` says what
  this means for the program counter, the steps and the stack. -/

namespace WordStack

/-! ## Actions that keep the bound of the stack -/

/-- What an action leaves behind, whether it succeeds or faults. -/
def left {ε σ α : Type} : EStateM.Result ε σ α → σ
  | .ok _ s => s
  | .error _ s => s

@[simp] theorem left_ok {ε σ α : Type} (a : α) (s : σ) :
    left (.ok a s : EStateM.Result ε σ α) = s := rfl

@[simp] theorem left_error {ε σ α : Type} (e : ε) (s : σ) :
    left (.error e s : EStateM.Result ε σ α) = s := rfl

theorem left_map {ε σ α β : Type} (f : α → β) (x : EStateM ε σ α) (s : σ) :
    left ((f <$> x) s) = left (x s) := by
  rw [map_eq_pure_bind]
  cases h : x s with
  | ok a t => rw [bind_of_ok h]; rfl
  | error e t => rw [bind_of_error h]; rfl

namespace Stack

/-- The action leaves a stack of the same capacity, and does not overfill it. -/
def Keeps {α : Type} (x : Action α) : Prop :=
  ∀ s : Stack, s.size ≤ s.capacity →
    (left (x s)).capacity = s.capacity ∧ (left (x s)).size ≤ s.capacity

theorem keeps_of_ofList {α : Type} {x : Action α}
    (h : ∀ c l, l.length ≤ c → ∃ l', l'.length ≤ c ∧ left (x (ofList c l)) = ofList c l') :
    Keeps x := by
  intro s hs
  obtain ⟨l', hl', he⟩ := h s.capacity s.toList (by rw [length_toList]; exact hs)
  rw [ofList_toList] at he
  rw [he, size_ofList]
  exact ⟨rfl, hl'⟩

theorem keeps_bind {α β : Type} {x : Action α} {f : α → Action β} (hx : Keeps x)
    (hf : ∀ a, Keeps (f a)) : Keeps (x >>= f) := by
  intro s hs
  obtain ⟨hc, hle⟩ := hx s hs
  cases h : x s with
  | ok a t =>
    rw [h, left_ok] at hc hle
    rw [bind_of_ok h]
    obtain ⟨hc', hle'⟩ := hf a t (by rw [hc]; exact hle)
    rw [hc] at hc' hle'
    exact ⟨hc', hle'⟩
  | error e t =>
    rw [h, left_error] at hc hle
    rw [bind_of_error h]
    exact ⟨hc, hle⟩

theorem keeps_pure {α : Type} (a : α) : Keeps (pure a) := fun _ hs => ⟨rfl, hs⟩

theorem keeps_map {α β : Type} (f : α → β) {x : Action α} (hx : Keeps x) : Keeps (f <$> x) := by
  rw [map_eq_pure_bind]
  exact keeps_bind hx fun a => keeps_pure (f a)

theorem keeps_push (w : Word) : Keeps (push w) := by
  refine keeps_of_ofList fun c l hl => ?_
  rw [push_ofList]
  split
  · exact ⟨w :: l, by simp only [List.length_cons]; omega, rfl⟩
  · exact ⟨l, hl, rfl⟩

theorem keeps_pop : Keeps pop := by
  refine keeps_of_ofList fun c l hl => ?_
  cases l with
  | nil => rw [pop_ofList_nil]; exact ⟨[], hl, rfl⟩
  | cons w l =>
    rw [pop_ofList_cons]
    rw [List.length_cons] at hl
    exact ⟨l, by omega, rfl⟩

theorem left_top (s : Stack) : left (top s) = s := by
  unfold top
  split <;> rfl

theorem left_elementAt (i : Nat) (s : Stack) : left (elementAt i s) = s := by
  unfold elementAt
  split <;> rfl

theorem keeps_top : Keeps top := by
  intro s hs
  rw [left_top]
  exact ⟨rfl, hs⟩

theorem keeps_elementAt (i : Nat) : Keeps (elementAt i) := by
  intro s hs
  rw [left_elementAt]
  exact ⟨rfl, hs⟩

theorem keeps_duplicate (i : Nat) : Keeps (duplicate i) :=
  keeps_bind (keeps_elementAt i) fun w => keeps_push w

theorem keeps_swap (i : Nat) : Keeps (swap i) := by
  refine keeps_of_ofList fun c l hl => ?_
  rw [swap_ofList]
  split
  · exact ⟨exchange l i, by rw [length_exchange]; exact hl, rfl⟩
  · exact ⟨l, hl, rfl⟩

theorem keeps_perform (call : Call) : Keeps call.perform := by
  cases call with
  | push w => exact keeps_map _ (keeps_push w)
  | pop => exact keeps_map _ keeps_pop
  | top => exact keeps_map _ keeps_top
  | elementAt i => exact keeps_map _ (keeps_elementAt i)
  | duplicate i => exact keeps_map _ (keeps_duplicate i)
  | swap i => exact keeps_map _ (keeps_swap i)

end Stack

namespace Machine

open Stack

theorem keeps_binary (f : Word → Word → Word) : Keeps (binary f) :=
  keeps_bind keeps_pop fun _ => keeps_bind keeps_pop fun _ => keeps_push _

theorem keeps_unary (f : Word → Word) : Keeps (unary f) :=
  keeps_bind keeps_pop fun _ => keeps_push _

theorem keeps_effect (op : Opcode) (w : Word) : Keeps (effect op w) := by
  cases op with
  | stop => exact keeps_pure ()
  | pop => exact keeps_bind keeps_pop fun _ => keeps_pure ()
  | push width => exact keeps_push w
  | dup place => exact keeps_duplicate _
  | swap distance => exact keeps_swap _
  | isZero => exact keeps_unary _
  | _ => exact keeps_binary _

/-! ## Machines within their limits -/

/-- **What every request keeps.** -/
structure Within (config : Config) (m : Machine) : Prop where
  config_eq : m.config = config
  pc_le : m.pc ≤ m.code.size
  steps_le : m.steps ≤ m.pc
  limit_le : ∀ limit, config.stepLimit = some limit → m.steps ≤ limit
  capacity_eq : m.stack.capacity = config.stackCapacity
  size_le : m.stack.size ≤ config.stackCapacity

variable {config : Config} {m : Machine}

theorem Within.size_le_capacity (h : Within config m) : m.stack.size ≤ m.stack.capacity := by
  rw [h.capacity_eq]
  exact h.size_le

theorem within_new (config : Config) : Within config (new config) where
  config_eq := rfl
  pc_le := Nat.zero_le _
  steps_le := Nat.zero_le _
  limit_le _ _ := Nat.zero_le _
  capacity_eq := rfl
  size_le := Nat.zero_le _

theorem Within.load (h : Within config m) (code : Bytecode) : Within config (m.load code) where
  config_eq := h.config_eq
  pc_le := Nat.zero_le _
  steps_le := Nat.zero_le _
  limit_le _ _ := Nat.zero_le _
  capacity_eq := h.capacity_eq
  size_le := h.size_le

theorem Within.stack {α : Type} (h : Within config m) {x : Action α} (hx : Keeps x) :
    Within config { m with stack := left (x m.stack) } := by
  obtain ⟨hc, hle⟩ := hx m.stack h.size_le_capacity
  rw [h.capacity_eq] at hc hle
  exact { h with capacity_eq := hc, size_le := hle }

/-- **One step keeps it**, also when it faults. -/
theorem Within.step (h : Within config m) : Within config (left m.step) := by
  have hc := step_cases m
  generalize hr : m.step = r at hc
  cases hc with
  | halted => exact h
  | limited => exact h
  | unknown => exact h
  | truncated => exact h
  | @faulted i fs fault stack hd ha he =>
    have hs := h.stack (keeps_effect i.opcode (Word.ofBytes i.operand))
    rw [he] at hs
    exact hs
  | @executed i fs stack hd ha he =>
    have hpc := (pc_lt_iff m).mpr (by rw [hd]; simp)
    obtain ⟨hlt, hle, -, -, -, -⟩ := step_ok hr hpc
    have hs := h.stack (keeps_effect i.opcode (Word.ofBytes i.operand))
    rw [he] at hs
    have hsteps := h.steps_le
    refine { hs with pc_le := hle, steps_le := ?_, limit_le := fun limit hl => ?_ }
    · show m.steps + 1 ≤ (m.advance i.opcode stack).pc
      omega
    · exact ha limit (by rw [h.config_eq]; exact hl)

theorem Within.run (h : Within config m) : Within config (left m.run) := by
  induction m using run_induction with
  | halted m _ hrun =>
    rw [hrun]
    exact h
  | faulted m after fault hm hrun =>
    have hs := h.step
    rw [hm] at hs
    rw [hrun]
    exact hs
  | stepped m after status _ hm hrun ih =>
    have hs := h.step
    rw [hm] at hs
    rw [hrun]
    exact ih hs

theorem Within.trail (h : Within config m) : ∀ s ∈ m.trail, Within config s := by
  fun_induction Machine.trail m with
  | case1 m hpc fault after hm =>
    intro s hs
    rw [List.mem_singleton.mp hs]
    exact h
  | case2 m hpc status after hm ih =>
    intro s hs
    have hafter := h.step
    rw [hm] at hafter
    rcases List.mem_cons.mp hs with rfl | hs
    · exact h
    · exact ih hafter s hs
  | case3 m hpc => exact fun s hs => absurd hs (by simp)

/-! ## Histories -/

/-- The machine that a request leaves behind. -/
def Call.leaves (call : Call) (m : Machine) : Machine := left (call.perform m)

/-- **The machine after some requests**, new at first. -/
def history (config : Config) (calls : List Call) : Machine :=
  calls.foldl (fun m call => call.leaves m) (new config)

theorem left_ofRun (r : EStateM.Result Fault Machine Unit) : left (Reply.ofRun r) = left r := by
  cases r <;> rfl

theorem leaves_load (code : Bytecode) (m : Machine) : (Call.load code).leaves m = m.load code := rfl

theorem leaves_step (m : Machine) : Call.step.leaves m = left m.step :=
  left_map Reply.status Machine.step m

theorem leaves_run (m : Machine) : Call.run.leaves m = left m.run := left_ofRun m.run

theorem leaves_execute (code : Bytecode) (m : Machine) :
    (Call.execute code).leaves m = left (m.load code).run := left_ofRun (m.load code).run

theorem leaves_stack (call : Stack.Call) (m : Machine) :
    (Call.stack call).leaves m = { m with stack := left (call.perform m.stack) } := by
  unfold Call.leaves
  simp only [Call.perform]
  cases call.perform m.stack <;> rfl

theorem within_leaves (h : Within config m) (call : Call) : Within config (call.leaves m) := by
  cases call with
  | load code => rw [leaves_load]; exact h.load code
  | step => rw [leaves_step]; exact h.step
  | run => rw [leaves_run]; exact h.run
  | execute code => rw [leaves_execute]; exact (h.load code).run
  | stack call => rw [leaves_stack]; exact h.stack (keeps_perform call)

/-- **It holds after every history.** -/
theorem within_history (config : Config) (calls : List Call) :
    Within config (history config calls) := by
  have hfold : ∀ (calls : List Call) (m : Machine), Within config m →
      Within config (calls.foldl (fun m call => call.leaves m) m) := by
    intro calls
    induction calls with
    | nil => exact fun m h => h
    | cons call calls ih => exact fun m h => ih _ (within_leaves h call)
  exact hfold calls _ (within_new config)

/-- **The limits of a machine hold after every history**, also if requests in it have faulted. -/
theorem history_within_limits (config : Config) (calls : List Call) :
    let m := history config calls
    m.pc ≤ m.code.size ∧ m.steps ≤ m.pc ∧
      (∀ limit, config.stepLimit = some limit → m.steps ≤ limit) ∧
      m.stack.size ≤ m.stack.capacity ∧ m.stack.capacity = config.stackCapacity := by
  intro m
  have h : Within config m := within_history config calls
  exact ⟨h.pc_le, h.steps_le, h.limit_le, h.size_le_capacity, h.capacity_eq⟩

/-- The second instruction of the code is not executed. -/
theorem history_within_limits_one :
    let m := history { stepLimit := some 1 } [.execute #[0x60, 7, 0x50], .step]
    m.pc ≤ m.code.size ∧ m.steps ≤ m.pc ∧ m.steps ≤ 1 := by
  obtain ⟨hpc, hsteps, hlimit, -, -⟩ :=
    history_within_limits { stepLimit := some 1 } [.execute #[0x60, 7, 0x50], .step]
  exact ⟨hpc, hsteps, hlimit 1 rfl⟩

end Machine

end WordStack
