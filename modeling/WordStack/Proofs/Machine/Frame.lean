import WordStack.Proofs.Machine.Trail

/-! # Runs with other words beneath

Instructions count places from the top of the stack, so a run that succeeds does not get to the
words beneath those that it began with. With other words put beneath, and as much more room, it does
the same and leaves those words where they are.

* `Stack.Frames`: an action that succeeds does so too on a stack with other words beneath.
* `frames_effect`: what an instruction does to the stack is such an action.
* `execute_framed`: so is a run, with the same program counter and the same count of steps. With no
  words beneath it says that more room makes no difference to a run that succeeds. -/

namespace WordStack

namespace Stack

/-- **Other words beneath make no difference** to an action that succeeds, if there is as much more
room for them. -/
def Frames {α : Type} (x : Action α) : Prop :=
  ∀ (c : Nat) (l : List Word) (a : α) (after : Stack), x (ofList c l) = .ok a after →
    ∃ l', after = ofList c l' ∧ ∀ (below : List Word) (c' : Nat), c + below.length ≤ c' →
      x (ofList c' (l ++ below)) = .ok a (ofList c' (l' ++ below))

theorem frames_pure {α : Type} (a : α) : Frames (pure a : Action α) := by
  intro c l b after h
  cases h
  exact ⟨l, rfl, fun _ _ _ => rfl⟩

theorem frames_bind {α β : Type} {x : Action α} {f : α → Action β} (hx : Frames x)
    (hf : ∀ a, Frames (f a)) : Frames (x >>= f) := by
  intro c l b after h
  cases hs : x (ofList c l) with
  | error e s => rw [bind_of_error hs] at h; exact absurd h (by simp)
  | ok a s =>
    obtain ⟨l₁, rfl, hx'⟩ := hx c l a s hs
    rw [bind_of_ok hs] at h
    obtain ⟨l₂, rfl, hf'⟩ := hf a c l₁ b after h
    refine ⟨l₂, rfl, fun below c' hc => ?_⟩
    rw [bind_of_ok (hx' below c' hc)]
    exact hf' below c' hc

/-! ## The operations -/

theorem frames_push (w : Word) : Frames (push w) := by
  intro c l a after h
  rw [push_ofList] at h
  split at h
  · rename_i hlt
    cases h
    refine ⟨w :: l, rfl, fun below c' hc => ?_⟩
    have hlt' : (l ++ below).length < c' := by rw [List.length_append]; omega
    rw [push_ofList, if_pos hlt']
    rfl
  · exact absurd h (by simp)

theorem frames_pop : Frames pop := by
  intro c l a after h
  cases l with
  | nil => rw [pop_ofList_nil] at h; exact absurd h (by simp)
  | cons w l =>
    rw [pop_ofList_cons] at h
    cases h
    exact ⟨l, rfl, fun below c' _ => pop_ofList_cons c' _ (l ++ below)⟩

theorem frames_elementAt (i : Nat) : Frames (elementAt i) := by
  intro c l a after h
  rw [elementAt_ofList] at h
  split at h
  · rename_i w hw
    cases h
    refine ⟨l, rfl, fun below c' _ => ?_⟩
    have hlt : i < l.length := (List.getElem?_eq_some_iff.mp hw).1
    rw [elementAt_ofList, List.getElem?_append_left hlt, hw]
  · exact absurd h (by simp)

theorem exchange_append {α : Type} {l : List α} {i : Nat} (h : i < l.length) (below : List α) :
    exchange (l ++ below) i = exchange l i ++ below := by
  have hpos : 0 < l.length := by omega
  have hset : ∀ w : α, (l ++ below).set 0 w = l.set 0 w ++ below :=
    fun w => List.set_append_left 0 w hpos
  have hset' : ∀ v w : α, (l.set 0 v ++ below).set i w = (l.set 0 v).set i w ++ below :=
    fun v w => List.set_append_left i w (by rw [List.length_set]; exact h)
  unfold exchange
  rw [List.getElem?_append_left hpos, List.getElem?_append_left h, List.getElem?_eq_getElem hpos,
    List.getElem?_eq_getElem h]
  simp only [hset, hset']

theorem frames_swap (i : Nat) : Frames (swap i) := by
  intro c l a after h
  rw [swap_ofList] at h
  split at h
  · rename_i hlt
    cases h
    refine ⟨exchange l i, rfl, fun below c' _ => ?_⟩
    have hlt' : i < (l ++ below).length := by rw [List.length_append]; omega
    rw [swap_ofList, if_pos hlt', exchange_append hlt]
  · exact absurd h (by simp)

theorem frames_duplicate (i : Nat) : Frames (duplicate i) :=
  frames_bind (frames_elementAt i) fun w => frames_push w

end Stack

namespace Machine

open Fragment Stack

theorem frames_binary (f : Word → Word → Word) : Frames (binary f) :=
  frames_bind frames_pop fun _ => frames_bind frames_pop fun _ => frames_push _

theorem frames_unary (f : Word → Word) : Frames (unary f) :=
  frames_bind frames_pop fun _ => frames_push _

/-- **An instruction that succeeds does not get to the words beneath.** -/
theorem frames_effect (op : Opcode) (w : Word) : Frames (effect op w) := by
  cases op with
  | stop => exact frames_pure ()
  | pop => exact frames_bind frames_pop fun _ => frames_pure ()
  | push width => exact frames_push w
  | dup place => exact frames_duplicate _
  | swap distance => exact frames_swap _
  | isZero => exact frames_unary _
  | _ => exact frames_binary _

/-! ## Runs -/

/-- The machine with room for `capacity` words. -/
def roomier (capacity : Nat) (m : Machine) : Machine :=
  { m with
    stack := { m.stack with capacity }
    config := { m.config with stackCapacity := capacity } }

/-- The machine with other words beneath its own, and with room for `capacity` words. -/
def framed (below : List Word) (capacity : Nat) (m : Machine) : Machine :=
  { m with
    stack := ofList capacity (m.stack.toList ++ below)
    config := { m.config with stackCapacity := capacity } }

variable {m after : Machine} {below : List Word} {capacity : Nat}

theorem framed_nil (capacity : Nat) (m : Machine) : m.framed [] capacity = m.roomier capacity := by
  have hstack : ofList capacity m.stack.toList = { m.stack with capacity } := by
    simp [ofList, toList]
  unfold framed roomier
  rw [List.append_nil, hstack]

/-- **A step that succeeds** does the same with other words beneath. -/
theorem step_framed {status : Status} (h : m.step = .ok status after)
    (hc : m.stack.capacity + below.length ≤ capacity) :
    (m.framed below capacity).step = .ok status (after.framed below capacity) ∧
      after.stack.capacity = m.stack.capacity := by
  have hcase := step_cases m
  rw [h] at hcase
  cases hcase with
  | halted hd => exact ⟨step_of_le ((decode_eq_nil_iff m).mp hd), rfl⟩
  | @executed i fs stack hd ha he =>
    rw [← ofList_toList m.stack] at he
    obtain ⟨l', rfl, hframe⟩ := frames_effect _ _ _ _ _ _ he
    have he' := hframe below capacity hc
    have hs := step_of_effect_ok (m := m.framed below capacity) hd ha he'
    refine ⟨hs.trans ?_, rfl⟩
    unfold framed advance
    simp only [toList_ofList]
    rfl

theorem run_framed (h : m.run = .ok () after)
    (hc : m.stack.capacity + below.length ≤ capacity) :
    (m.framed below capacity).run = .ok () (after.framed below capacity) := by
  induction m using run_induction with
  | halted m hpc hrun =>
    rw [hrun] at h
    cases h
    exact run_of_le hpc
  | faulted m stop fault _ hrun =>
    rw [hrun] at h
    exact absurd h (by simp)
  | stepped m next status _ hm hrun ih =>
    obtain ⟨hs, hcapacity⟩ := step_framed hm hc
    rw [hrun] at h
    rw [run_of_ok hs]
    exact ih h (by rw [hcapacity]; exact hc)

/-- **Other words beneath the stack make no difference to a run that succeeds**, if the capacity
grows by as much at least: it leaves its own words above them, and stops at the same place after as
many steps. In particular more room alone makes no difference. -/
theorem execute_framed {code : Bytecode} (h : m.execute code = .ok () after) :
    (∀ (below : List Word) (capacity : Nat), m.stack.capacity + below.length ≤ capacity →
      (m.framed below capacity).execute code = .ok () (after.framed below capacity)) ∧
    ∀ capacity, m.stack.capacity ≤ capacity →
      (m.roomier capacity).execute code = .ok () (after.roomier capacity) := by
  have hframed : ∀ (below : List Word) (capacity : Nat),
      m.stack.capacity + below.length ≤ capacity →
      (m.framed below capacity).execute code = .ok () (after.framed below capacity) :=
    fun below capacity hc => run_framed (m := m.load code) h hc
  refine ⟨hframed, fun capacity hc => ?_⟩
  have hroom := hframed [] capacity hc
  rwa [framed_nil, framed_nil] at hroom

/-- `PUSH1 5` and `SWAP1` on a stack of one word, with room for one more. -/
theorem execute_framed_swap :
    ∃ after : Machine,
      execute { stack := ofList 2 [1], config := { stackCapacity := 2 } } #[0x60, 5, 0x90] =
        .ok () after ∧ after.stack.toList = [1, 5] ∧
      execute { stack := ofList 4 [1, 7, 8], config := { stackCapacity := 4 } } #[0x60, 5, 0x90] =
        .ok () (after.framed [7, 8] 4) ∧ (after.framed [7, 8] 4).stack.toList = [1, 5, 7, 8] ∧
      execute { stack := ofList 3 [1], config := { stackCapacity := 3 } } #[0x60, 5, 0x90] =
        .ok () (after.roomier 3) := by
  obtain ⟨after, hrun, hstack⟩ : ∃ after : Machine,
      execute { stack := ofList 2 [1], config := { stackCapacity := 2 } } #[0x60, 5, 0x90] =
        .ok () after ∧ after.stack.toList = [1, 5] :=
    ⟨_, (run_of_ok rfl).trans ((run_of_ok rfl).trans (run_of_le (by decide))), rfl⟩
  obtain ⟨hframed, hroomier⟩ := execute_framed hrun
  refine ⟨after, hrun, hstack, hframed [7, 8] 4 (by decide), ?_, hroomier 3 (by decide)⟩
  show (ofList 4 (after.stack.toList ++ [7, 8])).toList = [1, 5, 7, 8]
  rw [hstack, toList_ofList]
  rfl

end Machine

end WordStack
