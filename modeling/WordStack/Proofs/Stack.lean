import Mathlib.Data.List.Basic
import WordStack.Machine.Basic

/-! # Stacks as lists of words

`ofList c l` is the stack of capacity `c` with the words `l`, the top first; every stack is one
(`ofList_toList`). Here each operation has its equation on such a stack, and so has what an
instruction does to it. An operation that faults leaves the words alone; only an operation on two
words has already taken the top when it misses the word below (`binary_ofList`). -/

namespace WordStack

/-! ## Actions in sequence -/

theorem bind_of_ok {ε σ α β : Type} {x : EStateM ε σ α} {f : α → EStateM ε σ β} {s s' : σ} {a : α}
    (h : x s = .ok a s') : (x >>= f) s = f a s' := by
  show EStateM.bind x f s = f a s'
  rw [EStateM.bind, h]

theorem bind_of_error {ε σ α β : Type} {x : EStateM ε σ α} {f : α → EStateM ε σ β} {s s' : σ}
    {e : ε} (h : x s = .error e s') : (x >>= f) s = .error e s' := by
  show EStateM.bind x f s = .error e s'
  rw [EStateM.bind, h]

/-- The fault is one of the stack, not of the code or of the limit. -/
inductive Fault.OfStack : Fault → Prop where
  | underflow : OfStack .stackUnderflow
  | overflow {capacity : Nat} : OfStack (.stackOverflow capacity)
  | indexOutOfRange {index size : Nat} : OfStack (.indexOutOfRange index size)

namespace Stack

/-- The stack with some words, the top first. -/
def ofList (capacity : Nat) (l : List Word) : Stack := { words := l.reverse.toArray, capacity }

@[simp] theorem toList_ofList (c : Nat) (l : List Word) : (ofList c l).toList = l := by
  simp [ofList, toList]

@[simp] theorem capacity_ofList (c : Nat) (l : List Word) : (ofList c l).capacity = c := rfl

@[simp] theorem size_ofList (c : Nat) (l : List Word) : (ofList c l).size = l.length := by
  simp [ofList, size]

theorem size_words_ofList (c : Nat) (l : List Word) : (ofList c l).words.size = l.length :=
  size_ofList c l

theorem ofList_toList (s : Stack) : ofList s.capacity s.toList = s := by
  simp [ofList, toList]

theorem length_toList (s : Stack) : s.toList.length = s.size := by simp [toList, size]

/-- The list with its head and its element at the index exchanged. -/
def exchange {α : Type} (l : List α) (index : Nat) : List α :=
  match l[0]?, l[index]? with
  | some top, some word => (l.set 0 word).set index top
  | _, _ => l

theorem exchange_eq {α : Type} {l : List α} {i : Nat} (h : i < l.length) :
    exchange l i = (l.set 0 l[i]).set i (l.get ⟨0, by omega⟩) := by
  unfold exchange
  rw [List.getElem?_eq_getElem (by omega), List.getElem?_eq_getElem h]
  rfl

theorem length_exchange {α : Type} (l : List α) (i : Nat) :
    (exchange l i).length = l.length := by
  unfold exchange
  split <;> simp

theorem map_exchange {α β : Type} (f : α → β) (l : List α) (i : Nat) :
    (exchange l i).map f = exchange (l.map f) i := by
  unfold exchange
  rw [List.getElem?_map, List.getElem?_map]
  cases l[0]? with
  | none => rfl
  | some top =>
    cases l[i]? with
    | none => rfl
    | some word => simp only [Option.map_some, List.map_set]

/-! ## The operations -/

theorem push_ofList (c : Nat) (l : List Word) (w : Word) :
    push w (ofList c l) =
      if l.length < c then .ok () (ofList c (w :: l))
      else .error (.stackOverflow c) (ofList c l) := by
  unfold push
  rw [size_ofList, capacity_ofList]
  split
  · simp [ofList]
  · rfl

theorem pop_ofList_nil (c : Nat) : pop (ofList c []) = .error .stackUnderflow (ofList c []) := by
  simp [pop, ofList]

theorem pop_ofList_cons (c : Nat) (w : Word) (l : List Word) :
    pop (ofList c (w :: l)) = .ok w (ofList c l) := by
  simp [pop, ofList]

theorem elementAt_ofList (c : Nat) (l : List Word) (i : Nat) :
    elementAt i (ofList c l) =
      match l[i]? with
      | some w => .ok w (ofList c l)
      | none => .error (.indexOutOfRange i l.length) (ofList c l) := by
  unfold elementAt
  simp only [size_words_ofList]
  by_cases h : i < l.length
  · rw [dif_pos h, List.getElem?_eq_getElem h]
    simp only [ofList, List.getElem_toArray, List.getElem_reverse]
    congr 2
    omega
  · rw [dif_neg h, List.getElem?_eq_none (by omega)]

theorem duplicate_ofList (c : Nat) (l : List Word) (i : Nat) :
    duplicate i (ofList c l) =
      match l[i]? with
      | some w => push w (ofList c l)
      | none => .error (.indexOutOfRange i l.length) (ofList c l) := by
  have h := elementAt_ofList c l i
  unfold duplicate
  cases hi : l[i]? with
  | some w => rw [hi] at h; exact bind_of_ok h
  | none => rw [hi] at h; exact bind_of_error h

theorem swap_ofList (c : Nat) (l : List Word) (i : Nat) :
    swap i (ofList c l) =
      if i < l.length then .ok () (ofList c (exchange l i))
      else .error (.indexOutOfRange i l.length) (ofList c l) := by
  unfold swap
  simp only [size_words_ofList]
  by_cases h : i < l.length
  · rw [dif_pos h, if_pos h]
    simp only [ofList, EStateM.Result.ok.injEq, Stack.mk.injEq, true_and, and_true]
    -- Index `k` of the array is index `length - 1 - k` of the list.
    refine Array.ext (by simp [length_exchange]) fun k hk _ => ?_
    have hk : k < l.length := by simpa using hk
    simp only [Array.getElem_swap, List.getElem_toArray, List.getElem_reverse, exchange_eq h,
      List.getElem_set, List.length_set, List.get_eq_getElem]
    split_ifs <;> congr 1 <;> omega
  · rw [dif_neg h, if_neg h]

end Stack

namespace Machine

open Stack

/-! ## What an instruction does to the words -/

theorem binary_ofList (f : Word → Word → Word) (c : Nat) (l : List Word) :
    binary f (ofList c l) =
      match l with
      | a :: b :: l => push (f a b) (ofList c l)
      | _ => .error .stackUnderflow (ofList c []) := by
  unfold binary
  match l with
  | [] => exact bind_of_error (pop_ofList_nil c)
  | [a] => exact (bind_of_ok (pop_ofList_cons c a [])).trans (bind_of_error (pop_ofList_nil c))
  | a :: b :: l =>
    exact (bind_of_ok (pop_ofList_cons c a (b :: l))).trans (bind_of_ok (pop_ofList_cons c b l))

theorem unary_ofList (f : Word → Word) (c : Nat) (l : List Word) :
    unary f (ofList c l) =
      match l with
      | a :: l => push (f a) (ofList c l)
      | [] => .error .stackUnderflow (ofList c []) := by
  unfold unary
  match l with
  | [] => exact bind_of_error (pop_ofList_nil c)
  | a :: l => exact bind_of_ok (pop_ofList_cons c a l)

/-! ## The faults of an instruction -/

/-- The action faults only for what it finds on the stack. -/
def StackFaults {α : Type} (x : Action α) : Prop :=
  ∀ s fault t, x s = .error fault t → fault.OfStack

theorem stackFaults_bind {α β : Type} {x : Action α} {f : α → Action β} (hx : StackFaults x)
    (hf : ∀ a, StackFaults (f a)) : StackFaults (x >>= f) := by
  intro s fault t h
  cases hs : x s with
  | ok a u => rw [bind_of_ok hs] at h; exact hf a u fault t h
  | error e u =>
    rw [bind_of_error hs] at h
    obtain ⟨rfl, rfl⟩ := EStateM.Result.error.inj h
    exact hx s _ _ hs

theorem stackFaults_pure {α : Type} (a : α) : StackFaults (pure a) :=
  fun _ _ _ h => absurd h (by simp [pure, EStateM.pure])

theorem stackFaults_push (w : Word) : StackFaults (push w) := by
  intro s fault t h
  unfold push at h
  split at h <;> cases h
  exact .overflow

theorem stackFaults_pop : StackFaults pop := by
  intro s fault t h
  unfold pop at h
  split at h <;> cases h
  exact .underflow

theorem stackFaults_elementAt (i : Nat) : StackFaults (elementAt i) := by
  intro s fault t h
  unfold elementAt at h
  split at h <;> cases h
  exact .indexOutOfRange

theorem stackFaults_swap (i : Nat) : StackFaults (swap i) := by
  intro s fault t h
  unfold swap at h
  split at h <;> cases h
  exact .indexOutOfRange

theorem stackFaults_binary (f : Word → Word → Word) : StackFaults (binary f) :=
  stackFaults_bind stackFaults_pop fun _ => stackFaults_bind stackFaults_pop fun _ =>
    stackFaults_push _

/-- **An instruction faults only for what it finds on the stack.** -/
theorem stackFaults_effect (op : Opcode) (w : Word) : StackFaults (effect op w) := by
  cases op with
  | stop => exact stackFaults_pure ()
  | pop => exact stackFaults_bind stackFaults_pop fun _ => stackFaults_pure ()
  | push width => exact stackFaults_push w
  | dup place => exact stackFaults_bind (stackFaults_elementAt _) fun _ => stackFaults_push _
  | swap distance => exact stackFaults_swap _
  | isZero => exact stackFaults_bind stackFaults_pop fun _ => stackFaults_push _
  | _ => exact stackFaults_binary _

end Machine

end WordStack
