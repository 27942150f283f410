import WordStack.Proofs.Stack

/-! # Histories of a stack

What a caller sees of a stack is what its operations answer, and the words on it, read from the top.
A list of words, the top first, with one rule for each operation (`Call.onList`) shows the same: all
through a list of operations, whatever they are and whichever of them fault, the stack and the list
go side by side (`observed_ofList`).

The rules leave the list as it is where they fault, and name an index out of range before a full
stack. What `exchange` does to a list is said by places: the head and the word at the index change
theirs, and no other word does (`getElem?_exchange`). -/

namespace WordStack.Stack

/-- **An operation on a list of words**, of which the list may have so many: the answer, if there is
one, and the list after it. -/
def Call.onList (capacity : Nat) :
    Call → List Word → Except Fault (Option Word × List Word)
  | push w, l =>
    if l.length < capacity then .ok (none, w :: l) else .error (.stackOverflow capacity)
  | pop, w :: l => .ok (some w, l)
  | pop, [] => .error .stackUnderflow
  | top, w :: l => .ok (some w, w :: l)
  | top, [] => .error .stackUnderflow
  | elementAt i, l =>
    match l[i]? with
    | some w => .ok (some w, l)
    | none => .error (.indexOutOfRange i l.length)
  | duplicate i, l =>
    match l[i]? with
    | some w =>
      if l.length < capacity then .ok (none, w :: l) else .error (.stackOverflow capacity)
    | none => .error (.indexOutOfRange i l.length)
  | swap i, l =>
    if i < l.length then .ok (none, exchange l i) else .error (.indexOutOfRange i l.length)

/-- What is seen of one operation: its answer or its fault, and the words after it. -/
abbrev Sight := Except Fault (Option Word) × List Word

/-- **What is seen of a stack** in a list of operations. A fault does not end it. -/
def observed : List Call → Stack → List Sight
  | [], _ => []
  | call :: calls, s =>
    match call.perform s with
    | .ok answer after => (.ok answer, after.toList) :: observed calls after
    | .error fault after => (.error fault, after.toList) :: observed calls after

/-- **What is seen of a list of words** in a list of operations. Where one faults the list stays as
it was. -/
def observedOnList (capacity : Nat) : List Call → List Word → List Sight
  | [], _ => []
  | call :: calls, l =>
    match call.onList capacity l with
    | .ok (answer, after) => (.ok answer, after) :: observedOnList capacity calls after
    | .error fault => (.error fault, l) :: observedOnList capacity calls l

/-! ## One operation -/

theorem map_apply {α β : Type} (f : α → β) (x : Action α) (s : Stack) :
    (f <$> x) s = match x s with
      | .ok a after => .ok (f a) after
      | .error fault after => .error fault after := by
  show EStateM.map f x s = _
  unfold EStateM.map
  cases x s <;> rfl

theorem top_ofList_nil (c : Nat) : top (ofList c []) = .error .stackUnderflow (ofList c []) := by
  simp [top, ofList]

theorem top_ofList_cons (c : Nat) (w : Word) (l : List Word) :
    top (ofList c (w :: l)) = .ok w (ofList c (w :: l)) := by
  simp [top, ofList]

/-- **An operation on a stack is the operation on its words**, and a fault leaves the stack as it
was. -/
theorem perform_ofList (call : Call) (c : Nat) (l : List Word) :
    call.perform (ofList c l) =
      match call.onList c l with
      | .ok (answer, after) => .ok answer (ofList c after)
      | .error fault => .error fault (ofList c l) := by
  cases call with
  | push w =>
    rw [Call.perform, map_apply, push_ofList, Call.onList]
    by_cases h : l.length < c
    · rw [if_pos h, if_pos h]
    · rw [if_neg h, if_neg h]
  | pop =>
    rw [Call.perform, map_apply]
    cases l with
    | nil => rw [pop_ofList_nil, Call.onList]
    | cons w l => rw [pop_ofList_cons, Call.onList]
  | top =>
    rw [Call.perform, map_apply]
    cases l with
    | nil => rw [top_ofList_nil, Call.onList]
    | cons w l => rw [top_ofList_cons, Call.onList]
  | elementAt i =>
    rw [Call.perform, map_apply, elementAt_ofList, Call.onList]
    cases l[i]? <;> rfl
  | duplicate i =>
    rw [Call.perform, map_apply, duplicate_ofList, Call.onList]
    cases l[i]? with
    | none => rfl
    | some w =>
      simp only [push_ofList]
      by_cases h : l.length < c
      · rw [if_pos h, if_pos h]
      · rw [if_neg h, if_neg h]
  | swap i =>
    rw [Call.perform, map_apply, swap_ofList, Call.onList]
    by_cases h : i < l.length
    · rw [if_pos h, if_pos h]
    · rw [if_neg h, if_neg h]

theorem eq_of_perform_error {call : Call} {s after : Stack} {fault : Fault}
    (h : call.perform s = .error fault after) : after = s := by
  have hlist := perform_ofList call s.capacity s.toList
  rw [ofList_toList, h] at hlist
  cases hc : call.onList s.capacity s.toList with
  | ok r => rw [hc] at hlist; exact absurd hlist (by simp)
  | error e =>
    rw [hc] at hlist
    exact (EStateM.Result.error.inj hlist).2

/-- **An index out of range is reported**, also when the stack is full. -/
theorem perform_of_size_le {s : Stack} {index : Nat} (h : s.size ≤ index) {call : Call}
    (hcall : call ∈ [Call.elementAt index, .duplicate index, .swap index]) :
    call.perform s = .error (.indexOutOfRange index s.size) s := by
  have hlist := perform_ofList call s.capacity s.toList
  rw [← length_toList] at h
  have hnone : s.toList[index]? = none := List.getElem?_eq_none h
  rw [ofList_toList] at hlist
  rw [hlist, ← length_toList]
  simp only [List.mem_cons, List.not_mem_nil, or_false] at hcall
  rcases hcall with rfl | rfl | rfl
  · rw [Call.onList, hnone]
  · rw [Call.onList, hnone]
  · rw [Call.onList, if_neg (Nat.not_lt_of_le h)]

/-! ## Exchanges -/

/-- **An exchange by places**: the head and the word at the index, and nothing else. -/
theorem getElem?_exchange {α : Type} {l : List α} {i : Nat} (h : i < l.length) (k : Nat) :
    (exchange l i)[k]? = l[if k = 0 then i else if k = i then 0 else k]? := by
  have h0 : 0 < l.length := by omega
  rw [exchange_eq h, List.getElem?_set, List.getElem?_set, List.length_set, if_pos h, if_pos h0,
    List.get_eq_getElem, ← List.getElem?_eq_getElem h, ← List.getElem?_eq_getElem h0]
  split_ifs <;> congr 1 <;> omega

theorem exchange_exchange {α : Type} {l : List α} {i : Nat} (h : i < l.length) :
    exchange (exchange l i) i = l := by
  refine List.ext_getElem? fun k => ?_
  rw [getElem?_exchange (by rwa [length_exchange]), getElem?_exchange h]
  congr 1
  split_ifs <;> omega

theorem exchange_zero {α : Type} {l : List α} (h : 0 < l.length) : exchange l 0 = l := by
  refine List.ext_getElem? fun k => ?_
  rw [getElem?_exchange h]
  congr 1
  split_ifs <;> omega

/-- **A swap exchanges two words** and moves no other. At the index of the head it does nothing, and
done once more it is undone. -/
theorem perform_swap {s : Stack} {i : Nat} (h : i < s.size) :
    ∃ after, (Call.swap i).perform s = .ok none after ∧
      (∀ k, after.toList[k]? = s.toList[if k = 0 then i else if k = i then 0 else k]?) ∧
      (i = 0 → after = s) ∧ (Call.swap i).perform after = .ok none s := by
  rw [← length_toList] at h
  have hswap : ∀ {l : List Word}, i < l.length → (Call.swap i).perform (ofList s.capacity l) =
      .ok none (ofList s.capacity (exchange l i)) := by
    intro l hl
    rw [perform_ofList, Call.onList, if_pos hl]
  have hback := hswap (l := exchange s.toList i) (by rwa [length_exchange])
  have hfirst := hswap h
  rw [exchange_exchange h, ofList_toList] at hback
  rw [ofList_toList] at hfirst
  refine ⟨ofList s.capacity (exchange s.toList i), hfirst, fun k => ?_, ?_, hback⟩
  · rw [toList_ofList, getElem?_exchange h]
  · rintro rfl
    rw [exchange_zero h, ofList_toList]

/-! ## Operations one after another -/

/-- **A stack and the list of its words go side by side.** -/
theorem observed_ofList (calls : List Call) (c : Nat) (l : List Word) :
    observed calls (ofList c l) = observedOnList c calls l := by
  induction calls generalizing l with
  | nil => rfl
  | cons call calls ih =>
    rw [observed, perform_ofList, observedOnList]
    cases call.onList c l with
    | ok r => simp only [toList_ofList, ih]
    | error fault => simp only [toList_ofList, ih]

/-- **A stack is a list of words** in all that is seen of it, from a new stack on.

* A fault leaves the stack as it was.
* An index out of range is reported, also when the stack is full.
* An exchange moves the head and the word at the index and nothing else; so it changes nothing if
  the index is that of the head, and the same exchange once more undoes it. -/
theorem observed_as_list :
    (∀ (capacity : Nat) (calls : List Call),
      observed calls { capacity } = observedOnList capacity calls []) ∧
    ∀ s : Stack,
      (∀ (call : Call) (fault : Fault) (after : Stack),
        call.perform s = .error fault after → after = s) ∧
      (∀ index, s.size ≤ index →
        ∀ call ∈ [Call.elementAt index, .duplicate index, .swap index],
          call.perform s = .error (.indexOutOfRange index s.size) s) ∧
      ∀ i < s.size, ∃ after, (Call.swap i).perform s = .ok none after ∧
        (∀ k, after.toList[k]? = s.toList[if k = 0 then i else if k = i then 0 else k]?) ∧
        (i = 0 → after = s) ∧ (Call.swap i).perform after = .ok none s := by
  refine ⟨fun capacity calls => ?_, fun s => ⟨?_, ?_, ?_⟩⟩
  · exact observed_ofList calls capacity []
  · exact fun call fault after h => eq_of_perform_error h
  · exact fun index h call hcall => perform_of_size_le h hcall
  · exact fun i h => perform_swap h

/-- The stack is full when the index is out of range. -/
theorem observed_as_list_full :
    let s : Stack := { words := #[5, 6], capacity := 2 }
    observed [.push 5, .push 6, .push 7, .duplicate 2, .swap 1, .duplicate 1, .pop]
        { capacity := 2 } =
      [(.ok none, [5]), (.ok none, [6, 5]), (.error (.stackOverflow 2), [6, 5]),
        (.error (.indexOutOfRange 2 2), [6, 5]), (.ok none, [5, 6]),
        (.error (.stackOverflow 2), [5, 6]), (.ok (some 5), [6])] ∧
      (Call.duplicate 2).perform s = .error (.indexOutOfRange 2 2) s ∧
      ∃ after, (Call.swap 1).perform s = .ok none after ∧ after.toList[0]? = some 5 ∧
        (Call.swap 1).perform after = .ok none s := by
  intro s
  obtain ⟨hseen, hs⟩ := observed_as_list
  obtain ⟨-, hindex, hswap⟩ := hs s
  obtain ⟨after, hafter, hplaces, -, hback⟩ := hswap 1 (by decide)
  exact ⟨hseen 2 _, hindex 2 (Nat.le_refl 2) _ (by simp), after, hafter, hplaces 0, hback⟩

end WordStack.Stack
