import WordStack.Proofs.Machine.Stepping

/-! # Control does not depend on data

Two pieces of code are the same but for operands if they are equally long and have the same bytes at
the same boundaries between fragments (`Bytecode.boundaries`); then only operand bytes of pushes can
differ. Two stacks are *alike* if they differ in their words only. The runs of such code on such
stacks go side by side: no fault and no move of the program counter depends on a word.

* `Stack.Blind`: two actions of which no word shows on stacks that are alike. An instruction is such
  an action, whatever its operand (`blind_effect`).
* `map_blank_eq`: code that is the same but for operands decodes to the same fragments, once the
  operand bytes are blanked out.
* `step_alike`: a step on two machines that are alike does the same on both, and leaves them alike.
* `execute_alike`: so do runs, step after step. -/

namespace WordStack

open Fragment

/-- What a result says, without the state that it leaves. -/
def verdict {ε σ α : Type} : EStateM.Result ε σ α → Except ε α
  | .ok a _ => .ok a
  | .error e _ => .error e

/-! ## Stacks -/

namespace Stack

/-- The stacks differ in their words only. -/
structure Alike (s t : Stack) : Prop where
  size_eq : s.size = t.size
  capacity_eq : s.capacity = t.capacity

theorem alike_ofList (c : Nat) {l l' : List Word} (h : l.length = l'.length) :
    (ofList c l).Alike (ofList c l') where
  size_eq := by rw [size_ofList, size_ofList, h]
  capacity_eq := rfl

/-- Both results come without a fault, or both with the same, and leave stacks that are alike. -/
inductive SameKind {α : Type} :
    EStateM.Result Fault Stack α → EStateM.Result Fault Stack α → Prop where
  | ok {a b : α} {s t : Stack} (h : s.Alike t) : SameKind (.ok a s) (.ok b t)
  | error {fault : Fault} {s t : Stack} (h : s.Alike t) : SameKind (.error fault s) (.error fault t)

/-- **No word shows**: on stacks that are alike the two actions come to results of one kind. -/
def Blind {α : Type} (x y : Action α) : Prop := ∀ s t : Stack, s.Alike t → SameKind (x s) (y t)

theorem blind_of_ofList {α : Type} {x y : Action α}
    (h : ∀ c l l', l.length = l'.length → SameKind (x (ofList c l)) (y (ofList c l'))) :
    Blind x y := by
  intro s t hst
  have hlen : s.toList.length = t.toList.length := by
    rw [length_toList, length_toList]
    exact hst.size_eq
  have hs := h s.capacity s.toList t.toList hlen
  rw [ofList_toList, hst.capacity_eq, ofList_toList] at hs
  exact hs

theorem blind_pure {α : Type} (a b : α) : Blind (pure a : Action α) (pure b) :=
  fun _ _ hst => .ok hst

theorem blind_bind {α β : Type} {x y : Action α} {f g : α → Action β} (hxy : Blind x y)
    (hfg : ∀ a b, Blind (f a) (g b)) : Blind (x >>= f) (y >>= g) := by
  intro s t hst
  have h := hxy s t hst
  generalize hx : x s = r at h
  generalize hy : y t = r' at h
  cases h with
  | ok h =>
    rw [bind_of_ok hx, bind_of_ok hy]
    exact hfg _ _ _ _ h
  | error h =>
    rw [bind_of_error hx, bind_of_error hy]
    exact .error h

theorem blind_push (w w' : Word) : Blind (push w) (push w') := by
  refine blind_of_ofList fun c l l' hlen => ?_
  rw [push_ofList, push_ofList, hlen]
  split
  · exact .ok (alike_ofList c (by rw [List.length_cons, List.length_cons, hlen]))
  · exact .error (alike_ofList c hlen)

theorem blind_pop : Blind pop pop := by
  refine blind_of_ofList fun c l l' hlen => ?_
  match l, l' with
  | [], [] =>
    rw [pop_ofList_nil]
    exact .error (alike_ofList c rfl)
  | w :: l, w' :: l' =>
    rw [pop_ofList_cons, pop_ofList_cons]
    exact .ok (alike_ofList c (Nat.succ.inj hlen))

theorem blind_elementAt (i : Nat) : Blind (elementAt i) (elementAt i) := by
  refine blind_of_ofList fun c l l' hlen => ?_
  rw [elementAt_ofList, elementAt_ofList]
  by_cases h : i < l.length
  · rw [List.getElem?_eq_getElem h, List.getElem?_eq_getElem (hlen ▸ h)]
    exact .ok (alike_ofList c hlen)
  · rw [List.getElem?_eq_none (by omega), List.getElem?_eq_none (by omega), hlen]
    exact .error (alike_ofList c hlen)

theorem blind_swap (i : Nat) : Blind (swap i) (swap i) := by
  refine blind_of_ofList fun c l l' hlen => ?_
  rw [swap_ofList, swap_ofList, hlen]
  split
  · exact .ok (alike_ofList c (by rw [length_exchange, length_exchange, hlen]))
  · exact .error (alike_ofList c hlen)

end Stack

namespace Machine

open Stack

theorem blind_binary (f : Word → Word → Word) : Blind (binary f) (binary f) :=
  blind_bind blind_pop fun _ _ => blind_bind blind_pop fun _ _ => blind_push _ _

theorem blind_unary (f : Word → Word) : Blind (unary f) (unary f) :=
  blind_bind blind_pop fun _ _ => blind_push _ _

/-- **No word shows in what an instruction does**, not even its operand. -/
theorem blind_effect (op : Opcode) (w w' : Word) : Blind (effect op w) (effect op w') := by
  cases op with
  | stop => exact blind_pure () ()
  | pop => exact blind_bind blind_pop fun _ _ => blind_pure () ()
  | push width => exact blind_push w w'
  | dup place => exact blind_bind (blind_elementAt _) fun _ _ => blind_push _ _
  | swap distance => exact blind_swap _
  | isZero => exact blind_unary _
  | _ => exact blind_binary _

end Machine

/-! ## Code -/

/-- **The boundaries of code**: the offsets at which decoding finds a fragment, each with the byte
that stands there. -/
def Bytecode.boundaries (code : List UInt8) : List (Nat × Option UInt8) :=
  (located 0 (decode code)).map fun p => (p.1, p.2.bytes.head?)

namespace Fragment

/-- The fragment with zeros for its operand. -/
def blank : Fragment → Fragment
  | instruction i => instruction { i with operand := List.replicate i.operand.length 0 }
  | unknown byte => unknown byte
  | truncated opcode operand => truncated opcode (List.replicate operand.length 0)

/-- The opcode of a fragment, if its first byte is one. -/
def opcode? : Fragment → Option Opcode
  | instruction i => some i.opcode
  | unknown _ => none
  | truncated opcode _ => some opcode

theorem length_bytes_blank (f : Fragment) : f.blank.bytes.length = f.bytes.length := by
  cases f <;> simp [blank, bytes, Instruction.encode]

theorem opcode?_eq {f : Fragment} (h : f.Sound) :
    f.bytes.head?.bind Opcode.ofByte? = f.opcode? := by
  cases f with
  | instruction i => exact h.1
  | unknown byte => exact h
  | truncated op operand => exact h.1

/-- An instruction does not fit where a push with the same opcode is cut short. -/
theorem length_truncated_lt {i : Instruction} {op : Opcode} {operand : List UInt8}
    (hi : i.WellFormed) (hlt : operand.length < op.width) (hop : i.opcode = op) :
    (truncated op operand).bytes.length < (instruction i).bytes.length := by
  have hlen := Instruction.length_encode hi
  rw [hop] at hlen
  simp only [bytes, List.length_cons]
  omega

/-- Two fragments that begin with the same byte, in front of what makes them equally long, are the
same but for the operand. -/
theorem blank_eq_of_head {f g : Fragment} {rest rest' : List UInt8} (hf : f.Sound) (hg : g.Sound)
    (hend : ∀ op operand, f = truncated op operand → rest = [])
    (hend' : ∀ op operand, g = truncated op operand → rest' = [])
    (hlen : f.bytes.length + rest.length = g.bytes.length + rest'.length)
    (hhead : f.bytes.head? = g.bytes.head?) : f.blank = g.blank := by
  have hop : f.opcode? = g.opcode? := by rw [← opcode?_eq hf, ← opcode?_eq hg, hhead]
  cases f with
  | unknown byte =>
    cases g with
    | unknown byte' => rw [Option.some.inj hhead]
    | instruction j => exact absurd hop (by simp [opcode?])
    | truncated op operand => exact absurd hop (by simp [opcode?])
  | instruction i =>
    cases g with
    | unknown byte => exact absurd hop (by simp [opcode?])
    | instruction j =>
      have hop : i.opcode = j.opcode := Option.some.inj hop
      have hi : i.operand.length = i.opcode.width := hf.2
      have hj : j.operand.length = j.opcode.width := hg.2
      rw [blank, blank, hi, hj, hop]
    | truncated op operand =>
      have hlt := length_truncated_lt hf hg.2 (Option.some.inj hop)
      rw [hend' op operand rfl, List.length_nil] at hlen
      omega
  | truncated op operand =>
    cases g with
    | unknown byte => exact absurd hop (by simp [opcode?])
    | instruction j =>
      have hlt := length_truncated_lt hg hf.2 (Option.some.inj hop).symm
      rw [hend op operand rfl, List.length_nil] at hlen
      omega
    | truncated op' operand' =>
      have hop : op = op' := Option.some.inj hop
      rw [hend op operand rfl, hend' op' operand' rfl] at hlen
      simp only [bytes, List.length_cons, List.length_nil] at hlen
      have hsame : operand.length = operand'.length := by omega
      rw [blank, blank, hop, hsame]

/-- **Code that is the same but for operands** decodes to the same fragments, but for operands. -/
theorem map_blank_eq : ∀ (fs gs : List Fragment) {a b : List UInt8} {offset : Nat},
    decode a = fs → decode b = gs → a.length = b.length →
      (located offset fs).map (fun p => (p.1, p.2.bytes.head?)) =
        (located offset gs).map (fun p => (p.1, p.2.bytes.head?)) →
      fs.map blank = gs.map blank
  | [], [], _, _, _, _, _, _, _ => rfl
  | [], g :: gs, _, _, _, _, _, _, h => absurd h (by simp [located])
  | f :: fs, [], _, _, _, _, _, _, h => absurd h (by simp [located])
  | f :: fs, g :: gs, a, b, offset, ha, hb, hlen, h => by
    rw [located, located, List.map_cons, List.map_cons] at h
    obtain ⟨hhead, htail⟩ := List.cons.inj h
    obtain ⟨rest, rfl, hf, hfs, hend⟩ := decode_eq_cons ha
    obtain ⟨rest', rfl, hg, hgs, hend'⟩ := decode_eq_cons hb
    rw [List.length_append, List.length_append] at hlen
    have hblank : f.blank = g.blank :=
      blank_eq_of_head hf hg hend hend' hlen (congrArg Prod.snd hhead)
    have hbytes : f.bytes.length = g.bytes.length := by
      rw [← length_bytes_blank, hblank, length_bytes_blank]
    have hrest : rest.length = rest'.length := by omega
    rw [hbytes] at htail
    rw [List.map_cons, List.map_cons, hblank, map_blank_eq fs gs hfs hgs hrest htail]

/-! What a fragment is shows on it when it is blanked out. -/

theorem eq_unknown_of_blank {byte : UInt8} {g : Fragment} (h : (unknown byte).blank = g.blank) :
    g = unknown byte := by
  cases g with
  | unknown byte' => exact h.symm
  | instruction j => exact absurd h (by simp [blank])
  | truncated op operand => exact absurd h (by simp [blank])

theorem eq_truncated_of_blank {op : Opcode} {operand : List UInt8} {g : Fragment}
    (h : (truncated op operand).blank = g.blank) :
    ∃ operand', g = truncated op operand' ∧ operand'.length = operand.length := by
  cases g with
  | unknown byte => exact absurd h (by simp [blank])
  | instruction j => exact absurd h (by simp [blank])
  | truncated op' operand' =>
    obtain ⟨rfl, hreplicate⟩ := Fragment.truncated.inj h
    have hlen := congrArg List.length hreplicate
    rw [List.length_replicate, List.length_replicate] at hlen
    exact ⟨operand', rfl, hlen.symm⟩

theorem eq_instruction_of_blank {i : Instruction} {g : Fragment}
    (h : (instruction i).blank = g.blank) : ∃ j, g = instruction j ∧ j.opcode = i.opcode := by
  cases g with
  | unknown byte => exact absurd h (by simp [blank])
  | instruction j => exact ⟨j, rfl, (congrArg Instruction.opcode (Fragment.instruction.inj h)).symm⟩
  | truncated op operand => exact absurd h (by simp [blank])

end Fragment

/-! ## Machines -/

namespace Machine

open Stack

/-- **The machines differ in data only**: in the words on the stack, and in operands of the code
that is left. -/
structure Alike (m m' : Machine) : Prop where
  pc_eq : m.pc = m'.pc
  steps_eq : m.steps = m'.steps
  config_eq : m.config = m'.config
  size_eq : m.code.size = m'.code.size
  stack : m.stack.Alike m'.stack
  code : (decode m.remaining).map blank = (decode m'.remaining).map blank

/-- What can be told of a machine without a look at its words. -/
def control (m : Machine) : Nat × Nat × Status × Nat := (m.pc, m.steps, m.status, m.stack.size)

variable {m m' : Machine}

theorem Alike.status_eq (h : m.Alike m') : m.status = m'.status := by
  unfold status
  rw [h.pc_eq, h.size_eq]

theorem Alike.control_eq (h : m.Alike m') : m.control = m'.control := by
  unfold control
  rw [h.pc_eq, h.steps_eq, h.status_eq, h.stack.size_eq]

theorem Alike.allowed (h : m.Alike m') (ha : m.Allowed) : m'.Allowed := by
  intro limit hl
  rw [← h.steps_eq]
  exact ha limit (by rw [h.config_eq]; exact hl)

theorem Alike.decode_eq_cons (h : m.Alike m') {f : Fragment} {fs : List Fragment}
    (hd : decode m.remaining = f :: fs) :
    ∃ g gs, decode m'.remaining = g :: gs ∧ f.blank = g.blank ∧ fs.map blank = gs.map blank := by
  have hcode := h.code
  rw [hd, List.map_cons] at hcode
  obtain ⟨g, gs, hd', hg, hgs⟩ := List.map_eq_cons_iff.mp hcode.symm
  exact ⟨g, gs, hd', hg.symm, hgs.symm⟩

theorem Alike.effect (h : m.Alike m') {i j : Instruction} (hop : j.opcode = i.opcode) :
    SameKind (Machine.effect i.opcode (Word.ofBytes i.operand) m.stack)
      (Machine.effect j.opcode (Word.ofBytes j.operand) m'.stack) := by
  rw [hop]
  exact blind_effect _ _ _ _ _ h.stack

theorem Alike.advance (h : m.Alike m') {i j : Instruction} {fs gs : List Fragment}
    {stack stack' : Stack} (hd : decode m.remaining = instruction i :: fs)
    (hd' : decode m'.remaining = instruction j :: gs) (hop : j.opcode = i.opcode)
    (hfs : fs.map blank = gs.map blank) (hstack : stack.Alike stack') :
    (m.advance i.opcode stack).Alike (m'.advance j.opcode stack') where
  pc_eq := by
    show m.next i.opcode = m'.next j.opcode
    unfold next
    rw [hop, h.pc_eq, h.size_eq]
  steps_eq := congrArg (· + 1) h.steps_eq
  config_eq := h.config_eq
  size_eq := h.size_eq
  stack := hstack
  code := by
    rw [decode_advance stack hd, decode_advance stack' hd', hop]
    split
    · rfl
    · exact hfs

/-- **A step does the same on machines that are alike**, and leaves them alike. -/
theorem step_alike (h : m.Alike m') :
    verdict m.step = verdict m'.step ∧ (left m.step).Alike (left m'.step) := by
  have hc := step_cases m
  generalize m.step = r at hc ⊢
  cases hc with
  | halted hd =>
    have hle : m'.code.size ≤ m'.pc := by
      rw [← h.size_eq, ← h.pc_eq]
      exact (decode_eq_nil_iff m).mp hd
    rw [step_of_le hle]
    exact ⟨rfl, h⟩
  | @limited f fs limit hd hl hle =>
    obtain ⟨g, gs, hd', -⟩ := h.decode_eq_cons hd
    have hpc := (pc_lt_iff m').mpr (by rw [hd']; simp)
    have hl' : m'.config.stepLimit = some limit := by rw [← h.config_eq]; exact hl
    have hle' : limit ≤ m'.steps := by rw [← h.steps_eq]; exact hle
    rw [step_of_fetch_error hpc (fetch_of_limit hl' hle' _)]
    exact ⟨rfl, h⟩
  | unknown hd ha =>
    obtain ⟨g, gs, hd', hg, -⟩ := h.decode_eq_cons hd
    rw [eq_unknown_of_blank hg] at hd'
    rw [step_of_unknown hd' (h.allowed ha), h.pc_eq]
    exact ⟨rfl, h⟩
  | truncated hd ha =>
    obtain ⟨g, gs, hd', hg, -⟩ := h.decode_eq_cons hd
    obtain ⟨operand', rfl, hlen⟩ := eq_truncated_of_blank hg
    rw [step_of_truncated hd' (h.allowed ha), hlen, h.pc_eq]
    exact ⟨rfl, h⟩
  | @faulted i fs fault stack hd ha he =>
    obtain ⟨g, gs, hd', hg, -⟩ := h.decode_eq_cons hd
    obtain ⟨j, rfl, hop⟩ := eq_instruction_of_blank hg
    have hkind := h.effect hop
    rw [he] at hkind
    generalize he' : effect j.opcode (Word.ofBytes j.operand) m'.stack = r at hkind
    cases hkind with
    | error hstack =>
      rw [step_of_effect_error hd' (h.allowed ha) he']
      exact ⟨rfl, { h with stack := hstack }⟩
  | @executed i fs stack hd ha he =>
    obtain ⟨g, gs, hd', hg, hgs⟩ := h.decode_eq_cons hd
    obtain ⟨j, rfl, hop⟩ := eq_instruction_of_blank hg
    have hkind := h.effect hop
    rw [he] at hkind
    generalize he' : effect j.opcode (Word.ofBytes j.operand) m'.stack = r at hkind
    cases hkind with
    | ok hstack =>
      have hafter := h.advance hd hd' hop hgs hstack
      rw [step_of_effect_ok hd' (h.allowed ha) he', verdict, verdict, hafter.status_eq]
      exact ⟨rfl, hafter⟩

theorem run_alike : ∀ {m' : Machine}, m.Alike m' →
    verdict m.run = verdict m'.run ∧ (left m.run).Alike (left m'.run) := by
  induction m using run_induction with
  | halted m hpc hrun =>
    intro m' h
    have hpc' : m'.code.size ≤ m'.pc := by
      rw [← h.size_eq, ← h.pc_eq]
      exact hpc
    rw [hrun, run_of_le hpc']
    exact ⟨rfl, h⟩
  | faulted m after fault hm hrun =>
    intro m' h
    obtain ⟨hsame, hleft⟩ := step_alike h
    rw [hm] at hsame hleft
    cases hm' : m'.step with
    | ok status after' => rw [hm'] at hsame; exact absurd hsame (by simp [verdict])
    | error fault' after' =>
      rw [hm'] at hsame hleft
      have hfault : (Except.error fault : Except Fault Status) = .error fault' := hsame
      rw [hrun, run_of_error hm', Except.error.inj hfault]
      exact ⟨rfl, hleft⟩
  | stepped m after status _ hm hrun ih =>
    intro m' h
    obtain ⟨hsame, hleft⟩ := step_alike h
    rw [hm] at hsame hleft
    cases hm' : m'.step with
    | error fault' after' => rw [hm'] at hsame; exact absurd hsame (by simp [verdict])
    | ok status' after' =>
      rw [hm'] at hleft
      rw [hrun, run_of_ok hm']
      exact ih hleft

theorem stepped_alike (k : Nat) (h : m.Alike m') : (m.stepped k).Alike (m'.stepped k) := by
  induction k generalizing m m' with
  | zero => exact h
  | succ k ih => exact ih (step_alike h).2

/-- **Control does not depend on data**: let two pieces of code be the same but for operands, and
two machines have stacks that are alike and the same limits. Then the runs come to the same, with
the same fault or none, and after every step both machines have the same program counter, the same
count of steps, the same status and as many words on the stack. -/
theorem execute_alike {a b : Bytecode} (hsize : a.size = b.size)
    (hcode : Bytecode.boundaries a.toList = Bytecode.boundaries b.toList)
    (hconfig : m.config = m'.config) (hstack : m.stack.Alike m'.stack) :
    verdict (m.execute a) = verdict (m'.execute b) ∧
      (left (m.execute a)).control = (left (m'.execute b)).control ∧
      ∀ k, verdict ((m.load a).stepped k).step = verdict ((m'.load b).stepped k).step ∧
        ((m.load a).stepped k).control = ((m'.load b).stepped k).control := by
  have hlen : a.toList.length = b.toList.length := hsize
  have hload : (m.load a).Alike (m'.load b) :=
    { pc_eq := rfl
      steps_eq := rfl
      config_eq := hconfig
      size_eq := hsize
      stack := hstack
      code := map_blank_eq _ _ rfl rfl hlen hcode }
  obtain ⟨hverdict, hend⟩ := run_alike hload
  refine ⟨hverdict, hend.control_eq, fun k => ?_⟩
  have hk := stepped_alike k hload
  exact ⟨(step_alike hk).1, hk.control_eq⟩

/-- Whatever word is pushed and whatever is on the stack, `PUSH1` and `DUP2` overflow two places. -/
theorem execute_alike_overflow :
    let m : Machine := { stack := ofList 2 [1], config := { stackCapacity := 2 } }
    let m' : Machine := { stack := ofList 2 [9], config := { stackCapacity := 2 } }
    Bytecode.boundaries [0x60, 5, 0x81] = Bytecode.boundaries [0x60, 0, 0x81] ∧
      verdict (m.execute #[0x60, 5, 0x81]) = .error (.stackOverflow 2) ∧
      verdict (m'.execute #[0x60, 0, 0x81]) = .error (.stackOverflow 2) ∧
      ((m.load #[0x60, 5, 0x81]).stepped 1).control =
        ((m'.load #[0x60, 0, 0x81]).stepped 1).control := by
  have hcode : Bytecode.boundaries [0x60, 5, 0x81] = Bytecode.boundaries [0x60, 0, 0x81] := by
    decide +kernel
  obtain ⟨after, hrun⟩ : ∃ after,
      execute { stack := ofList 2 [1], config := { stackCapacity := 2 } } #[0x60, 5, 0x81] =
        .error (.stackOverflow 2) after := ⟨_, (run_of_ok rfl).trans (run_of_error rfl)⟩
  intro m m'
  have hfault : verdict (m.execute #[0x60, 5, 0x81]) = .error (.stackOverflow 2) :=
    congrArg verdict hrun
  obtain ⟨hverdict, -, hsteps⟩ := @execute_alike m m' #[0x60, 5, 0x81] #[0x60, 0, 0x81] rfl hcode
    rfl (alike_ofList 2 rfl)
  exact ⟨hcode, hfault, hverdict.symm.trans hfault, (hsteps 1).2⟩

end Machine

end WordStack
