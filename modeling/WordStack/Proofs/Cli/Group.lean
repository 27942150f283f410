import Mathlib.Data.List.Basic
import WordStack.Cli.Options

/-! # Groups of arguments

The arguments of a command line fall into *groups*: the path of a source file, a flag with its
value, or a flag that takes none (`Group`). A command line that is accepted is a list of groups
written one after another (`exists_written`), and reading it is to take in what one group after
another asks for (`settle`, `read_written_iff`).

* `apply_input`: no group but a source file and hex text looks at the input or changes it.
* `settle_of_choice`: without a source file all groups are accepted whose values can be read. -/

namespace WordStack.Cli

/-- What a group is about. -/
inductive Kind where
  | source
  | hex
  | output
  | disassemble
  | capacity
  | maxSteps
  | logLevel
  | noTimestamp
  deriving DecidableEq

/-- **A group of arguments**, with the value as it is written. Some flags have a short form. -/
inductive Group where
  | source (path : String) (hdash : path.toList.head? ≠ some '-')
  | hex (short : Bool) (text : String)
  | output (short : Bool) (path : String)
  | disassemble (short : Bool)
  | capacity (text : String)
  | maxSteps (text : String)
  | logLevel (text : String)
  | noTimestamp
  deriving DecidableEq

/-- What a choice is about. -/
def Choice.kind : Choice → Kind
  | operand _ => .source
  | hex _ => .hex
  | output _ => .output
  | disassemble => .disassemble
  | capacity _ => .capacity
  | maxSteps _ => .maxSteps
  | logLevel _ => .logLevel
  | noTimestamp => .noTimestamp

namespace Group

/-- What the group is about. -/
def kind : Group → Kind
  | source _ _ => .source
  | hex _ _ => .hex
  | output _ _ => .output
  | disassemble _ => .disassemble
  | capacity _ => .capacity
  | maxSteps _ => .maxSteps
  | logLevel _ => .logLevel
  | noTimestamp => .noTimestamp

/-- The arguments of a group. -/
def arguments : Group → List String
  | source path _ => [path]
  | hex short text => [if short then "-x" else "--hex", text]
  | output short path => [if short then "-o" else "--output", path]
  | disassemble short => [if short then "-d" else "--disassemble"]
  | capacity text => ["--capacity", text]
  | maxSteps text => ["--max-steps", text]
  | logLevel text => ["--log-level", text]
  | noTimestamp => ["--no-timestamp"]

/-- **The arguments of groups**, one group after another. -/
def written (gs : List Group) : List String := gs.flatMap arguments

/-- What a group asks for, if its value can be read. -/
def choice : Group → Except Refusal Choice
  | source path _ => .ok (.operand path)
  | hex _ text => .ok (.hex text)
  | output _ path => .ok (.output path)
  | disassemble _ => .ok .disassemble
  | capacity text => (number "--capacity" text).map .capacity
  | maxSteps text => (number "--max-steps" text).map .maxSteps
  | logLevel text => (level text).map .logLevel
  | noTimestamp => .ok .noTimestamp

/-- What a group changes, if it is not refused. -/
def act (g : Group) (o : Options) : Option Options := (g.choice.bind o.apply).toOption

/-- **The options after some groups**, if none of them is refused. -/
def settle (gs : List Group) (o : Option Options) : Option Options :=
  gs.foldl (fun o g => o.bind g.act) o

theorem written_cons (g : Group) (gs : List Group) :
    written (g :: gs) = g.arguments ++ written gs := List.flatMap_cons

theorem written_append (gs gs' : List Group) : written (gs ++ gs') = written gs ++ written gs' :=
  List.flatMap_append

/-! ## What a group asks for -/

theorem kind_of_choice {g : Group} {c : Choice} (h : g.choice = .ok c) : c.kind = g.kind := by
  have hmap : ∀ {α : Type} {x : Except Refusal α} {f : α → Choice} {k : Kind},
      (∀ a, (f a).kind = k) → x.map f = .ok c → c.kind = k := by
    intro α x f k hf hx
    cases x with
    | error refusal => exact absurd hx (by simp [Except.map])
    | ok a => cases hx; exact hf a
  cases g with
  | capacity text => exact hmap (fun _ => rfl) h
  | maxSteps text => exact hmap (fun _ => rfl) h
  | logLevel text => exact hmap (fun _ => rfl) h
  | _ => cases h; rfl

theorem eq_source_of_kind {g : Group} (h : g.kind = .source) :
    ∃ path hdash, g = source path hdash := by
  cases g with
  | source path hdash => exact ⟨path, hdash, rfl⟩
  | _ => exact absurd h (by simp [kind])

theorem eq_hex_of_kind {g : Group} (h : g.kind = .hex) : ∃ short text, g = hex short text := by
  cases g with
  | hex short text => exact ⟨short, text, rfl⟩
  | _ => exact absurd h (by simp [kind])

/-- **No choice but hex text and a source file looks at the input**, or changes it. -/
theorem apply_input {c : Choice} (hsource : c.kind ≠ .source) (hhex : c.kind ≠ .hex)
    (o : Options) :
    ∃ after, o.apply c = .ok after ∧ after.input = o.input ∧
      ∀ input, Options.apply { o with input } c = .ok { after with input } := by
  cases c with
  | operand argument => exact absurd rfl hsource
  | hex text => exact absurd rfl hhex
  | _ => exact ⟨_, rfl, rfl, fun _ => rfl⟩

theorem apply_operand {path : String} (hdash : path.toList.head? ≠ some '-') (o : Options) :
    o.apply (.operand path) =
      if o.input = none then .ok { o with input := some (.source path) }
      else .error (.unexpected path) := by
  simp only [Options.apply, hdash, ne_eq, not_false_eq_true, true_and]

section

variable {g : Group} {c : Choice}

theorem act_of_choice (h : g.choice = .ok c) (o : Options) : g.act o = (o.apply c).toOption := by
  rw [act, h]
  rfl

theorem act_of_refused {refusal : Refusal} (h : g.choice = .error refusal) (o : Options) :
    g.act o = none := by
  rw [act, h]
  rfl

end

theorem act_source {path : String} (hdash : path.toList.head? ≠ some '-') (o : Options) :
    (source path hdash).act o =
      if o.input = none then some { o with input := some (.source path) } else none := by
  rw [act_of_choice rfl, apply_operand hdash]
  split <;> rfl

/-! ## Several groups -/

theorem settle_none (gs : List Group) : settle gs none = none := by
  induction gs with
  | nil => rfl
  | cons g gs ih => exact ih

theorem settle_cons (g : Group) (gs : List Group) (o : Options) :
    settle (g :: gs) (some o) = settle gs (g.act o) := rfl

theorem settle_append (gs gs' : List Group) (o : Option Options) :
    settle (gs ++ gs') o = settle gs' (settle gs o) := List.foldl_append

/-- **What it takes to accept groups**: the value of the first can be read, it is not refused, and
the others are accepted after it. -/
theorem settle_cons_eq_some_iff {g : Group} {gs : List Group} {o after : Options} :
    settle (g :: gs) (some o) = some after ↔
      ∃ c next, g.choice = .ok c ∧ o.apply c = .ok next ∧ settle gs (some next) = some after := by
  rw [settle_cons]
  cases hc : g.choice with
  | error refusal => simp [act_of_refused hc, settle_none]
  | ok c =>
    rw [act_of_choice hc]
    cases hnext : o.apply c with
    | error refusal => simp [Except.toOption, settle_none, hnext]
    | ok next => simp [Except.toOption, hnext]

theorem choice_of_settle {gs : List Group} {o after : Options}
    (h : settle gs (some o) = some after) : ∀ g ∈ gs, ∃ c, g.choice = .ok c := by
  induction gs generalizing o with
  | nil => exact fun g hg => absurd hg List.not_mem_nil
  | cons g gs ih =>
    obtain ⟨c, next, hc, -, hrest⟩ := settle_cons_eq_some_iff.mp h
    exact List.forall_mem_cons.mpr ⟨⟨c, hc⟩, ih hrest⟩

/-- **Groups that are no source file are all accepted**, if their values can be read. There is an
input then if there was one or hex text is among them. -/
theorem settle_of_choice {gs : List Group} (hchoice : ∀ g ∈ gs, ∃ c, g.choice = .ok c)
    (hsource : ∀ g ∈ gs, g.kind ≠ .source) (o : Options) :
    ∃ after, settle gs (some o) = some after ∧
      (o.input ≠ none ∨ Kind.hex ∈ gs.map kind → after.input ≠ none) := by
  induction gs generalizing o with
  | nil => exact ⟨o, rfl, fun h => h.resolve_right List.not_mem_nil⟩
  | cons g gs ih =>
    obtain ⟨⟨c, hc⟩, hchoices⟩ := List.forall_mem_cons.mp hchoice
    obtain ⟨hg, hsources⟩ := List.forall_mem_cons.mp hsource
    rw [settle_cons, act_of_choice hc]
    by_cases hhex : g.kind = .hex
    · obtain ⟨short, text, rfl⟩ := eq_hex_of_kind hhex
      cases hc
      obtain ⟨after, hafter, hinput⟩ := ih hchoices hsources { o with input := some (.hex text) }
      exact ⟨after, hafter, fun _ => hinput (Or.inl (by simp))⟩
    · rw [← kind_of_choice hc] at hg hhex
      obtain ⟨next, hnext, hsame, -⟩ := apply_input hg hhex o
      obtain ⟨after, hafter, hinput⟩ := ih hchoices hsources next
      rw [hnext]
      refine ⟨after, hafter, fun h => hinput ?_⟩
      rw [hsame]
      refine h.imp_right fun hmem => ?_
      rw [List.map_cons, List.mem_cons] at hmem
      exact hmem.resolve_left fun heq => hhex ((kind_of_choice hc).trans heq.symm)

/-! ## Flags -/

theorem valueFlag?_of_head {path : String} (h : path.toList.head? ≠ some '-') :
    valueFlag? path = none := by
  unfold valueFlag?
  split
  all_goals first | rfl | exact absurd (by decide) h

theorem bareFlag?_of_head {path : String} (h : path.toList.head? ≠ some '-') :
    bareFlag? path = none := by
  unfold bareFlag?
  split
  all_goals first | rfl | exact absurd (by decide) h

theorem exists_arguments_eq_pair {flag : String} {choose : String → Except Refusal Choice}
    (h : valueFlag? flag = some choose) (value : String) :
    ∃ g : Group, g.arguments = [flag, value] := by
  unfold valueFlag? at h
  split at h
  · exact ⟨.hex false value, rfl⟩
  · exact ⟨.hex true value, rfl⟩
  · exact ⟨.output false value, rfl⟩
  · exact ⟨.output true value, rfl⟩
  · exact ⟨.capacity value, rfl⟩
  · exact ⟨.maxSteps value, rfl⟩
  · exact ⟨.logLevel value, rfl⟩
  · exact absurd h (by simp)

theorem exists_arguments_eq_singleton {argument : String} {o after : Options}
    (h : o.apply ((bareFlag? argument).getD (.operand argument)) = .ok after) :
    ∃ g : Group, g.arguments = [argument] := by
  unfold bareFlag? at h
  split at h
  · exact ⟨.disassemble false, rfl⟩
  · exact ⟨.disassemble true, rfl⟩
  · exact ⟨.noTimestamp, rfl⟩
  · rw [Option.getD_none, Options.apply] at h
    split at h
    · rename_i hoperand
      exact ⟨.source argument hoperand.1, rfl⟩
    · exact absurd h (by simp)

/-! ## Reading -/

section

variable {choice : Except Refusal Choice} {next : EStateM Refusal Options Unit} {o after : Options}

theorem bind_take_of_ok (h : choice.bind o.apply = .ok after) :
    (do Options.take choice; next) o = next after := by
  have htake : Options.take choice o = .ok () after := by
    unfold Options.take
    rw [h]
  show EStateM.bind _ _ o = _
  rw [EStateM.bind, htake]

theorem bind_take_of_error {refusal : Refusal} (h : choice.bind o.apply = .error refusal) :
    (do Options.take choice; next) o = .error refusal o := by
  have htake : Options.take choice o = .error refusal o := by
    unfold Options.take
    rw [h]
  show EStateM.bind _ _ o = _
  rw [EStateM.bind, htake]

end

theorem readArguments_arguments (g : Group) (rest : List String) :
    Options.readArguments (g.arguments ++ rest) =
      (do Options.take g.choice; Options.readArguments rest) := by
  cases g with
  | source path hdash =>
    rw [arguments, List.singleton_append, Options.readArguments, valueFlag?_of_head hdash,
      bareFlag?_of_head hdash]
    rfl
  | hex short text => cases short <;> rfl
  | output short path => cases short <;> rfl
  | disassemble short => cases short <;> rfl
  | _ => rfl

/-- **Arguments that are accepted are those of some groups.** -/
theorem exists_written (arguments : List String) : ∀ {o after : Options},
    Options.readArguments arguments o = .ok () after → ∃ gs, arguments = written gs := by
  fun_induction Options.readArguments arguments with
  | case1 => exact fun _ => ⟨[], rfl⟩
  | case2 argument choose hflag =>
    intro o after h
    have herror : EStateM.Result.error (Refusal.missingValue argument) o = .ok () after := h
    exact absurd herror (by simp)
  | case3 argument choose hflag value rest ih =>
    intro o after h
    cases hc : (choose value).bind o.apply with
    | error refusal => rw [bind_take_of_error hc] at h; exact absurd h (by simp)
    | ok next =>
      rw [bind_take_of_ok hc] at h
      obtain ⟨gs, rfl⟩ := ih h
      obtain ⟨g, hg⟩ := exists_arguments_eq_pair hflag value
      exact ⟨g :: gs, by rw [written_cons, hg]; rfl⟩
  | case4 argument rest hflag ih =>
    intro o after h
    cases hc : (Except.ok ((bareFlag? argument).getD (.operand argument))).bind o.apply with
    | error refusal => rw [bind_take_of_error hc] at h; exact absurd h (by simp)
    | ok next =>
      rw [bind_take_of_ok hc] at h
      obtain ⟨gs, rfl⟩ := ih h
      obtain ⟨g, hg⟩ := exists_arguments_eq_singleton hc
      exact ⟨g :: gs, by rw [written_cons, hg]; rfl⟩

/-- Reading goes on behind groups that are accepted. -/
theorem readArguments_append {gs : List Group} {o after : Options} {rest : List String}
    (h : settle gs (some o) = some after) :
    Options.readArguments (written gs ++ rest) o = Options.readArguments rest after := by
  induction gs generalizing o with
  | nil =>
    cases h
    rfl
  | cons g gs ih =>
    obtain ⟨c, next, hc, hnext, hrest⟩ := settle_cons_eq_some_iff.mp h
    have htake : g.choice.bind o.apply = .ok next := by
      rw [hc]
      exact hnext
    rw [written_cons, List.append_assoc, readArguments_arguments, bind_take_of_ok htake]
    exact ih hrest

theorem readArguments_written_iff {gs : List Group} {o after : Options} :
    Options.readArguments (written gs) o = .ok () after ↔ settle gs (some o) = some after := by
  induction gs generalizing o with
  | nil =>
    show EStateM.Result.ok () o = _ ↔ some o = _
    simp
  | cons g gs ih =>
    rw [written_cons, readArguments_arguments, settle_cons, act]
    cases hc : g.choice.bind o.apply with
    | error refusal => simp [bind_take_of_error hc, Except.toOption, settle_none]
    | ok next =>
      rw [bind_take_of_ok hc]
      exact ih

theorem exists_written_of_append {g : Group} {rest : List String} {o after : Options}
    (h : Options.readArguments (g.arguments ++ rest) o = .ok () after) :
    ∃ gs, rest = written gs ∧ settle (g :: gs) (some o) = some after := by
  obtain ⟨gs, rfl⟩ : ∃ gs, rest = written gs := by
    rw [readArguments_arguments] at h
    cases hc : g.choice.bind o.apply with
    | error refusal => rw [bind_take_of_error hc] at h; exact absurd h (by simp)
    | ok next => rw [bind_take_of_ok hc] at h; exact exists_written rest h
  exact ⟨gs, rfl, readArguments_written_iff.mp h⟩

theorem read_eq_ok_iff {arguments : List String} {input : Input} {o : Options} :
    Options.read arguments = .ok input o ↔
      Options.readArguments arguments {} = .ok () o ∧ o.input = some input := by
  unfold Options.read
  cases Options.readArguments arguments {} with
  | error refusal after => simp
  | ok _ after =>
    cases hinput : after.input with
    | none =>
      simp only [hinput, EStateM.Result.ok.injEq, true_and, reduceCtorEq, false_iff, not_and]
      rintro rfl
      simp [hinput]
    | some i =>
      simp only [hinput, EStateM.Result.ok.injEq, true_and]
      constructor
      · rintro ⟨rfl, rfl⟩
        exact ⟨rfl, hinput⟩
      · rintro ⟨rfl, h⟩
        rw [hinput] at h
        exact ⟨Option.some.inj h, rfl⟩

theorem read_written_iff {gs : List Group} {input : Input} {o : Options} :
    Options.read (written gs) = .ok input o ↔
      settle gs (some {}) = some o ∧ o.input = some input := by
  rw [read_eq_ok_iff, readArguments_written_iff]

end Group

end WordStack.Cli
