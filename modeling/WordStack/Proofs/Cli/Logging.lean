import WordStack.Cli.Terminal
import WordStack.Proofs.Cli.Observed

/-! # The log and the listing

What a command is to log shows on its error output and nowhere else (`Observed.SameResults`), and
the listing is just one more text, in front of what the execution puts on the output. Both are seen
at two places: in the arguments, where the groups for them leave the other options alone
(`Group.settle_others`, `Group.settle_listed`), and in the stages of the command, whose reports
differ in nothing else (`execution_eq`, `inDirectory_withInput_eq`). -/

namespace WordStack.Cli

/-- **Exit code, output and files are the same.** The error output is left open. -/
def Observed.SameResults (a b : Observed) : Prop :=
  a.exitCode = b.exitCode ∧ a.output = b.output ∧ a.files = b.files

namespace Options

/-- The options with the log as it is by default. -/
def quiet (o : Options) : Options := { o with log := {} }

/-- The options with the listing. -/
def listed (o : Options) : Options := { o with disassemble := true }

end Options

/-- An operand is taken in or refused by the input alone, so it does not see a change of the
options that leaves the input. -/
theorem apply_operand_map {f : Options → Options} (hinput : ∀ o, (f o).input = o.input)
    (hset : ∀ o input, { f o with input } = f { o with input }) (argument : String) (o : Options) :
    ((f o).apply (.operand argument)).toOption =
      (o.apply (.operand argument)).toOption.map f := by
  simp only [Options.apply, hinput, hset]
  split <;> rfl

/-! ## Groups for the log -/

/-- Is it the log only? -/
def Kind.isLogging : Kind → Bool
  | logLevel => true
  | noTimestamp => true
  | _ => false

theorem apply_quiet {c : Choice} (h : c.kind.isLogging = false) (o : Options) :
    (o.quiet.apply c).toOption = (o.apply c).toOption.map Options.quiet := by
  cases c with
  | operand argument =>
    exact apply_operand_map (f := Options.quiet) (fun _ => rfl) (fun _ _ => rfl) argument o
  | logLevel level => exact absurd h (by simp [Choice.kind, Kind.isLogging])
  | noTimestamp => exact absurd h (by simp [Choice.kind, Kind.isLogging])
  | _ => rfl

theorem apply_of_isLogging {c : Choice} (h : c.kind.isLogging = true) (o : Options) :
    ∃ after, o.apply c = .ok after ∧ after.quiet = o.quiet := by
  cases c with
  | logLevel level => exact ⟨_, rfl, rfl⟩
  | noTimestamp => exact ⟨_, rfl, rfl⟩
  | _ => exact absurd h (by simp [Choice.kind, Kind.isLogging])

namespace Group

/-- The groups that are not for the log. -/
def others (gs : List Group) : List Group := gs.filter (! ·.kind.isLogging)

theorem act_quiet {g : Group} (h : g.kind.isLogging = false) (o : Options) :
    g.act o.quiet = (g.act o).map Options.quiet := by
  cases hc : g.choice with
  | error refusal => rw [act_of_refused hc, act_of_refused hc, Option.map_none]
  | ok c =>
    rw [act_of_choice hc, act_of_choice hc]
    exact apply_quiet (kind_of_choice hc ▸ h) o

/-- **Groups for the log leave the other options alone**, and so can be left out. -/
theorem settle_others {gs : List Group}
    (hchoice : ∀ g ∈ gs, g.kind.isLogging = true → ∃ c, g.choice = .ok c) (o : Options) :
    (settle gs (some o)).map Options.quiet = settle (others gs) (some o.quiet) := by
  induction gs generalizing o with
  | nil => rfl
  | cons g gs ih =>
    obtain ⟨hg, hgs⟩ := List.forall_mem_cons.mp hchoice
    rw [settle_cons]
    cases hlog : g.kind.isLogging with
    | true =>
      obtain ⟨c, hc⟩ := hg hlog
      obtain ⟨next, hnext, hquiet⟩ := apply_of_isLogging (kind_of_choice hc ▸ hlog) o
      have hothers : others (g :: gs) = others gs := List.filter_cons_of_neg (by simp [hlog])
      rw [act_of_choice hc, hnext, hothers, ← hquiet]
      exact ih hgs next
    | false =>
      have hothers : others (g :: gs) = g :: others gs := List.filter_cons_of_pos (by simp [hlog])
      rw [hothers, settle_cons, act_quiet hlog]
      cases g.act o with
      | none => rw [Option.map_none, settle_none, settle_none, Option.map_none]
      | some next => exact ih hgs next

/-- **With other groups for the log** the arguments are accepted again, with the same input and the
same options otherwise. -/
theorem read_of_others_eq {gs gs' : List Group} {input : Input} {o : Options}
    (hothers : others gs' = others gs)
    (hlevels : ∀ text, logLevel text ∈ gs' → (Log.Level.ofText? text).isSome)
    (h : Options.read (written gs) = .ok input o) :
    ∃ o', Options.read (written gs') = .ok input o' ∧ o'.quiet = o.quiet := by
  obtain ⟨hsettle, hinput⟩ := read_written_iff.mp h
  have hchoice : ∀ g ∈ gs', g.kind.isLogging = true → ∃ c, g.choice = .ok c := by
    intro g hg hlog
    cases g with
    | logLevel text =>
      obtain ⟨l, hl⟩ := Option.isSome_iff_exists.mp (hlevels text hg)
      exact ⟨.logLevel l, by rw [choice, level, hl]; rfl⟩
    | noTimestamp => exact ⟨_, rfl⟩
    | _ => exact absurd hlog (by simp [kind, Kind.isLogging])
  have hquiet : (settle gs' (some {})).map Options.quiet = some o.quiet := by
    rw [settle_others hchoice, hothers, ← settle_others fun g hg _ => choice_of_settle hsettle g hg,
      hsettle, Option.map_some]
  obtain ⟨o', hsettle', hquiet'⟩ := Option.map_eq_some_iff.mp hquiet
  refine ⟨o', read_written_iff.mpr ⟨hsettle', ?_⟩, hquiet'⟩
  exact (congrArg Options.input hquiet').trans hinput

end Group

/-! ## The group for the listing -/

theorem apply_listed (c : Choice) (o : Options) :
    (o.listed.apply c).toOption = (o.apply c).toOption.map Options.listed := by
  cases c with
  | operand argument =>
    exact apply_operand_map (f := Options.listed) (fun _ => rfl) (fun _ _ => rfl) argument o
  | _ => rfl

theorem disassemble_of_apply {c : Choice} {o after : Options} (h : o.apply c = .ok after) :
    after.disassemble = true ↔ o.disassemble = true ∨ c.kind = .disassemble := by
  cases c with
  | operand argument =>
    simp only [Options.apply] at h
    split at h
    · cases h
      simp [Choice.kind]
    · exact absurd h (by simp)
  | _ =>
    cases h
    simp [Choice.kind]

namespace Group

theorem settle_map_listed (gs : List Group) (o : Option Options) :
    settle gs (o.map Options.listed) = (settle gs o).map Options.listed := by
  induction gs generalizing o with
  | nil => rfl
  | cons g gs ih =>
    have hact : ∀ o : Options, g.act o.listed = (g.act o).map Options.listed := by
      intro o
      cases hc : g.choice with
      | error refusal => rw [act_of_refused hc, act_of_refused hc, Option.map_none]
      | ok c =>
        rw [act_of_choice hc, act_of_choice hc]
        exact apply_listed c o
    cases o with
    | none => rw [Option.map_none, settle_none, Option.map_none]
    | some o => rw [Option.map_some, settle_cons, settle_cons, hact, ih]

/-- **A group for the listing**, wherever it stands, has no other effect. -/
theorem settle_listed (front back : List Group) (short : Bool) (o : Option Options) :
    settle (front ++ disassemble short :: back) o =
      (settle (front ++ back) o).map Options.listed := by
  have hact : settle (disassemble short :: back) (settle front o) =
      settle back ((settle front o).map Options.listed) := by
    cases settle front o with
    | none => rw [settle_none, Option.map_none, settle_none]
    | some next => rfl
  rw [settle_append, hact, settle_map_listed, settle_append]

theorem read_listed {front back : List Group} {input : Input} {o : Options}
    (h : Options.read (written (front ++ back)) = .ok input o) (short : Bool) :
    Options.read (written (front ++ disassemble short :: back)) = .ok input o.listed := by
  obtain ⟨hsettle, hinput⟩ := read_written_iff.mp h
  rw [read_written_iff, settle_listed, hsettle]
  exact ⟨rfl, hinput⟩

theorem disassemble_of_settle {gs : List Group} {o after : Options}
    (h : settle gs (some o) = some after) :
    after.disassemble = true ↔ o.disassemble = true ∨ Kind.disassemble ∈ gs.map kind := by
  induction gs generalizing o with
  | nil =>
    cases h
    simp
  | cons g gs ih =>
    obtain ⟨c, next, hc, hnext, hrest⟩ := settle_cons_eq_some_iff.mp h
    rw [ih hrest, disassemble_of_apply hnext, kind_of_choice hc, List.map_cons, List.mem_cons,
      or_assoc, eq_comm (a := g.kind)]

end Group

/-! ## Reports -/

/-- The events put nothing on the output. -/
def Silent (events : List Event) : Prop := String.join (events.map Event.onOutput) = ""

/-- **The report of an execution** depends on the options by the limits of the machine, by the
listing and by what is wanted in the log, and each shows at one place. -/
theorem execution_eq (o : Options) (earlier : List Event) (code : Bytecode) :
    execution o earlier code =
      { exitCode := (execution { config := o.config } [] code).exitCode
        settings := o.log
        events := earlier ++ (if o.disassemble then [.print (Listing.text code)] else []) ++
          (execution { config := o.config } [] code).events } := by
  cases hrun : ((Machine.new o.config).load code).run with
  | ok _ m =>
    rw [execution_of_ok o earlier code hrun, execution_of_ok { config := o.config } [] code hrun]
    simp [preceding]
  | error fault m =>
    rw [execution_of_error o earlier code hrun,
      execution_of_error { config := o.config } [] code hrun]
    simp [preceding]

theorem execution_output (o : Options) {earlier : List Event} (hearlier : Silent earlier)
    (code : Bytecode) :
    (execution o earlier code).output =
      (if o.disassemble then Listing.text code else "") ++
        (execution { config := o.config } [] code).output := by
  rw [execution_eq, Report.output, Report.output, List.map_append, List.map_append,
    String.join_append, String.join_append, show String.join _ = "" from hearlier,
    String.empty_append]
  split <;> simp [Event.onOutput]

/-- The listing of an execution stands on the output and nowhere else. -/
theorem execution_listed {o : Options} (h : o.disassemble = false) {earlier : List Event}
    (hearlier : Silent earlier) (code : Bytecode) :
    (execution o.listed earlier code).exitCode = (execution o earlier code).exitCode ∧
      (execution o.listed earlier code).output =
        Listing.text code ++ (execution o earlier code).output ∧
      ∀ terminal clock, (execution o.listed earlier code).errorOutput terminal clock =
        (execution o earlier code).errorOutput terminal clock := by
  refine ⟨?_, ?_, fun terminal clock => ?_⟩
  · rw [execution_eq, execution_eq o]
    rfl
  · rw [execution_output o.listed hearlier, execution_output o hearlier, h]
    simp [Options.listed]
  · rw [execution_eq, execution_eq o, h]
    simp [Report.errorOutput, Options.listed, Event.isComplaint]

theorem inDirectory_withInput_of_code?_eq_none {input : Input} {d : Directory}
    (h : input.code? d = none) :
    ∃ message, ∀ o, (withInput o input).inDirectory d = (failure o message, d) := by
  cases input with
  | hex text =>
    refine ⟨(Error.invalidHex text).message, fun o => ?_⟩
    rw [withInput, show Bytecode.ofHex? text = none from h, Dialogue.inDirectory]
  | source path =>
    simp only [Input.code?] at h
    simp only [withInput, Dialogue.inDirectory]
    cases hread : d.read path with
    | error e =>
      dsimp only
      cases e.isAbsence with
      | true => exact ⟨_, fun o => rfl⟩
      | false => exact ⟨_, fun o => rfl⟩
    | ok content =>
      rw [hread] at h
      dsimp only
      cases hsource : String.fromUTF8? ⟨content⟩ with
      | none => exact ⟨_, fun o => by rw [withSource, hsource]; rfl⟩
      | some source =>
        cases hcode : Source.assemble source with
        | error e =>
          refine ⟨Source.diagnostic path source e.line e.column e.cause.message, fun o => ?_⟩
          simp only [withSource, hsource, hcode, Dialogue.inDirectory]
        | ok code =>
          simp only [Except.toOption, Option.bind_eq_bind, Option.bind_some, hsource, hcode] at h
          exact absurd h (by simp)

/-- **Code is written and executed, or it cannot be written.** Of the options, only the output file
decides which it is. -/
theorem inDirectory_withCode_eq (code : Bytecode) (d : Directory) (output : Option String) :
    (∃ after earlier, Stored d code after output ∧ Silent earlier ∧
      ∀ o : Options, o.output = output →
        (withCode o code).inDirectory d = (execution o earlier code, after)) ∨
    ((∀ after, ¬ Stored d code after output) ∧
      ∃ message, ∀ o : Options, o.output = output →
        (withCode o code).inDirectory d = (failure o message, d)) := by
  cases output with
  | none => exact Or.inl ⟨d, [], rfl, rfl, fun o ho => by rw [withCode, ho]; rfl⟩
  | some path =>
    cases hwrite : d.write path code with
    | ok after =>
      let message := "Wrote " ++ Numeral.decimal code.size ++ " bytes to " ++ path
      refine Or.inl ⟨after, [.log .info message], hwrite, rfl, fun o ho => ?_⟩
      simp only [withCode, ho, Dialogue.inDirectory, hwrite]
      rfl
    | error e =>
      refine Or.inr ⟨fun after hstored => ?_, "Failed to write output file: " ++ e.message, ?_⟩
      · exact absurd (hwrite.symm.trans hstored) (by simp)
      · intro o ho
        simp only [withCode, ho, Dialogue.inDirectory, hwrite]

/-- **What comes of an input** is an execution of its code or a failure. Of the options, only the
output file decides which it is. -/
theorem inDirectory_withInput_eq (input : Input) (d : Directory) (output : Option String) :
    (∃ code after earlier, (input.code? d = some code ∧ Stored d code after output) ∧
      Silent earlier ∧ ∀ o : Options, o.output = output →
        (withInput o input).inDirectory d = (execution o earlier code, after)) ∨
    ((∀ code after, ¬ (input.code? d = some code ∧ Stored d code after output)) ∧
      ∃ message, ∀ o : Options, o.output = output →
        (withInput o input).inDirectory d = (failure o message, d)) := by
  cases hcode : input.code? d with
  | none =>
    obtain ⟨message, hmessage⟩ := inDirectory_withInput_of_code?_eq_none hcode
    exact Or.inr ⟨fun code after h => absurd h.1 (by simp), message, fun o _ => hmessage o⟩
  | some code =>
    rcases inDirectory_withCode_eq code d output with
      ⟨after, earlier, hstored, hsilent, hreport⟩ | ⟨hnot, message, hreport⟩
    · refine Or.inl ⟨code, after, earlier, ⟨rfl, hstored⟩, hsilent, fun o ho => ?_⟩
      rw [inDirectory_withInput_of_code? hcode, hreport o ho]
    · refine Or.inr ⟨?_, message, fun o ho => ?_⟩
      · rintro code' after ⟨hsome, hstored⟩
        obtain rfl := Option.some.inj hsome
        exact hnot after hstored
      · rw [inDirectory_withInput_of_code? hcode, hreport o ho]

/-! ## The command -/

/-- **Options that differ in the log** show the same results. -/
theorem sameResults_withInput {o o' : Options} (h : o'.quiet = o.quiet) (input : Input)
    (d : Directory) (terminal terminal' : Log.Terminal) (clock clock' : Nat → Log.Instant) :
    ((withInput o' input).observe d terminal' clock').SameResults
      ((withInput o input).observe d terminal clock) := by
  simp only [Options.quiet, Options.mk.injEq, and_true] at h
  obtain ⟨-, houtput, hdisassemble, hconfig⟩ := h
  rcases inDirectory_withInput_eq input d o.output with
    ⟨code, after, earlier, -, hsilent, hreport⟩ | ⟨-, message, hreport⟩
  · rw [Dialogue.observe_of_inDirectory (hreport o rfl),
      Dialogue.observe_of_inDirectory (hreport o' houtput)]
    refine ⟨?_, ?_, rfl⟩
    · show (execution o' earlier code).exitCode = (execution o earlier code).exitCode
      rw [execution_eq, execution_eq o, hconfig]
    · show (execution o' earlier code).output = (execution o earlier code).output
      rw [execution_output o' hsilent, execution_output o hsilent, hconfig, hdisassemble]
  · rw [Dialogue.observe_of_inDirectory (hreport o rfl),
      Dialogue.observe_of_inDirectory (hreport o' houtput)]
    exact ⟨rfl, rfl, rfl⟩

section

variable {arguments : List String} {input : Input} {o : Options}
  (haccepted : Options.read arguments = .ok input o) (program : String) (d : Directory)

include haccepted

/-- **The log** does not show in the results, whatever is wanted in it and wherever it is shown. -/
theorem sameResults_of_others_eq {gs gs' : List Group}
    (hgs : arguments = Group.written gs) (hothers : Group.others gs' = Group.others gs)
    (hlevels : ∀ text, .logLevel text ∈ gs' → (Log.Level.ofText? text).isSome)
    (terminal terminal' : Log.Terminal) (clock clock' : Nat → Log.Instant) :
    (observe program (Group.written gs') d terminal' clock').SameResults
      (observe program arguments d terminal clock) := by
  subst hgs
  obtain ⟨o', hread, hquiet⟩ := Group.read_of_others_eq hothers hlevels haccepted
  unfold observe
  rw [command_of_read haccepted, command_of_read hread]
  exact sameResults_withInput hquiet input d terminal terminal' clock clock'

/-- **The listing** comes before what an execution puts on the output, and changes nothing else. -/
theorem observe_listed {front back : List Group} (hgs : arguments = Group.written (front ++ back))
    (short : Bool) (terminal : Log.Terminal) (clock : Nat → Log.Instant) :
    let before := observe program arguments d terminal clock
    let after :=
      observe program (Group.written (front ++ .disassemble short :: back)) d terminal clock
    (∀ code stored, o.disassemble = false → Reaches d arguments o code stored →
      after = { before with output := Listing.text code ++ before.output }) ∧
      ((o.disassemble = true ∨ ∀ code stored, ¬ Reaches d arguments o code stored) →
        after = before) := by
  subst hgs
  intro before after
  have hbefore : before = (withInput o input).observe d terminal clock := by
    rw [← command_of_read haccepted program]
    rfl
  have hafter : after = (withInput o.listed input).observe d terminal clock := by
    rw [← command_of_read (Group.read_listed haccepted short) program]
    rfl
  rw [hbefore, hafter]
  refine ⟨fun code stored hplain hreaches => ?_, ?_⟩
  · rcases inDirectory_withInput_eq input d o.output with
      ⟨code', stored', earlier, hreached, hsilent, hreport⟩ | ⟨hnot, -⟩
    · obtain ⟨-, rfl, rfl⟩ := hreaches.unique ((reaches_iff haccepted).mpr hreached)
      obtain ⟨hexit, houtput, herror⟩ := execution_listed hplain hsilent code
      rw [Dialogue.observe_of_inDirectory (hreport o rfl),
        Dialogue.observe_of_inDirectory (hreport o.listed rfl), hexit, houtput, herror]
    · exact absurd ((reaches_iff haccepted).mp hreaches) (hnot code stored)
  · rintro (hlisted | hnot)
    · rw [show o.listed = o by rw [Options.listed, ← hlisted]]
    · rcases inDirectory_withInput_eq input d o.output with
        ⟨code, stored, -, hreached, -⟩ | ⟨-, message, hreport⟩
      · exact absurd ((reaches_iff haccepted).mpr hreached) (hnot code stored)
      · rw [Dialogue.observe_of_inDirectory (hreport o rfl),
          Dialogue.observe_of_inDirectory (hreport o.listed rfl)]
        rfl

end

/-- **The log and the listing leave the results alone**, for all arguments that are accepted. They
are those of some groups, and these can be changed as follows.

* With other groups for the log, of whatever number and at whatever places, and in another
  terminal and by another clock, exit code, output and files are the same.
* With one more group for the listing, at whatever place, the listing comes first on the output if
  an execution is reached and was not listed already. All else is the same, the error output too. -/
theorem observe_log_and_listing {arguments : List String} {input : Input} {o : Options}
    (haccepted : Options.read arguments = .ok input o) (program : String) (d : Directory) :
    (∃ gs, arguments = Group.written gs) ∧ ∀ gs, arguments = Group.written gs →
      (∀ gs', Group.others gs' = Group.others gs →
        (∀ text, .logLevel text ∈ gs' → (Log.Level.ofText? text).isSome) →
        ∀ terminal clock terminal' clock',
          (observe program (Group.written gs') d terminal' clock').SameResults
            (observe program arguments d terminal clock)) ∧
      ∀ front back short, gs = front ++ back → ∀ terminal clock,
        let before := observe program arguments d terminal clock
        let after :=
          observe program (Group.written (front ++ .disassemble short :: back)) d terminal clock
        (∀ code stored, Kind.disassemble ∉ gs.map Group.kind → Reaches d arguments o code stored →
          after = { before with output := Listing.text code ++ before.output }) ∧
        ((Kind.disassemble ∈ gs.map Group.kind ∨
            ∀ code stored, ¬ Reaches d arguments o code stored) → after = before) := by
  refine ⟨Group.exists_written arguments (Group.read_eq_ok_iff.mp haccepted).1, ?_⟩
  intro gs hgs
  refine ⟨fun gs' hothers hlevels terminal clock terminal' clock' =>
    sameResults_of_others_eq haccepted program d hgs hothers hlevels _ _ _ _, ?_⟩
  rintro front back short rfl terminal clock
  have hlisted : o.disassemble = true ↔ Kind.disassemble ∈ (front ++ back).map Group.kind := by
    rw [hgs, Group.read_written_iff] at haccepted
    rw [Group.disassemble_of_settle haccepted.1]
    simp
  rw [← hlisted, Bool.not_eq_true]
  exact observe_listed haccepted program d hgs short terminal clock

/-- A trace of the run is no result, and the listing may be asked for in front. -/
theorem observe_log_and_listing_push :
    let traced := observe "stackvm" ["--hex", "6005", "--log-level", "Debug"] {} {} fun _ => {}
    (observe "stackvm" ["--no-timestamp", "--hex", "6005"] {}
        (Environment.terminal { term := "xterm" }) fun k => { seconds := k }).SameResults traced ∧
      observe "stackvm" ["-d", "--hex", "6005", "--log-level", "Debug"] {} {} (fun _ => {}) =
        { traced with output := Listing.text #[0x60, 5] ++ traced.output } := by
  have haccepted : Options.read ["--hex", "6005", "--log-level", "Debug"] = .ok (.hex "6005")
      { input := some (.hex "6005"), log := { threshold := .debug } } := rfl
  have hreaches := (reaches_iff haccepted (d := {})).mpr
    ⟨(by decide +kernel : (Input.hex "6005").code? {} = some #[0x60, 5]), rfl⟩
  have hgroups := (observe_log_and_listing haccepted "stackvm" {}).2
    [.hex false "6005", .logLevel "Debug"] rfl
  refine ⟨hgroups.1 [.noTimestamp, .hex false "6005"] rfl (by simp) _ _ _ _, ?_⟩
  exact (hgroups.2 [] _ true rfl {} fun _ => {}).1 #[0x60, 5] {} (by decide) hreaches

end WordStack.Cli
