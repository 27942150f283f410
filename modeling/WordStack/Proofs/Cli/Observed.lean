import WordStack.Proofs.Bytecode
import WordStack.Proofs.Cli.Command
import WordStack.Proofs.Cli.Group

/-! # What is seen of a command

From outside, a command is its exit code, the text on its two outputs and the files it leaves
(`observe`). All of it depends on the code that the command runs and not on where the code comes
from: a source file can be replaced by the hex text of its code (`observe_hex`). -/

namespace WordStack.Cli

/-- **What is seen of a command.** -/
structure Observed where
  exitCode : UInt8
  output : String
  errorOutput : String
  files : Directory

/-- What is seen of a dialogue that is held with a directory. -/
def Dialogue.observe (t : Dialogue) (d : Directory) (terminal : Log.Terminal)
    (clock : Nat → Log.Instant) : Observed :=
  let (report, files) := t.inDirectory d
  { exitCode := report.exitCode
    output := report.output
    errorOutput := report.errorOutput terminal clock
    files }

theorem Dialogue.observe_of_inDirectory {t : Dialogue} {d after : Directory} {r : Report}
    (h : t.inDirectory d = (r, after)) (terminal : Log.Terminal) (clock : Nat → Log.Instant) :
    t.observe d terminal clock =
      { exitCode := r.exitCode
        output := r.output
        errorOutput := r.errorOutput terminal clock
        files := after } := by
  rw [Dialogue.observe, h]

/-- **What is seen of the command**, in a directory, on a terminal and with a clock that
is read for each event. -/
def observe (program : String) (arguments : List String) (d : Directory)
    (terminal : Log.Terminal) (clock : Nat → Log.Instant) : Observed :=
  (command program arguments).observe d terminal clock

/-! ## Accepted arguments -/

namespace Group

theorem not_asksHelp_written (gs : List Group) : ¬ AsksHelp (written gs) := by
  cases gs with
  | nil => simp [AsksHelp, written]
  | cons g gs =>
    rw [AsksHelp, written_cons]
    cases g with
    | source path hdash =>
      simp only [arguments, List.cons_append, List.head?_cons, Option.some.injEq]
      rintro (rfl | rfl)
      · exact hdash (by decide)
      · exact hdash (by decide)
    | hex short text => cases short <;> simp [arguments]
    | output short path => cases short <;> simp [arguments]
    | disassemble short => cases short <;> simp [arguments]
    | _ => simp [arguments]

end Group

section

variable {arguments : List String} {input : Input} {o : Options}

theorem not_asksHelp_of_read (h : Options.read arguments = .ok input o) :
    ¬ AsksHelp arguments := by
  obtain ⟨gs, rfl⟩ := Group.exists_written arguments (Group.read_eq_ok_iff.mp h).1
  exact Group.not_asksHelp_written gs

/-- **Arguments that are accepted** lead on to their input. -/
theorem command_of_read (h : Options.read arguments = .ok input o) (program : String) :
    command program arguments = withInput o input := by
  cases arguments with
  | nil =>
    have hnone : Options.read [] = .error .noInput {} := rfl
    exact absurd (hnone.symm.trans h) (by simp)
  | cons first rest => rw [command_options program (not_asksHelp_of_read h), h]

theorem reaches_iff (h : Options.read arguments = .ok input o) {d after : Directory}
    {code : Bytecode} :
    Reaches d arguments o code after ↔
      input.code? d = some code ∧ Stored d code after o.output := by
  constructor
  · rintro ⟨-, ⟨input', hread, hcode⟩, hstored⟩
    obtain ⟨rfl, -⟩ := EStateM.Result.ok.inj (h.symm.trans hread)
    exact ⟨hcode, hstored⟩
  · exact fun ⟨hcode, hstored⟩ => ⟨not_asksHelp_of_read h, ⟨input, h, hcode⟩, hstored⟩

end

/-! ## Another input -/

namespace Group

/-- **Where there is an input, it is just passed on**, until hex text takes its place. So groups
that are accepted with one input are accepted with any other. -/
theorem settle_input {gs : List Group} {o after : Options} (hinput : o.input ≠ none)
    (h : settle gs (some o) = some after) (j : Input) :
    (after.input = o.input ∧
      settle gs (some { o with input := some j }) = some { after with input := some j }) ∨
    settle gs (some { o with input := some j }) = some after := by
  induction gs generalizing o with
  | nil =>
    cases h
    exact Or.inl ⟨rfl, rfl⟩
  | cons g gs ih =>
    obtain ⟨c, next, hc, hnext, hrest⟩ := settle_cons_eq_some_iff.mp h
    by_cases hsource : g.kind = .source
    · obtain ⟨path, hdash, rfl⟩ := eq_source_of_kind hsource
      rw [settle_cons, act_source, if_neg hinput, settle_none] at h
      exact absurd h (by simp)
    by_cases hhex : g.kind = .hex
    · obtain ⟨short, text, rfl⟩ := eq_hex_of_kind hhex
      exact Or.inr h
    rw [← kind_of_choice hc] at hsource hhex
    obtain ⟨next', hnext', hsame, hset⟩ := apply_input hsource hhex o
    obtain rfl := Except.ok.inj (hnext.symm.trans hnext')
    rw [settle_cons, act_of_choice hc, hset, ← hsame]
    exact ih (hsame ▸ hinput) hrest

end Group

theorem withCode_input (o : Options) (code : Bytecode) (input : Option Input) :
    withCode { o with input } code = withCode o code := rfl

theorem inDirectory_withInput_of_code? {input : Input} {d : Directory} {code : Bytecode}
    (h : input.code? d = some code) (o : Options) :
    (withInput o input).inDirectory d = (withCode o code).inDirectory d := by
  rcases inDirectory_withInput o input d with ⟨code', hcode, hd⟩ | ⟨hnone, -⟩
  · obtain rfl := Option.some.inj (hcode.symm.trans h)
    exact hd
  · exact absurd (hnone.symm.trans h) (by simp)

/-! ## A source file and its code -/

section

variable {path : String} {rest : List String} {d : Directory} {code : Bytecode} {input : Input}
  {o : Options}

theorem inDirectory_hex {text : String} (htext : Bytecode.ofHex? text = some code)
    (hdash : path.toList.head? ≠ some '-') (hcode : (Input.source path).code? d = some code)
    (haccepted : Options.read (path :: rest) = .ok input o) (program : String) :
    (command program ("--hex" :: text :: rest)).inDirectory d =
      (command program (path :: rest)).inDirectory d := by
  obtain ⟨hread, hinput⟩ := Group.read_eq_ok_iff.mp haccepted
  obtain ⟨gs, rfl, hsettle⟩ := Group.exists_written_of_append (g := .source path hdash) hread
  rw [Group.settle_cons, Group.act_source, if_pos rfl] at hsettle
  rw [command_of_read haccepted program]
  rcases Group.settle_input (by simp) hsettle (.hex text) with ⟨hsame, hhex⟩ | hsame
  · have hread' : Options.read (Group.written (.hex false text :: gs)) =
        .ok (.hex text) { o with input := some (.hex text) } :=
      Group.read_written_iff.mpr ⟨hhex, rfl⟩
    have htext' : (Input.hex text).code? d = some code := htext
    obtain rfl := Option.some.inj (hinput.symm.trans hsame)
    rw [inDirectory_withInput_of_code? hcode, ← withCode_input o code (some (.hex text)),
      ← inDirectory_withInput_of_code? htext']
    exact congrArg _ (command_of_read hread' program)
  · have hread' : Options.read (Group.written (.hex false text :: gs)) = .ok input o :=
      Group.read_written_iff.mpr ⟨hsame, hinput⟩
    exact congrArg _ (command_of_read hread' program)

/-- **A source file or the hex text of its code**, in front of the same arguments: exit code, both
outputs and files are the same, with a `0x` before the digits and without. -/
theorem observe_hex (hdash : path.toList.head? ≠ some '-')
    (hcode : (Input.source path).code? d = some code)
    (haccepted : Options.read (path :: rest) = .ok input o) (program : String)
    (terminal : Log.Terminal) (clock : Nat → Log.Instant) :
    observe program ("--hex" :: code.text :: rest) d terminal clock =
        observe program (path :: rest) d terminal clock ∧
      observe program ("--hex" :: ("0x" ++ code.text) :: rest) d terminal clock =
        observe program (path :: rest) d terminal clock := by
  obtain ⟨htext, hmarked⟩ := Bytecode.ofHex?_text code
  unfold observe Dialogue.observe
  rw [inDirectory_hex htext hdash hcode haccepted, inDirectory_hex hmarked hdash hcode haccepted]
  exact ⟨rfl, rfl⟩

end

/-- The file that is written may be the source file. -/
theorem observe_hex_over_source :
    let d := Directory.ofPaths [("a.asm", .file "PUSH 5".toUTF8.data)]
    observe "stackvm" ["--hex", "6005", "-o", "a.asm", "-d"] d {} (fun _ => {}) =
        observe "stackvm" ["a.asm", "-o", "a.asm", "-d"] d {} (fun _ => {}) ∧
      observe "stackvm" ["--hex", "0x6005", "-o", "a.asm", "-d"] d {} (fun _ => {}) =
        observe "stackvm" ["a.asm", "-o", "a.asm", "-d"] d {} (fun _ => {}) := by
  have hcode : (Input.source "a.asm").code?
      (.ofPaths [("a.asm", .file "PUSH 5".toUTF8.data)]) = some #[0x60, 5] := by decide +kernel
  have haccepted : Options.read ["a.asm", "-o", "a.asm", "-d"] = .ok (.source "a.asm")
      { input := some (.source "a.asm"), output := some "a.asm", disassemble := true } := rfl
  exact observe_hex (by decide) hcode haccepted "stackvm" {} fun _ => {}

end WordStack.Cli
