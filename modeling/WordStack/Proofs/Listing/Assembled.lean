import WordStack.Proofs.Listing.Reassembly
import WordStack.Proofs.Source.Meaning

/-! # Listings of assembled code

The code of a source text is listed as the program of the text, one line for a command, with every
push in the bytes that it takes (`Command.listed`). What is blank in the source text or a comment
is gone, and nothing else is added.

* `words_command`: the words of a line are its command as it is listed.
* `getElem?_lines`: the line of a command stands at the offset where those before it end.
* `listing_assembled`: so the lines of the listing are the sentences of the source text, one after
  the other, and the listing assembles to the code. -/

namespace WordStack

open Numeral

namespace Source

/-- The mnemonic of a command. -/
def Command.name : Command → String
  | .stop => "STOP"
  | .add => "ADD"
  | .sub => "SUB"
  | .lt => "LT"
  | .gt => "GT"
  | .eq => "EQ"
  | .isZero => "ISZERO"
  | .pop => "POP"
  | .push width _ => "PUSH" ++ decimal width
  | .dup place => "DUP" ++ decimal place
  | .swap distance => "SWAP" ++ decimal distance

/-- **A command as it is listed**: its mnemonic, and the value of a push in hex, with zeros in front
to two digits for each byte. -/
def Command.listed : Command → List String
  | .push width value => [(push width value).name, "0x" ++ hexPadded (2 * width) value]
  | command => [command.name]

theorem map_eq_of_mapM {α β : Type} {f : α → Option β} :
    ∀ {xs : List α} {ys : List β}, xs.mapM f = some ys → xs.map f = ys.map some
  | [], ys, h => by
    rw [← Option.some.inj h]
    rfl
  | x :: xs, ys, h => by
    rw [List.mapM_cons] at h
    obtain ⟨y, hy, h⟩ := Option.bind_eq_some_iff.mp h
    obtain ⟨zs, hzs, h⟩ := Option.bind_eq_some_iff.mp h
    rw [← Option.some.inj h, List.map_cons, List.map_cons, hy, map_eq_of_mapM hzs]

theorem map_command? {source : String} {commands : List Command}
    (h : program? source = some commands) :
    (sentences source).map command? = commands.map some := map_eq_of_mapM h

end Source

open Source

theorem Instruction.name_command (i : Instruction) : i.command.name = i.opcode.mnemonic := by
  obtain ⟨op, operand⟩ := i
  cases op <;> rfl

namespace Listing

open Fragment

theorem words_command {i : Instruction} (h : i.WellFormed) (offset : Nat) :
    words (content offset (.instruction i)) = i.command.listed.map String.toList := by
  rw [words_instruction, ← i.name_command]
  obtain ⟨op, operand⟩ := i
  have hlen : operand.length = op.width := h.2
  cases op with
  | push width =>
    have hpos : 1 ≤ operand.length := hlen ▸ Opcode.width_pos h.inUse
    have hne : operand ≠ [] := List.length_pos_iff.mp hpos
    have hwidth : operand.length = width.toNat := hlen
    have hhex : hexText operand =
        ("0x" ++ hexPadded (2 * width.toNat) (bytesValue operand)).toList := by
      rw [String.toList_append, ← hwidth, ← flatMap_hexByte hne]
      rfl
    rw [if_neg hne, hhex]
    rfl
  | _ =>
    rw [if_pos (List.eq_nil_of_length_eq_zero hlen)]
    rfl

theorem getElem?_lines {is : List Instruction} {code : Bytecode} (hwf : ∀ i ∈ is, i.WellFormed)
    (hcode : code.toList = is.flatMap Instruction.encode) {k : Nat} {line : List Char}
    (hk : (Text.lines (text code).toList)[k]? = some line) :
    ∃ i, is[k]? = some i ∧
      line = content (((is.map Instruction.command).take k).map Command.length).sum
        (.instruction i) := by
  rw [lines_text, hcode, decode_flatMap_encode hwf, List.getElem?_map] at hk
  obtain ⟨⟨place, f⟩, hlocated, rfl⟩ := Option.map_eq_some_iff.mp hk
  obtain ⟨hf, hplace⟩ := getElem?_located _ hlocated
  rw [List.getElem?_map] at hf
  obtain ⟨i, hi, rfl⟩ := Option.map_eq_some_iff.mp hf
  refine ⟨i, hi, ?_⟩
  rw [hplace, Nat.zero_add, List.map_take, Instruction.length_commands hwf, ← List.map_take]

theorem length_lines {is : List Instruction} {code : Bytecode} (hwf : ∀ i ∈ is, i.WellFormed)
    (hcode : code.toList = is.flatMap Instruction.encode) :
    (Text.lines (text code).toList).length = is.length := by
  have hlen := congrArg List.length (map_snd_located 0 (is.map instruction))
  rw [lines_text, hcode, decode_flatMap_encode hwf, List.length_map]
  rwa [List.length_map, List.length_map] at hlen

theorem assemble_lines {is : List Instruction} {code : Bytecode} (hwf : ∀ i ∈ is, i.WellFormed)
    (hcode : code.toList = is.flatMap Instruction.encode) : assemble (text code) = .ok code := by
  have hkept : (is.map instruction).filterMap instruction? = is := by
    rw [List.filterMap_map]
    exact List.filterMap_some
  rw [assemble_text_eq, hcode, decode_flatMap_encode hwf, hkept, ← hcode]

/-- **The listing of assembled code has the sentences of the source text**: as many lines, none of
them without words, and the `k`-th line has the `k`-th sentence, as its command is listed, at the
offset where the commands before it end. It assembles to the code again. -/
theorem listing_assembled {source : String} {code : Bytecode} (h : assemble source = .ok code) :
    let lines := Text.lines (text code).toList
    ∃ commands, program? source = some commands ∧
      lines.length = (sentences source).length ∧
      (∀ (k : Nat) (line : List Char), lines[k]? = some line →
        ∃ sentence command, (sentences source)[k]? = some sentence ∧
          command? sentence = some command ∧ commands[k]? = some command ∧
          words line ≠ [] ∧ words line = command.listed.map String.toList ∧
          offset? line = some ((commands.take k).map Command.length).sum) ∧
      assemble (text code) = .ok code := by
  intro lines
  obtain ⟨is, hwf, hprogram, hcode⟩ := assemble_ok h
  have hmap := map_command? hprogram
  refine ⟨_, hprogram, ?_, fun k line hk => ?_, assemble_lines hwf hcode⟩
  · have hlen := congrArg List.length hmap
    rw [List.length_map, List.length_map, List.length_map] at hlen
    rw [hlen]
    exact length_lines hwf hcode
  · obtain ⟨i, hi, rfl⟩ := getElem?_lines hwf hcode hk
    have hcommand : ((sentences source)[k]?).map command? = some (some i.command) := by
      rw [← List.getElem?_map, hmap, List.getElem?_map, List.getElem?_map, hi]
      rfl
    obtain ⟨sentence, hsentence, hmeaning⟩ := Option.map_eq_some_iff.mp hcommand
    refine ⟨sentence, i.command, hsentence, hmeaning, ?_, ?_,
      words_command (hwf i (List.mem_of_getElem? hi)) _, offset?_content _ _⟩
    · rw [List.getElem?_map, hi]
      rfl
    · rw [words_instruction]
      exact List.cons_ne_nil _ _

/-- Two pushes of two bytes, the first because its value needs them. -/
theorem listing_assembled_push :
    let source := "PUSH 256 # narrowest\n\n# note\npush2 5,"
    let code : Bytecode := #[0x61, 1, 0, 0x61, 0, 5]
    let lines := Text.lines (text code).toList
    assemble source = .ok code ∧ program? source = some [.push 2 256, .push 2 5] ∧
      lines.length = (sentences source).length ∧
      (∀ line, lines[1]? = some line →
        words line = ["PUSH2".toList, "0x0005".toList] ∧ offset? line = some 3) ∧
      assemble (text code) = .ok code := by
  intro source code lines
  have h : assemble source = .ok code := by decide +kernel
  have hprogram : program? source = some [.push 2 256, .push 2 5] := by decide +kernel
  obtain ⟨commands, hcommands, hlength, hlines, hback⟩ := listing_assembled h
  rw [hprogram] at hcommands
  obtain rfl := Option.some.inj hcommands
  refine ⟨h, hprogram, hlength, fun line hk => ?_, hback⟩
  obtain ⟨-, command, -, -, hcommand, -, hwords, hoffset⟩ := hlines 1 line hk
  obtain rfl := Option.some.inj hcommand
  exact ⟨hwords, hoffset⟩

end Listing

end WordStack
