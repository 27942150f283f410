import WordStack.Proofs.Listing.Line

/-! # What a listing says of the bytes

A listing loses nothing, whatever the code is: a byte that is no opcode and a push that is cut short
do not come back when the listing is assembled, but they are there to be read. A reader takes the
bytes of a line from its words (`bytes?`). The line of an instruction has one or two words that are
no comment. A comment of five words is about a byte that is no opcode, and one of ten words is about
a truncated push.

* `bytes?_content`: the bytes of a line are those of its fragment.
* `Tiles`: spans of bytes one behind the other, with no gap and no overlap; from it follows where
  their bytes are (`Tiles.prefix_drop`, `Tiles.existsUnique`).
* `text_lossless`: different code has different listings, and the lines of a listing tile the
  code. -/

namespace WordStack.Listing

open Fragment Source Numeral

/-! ## Reading a line -/

/-- The bytes of an operand in hex. -/
def operand? : List Char → Option (List UInt8)
  | '0' :: 'x' :: digits => hexPairs? digits
  | _ => none

/-- The byte of the opcode that has this name, and the operand behind it. -/
def encoded? (name : List Char) (operand : List UInt8) : Option (List UInt8) :=
  (Opcode.ofMnemonic? (String.ofList name)).map fun op => op.toByte :: operand

/-- The bytes that a comment is about: one that is no opcode, or a push with the operand bytes that
are there. -/
def commented? (comment : List Char) : Option (List UInt8) :=
  match comment.splitOn ' ' with
  | [_, _, _, _, byte] => (operand? byte).filter (·.length = 1)
  | [_, _, name, _, _, operand, _, _, _, _] => (operand? operand).bind (encoded? name)
  | _ => none

/-- **The bytes that a line of a listing stands for.** -/
def bytes? (line : List Char) : Option (List UInt8) :=
  match words line with
  | [] => commented? line
  | [name] => encoded? name []
  | [name, operand] => (operand? operand).bind (encoded? name)
  | _ => none

theorem operand?_hexText (operand : List UInt8) : operand? (hexText operand) = some operand :=
  hexPairs?_flatMap_hexByte operand

theorem encoded?_mnemonic {op : Opcode} (h : op.InUse) (operand : List UInt8) :
    encoded? op.mnemonic.toList operand = some (op.toByte :: operand) := by
  rw [encoded?, String.ofList_toList, Opcode.ofMnemonic?_mnemonic h, Option.map_some]

theorem splitOn_intercalate {pieces : List (List Char)} (hne : pieces ≠ [])
    (h : ∀ p ∈ pieces, Shown ['#', ':', ',', '(', ')'] p) :
    ([' '].intercalate pieces).splitOn ' ' = pieces :=
  List.splitOn_intercalate ' ' (fun p hp => (h p hp).not_mem rfl (by decide)) hne

theorem commented?_unknown (offset : Nat) (byte : UInt8) :
    commented? (content offset (.unknown byte)) = some [byte] := by
  have hcontent : content offset (.unknown byte) = [' '].intercalate
      ["#".toList, (hexPadded 4 offset).toList ++ ":".toList, "invalid".toList, "opcode".toList,
        hexText [byte]] := by
    simp [content, place, hexText, List.intercalate]
  rw [commented?, hcontent, splitOn_intercalate (by simp)]
  · simp only [operand?_hexText]
    rfl
  · simp only [List.forall_mem_cons]
    exact ⟨by decide, (Shown.of_isAlphanum (isAlphanum_hexPadded 4 offset)).append (by decide),
      by decide, by decide, .of_isAlphanum (isAlphanum_hexText [byte]), by simp⟩

theorem commented?_truncated (offset : Nat) {op : Opcode} (hop : op.InUse) (operand : List UInt8) :
    commented? (content offset (.truncated op operand)) = some (op.toByte :: operand) := by
  have hcontent : content offset (.truncated op operand) = [' '].intercalate
      ["#".toList, (hexPadded 4 offset).toList ++ ":".toList, op.mnemonic.toList,
        "truncated,".toList, "operand".toList, hexText operand,
        "(".toList ++ (decimal operand.length).toList, "of".toList, (decimal op.width).toList,
        "bytes)".toList] := by
    simp [content, place, counts, hexText, List.intercalate]
  rw [commented?, hcontent, splitOn_intercalate (by simp)]
  · simp only [operand?_hexText]
    exact encoded?_mnemonic hop operand
  · simp only [List.forall_mem_cons]
    exact ⟨by decide, (Shown.of_isAlphanum (isAlphanum_hexPadded 4 offset)).append (by decide),
      .of_isAlphanum (Opcode.isAlphanum_mnemonic op), by decide, by decide,
      .of_isAlphanum (isAlphanum_hexText operand),
      (by decide : Shown _ "(".toList).append (.of_isAlphanum (isAlphanum_decimal _)),
      by decide, .of_isAlphanum (isAlphanum_decimal _), by decide, by simp⟩

/-- **The bytes of a line are those of its fragment.** -/
theorem bytes?_content {f : Fragment} (h : f.Sound) (offset : Nat) :
    bytes? (content offset f) = some f.bytes := by
  cases f with
  | unknown byte =>
    have hwords : words (content offset (.unknown byte)) = [] := words_of_comment _
    simp only [bytes?, hwords]
    exact commented?_unknown offset byte
  | truncated op operand =>
    have hwords : words (content offset (.truncated op operand)) = [] := words_of_comment _
    simp only [bytes?, hwords]
    exact commented?_truncated offset h.1 operand
  | instruction i =>
    have hencoded := encoded?_mnemonic (Instruction.WellFormed.inUse h) i.operand
    unfold bytes?
    rw [words_instruction]
    by_cases hoperand : i.operand = []
    · rw [hoperand] at hencoded
      simp only [if_pos hoperand]
      rw [hencoded, ← hoperand]
      rfl
    · simp only [if_neg hoperand, operand?_hexText]
      exact hencoded

/-! ## Spans -/

/-- **Some bytes of the code**, with the offset of the first. -/
structure Span where
  offset : Nat
  bytes : List UInt8

/-- The byte at this place of the code is in the span. -/
def Span.Holds (s : Span) (i : Nat) : Prop := s.offset ≤ i ∧ i < s.offset + s.bytes.length

/-- **The span that a line of a listing stands for**, at the offset that the line shows. -/
def span? (line : List Char) : Option Span :=
  (offset? line).bind fun offset => (bytes? line).map fun bytes => { offset, bytes }

/-- **Spans one behind the other**, from an offset on. None of them is empty. -/
inductive Tiles : Nat → List Span → Prop where
  | nil (offset : Nat) : Tiles offset []
  | cons {s : Span} {spans : List Span} (hne : s.bytes ≠ [])
      (h : Tiles (s.offset + s.bytes.length) spans) : Tiles s.offset (s :: spans)

section

variable {offset : Nat} {spans : List Span} {s : Span}

theorem Tiles.head_eq (h : Tiles offset spans) (hs : spans.head? = some s) :
    s.offset = offset := by
  cases h with
  | nil => exact absurd hs (by simp)
  | cons hne h => rw [← Option.some.inj hs]

theorem Tiles.ne_nil (h : Tiles offset spans) (hs : s ∈ spans) : s.bytes ≠ [] := by
  induction h with
  | nil => exact absurd hs (by simp)
  | cons hne h ih =>
    rcases List.mem_cons.mp hs with rfl | hs
    · exact hne
    · exact ih hs

theorem Tiles.le_of_mem (h : Tiles offset spans) (hs : s ∈ spans) : offset ≤ s.offset := by
  induction h with
  | nil => exact absurd hs (by simp)
  | cons hne h ih =>
    rcases List.mem_cons.mp hs with rfl | hs
    · exact le_rfl
    · exact (Nat.le_add_right _ _).trans (ih hs)

theorem Tiles.pairwise (h : Tiles offset spans) :
    (spans.map Span.offset).Pairwise (· < ·) := by
  induction h with
  | nil => exact List.Pairwise.nil
  | cons hne h ih =>
    have hpos := List.length_pos_iff.mpr hne
    refine List.pairwise_cons.mpr ⟨fun place hplace => ?_, ih⟩
    obtain ⟨s, hs, rfl⟩ := List.mem_map.mp hplace
    have hle := h.le_of_mem hs
    omega

theorem Tiles.prefix_drop (h : Tiles offset spans) (hs : s ∈ spans) :
    s.bytes <+: (spans.flatMap Span.bytes).drop (s.offset - offset) := by
  induction h with
  | nil => exact absurd hs (by simp)
  | @cons t spans hne h ih =>
    rcases List.mem_cons.mp hs with rfl | hs
    · rw [Nat.sub_self, List.drop_zero]
      exact List.prefix_append _ _
    · have hle := h.le_of_mem hs
      have hplace : s.offset - t.offset =
          t.bytes.length + (s.offset - (t.offset + t.bytes.length)) := by omega
      rw [hplace, List.flatMap_cons, List.drop_length_add_append]
      exact ih hs

theorem Tiles.existsUnique (h : Tiles offset spans) {i : Nat} (hle : offset ≤ i)
    (hlt : i < offset + (spans.flatMap Span.bytes).length) :
    ∃! k : Nat, ∃ s, spans[k]? = some s ∧ s.Holds i := by
  induction h with
  | nil offset =>
    rw [List.flatMap_nil, List.length_nil] at hlt
    omega
  | @cons t spans hne h ih =>
    rw [List.flatMap_cons, List.length_append] at hlt
    by_cases hhere : i < t.offset + t.bytes.length
    · -- No span behind the first starts so early.
      refine ⟨0, ⟨t, rfl, hle, hhere⟩, ?_⟩
      rintro k ⟨s, hk, hs⟩
      cases k with
      | zero => rfl
      | succ k =>
        have hbehind := h.le_of_mem (List.mem_of_getElem? hk)
        exact absurd hs.1 (by omega)
    · obtain ⟨k, hk, hunique⟩ := ih (by omega) (by omega)
      refine ⟨k + 1, hk, ?_⟩
      rintro k' ⟨s, hk', hs⟩
      cases k' with
      | zero =>
        cases hk'
        exact absurd hs.2 hhere
      | succ k' => rw [hunique k' ⟨s, hk', hs⟩]

end

/-! ## The spans of a listing -/

/-- The span of a fragment at its place. -/
def spanOf (p : Nat × Fragment) : Span := { offset := p.1, bytes := p.2.bytes }

theorem span?_content {f : Fragment} (h : f.Sound) (offset : Nat) :
    span? (content offset f) = some (spanOf (offset, f)) := by
  rw [span?, offset?_content, Option.bind_some, bytes?_content h]
  rfl

theorem tiles_located (fs : List Fragment) (offset : Nat) :
    Tiles offset ((located offset fs).map spanOf) := by
  induction fs generalizing offset with
  | nil => exact .nil offset
  | cons f fs ih => exact Tiles.cons (s := spanOf (offset, f)) f.bytes_ne_nil (ih _)

theorem flatMap_located (fs : List Fragment) (offset : Nat) :
    ((located offset fs).map spanOf).flatMap Span.bytes = fs.flatMap bytes := by
  calc ((located offset fs).map spanOf).flatMap Span.bytes
      = ((located offset fs).map Prod.snd).flatMap bytes := by
        rw [List.flatMap_map, List.flatMap_map]
        rfl
    _ = fs.flatMap bytes := by rw [map_snd_located]

/-- **The lines of a listing stand for spans that tile the code.** -/
theorem lines_spans (code : Bytecode) : ∃ spans : List Span,
    (Text.lines (text code).toList).map span? = spans.map some ∧
    Tiles 0 spans ∧ spans.flatMap Span.bytes = code.toList := by
  refine ⟨(located 0 (decode code.toList)).map spanOf, ?_, tiles_located _ 0, ?_⟩
  · rw [lines_text, List.map_map, List.map_map]
    refine List.map_congr_left fun p hp => ?_
    have hmem : p.2 ∈ decode code.toList := by
      rw [← map_snd_located 0 (decode code.toList)]
      exact List.mem_map_of_mem hp
    exact span?_content (sound_of_mem_decode _ rfl hmem) p.1
  · rw [flatMap_located, bytes_decode]

/-- **A listing loses nothing.** Different code has different listings, well-formed or not. The
offsets that the lines show increase from zero, and the bytes that they stand for are those of the
code, in order: each line has the bytes that stand at its offset, and each byte of the code is in
one line and no other. -/
theorem text_lossless :
    Function.Injective text ∧
    ∀ code : Bytecode, ∃ spans : List Span,
      (Text.lines (text code).toList).map span? = spans.map some ∧
      (∀ s, spans.head? = some s → s.offset = 0) ∧
      (spans.map Span.offset).Pairwise (· < ·) ∧
      spans.flatMap Span.bytes = code.toList ∧
      (∀ s ∈ spans, s.bytes ≠ [] ∧ s.bytes <+: code.toList.drop s.offset) ∧
      ∀ i < code.size, ∃! k : Nat, ∃ s, spans[k]? = some s ∧ s.Holds i := by
  constructor
  · intro code code' h
    obtain ⟨spans, hlines, -, hbytes⟩ := lines_spans code
    obtain ⟨spans', hlines', -, hbytes'⟩ := lines_spans code'
    have hspans : spans = spans' := by
      refine List.map_injective_iff.mpr (Option.some_injective _) ?_
      rw [← hlines, h, hlines']
    rw [hspans, hbytes'] at hbytes
    exact Array.toList_inj.mp hbytes.symm
  · intro code
    obtain ⟨spans, hlines, htiles, hbytes⟩ := lines_spans code
    refine ⟨spans, hlines, fun s hs => htiles.head_eq hs, htiles.pairwise, hbytes,
      fun s hs => ⟨htiles.ne_nil hs, ?_⟩, fun i hi => ?_⟩
    · have hprefix := htiles.prefix_drop hs
      rwa [hbytes] at hprefix
    · refine htiles.existsUnique (Nat.zero_le i) ?_
      rw [hbytes, Array.length_toList, Nat.zero_add]
      exact hi

end WordStack.Listing
