import WordStack.Instruction

/-! # Listings

A listing shows code as source text, one line for a fragment. Each line carries the fragment's
offset in a comment. A byte that is no opcode, and a push with too few operand bytes, are comments
altogether, so that a listing is a source program whatever the code was. -/

namespace WordStack.Listing

/-- The line for the fragment at an offset. -/
def line (offset : Nat) (fragment : Fragment) : String :=
  let place := "# " ++ Numeral.hexPadded 4 offset
  match fragment with
  | .unknown byte => place ++ ": invalid opcode 0x" ++ Numeral.hexBytes [byte] ++ "\n"
  | .truncated opcode operand =>
    place ++ ": " ++ opcode.mnemonic ++ " truncated, operand 0x" ++ Numeral.hexBytes operand
      ++ " (" ++ Numeral.decimal operand.length ++ " of " ++ Numeral.decimal opcode.width
      ++ " bytes)\n"
  | .instruction ⟨opcode, []⟩ => opcode.mnemonic ++ "  " ++ place ++ "\n"
  | .instruction ⟨opcode, operand⟩ =>
    opcode.mnemonic ++ " 0x" ++ Numeral.hexBytes operand ++ "  " ++ place ++ "\n"

/-- **The listing of code.** -/
def text (code : Bytecode) : String :=
  String.join ((Fragment.located 0 (Fragment.decode code.toList)).map fun (offset, fragment) =>
    line offset fragment)

end WordStack.Listing
