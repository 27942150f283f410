import WordStack.Proofs.Decode
import WordStack.Proofs.Source.Reading

/-! # Source texts that are joined

Joined by a newline, two source texts have the pieces of both, one after the other, whatever the
first ends with: an open comment is closed by the newline, and a newline or a carriage return at the
end leaves a line without words. So the code of the whole is that of the parts joined
(`assemble_joined`). -/

namespace WordStack

open Source

theorem Builder.assemble_append (is js : List Instruction) :
    assemble (is ++ js) = assemble is ++ assemble js := by
  apply Array.toList_inj.mp
  rw [Array.toList_append, toList_assemble, toList_assemble, toList_assemble, List.flatMap_append]

namespace Source

theorem instructions_joined (first second : String) :
    instructions (first ++ "\n" ++ second) = (instructions first).bind fun is =>
      ((instructions second).mapError (·.after (1 + first.toList.count '\n'))).map (is ++ ·) := by
  have htext : (first ++ "\n" ++ second).toList = first.toList ++ '\n' :: second.toList := by
    rw [String.toList_append, String.toList_append]
    simp
  rw [instructions_eq_pieces, htext, List.splitOn_append_cons_self, instructionsFrom_append,
    instructionsFrom_add, Text.length_splitOn_newline, ← instructions_eq_pieces,
    ← instructions_eq_pieces]

/-- **Assembling respects joining**: the code of two joined texts is their code joined, unless the
first fails, and then the whole does in the same way, or else the second, and then the whole fails
as far below as the lines of the first text take. -/
theorem assemble_joined (first second : String) :
    assemble (first ++ "\n" ++ second) =
      match assemble first, assemble second with
      | .error e, _ => .error e
      | .ok _, .error e => .error { e with line := e.line + (1 + first.toList.count '\n') }
      | .ok code, .ok rest => .ok (code ++ rest) := by
  unfold assemble
  rw [instructions_joined]
  cases instructions first with
  | error e => rfl
  | ok is =>
    cases instructions second with
    | error e => rfl
    | ok js =>
      show Except.ok (Builder.assemble (is ++ js)) = _
      rw [Builder.assemble_append]
      rfl

end Source

end WordStack
