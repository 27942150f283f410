/-! # Results of parts

When a result that was put together is a success, or a failure, so are its parts. -/

namespace WordStack

variable {α β ε : Type}

theorem map_eq_ok_iff {x : Except ε α} {f : α → β} {b : β} :
    x.map f = .ok b ↔ ∃ a, x = .ok a ∧ f a = b := by
  cases x <;> simp [Except.map]

theorem map_eq_error_iff {x : Except ε α} {f : α → β} {e : ε} :
    x.map f = .error e ↔ x = .error e := by
  cases x <;> simp [Except.map]

theorem mapError_map {δ : Type} (x : Except ε α) (f : α → β) (g : ε → δ) :
    (x.map f).mapError g = (x.mapError g).map f := by
  cases x <;> rfl

/-- Results that are the same but for what is left out of an error. -/
theorem mapError_cases {δ : Type} {x y : Except ε α} {g : ε → δ}
    (h : x.mapError g = y.mapError g) :
    (∃ a, x = .ok a ∧ y = .ok a) ∨ ∃ e e', x = .error e ∧ y = .error e' ∧ g e = g e' := by
  match x, y, h with
  | .ok a, .ok b, h => exact Or.inl ⟨a, rfl, congrArg Except.ok (Except.ok.inj h).symm⟩
  | .error e, .error e', h => exact Or.inr ⟨e, e', rfl, rfl, Except.error.inj h⟩

theorem bind_eq_ok_iff {x : Except ε α} {f : α → Except ε β} {b : β} :
    x.bind f = .ok b ↔ ∃ a, x = .ok a ∧ f a = .ok b := by
  cases x <;> simp [Except.bind]

end WordStack
