/-!
Results of computations that may fail. A computation made of two steps succeeds
just when the first step succeeds and the second one does with its value, and
fails with the error of the step that fails.
-/

namespace Octet.Result

variable {ε α β : Type}

theorem bind_ok {x : Except ε α} {f : α → Except ε β} {b : β} :
    (x >>= f) = .ok b ↔ ∃ a, x = .ok a ∧ f a = .ok b := by
  cases x with
  | ok a => simp [bind, Except.bind]
  | error e => simp [bind, Except.bind]

theorem bind_error {x : Except ε α} {f : α → Except ε β} {e : ε} :
    (x >>= f) = .error e ↔ x = .error e ∨ ∃ a, x = .ok a ∧ f a = .error e := by
  cases x with
  | ok a => simp [bind, Except.bind]
  | error e => simp [bind, Except.bind]

theorem map_ok {x : Except ε α} {f : α → β} {b : β} :
    x.map f = .ok b ↔ ∃ a, x = .ok a ∧ f a = b := by
  cases x <;> simp [Except.map]

theorem map_error {x : Except ε α} {f : α → β} {e : ε} :
    x.map f = .error e ↔ x = .error e := by
  cases x <;> simp [Except.map]

theorem mapError_ok {ε' : Type} {f : ε → ε'} {x : Except ε α} {a : α} :
    x.mapError f = .ok a ↔ x = .ok a := by
  constructor
  · intro h
    cases x with
    | ok b => cases h; rfl
    | error e => cases h
  · rintro rfl
    rfl

theorem mapError_error {ε' : Type} {f : ε → ε'} {x : Except ε α} {e' : ε'} :
    x.mapError f = .error e' ↔ ∃ e, x = .error e ∧ f e = e' := by
  constructor
  · intro h
    cases x with
    | ok a => cases h
    | error e => exact ⟨e, rfl, Except.error.inj h⟩
  · rintro ⟨e, rfl, rfl⟩
    rfl

/-- A failure that stands in front of the rest keeps it from being reached. -/
theorem unless_ok {b : Prop} [Decidable b] {e : ε} {f : β → Except ε α} {x : Except ε α} {a : α} :
    (if b then throw e >>= f else x) = .ok a ↔ ¬ b ∧ x = .ok a := by
  split
  · next hb => exact iff_of_false (by rintro ⟨⟩) fun h => h.1 hb
  · next hb => exact ⟨fun h => ⟨hb, h⟩, And.right⟩

theorem pure_ok {a b : α} : (pure a : Except ε α) = .ok b ↔ a = b := by
  simp [pure, Except.pure]

theorem ok_of_toOption {x : Except ε α} {a : α} (h : x.toOption = some a) : x = .ok a := by
  cases x with
  | ok b => rw [Option.some.inj h]
  | error e => cases h

end Octet.Result
