import Mathlib.Logic.Basic

/-! Computations that may be stopped by an error: what a successful result says
about the computations it was bound from. -/

namespace Except

variable {ε α β : Type}

theorem bind_ok {x : Except ε α} {f : α → Except ε β} {b : β} :
    (x >>= f) = .ok b ↔ ∃ a, x = .ok a ∧ f a = .ok b := by
  cases x with
  | error e => simp [bind, Except.bind]
  | ok a => simp [bind, Except.bind]

theorem bind_error {x : Except ε α} {f : α → Except ε β} {e : ε} :
    (x >>= f) = .error e ↔ x = .error e ∨ ∃ a, x = .ok a ∧ f a = .error e := by
  cases x with
  | error e => simp [bind, Except.bind]
  | ok a => simp [bind, Except.bind]

theorem ok_ne_error {a : α} {e : ε} : (.ok a : Except ε α) ≠ .error e := by
  intro h
  cases h

/-- An error that neither part raises, the whole does not raise. -/
theorem bind_ne_error {x : Except ε α} {f : α → Except ε β} {e : ε} (hx : x ≠ .error e)
    (hf : ∀ a, x = .ok a → f a ≠ .error e) : (x >>= f) ≠ .error e := by
  intro h
  rcases bind_error.mp h with he | ⟨a, ha, he⟩
  · exact hx he
  · exact hf a ha he

theorem map_ne_error {x : Except ε α} {f : α → β} {e : ε} (hx : x ≠ .error e) :
    x.map f ≠ .error e := by
  cases x with
  | error e' => simpa [Except.map] using hx
  | ok a => simp [Except.map]

theorem pure_ok {a b : α} : (pure a : Except ε α) = .ok b ↔ a = b := by
  simp [pure, Except.pure]

theorem map_eq_ok {x : Except ε α} {f : α → β} {b : β} :
    x.map f = .ok b ↔ ∃ a, x = .ok a ∧ f a = b := by
  cases x <;> simp [Except.map]

end Except
