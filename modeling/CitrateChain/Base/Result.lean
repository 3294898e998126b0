import Mathlib.Logic.Basic

/-! # Computations that may fail

Inversion of a sequence of fallible steps that ended well. -/
namespace CitrateChain.Result
universe u v
variable {ε : Type u} {α β : Type v}

theorem bind_eq_ok {x : Except ε α} {f : α → Except ε β} {r : β} :
    (x >>= f) = .ok r ↔ ∃ a, x = .ok a ∧ f a = .ok r := by
  cases x with
  | error e => simp [bind, Except.bind]
  | ok a => simp [bind, Except.bind]

theorem map_eq_ok {x : Except ε α} {f : α → β} {r : β} :
    f <$> x = .ok r ↔ ∃ a, x = .ok a ∧ f a = r := by
  cases x with
  | error e => simp [Functor.map, Except.map]
  | ok a => simp [Functor.map, Except.map]

theorem map_bind_congr {γ δ : Type v} {x : Except ε α} {f : α → Except ε β} {g : α → Except ε γ} {p : β → δ}
    {q : γ → δ} (h : ∀ a, (f a).map p = (g a).map q) : (x >>= f).map p = (x >>= g).map q := by
  cases x with
  | error e => rfl
  | ok a => exact h a

end CitrateChain.Result
