import Mathlib.Tactic.Basic
/-!
# Computations that may fail

When a computation with errors gives a value, so did each part of it.
-/

namespace Corepkgs.Lib

variable {ε β γ : Type}

theorem bind_eq_ok {x : Except ε β} {f : β → Except ε γ} {c : γ} :
    (x >>= f) = .ok c ↔ ∃ b, x = .ok b ∧ f b = .ok c := by
  cases x <;> simp [bind, Except.bind]

theorem map_eq_ok {x : Except ε β} {f : β → γ} {c : γ} :
    x.map f = .ok c ↔ ∃ b, x = .ok b ∧ f b = c := by
  cases x <;> simp [Except.map]

end Corepkgs.Lib
