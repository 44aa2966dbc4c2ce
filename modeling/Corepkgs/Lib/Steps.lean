import Mathlib.Tactic.TypeStar
/-!
# Runs of a labelled transition system

`Steps R s as t`: the labels `as` lead from `s` to `t` through `R`.  A system of
communicating parts is one `R` whose labels say which part moved; every
interleaving is then some list of labels.
-/

namespace Corepkgs.Lib

variable {σ ℓ : Type*}

inductive Steps (R : σ → ℓ → σ → Prop) : σ → List ℓ → σ → Prop where
  | refl (s : σ) : Steps R s [] s
  | cons {s t u : σ} {a : ℓ} {as : List ℓ} (h : R s a t) (rest : Steps R t as u) :
      Steps R s (a :: as) u

namespace Steps

variable {R R' : σ → ℓ → σ → Prop}

theorem one {s t : σ} {a : ℓ} (h : R s a t) : Steps R s [a] t := .cons h (.refl t)

theorem append {s t u : σ} {as bs : List ℓ} (h : Steps R s as t) (h' : Steps R t bs u) :
    Steps R s (as ++ bs) u := by
  induction h with
  | refl => exact h'
  | cons hstep _ ih => exact .cons hstep (ih h')

/-- What every step preserves, every run preserves. -/
theorem invariant {P : σ → Prop} (hP : ∀ s a t, P s → R s a t → P t) {s t : σ} {as : List ℓ}
    (h : Steps R s as t) (hs : P s) : P t := by
  induction h with
  | refl => exact hs
  | cons hstep _ ih => exact ih (hP _ _ _ hs hstep)

/-- `n` rounds of a loop, the invariant indexed by the rounds completed. -/
theorem iterate {I : Nat → σ → Prop} (n : Nat)
    (body : ∀ i, i < n → ∀ s, I i s → ∃ as t, Steps R s as t ∧ I (i + 1) t) {s : σ}
    (hs : I 0 s) : ∃ as t, Steps R s as t ∧ I n t := by
  induction n with
  | zero => exact ⟨[], s, .refl s, hs⟩
  | succ n ih =>
    obtain ⟨as, t, hst, ht⟩ := ih (fun i hi => body i (Nat.lt_succ_of_lt hi))
    obtain ⟨bs, u, htu, hu⟩ := body n (Nat.lt_succ_self n) t ht
    exact ⟨as ++ bs, u, hst.append htu, hu⟩

end Steps

end Corepkgs.Lib
