import Mathlib.Data.List.Basic
/-!
# Prefix codes

A rendering `f` is a code if what it writes can be cut off the front of a text in
one way only: `f a ++ r = f b ++ r'` leaves no choice for `a` and `r`.  Codes are
closed under the ways formats are put together: fixed text around them, one after
the other, and lists with a closing mark.
-/

namespace Corepkgs.Lib

open List

variable {α σ : Type*}

/-- What `f` writes can be read off the front of any text. -/
def Code (f : α → List σ) : Prop := ∀ ⦃a b r r'⦄, f a ++ r = f b ++ r' → a = b ∧ r = r'

namespace Code

variable {f : α → List σ}

theorem behind (hf : Code f) {c : σ} {a b : α} {r r' : List σ}
    (h : c :: (f a ++ r) = c :: (f b ++ r')) : a = b ∧ r = r' := hf (cons.inj h).2

theorem lead (hf : Code f) (w : List σ) : Code fun a => w ++ f a := by
  intro a b r r' h
  simp only [append_assoc] at h
  exact hf (append_cancel_left h)

/-- Any number of codes before a mark that none of them begins with. -/
theorem many (hf : Code f) {stop : σ} (hstart : ∀ a, ∃ c rest, f a = c :: rest ∧ c ≠ stop) :
    Code fun as : List α => as.flatMap f ++ [stop] := by
  intro as bs r r' h
  simp only [append_assoc, singleton_append] at h
  induction as generalizing bs with
  | nil =>
    cases bs with
    | nil => exact ⟨rfl, (cons.inj h).2⟩
    | cons b bs =>
      obtain ⟨c, rest, hb, hc⟩ := hstart b
      rw [flatMap_cons, hb] at h
      exact absurd (cons.inj h).1.symm hc
  | cons a as ih =>
    cases bs with
    | nil =>
      obtain ⟨c, rest, ha, hc⟩ := hstart a
      rw [flatMap_cons, ha] at h
      exact absurd (cons.inj h).1 hc
    | cons b bs =>
      rw [flatMap_cons, flatMap_cons, append_assoc, append_assoc] at h
      obtain ⟨rfl, htail⟩ := hf h
      obtain ⟨rfl, hr⟩ := ih htail
      exact ⟨rfl, hr⟩

end Code

/-! ## Lists with separators -/

/-- The loop that writes a separator before every item but the first. -/
def separated (sep : σ) (f : α → List σ) : Bool → List α → List σ
  | _, [] => []
  | first, a :: as => (if first then [] else [sep]) ++ f a ++ separated sep f false as

theorem separated_false (sep : σ) (f : α → List σ) (as : List α) :
    separated sep f false as = as.flatMap fun a => sep :: f a := by
  induction as with
  | nil => rfl
  | cons a as ih => simp [separated, ih]

/-- Separated items before a mark that is not the separator and that no item begins with. -/
theorem Code.separated {f : α → List σ} (hf : Code f) {sep stop : σ} (hsep : sep ≠ stop)
    (hstart : ∀ a, ∃ c rest, f a = c :: rest ∧ c ≠ stop) :
    Code fun as : List α => Lib.separated sep f true as ++ [stop] := by
  have hrest : Code fun as : List α => (as.flatMap fun a => sep :: f a) ++ [stop] :=
    (hf.lead [sep]).many fun a => ⟨sep, f a, rfl, hsep⟩
  intro as bs r r' h
  cases as with
  | nil =>
    cases bs with
    | nil => exact ⟨rfl, (cons.inj h).2⟩
    | cons b bs =>
      obtain ⟨c, rest, hb, hc⟩ := hstart b
      simp only [Lib.separated, hb] at h
      exact absurd (cons.inj h).1.symm hc
  | cons a as =>
    cases bs with
    | nil =>
      obtain ⟨c, rest, ha, hc⟩ := hstart a
      simp only [Lib.separated, ha] at h
      exact absurd (cons.inj h).1 hc
    | cons b bs =>
      simp only [Lib.separated, separated_false, if_true, nil_append,
        append_assoc] at h
      obtain ⟨rfl, htail⟩ := hf h
      simp only [← append_assoc] at htail
      obtain ⟨rfl, hr⟩ := hrest htail
      exact ⟨rfl, hr⟩

end Corepkgs.Lib
