import Mathlib
/-!
# The scan for a least element

A loop over a list that remembers the index of the best element so far, and
changes its mind only for a better one, ends at the first of the least elements.
-/

namespace Corepkgs.Lib

open List Option

variable {α : Type*} (f : α → Int) (xs : List α)

/-- The loop `for i, x := range rest { if f(x) < f(xs[best]) { best = i } }`. -/
def scanLeast (best : Nat) (rest : List (α × Nat)) : Nat :=
  rest.foldl (fun best e => if f e.1 < ((xs[best]?).map f).getD 0 then e.2 else best) best

/-- Element `i` is the first of the least among the first `n`. -/
def LeastUpTo (n i : Nat) : Prop :=
  ∃ x, xs[i]? = some x ∧ (∀ j < i, ∀ y, xs[j]? = some y → f x < f y) ∧
    ∀ j < n, ∀ y, xs[j]? = some y → f x ≤ f y

variable {f xs}

theorem LeastUpTo.step {n i : Nat} (h : LeastUpTo f xs n i) (hi : i < n) {y : α}
    (hy : xs[n]? = some y) :
    LeastUpTo f xs (n + 1) (if f y < ((xs[i]?).map f).getD 0 then n else i) := by
  obtain ⟨x, hx, hbefore, hleast⟩ := h
  rw [hx, map_some, getD_some]
  split_ifs with hlt
  · refine ⟨y, hy, fun j hj z hz => ?_, fun j hj z hz => ?_⟩
    · exact lt_of_lt_of_le hlt (hleast j hj z hz)
    · rcases Nat.lt_succ_iff_lt_or_eq.mp hj with hj | rfl
      · exact le_trans hlt.le (hleast j hj z hz)
      · rw [hy, some.injEq] at hz
        rw [hz]
  · refine ⟨x, hx, hbefore, fun j hj z hz => ?_⟩
    rcases Nat.lt_succ_iff_lt_or_eq.mp hj with hj | rfl
    · exact hleast j hj z hz
    · rw [hy, some.injEq] at hz
      rw [← hz]
      omega

theorem leastUpTo_scanLeast {n i : Nat} (h : LeastUpTo f xs n i) (hi : i < n) :
    LeastUpTo f xs xs.length (scanLeast f xs i ((xs.drop n).zipIdx n)) := by
  induction hk : xs.length - n generalizing n i with
  | zero =>
    have hlen : xs.length ≤ n := by omega
    rw [drop_eq_nil_of_le hlen]
    obtain ⟨x, hx, hbefore, hleast⟩ := h
    exact ⟨x, hx, hbefore, fun j hj => hleast j (by omega)⟩
  | succ k ih =>
    have hn : n < xs.length := by omega
    rw [drop_eq_getElem_cons hn, zipIdx_cons, scanLeast, foldl_cons]
    have hstep := h.step hi (getElem?_eq_getElem hn)
    refine ih hstep ?_ (by omega)
    split_ifs <;> omega

/-- The scan of a whole list cuts it at the first of its least elements. -/
theorem scanLeast_spec (hne : xs ≠ []) :
    ∃ front x back, xs = front ++ x :: back ∧ scanLeast f xs 0 xs.zipIdx = front.length ∧
      (∀ y ∈ front, f x < f y) ∧ ∀ y ∈ back, f x ≤ f y := by
  obtain ⟨x₀, rest, hxs⟩ := exists_cons_of_ne_nil hne
  have hhead : xs[0]? = some x₀ := by rw [hxs]; rfl
  have hfirst : LeastUpTo f xs 1 0 := by
    refine ⟨x₀, hhead, fun j hj => absurd hj (Nat.not_lt_zero j), fun j hj y hy => ?_⟩
    rw [Nat.lt_one_iff.mp hj, hhead, some.injEq] at hy
    rw [hy]
  have hscan : scanLeast f xs 0 xs.zipIdx = scanLeast f xs 0 ((xs.drop 1).zipIdx 1) := by
    -- the first round compares the first element with itself
    have hself : ¬f x₀ < ((xs[0]?).map f).getD 0 := by
      rw [hhead]
      exact lt_irrefl _
    have hzip : xs.zipIdx = (x₀, 0) :: (xs.drop 1).zipIdx 1 := by
      rw [hxs]
      rfl
    rw [hzip, scanLeast, foldl_cons, if_neg hself]
    rfl
  obtain ⟨x, hx, hbefore, hleast⟩ := leastUpTo_scanLeast hfirst Nat.one_pos
  rw [hscan]
  set i := scanLeast f xs 0 ((xs.drop 1).zipIdx 1)
  obtain ⟨hi, hat⟩ := List.getElem?_eq_some_iff.mp hx
  refine ⟨xs.take i, x, xs.drop (i + 1), ?_, ?_, fun y hy => ?_, fun y hy => ?_⟩
  · rw [← hat, ← drop_eq_getElem_cons hi, take_append_drop]
  · rw [length_take, min_eq_left hi.le]
  · obtain ⟨j, hj, hget⟩ := mem_take_iff_getElem.mp hy
    rw [← hget]
    exact hbefore j (by omega) _ (getElem?_eq_getElem _)
  · obtain ⟨j, hj, hget⟩ := mem_drop_iff_getElem.mp hy
    rw [← hget]
    exact hleast _ (by omega) _ (getElem?_eq_getElem _)

end Corepkgs.Lib
