import Mathlib.Algebra.Order.Group.Int
import Mathlib.Data.Nat.Find
import Mathlib.Tactic.TypeStar
/-!
# Verdicts

A comparator answers with a negative number, zero or a positive number.  Two
sequences are compared place by place, and the first answer that is not zero is
the verdict.
-/

namespace Corepkgs.Lib.Verdicts

open List

/-- The first non-zero value of `f` among the `n` places from `i` on, zero if there is none. -/
def firstFrom (f : Nat → Int) : Nat → Nat → Int
  | 0, _ => 0
  | n + 1, i => if f i ≠ 0 then f i else firstFrom f n (i + 1)

theorem firstFrom_eq_zero {f : Nat → Int} (n : Nat) {i : Nat} (h : ∀ j, i ≤ j → f j = 0) :
    firstFrom f n i = 0 := by
  induction n generalizing i with
  | zero => rfl
  | succ n ih =>
    rw [firstFrom, if_neg (by simp [h i (Nat.le_refl i)])]
    apply ih
    intro j hj
    exact h j (by omega)

theorem firstFrom_eq {f : Nat → Int} {n i k : Nat} (hik : i ≤ k) (hk : k < i + n)
    (hbefore : ∀ j, i ≤ j → j < k → f j = 0) (hat : f k ≠ 0) : firstFrom f n i = f k := by
  induction n generalizing i with
  | zero => omega
  | succ n ih =>
    rw [firstFrom]
    by_cases hi : i = k
    · subst hi
      rw [if_pos hat]
    · rw [if_neg (by simp [hbefore i (Nat.le_refl i) (by omega)])]
      apply ih (by omega) (by omega)
      intro j hj hjk
      exact hbefore j (by omega) hjk

theorem firstFrom_neg (f : Nat → Int) (n i : Nat) :
    firstFrom (fun j => -f j) n i = -firstFrom f n i := by
  induction n generalizing i with
  | zero => rfl
  | succ n ih =>
    rw [firstFrom, firstFrom, ih]
    by_cases hi : f i = 0
    · rw [if_neg (by simp [hi]), if_neg (by simp [hi])]
    · rw [if_pos (by omega), if_pos hi]

/-- A sequence is zero everywhere or has a first place where it is not. -/
theorem zero_or_first (p : Nat → Prop) :
    (∀ i, ¬p i) ∨ ∃ k, p k ∧ ∀ j, j < k → ¬p j := by
  classical
  by_cases h : ∃ i, p i
  · exact .inr ⟨Nat.find h, Nat.find_spec h, fun j hj => Nat.find_min h hj⟩
  · exact .inl fun i hi => h ⟨i, hi⟩

section Laws

variable {α : Type*}

/-- A comparator orders the elements of `S`: swapping the sides turns the verdict around, and
elements that compare equal compare alike with every other. -/
structure Orders (S : Set α) (cmp : α → α → Int) : Prop where
  antisymm : ∀ a ∈ S, ∀ b ∈ S, cmp a b = -cmp b a
  trans : ∀ a ∈ S, ∀ b ∈ S, ∀ c ∈ S, cmp a b ≤ 0 → cmp b c ≤ 0 → cmp a c ≤ 0
  congr : ∀ a ∈ S, ∀ b ∈ S, ∀ c ∈ S, cmp a b = 0 → cmp a c = cmp b c

/-- The newest so far against one more element. -/
def newer (cmp : α → α → Int) (best v : α) : α := if 0 < cmp v best then v else best

variable {S : Set α} {cmp : α → α → Int}

theorem mem_newer {best v : α} (hbest : best ∈ S) (hv : v ∈ S) : newer cmp best v ∈ S := by
  unfold newer
  split
  · exact hv
  · exact hbest

theorem Orders.self (h : Orders S cmp) {a : α} (ha : a ∈ S) : cmp a a = 0 := by
  have hneg := h.antisymm a ha a ha
  omega

theorem Orders.le_newer (h : Orders S cmp) {best v : α} (hbest : best ∈ S) (hv : v ∈ S) :
    cmp best (newer cmp best v) ≤ 0 ∧ cmp v (newer cmp best v) ≤ 0 := by
  have hself := h.self hbest
  have hself' := h.self hv
  have hneg := h.antisymm best hbest v hv
  unfold newer
  split <;> constructor <;> omega

/-- The element a fold keeps is one of the list, and none of the list is newer. -/
theorem Orders.le_foldl (h : Orders S cmp) {best : α} {l : List α} (hbest : best ∈ S)
    (hl : ∀ v ∈ l, v ∈ S) :
    l.foldl (newer cmp) best ∈ best :: l ∧
      ∀ v ∈ best :: l, cmp v (l.foldl (newer cmp) best) ≤ 0 := by
  induction l generalizing best with
  | nil =>
    refine ⟨mem_singleton_self best, ?_⟩
    intro v hv
    rw [mem_singleton] at hv
    subst hv
    exact (h.self hbest).le
  | cons w l ih =>
    have hw := hl w (mem_cons_self ..)
    have hnew : newer cmp best w ∈ S := mem_newer hbest hw
    have hrest : ∀ v ∈ l, v ∈ S := fun v hv => hl v (mem_cons_of_mem w hv)
    obtain ⟨hmem, hle⟩ := ih hnew hrest
    rw [foldl_cons]
    obtain ⟨hbest', hw'⟩ := h.le_newer hbest hw
    have htop : l.foldl (newer cmp) (newer cmp best w) ∈ S := by
      rcases mem_cons.mp hmem with heq | hmem
      · rw [heq]
        exact hnew
      · exact hrest _ hmem
    have hfirst := hle _ (mem_cons_self ..)
    constructor
    · rcases mem_cons.mp hmem with heq | hmem
      · rw [heq]
        unfold newer
        split <;> simp
      · exact mem_cons_of_mem _ (mem_cons_of_mem _ hmem)
    · intro v hv
      rcases mem_cons.mp hv with rfl | hv
      · exact h.trans v hbest _ hnew _ htop hbest' hfirst
      · rcases mem_cons.mp hv with rfl | hv
        · exact h.trans v hw _ hnew _ htop hw' hfirst
        · exact hle v (mem_cons_of_mem _ hv)

end Laws

end Corepkgs.Lib.Verdicts
