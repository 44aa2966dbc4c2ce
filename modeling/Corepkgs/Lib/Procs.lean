import Mathlib
/-!
# A family of processes

The processes of a system are a list; process `i` moves by `set`.  What the
system adds up over its processes changes by what the one that moved changes.
-/

namespace Corepkgs.Lib.Procs

open List

variable {α : Type*}

variable {ps : List α} {i : Nat} {p : α}

theorem sum_set_add {M : Type*} [AddCommMonoid M] (f : α → M) (h : ps[i]? = some p) (q : α) :
    ((ps.set i q).map f).sum + f p = (ps.map f).sum + f q := by
  induction ps generalizing i with
  | nil => cases h
  | cons r ps ih =>
    cases i with
    | zero =>
      cases h
      simp only [set_cons_zero, map_cons, sum_cons]
      ac_rfl
    | succ i =>
      simp only [set_cons_succ, map_cons, sum_cons]
      rw [add_assoc, ih h, add_assoc]

theorem sum_set {M : Type*} [AddCommGroup M] (f : α → M) (h : ps[i]? = some p) (q : α) :
    ((ps.set i q).map f).sum = (ps.map f).sum + (f q - f p) := by
  rw [eq_sub_of_add_eq (sum_set_add f h q), add_sub_assoc]

theorem le_sum {f : α → Int} (hnonneg : ∀ p ∈ ps, 0 ≤ f p) (h : ps[i]? = some p) :
    f p ≤ (ps.map f).sum := by
  refine single_le_sum ?_ _ (mem_map_of_mem (mem_of_getElem? h))
  intro x hx
  obtain ⟨q, hq, rfl⟩ := mem_map.mp hx
  exact hnonneg q hq

theorem get_set (h : ps[i]? = some p) (q : α) (j : Nat) :
    (ps.set i q)[j]? = if j = i then some q else ps[j]? := by
  obtain ⟨hi, -⟩ := List.getElem?_eq_some_iff.mp h
  rw [List.getElem?_set]
  by_cases hj : j = i
  · rw [if_pos hj.symm, if_pos hj, if_pos hi]
  · rw [if_neg (Ne.symm hj), if_neg hj]

end Corepkgs.Lib.Procs
