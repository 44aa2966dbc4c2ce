import Mathlib
import Corepkgs.Lib.Bytes
/-!
# Texts that agree off a set of positions

Bytes written over others in place change only what they cover.  What is read from positions that
no write covers is the same before and after.
-/

namespace Corepkgs.Lib

open List

def overwriteAt (bytes : Bytes) (off : Nat) (text : Bytes) : Bytes :=
  bytes.take off ++ text ++ bytes.drop (off + text.length)

/-- Of one length, and the same at every position that is not in `S`. -/
structure AgreeOff (S : Set Nat) (a b : Bytes) : Prop where
  length : a.length = b.length
  get : ∀ i, i ∉ S → a[i]? = b[i]?

namespace AgreeOff

variable {S T : Set Nat} {a b c : Bytes}

theorem refl (S : Set Nat) (a : Bytes) : AgreeOff S a a := ⟨rfl, fun _ _ => rfl⟩

theorem symm (h : AgreeOff S a b) : AgreeOff S b a := ⟨h.length.symm, fun i hi => (h.get i hi).symm⟩

theorem trans (h : AgreeOff S a b) (h' : AgreeOff S b c) : AgreeOff S a c :=
  ⟨h.length.trans h'.length, fun i hi => (h.get i hi).trans (h'.get i hi)⟩

theorem mono (h : AgreeOff S a b) (hST : S ⊆ T) : AgreeOff T a b :=
  ⟨h.length, fun i hi => h.get i fun hS => hi (hST hS)⟩

theorem slice_eq (h : AgreeOff S a b) {off len : Nat}
    (hd : Disjoint (Set.Ico off (off + len)) S) : slice a off len = slice b off len := by
  apply ext_getElem?
  intro i
  rw [slice, slice, getElem?_take, getElem?_take, getElem?_drop, getElem?_drop]
  split_ifs with hi
  · exact h.get _ (Set.disjoint_left.mp hd ⟨by omega, by omega⟩)
  · rfl

end AgreeOff

/-! ## Ranges -/

def covered (ranges : List (Nat × Nat)) : Set Nat := {i | ∃ r ∈ ranges, r.1 ≤ i ∧ i < r.1 + r.2}

def Separate (xs ys : List (Nat × Nat)) : Prop :=
  ∀ x ∈ xs, ∀ y ∈ ys, x.1 + x.2 ≤ y.1 ∨ y.1 + y.2 ≤ x.1

instance (xs ys : List (Nat × Nat)) : Decidable (Separate xs ys) :=
  inferInstanceAs (Decidable (∀ x ∈ xs, ∀ y ∈ ys, x.1 + x.2 ≤ y.1 ∨ y.1 + y.2 ≤ x.1))

section

variable {xs ys zs : List (Nat × Nat)}

theorem Separate.symm (h : Separate xs ys) : Separate ys xs := fun y hy x hx => (h x hx y hy).symm

theorem Separate.append (hx : Separate xs zs) (hy : Separate ys zs) :
    Separate (xs ++ ys) zs := fun r hr =>
  (mem_append.mp hr).elim (hx r) (hy r)

theorem Separate.mono (h : Separate ys zs) (hsub : ∀ x ∈ xs, x ∈ ys) : Separate xs zs := fun x hx =>
  h x (hsub x hx)

/-- Ranges that lie in those of a list are apart from what the list is apart from. -/
theorem Separate.within (h : Separate ys zs)
    (hin : ∀ x ∈ xs, ∃ y ∈ ys, y.1 ≤ x.1 ∧ x.1 + x.2 ≤ y.1 + y.2) : Separate xs zs := by
  intro x hx z hz
  obtain ⟨y, hy, hstart, hend⟩ := hin x hx
  have hyz := h y hy z hz
  omega

theorem covered_mono (h : ∀ x ∈ xs, x ∈ ys) : covered xs ⊆ covered ys :=
  fun _ ⟨r, hr, hi⟩ => ⟨r, h r hr, hi⟩

theorem Separate.disjoint (h : Separate xs ys) : Disjoint (covered xs) (covered ys) := by
  rw [Set.disjoint_left]
  rintro i ⟨x, hx, hlo, hhi⟩ ⟨y, hy, hlo', hhi'⟩
  have hxy := h x hx y hy
  omega

theorem covered_singleton (off len : Nat) : covered [(off, len)] = Set.Ico off (off + len) := by
  ext i
  simp [covered]

theorem AgreeOff.slice_of_separate {a b : Bytes} {off len : Nat} (h : AgreeOff (covered xs) a b)
    (hap : Separate [(off, len)] xs) : slice a off len = slice b off len :=
  h.slice_eq (covered_singleton off len ▸ hap.disjoint)

end

/-! ## Writes -/

section

variable {bytes text : Bytes} {off : Nat}

theorem length_overwriteAt (h : off + text.length ≤ bytes.length) :
    (overwriteAt bytes off text).length = bytes.length := by
  rw [overwriteAt, length_append, length_append, length_take, length_drop]
  omega

theorem agreeOff_overwriteAt (h : off + text.length ≤ bytes.length) :
    AgreeOff (Set.Ico off (off + text.length)) bytes (overwriteAt bytes off text) := by
  refine ⟨(length_overwriteAt h).symm, fun i hi => ?_⟩
  have htake : (bytes.take off).length = off := by
    rw [length_take]
    omega
  rw [Set.mem_Ico, not_and_or, Nat.not_le, Nat.not_lt] at hi
  rw [overwriteAt, append_assoc]
  rcases hi with hi | hi
  · rw [getElem?_append_left (by omega), getElem?_take, if_pos hi]
  · rw [getElem?_append_right (by omega), htake, getElem?_append_right (by omega),
      getElem?_drop]
    congr 1
    omega

theorem slice_overwriteAt (h : off + text.length ≤ bytes.length) :
    slice (overwriteAt bytes off text) off text.length = text := by
  have htake : (bytes.take off).length = off := by
    rw [length_take]
    omega
  rw [slice, overwriteAt, append_assoc]
  nth_rewrite 1 [← htake]
  rw [drop_left, take_left]

end

end Corepkgs.Lib
