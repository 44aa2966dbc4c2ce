import Corepkgs.Lib.Template
/-!
# Holes shown as a mark

A text some parts of which are left open.  The holes can be spelled out, or shown
as a mark; a masked text is read back by looking, at each mark, at what stands
before and after it.
-/

namespace Corepkgs.Lib

open List

/-! ## Words that stop at a symbol -/

section

variable {α : Type*} {a : α} {w x y : List α}

theorem prefix_of_prefix_append_cons (ha : a ∉ w) (h : w <+: x ++ a :: y) : w <+: x := by
  have hx : x ++ [a] <+: x ++ a :: y := ⟨y, by simp⟩
  rcases prefix_or_prefix_of_prefix h hx with hw | hw
  · rcases prefix_concat_iff.mp hw with rfl | hw
    · exact absurd (by simp) ha
    · exact hw
  · exact absurd (hw.subset (by simp)) ha

theorem suffix_append_cons_iff (ha : a ∉ w) : w <:+ x ++ a :: y ↔ w <:+ y := by
  constructor
  · intro h
    rcases suffix_or_suffix_of_suffix h (suffix_append x (a :: y)) with hw | hw
    · rcases suffix_cons_iff.mp hw with rfl | hw
      · exact absurd (by simp) ha
      · exact hw
    · exact absurd (hw.subset (by simp)) ha
  · intro h
    exact h.trans ⟨x ++ [a], by simp⟩

theorem suffix_of_suffix_append (ha : a ∉ x) (h : a :: w <:+ x ++ y) : a :: w <:+ y := by
  rcases suffix_or_suffix_of_suffix h (suffix_append x y) with hw | ⟨front, hw⟩
  · exact hw
  · cases front with
    | nil => exact ⟨[], hw.symm⟩
    | cons b front =>
      -- the word would start inside `x`
      obtain ⟨t, ht⟩ := h
      rw [← hw, ← append_assoc] at ht
      rw [cons_append, cons.injEq] at hw
      exact absurd (by simp [← append_cancel_right ht, hw.1]) ha

end

end Corepkgs.Lib

namespace Corepkgs.Lib.Template

variable {α κ : Type*}

/-! ## Spelled out and masked -/

def spelled (f : κ → List α) (ps : List (Piece α κ)) : List α := fill f (fun _ => none) ps

variable (f : κ → List α)

@[simp] theorem spelled_nil : spelled f [] = [] := rfl

@[simp] theorem spelled_letter (a : α) (ps : List (Piece α κ)) :
    spelled f (.letter a :: ps) = a :: spelled f ps := rfl

@[simp] theorem spelled_hole (k : κ) (ps : List (Piece α κ)) :
    spelled f (.hole k :: ps) = f k ++ spelled f ps := rfl

theorem spelled_append (ps qs : List (Piece α κ)) :
    spelled f (ps ++ qs) = spelled f ps ++ spelled f qs := fill_append _ ps qs

theorem spelled_map_letter (w : List α) : spelled f (w.map .letter) = w :=
  fill_map_letter _ w

def sign (mark : α) : Piece α κ → α
  | .letter a => a
  | .hole _ => mark

def masked (mark : α) (ps : List (Piece α κ)) : List α := ps.map (sign mark)

def shape : Piece α κ → Option α
  | .letter a => some a
  | .hole _ => none

variable {ps : List (Piece α κ)}

theorem masked_eq_of_shape (mark : α) {qs : List (Piece α κ)}
    (h : ps.map shape = qs.map shape) : masked mark ps = masked mark qs := by
  have hsign : sign mark = (fun o : Option α => o.getD mark) ∘ (shape : Piece α κ → Option α) := by
    funext p
    cases p <;> rfl
  rw [masked, masked, hsign, ← List.map_map, ← List.map_map, h]

/-- Two fillings that start differently tell where the holes are. -/
theorem shape_eq_of_spelled {x y : α} (hne : x ≠ y) (xs ys : List α) {qs : List (Piece α κ)}
    (hx : spelled (fun _ => x :: xs) ps = spelled (fun _ => x :: xs) qs)
    (hy : spelled (fun _ => y :: ys) ps = spelled (fun _ => y :: ys) qs) :
    ps.map shape = qs.map shape := by
  induction ps generalizing qs with
  | nil =>
    cases qs with
    | nil => rfl
    | cons q qs => cases q <;> simp at hx
  | cons p ps ih =>
    cases qs with
    | nil => cases p <;> simp at hx
    | cons q qs =>
      cases p with
      | letter a =>
        cases q with
        | letter b =>
          rw [spelled_letter, spelled_letter, List.cons.injEq] at hx hy
          rw [List.map_cons, List.map_cons, ih hx.2 hy.2, hx.1]
        | hole j =>
          -- the one symbol would start both fillings
          rw [spelled_letter, spelled_hole, List.cons_append, List.cons.injEq] at hx hy
          exact absurd (hx.1.symm.trans hy.1) hne
      | hole i =>
        cases q with
        | letter b =>
          rw [spelled_letter, spelled_hole, List.cons_append, List.cons.injEq] at hx hy
          exact absurd (hx.1.trans hy.1.symm) hne
        | hole j =>
          rw [spelled_hole, spelled_hole] at hx hy
          rw [List.map_cons, List.map_cons,
            ih (List.append_cancel_left hx) (List.append_cancel_left hy)]
          rfl

/-! ## Places of a text -/

/-- `Q` holds of every piece, with what stands before and after it in the masked text. -/
def Everywhere (mark : α) (Q : List α → Piece α κ → List α → Prop) :
    List α → List (Piece α κ) → Prop
  | _, [] => True
  | before, p :: ps => Q before p (masked mark ps) ∧ Everywhere mark Q (before ++ [sign mark p]) ps

instance decidableEverywhere (mark : α) (Q : List α → Piece α κ → List α → Prop)
    [∀ before p after, Decidable (Q before p after)] :
    ∀ before ps, Decidable (Everywhere mark Q before ps)
  | _, [] => inferInstanceAs (Decidable True)
  | before, p :: ps =>
    haveI := decidableEverywhere mark Q (before ++ [sign mark p]) ps
    inferInstanceAs (Decidable (_ ∧ _))

theorem Everywhere.imp {mark : α} {Q R : List α → Piece α κ → List α → Prop}
    (himp : ∀ before p after, Q before p after → R before p after) {before : List α}
    (h : Everywhere mark Q before ps) : Everywhere mark R before ps := by
  induction ps generalizing before with
  | nil => trivial
  | cons p ps ih => exact ⟨himp _ _ _ h.1, ih h.2⟩

theorem Everywhere.and {mark : α} {Q R : List α → Piece α κ → List α → Prop} {before : List α}
    (hQ : Everywhere mark Q before ps) (hR : Everywhere mark R before ps) :
    Everywhere mark (fun before p after => Q before p after ∧ R before p after) before ps := by
  induction ps generalizing before with
  | nil => trivial
  | cons p ps ih => exact ⟨⟨hQ.1, hR.1⟩, ih hQ.2 hR.2⟩

/-! ## Reading a masked text -/

section

variable [DecidableEq α] (mark : α) (which : List α → List α → Option κ)

/-- A symbol of a masked text: a mark is a hole where `which` gives it a label. -/
def readAt (before after : List α) (a : α) : Piece α κ :=
  if a = mark then (which before after).elim (.letter a) .hole else .letter a

def readBack : List α → List α → List (Piece α κ)
  | _, [] => []
  | before, a :: after => readAt mark which before after a :: readBack (before ++ [a]) after

theorem readAt_of_ne (before after : List α) {a : α} (h : a ≠ mark) :
    readAt mark which before after a = .letter a := if_neg h

theorem readAt_mark (before after : List α) :
    readAt mark which before after mark = (which before after).elim (.letter mark) .hole :=
      if_pos rfl

theorem readBack_append {w : List α} (h : mark ∉ w) (before after : List α) :
    readBack mark which before (w ++ after) = w.map .letter ++
      readBack mark which (before ++ w) after := by
  induction w generalizing before with
  | nil => simp
  | cons a w ih =>
    rw [List.mem_cons, not_or] at h
    rw [List.cons_append, readBack, readAt_of_ne mark which before _ (Ne.symm h.1), ih h.2,
      List.append_assoc]
    rfl

theorem masked_readBack (before text : List α) :
    masked mark (readBack mark which before text) = text := by
  induction text generalizing before with
  | nil => rfl
  | cons a text ih =>
    have hsign : sign mark (readAt mark which before text a) = a := by
      unfold readAt
      split
      · next h =>
          cases which before text with
          | none => rfl
          | some i => exact h.symm
      · rfl
    rw [readBack, masked, List.map_cons, hsign]
    exact congrArg (a :: ·) (ih _)

theorem spelled_readBack_of_none (hnone : ∀ before after, which before after = none)
    (f : κ → List α) (before text : List α) : spelled f (readBack mark which before text) =
      text := by
  induction text generalizing before with
  | nil => rfl
  | cons a text ih =>
    have hlit : readAt mark which before text a = .letter a := by
      rw [readAt, hnone, Option.elim_none, ite_self]
    rw [readBack, hlit, spelled_letter, ih]

/-- What of the pieces can be read off the masked text. -/
theorem map_readBack_masked_iff {β : Type*} (g : Piece α κ → β) (before : List α)
    (ps : List (Piece α κ)) :
    (readBack mark which before (masked mark ps)).map g = ps.map g ↔
      Everywhere mark (fun before p after => g (readAt mark which before after (sign mark p)) = g p)
        before ps := by
  induction ps generalizing before with
  | nil => exact ⟨fun _ => trivial, fun _ => rfl⟩
  | cons p ps ih =>
    have hmasked : masked mark (p :: ps) = sign mark p :: masked mark ps := rfl
    rw [hmasked, readBack, List.map_cons, List.map_cons, List.cons.injEq, ih]
    exact Iff.rfl

end

end Corepkgs.Lib.Template
