import Mathlib.Data.List.Basic
/-!
# Texts with holes

Replacing patterns in a text from left to right, and the view of it as a list
of letters and holes.  Replacing a set of patterns fills the holes the text has
for them; replacing one set after another fills the holes of a template as long
as each round finds just those that the template has.
-/

namespace Corepkgs.Lib.Template

open List Option

variable {α κ : Type*}

inductive Piece (α κ : Type*) where
  | letter (c : α)
  | hole (k : κ)
  deriving DecidableEq

/-- The text in which some holes are filled and the others are spelled out. -/
def fill (spell : κ → List α) (f : κ → Option (List α)) (pieces : List (Piece α κ)) : List α :=
  pieces.flatMap fun
    | .letter c => [c]
    | .hole k => (f k).getD (spell k)

section Fill

variable {spell : κ → List α} (f : κ → Option (List α))

@[simp] theorem fill_nil : fill spell f [] = [] := rfl

@[simp] theorem fill_letter (c : α) (ps : List (Piece α κ)) :
    fill spell f (.letter c :: ps) = c :: fill spell f ps := rfl

@[simp] theorem fill_hole (k : κ) (ps : List (Piece α κ)) :
    fill spell f (.hole k :: ps) = (f k).getD (spell k) ++ fill spell f ps := rfl

theorem fill_append (ps qs : List (Piece α κ)) :
    fill spell f (ps ++ qs) = fill spell f ps ++ fill spell f qs := flatMap_append

theorem fill_map_letter (text : List α) :
    fill spell f (text.map .letter) = text := by
  induction text with
  | nil => rfl
  | cons c text ih => rw [map_cons, fill_letter, ih]

/-- Only the holes that are there matter. -/
theorem fill_congr {f g : κ → Option (List α)} {pieces : List (Piece α κ)}
    (h : ∀ k, .hole k ∈ pieces → f k = g k) : fill spell f pieces = fill spell g pieces := by
  induction pieces with
  | nil => rfl
  | cons p pieces ih =>
    have hrest := ih fun k hk => h k (mem_cons_of_mem p hk)
    cases p with
    | letter c => rw [fill_letter, fill_letter, hrest]
    | hole k => rw [fill_hole, fill_hole, hrest, h k (mem_cons_self ..)]

/-- Two fillings that differ in one hole, which is there, differ in length. -/
theorem length_fill_lt {f g : κ → Option (List α)} {pieces : List (Piece α κ)} {k : κ}
    (hmem : .hole k ∈ pieces) (hother : ∀ k', .hole k' ∈ pieces → k' ≠ k → f k' = g k')
    (hlt : ((f k).getD (spell k)).length < ((g k).getD (spell k)).length) :
    (fill spell f pieces).length < (fill spell g pieces).length := by
  have hle : ∀ qs : List (Piece α κ), (∀ k', .hole k' ∈ qs → k' ≠ k → f k' = g k') →
      (fill spell f qs).length ≤ (fill spell g qs).length := by
    intro qs
    induction qs with
    | nil => exact fun _ => Nat.le_refl _
    | cons q qs ih =>
      intro hqs
      have hrest := ih fun k' hk' => hqs k' (mem_cons_of_mem q hk')
      cases q with
      | letter c =>
        rw [fill_letter, fill_letter, length_cons, length_cons]
        omega
      | hole k' =>
        rw [fill_hole, fill_hole, length_append, length_append]
        by_cases hk' : k' = k
        · subst hk'
          omega
        · rw [hqs k' (mem_cons_self ..) hk']
          omega
  obtain ⟨front, back, rfl⟩ := append_of_mem hmem
  have hfront := hle front fun k' hk' => hother k' (by simp [hk'])
  have hback := hle back fun k' hk' => hother k' (by simp [hk'])
  rw [fill_append, fill_append, fill_hole, fill_hole]
  simp only [length_append]
  omega

end Fill

variable [DecidableEq α] [DecidableEq κ]

/-- At each place the first pattern of the list that matches is replaced. -/
def replaceStrings (pairs : List (List α × List α)) : Nat → List α → List α
  | 0, text => text
  | _ + 1, [] => []
  | n + 1, c :: text =>
    match pairs.find? fun p => p.1.isPrefixOf (c :: text) with
    | some p => p.2 ++ replaceStrings pairs n ((c :: text).drop p.1.length)
    | none => c :: replaceStrings pairs n text

/-- A text that lacks a letter of every pattern stays as it is. -/
theorem replaceStrings_of_notMem {pairs : List (List α × List α)} {c : α}
    (hpairs : ∀ p ∈ pairs, c ∈ p.1) (n : Nat) {text : List α} (htext : c ∉ text) :
    replaceStrings pairs n text = text := by
  induction n generalizing text with
  | zero => rfl
  | succ n ih =>
    cases text with
    | nil => rfl
    | cons d text =>
      have hnone : pairs.find? (fun p => p.1.isPrefixOf (d :: text)) = none := by
        rw [find?_eq_none]
        intro p hp hpre
        exact htext ((List.isPrefixOf_iff_prefix.mp hpre).subset (hpairs p hp))
      rw [replaceStrings, hnone]
      dsimp only
      rw [ih fun h => htext (mem_cons_of_mem d h)]

variable (spell : κ → List α)

/-- The letters and holes of a text, for the holes of `names`. -/
def scan (names : List κ) : Nat → List α → List (Piece α κ)
  | 0, text => text.map .letter
  | _ + 1, [] => []
  | n + 1, c :: text =>
    match names.find? fun k => (spell k).isPrefixOf (c :: text) with
    | some k => .hole k :: scan names n ((c :: text).drop (spell k).length)
    | none => .letter c :: scan names n text

/-- The same text with those of `names` as holes. -/
def spread (f : κ → Option (List α)) (names : List κ) (pieces : List (Piece α κ)) :
    List (Piece α κ) :=
  pieces.flatMap fun
    | .letter c => [.letter c]
    | .hole k =>
      match f k with
      | some v => v.map .letter
      | none => if k ∈ names then [.hole k] else (spell k).map .letter

variable {spell}

omit [DecidableEq κ] in
/-- With no hole filled the text is back. -/
theorem fill_scan (names : List κ) (n : Nat) (text : List α) :
    fill spell (fun _ => none) (scan spell names n text) = text := by
  induction n generalizing text with
  | zero => exact fill_map_letter _ text
  | succ n ih =>
    cases text with
    | nil => rfl
    | cons c text =>
      rw [scan]
      split
      · rename_i k hk
        have hpre := find?_some hk
        obtain ⟨rest, hrest⟩ := isPrefixOf_iff_prefix.mp hpre
        rw [fill_hole, ih, ← hrest, drop_left]
        rfl
      · rw [fill_letter, ih]

omit [DecidableEq κ] in
theorem mem_of_hole_mem_scan {names : List κ} {n : Nat} {text : List α} {k : κ}
    (h : .hole k ∈ scan spell names n text) : k ∈ names := by
  induction n generalizing text with
  | zero => simp [scan] at h
  | succ n ih =>
    cases text with
    | nil => cases h
    | cons c text =>
      rw [scan] at h
      split at h
      · rename_i k' hk'
        rcases mem_cons.mp h with heq | h
        · cases heq
          exact mem_of_find?_eq_some hk'
        · exact ih h
      · rcases mem_cons.mp h with heq | h
        · cases heq
        · exact ih h

/-- Replacing is filling the holes of the text. -/
theorem replaceStrings_eq_fill (value : κ → List α) (names : List κ) (n : Nat) (text : List α) :
    replaceStrings (names.map fun k => (spell k, value k)) n text =
      fill spell (fun k => if k ∈ names then some (value k) else none)
        (scan spell names n text) := by
  induction n generalizing text with
  | zero => exact (fill_map_letter _ text).symm
  | succ n ih =>
    cases text with
    | nil => rfl
    | cons c text =>
      rw [replaceStrings, scan, find?_map]
      cases hk : names.find? fun k => (spell k).isPrefixOf (c :: text) with
      | none =>
        have hnone : names.find? ((fun p : List α × List α => p.1.isPrefixOf (c :: text)) ∘
            fun k => (spell k, value k)) = none := hk
        rw [hnone, map_none, fill_letter]
        dsimp only
        rw [ih]
      | some k =>
        have hsome : names.find? ((fun p : List α × List α => p.1.isPrefixOf (c :: text)) ∘
            fun k => (spell k, value k)) = some k := hk
        rw [hsome, map_some, fill_hole, if_pos (mem_of_find?_eq_some hk),
          getD_some]
        dsimp only
        rw [ih]

omit [DecidableEq α] in
theorem spread_cons (f : κ → Option (List α)) (names : List κ) (p : Piece α κ)
    (ps : List (Piece α κ)) :
    spread spell f names (p :: ps) = spread spell f names [p] ++ spread spell f names ps := by
  simp [spread]

omit [DecidableEq α] in
/-- A second round fills what the first left open. -/
theorem fill_spread {f : κ → Option (List α)} (g : κ → Option (List α)) (names : List κ)
    (hg : ∀ k, g k ≠ none → k ∈ names) (pieces : List (Piece α κ)) :
    fill spell g (spread spell f names pieces) = fill spell (fun k => (f k).or (g k)) pieces := by
  induction pieces with
  | nil => rfl
  | cons p pieces ih =>
    rw [spread_cons, fill_append, ih]
    cases p with
    | letter c => rfl
    | hole k =>
      rw [fill_hole]
      congr 1
      simp only [spread, flatMap_cons, flatMap_nil, append_nil]
      cases hf : f k with
      | some v => rw [some_or, getD_some, fill_map_letter]
      | none =>
        rw [none_or]
        by_cases hk : k ∈ names
        · rw [if_pos hk, fill_hole, fill_nil, append_nil]
        · have hnone : g k = none := by
            by_contra hne
            exact hk (hg k hne)
          rw [if_neg hk, fill_map_letter, hnone, getD_none]

end Corepkgs.Lib.Template
