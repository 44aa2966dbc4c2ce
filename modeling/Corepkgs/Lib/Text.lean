import Corepkgs.Lib.Bytes
import Mathlib.Data.List.Basic
/-!
# Texts of lines

Pieces of a text between separators, lines written one after another, and the
replacement of every occurrence of a pattern, scanned from left to right.
-/

namespace Corepkgs.Lib.Text

open List Option

def pieces (sep : UInt8) (text : Bytes) : List Bytes := (text.splitOn sep).filter (· ≠ [])

def lines (sep : UInt8) (ls : List Bytes) : Bytes := ls.flatMap (· ++ [sep])

theorem lines_append (sep : UInt8) (ls ls' : List Bytes) :
    lines sep (ls ++ ls') = lines sep ls ++ lines sep ls' := flatMap_append

theorem lines_cons (sep : UInt8) (l : Bytes) (ls : List Bytes) :
    lines sep (l :: ls) = l ++ sep :: lines sep ls := by
  simp [lines]

theorem splitOn_line (sep : UInt8) {l : Bytes} (hl : sep ∉ l) (rest : Bytes) :
    (l ++ sep :: rest).splitOn sep = l :: rest.splitOn sep := by
  apply splitOnP_append_cons_of_forall_mem
  · intro b hb
    simp only [beq_eq_false_iff_ne, ne_eq]
    rintro rfl
    exact hl hb
  · simp

variable {sep : UInt8} {ls : List Bytes} {text pat : Bytes}

/-- A text of lines is cut into those of them that are not empty. -/
theorem pieces_lines_eq_filter (h : ∀ l ∈ ls, sep ∉ l) :
    pieces sep (lines sep ls) = ls.filter (· ≠ []) := by
  induction ls with
  | nil => rfl
  | cons l ls ih =>
    have hrest := ih fun l' hl' => h l' (mem_cons_of_mem _ hl')
    unfold pieces at hrest ⊢
    rw [lines_cons, splitOn_line sep (h l mem_cons_self), filter_cons, hrest,
      filter_cons]

theorem pieces_lines (h : ∀ l ∈ ls, l ≠ [] ∧ sep ∉ l) :
    pieces sep (lines sep ls) = ls := by
  rw [pieces_lines_eq_filter fun l hl => (h l hl).2]
  exact filter_eq_self.mpr fun l hl => decide_eq_true (h l hl).1

/-- Lines come off the front one by one. -/
theorem pieces_lines_append (h : ∀ l ∈ ls, l ≠ [] ∧ sep ∉ l) (text : Bytes) :
    pieces sep (lines sep ls ++ text) = ls ++ pieces sep text := by
  induction ls with
  | nil => rfl
  | cons l ls ih =>
    rw [forall_mem_cons] at h
    have hrest := ih h.2
    unfold pieces at hrest ⊢
    rw [lines_cons, append_assoc, cons_append, splitOn_line sep h.1.2,
      filter_cons_of_pos (by simpa using h.1.1), hrest, cons_append]

theorem notMem_intercalate {b : UInt8} {sep : Bytes} (hsep : b ∉ sep) (h : ∀ l ∈ ls, b ∉ l) :
    b ∉ sep.intercalate ls := by
  induction ls with
  | nil => simp
  | cons l ls ih =>
    have hl : b ∉ l := h l mem_cons_self
    have ih := ih fun l' hl' => h l' (mem_cons_of_mem _ hl')
    cases ls with
    | nil => simpa using hl
    | cons l' ls =>
      rw [intercalate_cons_cons, mem_append, mem_append]
      exact not_or.mpr ⟨not_or.mpr ⟨hl, hsep⟩, ih⟩

/-- Whatever the other lines hold, a proper line is one of the pieces. -/
theorem mem_pieces_lines {l : Bytes} (hmem : l ∈ ls) (hne : l ≠ []) (hsep : sep ∉ l) :
    l ∈ pieces sep (lines sep ls) := by
  obtain ⟨front, back, rfl⟩ := append_of_mem hmem
  have hfront : ∀ rest : Bytes, (lines sep front ++ rest).splitOn sep =
      ((lines sep front).splitOn sep).dropLast ++ rest.splitOn sep := by
    intro rest
    rcases eq_nil_or_concat front with rfl | ⟨front, f, rfl⟩
    · rfl
    · have htext : lines sep (front.concat f) = (lines sep front ++ f) ++ sep :: [] := by
        simp [lines]
      rw [htext, append_assoc, cons_append, nil_append,
        splitOn_append_cons_self, splitOn_append_cons_self]
      simp
  have htext : lines sep (front ++ l :: back) = lines sep front ++
    (l ++ sep :: lines sep back) := by
    simp [lines]
  rw [pieces, htext, hfront, splitOn_line sep hsep, mem_filter]
  exact ⟨by simp, by simpa using hne⟩

theorem of_mem_splitOnP {p : UInt8 → Bool} {piece : Bytes} (h : piece ∈ text.splitOnP p) :
    ∀ b ∈ piece, p b = false := by
  induction text generalizing piece with
  | nil =>
    rw [splitOnP_nil, mem_singleton] at h
    simp [h]
  | cons c text ih =>
    rw [splitOnP_cons_eq_if_modifyHead] at h
    split_ifs at h with hc
    · rcases mem_cons.mp h with rfl | h
      · simp
      · exact ih h
    · cases hpieces : text.splitOnP p with
      | nil => exact absurd hpieces (splitOnP_ne_nil p text)
      | cons first pieces =>
        rw [hpieces] at h ih
        rcases mem_cons.mp h with rfl | h
        · exact forall_mem_cons.mpr ⟨Bool.eq_false_iff.mpr hc, ih mem_cons_self⟩
        · exact ih (mem_cons_of_mem _ h)

theorem idxOf?_append_cons {α : Type*} [DecidableEq α] {sep : α} {front : List α} (h : sep ∉ front)
    (back : List α) :
    (front ++ sep :: back).idxOf? sep = some front.length := by
  induction front with
  | nil => simp [idxOf?_cons]
  | cons c front ih =>
    obtain ⟨hc, hfront⟩ := not_or.mp (mem_cons.not.mp h)
    rw [cons_append, idxOf?_cons, ih hfront, if_neg (by simpa using Ne.symm hc)]
    rfl

/-- There is one way to cut a list at its first separator. -/
theorem cut_inj {α : Type*} [DecidableEq α] {sep : α} {front front' back back' : List α}
    (h : sep ∉ front) (h' : sep ∉ front')
    (heq : front ++ sep :: back = front' ++ sep :: back') : front = front' ∧ back = back' := by
  have hlen : some front.length = some front'.length := by
    rw [← idxOf?_append_cons h back, heq, idxOf?_append_cons h' back']
  obtain ⟨hfront, hback⟩ := append_inj heq (some.inj hlen)
  exact ⟨hfront, (cons.inj hback).2⟩

/-! ## Searching -/

def afterFirst (pat : Bytes) : Bytes → Option Bytes
  | [] => if pat = [] then some [] else none
  | c :: text =>
    if pat.isPrefixOf (c :: text) then some ((c :: text).drop pat.length) else afterFirst pat text

theorem afterFirst_prefix (pat rest : Bytes) : afterFirst pat (pat ++ rest) = some rest := by
  cases hpat : pat ++ rest with
  | nil =>
    obtain ⟨rfl, rfl⟩ := append_eq_nil_iff.mp hpat
    rfl
  | cons c text =>
    rw [afterFirst, ← hpat, if_pos (by simp), drop_left]

theorem afterFirst_cons {c : UInt8} (h : ¬pat <+: c :: text) :
    afterFirst pat (c :: text) = afterFirst pat text := by
  rw [afterFirst, if_neg (by simpa using h)]

theorem suffix_of_afterFirst {found : Bytes} (h : afterFirst pat text = some found) :
    pat ++ found <:+ text := by
  induction text with
  | nil =>
    rw [afterFirst] at h
    split_ifs at h with hpat
    rw [← some.inj h, hpat]
    exact suffix_rfl
  | cons c text ih =>
    by_cases hp : pat <+: c :: text
    · obtain ⟨rest, hrest⟩ := hp
      rw [← hrest, afterFirst_prefix] at h
      exact hrest ▸ some.inj h ▸ suffix_rfl
    · rw [afterFirst_cons hp] at h
      exact (ih h).trans (suffix_cons c text)

/-- What is found in the front of a text is found in the text. -/
theorem afterFirst_append {found : Bytes} (h : afterFirst pat text = some found) (more : Bytes) :
    afterFirst pat (text ++ more) = some (found ++ more) := by
  induction text with
  | nil =>
    rw [afterFirst] at h
    split_ifs at h with hpat
    rw [← some.inj h, hpat]
    exact afterFirst_prefix [] more
  | cons c text ih =>
    by_cases hp : pat <+: c :: text
    · obtain ⟨rest, hrest⟩ := hp
      rw [← hrest, afterFirst_prefix] at h
      rw [← hrest, append_assoc, afterFirst_prefix, some.inj h]
    · rw [afterFirst_cons hp] at h
      have hlong := (suffix_of_afterFirst h).length_le
      rw [length_append] at hlong
      rw [cons_append, afterFirst_cons, ih h]
      exact fun hp' => hp (prefix_of_prefix_length_le hp' (prefix_append (c :: text) more)
        (by rw [length_cons]; omega))

/-- The search goes on behind bytes the pattern does not begin with. -/
theorem afterFirst_skip {c : UInt8} (pat : Bytes) {front : Bytes} (h : c ∉ front) (rest : Bytes) :
    afterFirst (c :: pat) (front ++ rest) = afterFirst (c :: pat) rest := by
  induction front with
  | nil => rfl
  | cons d front ih =>
    obtain ⟨hd, hfront⟩ := not_or.mp (mem_cons.not.mp h)
    rw [cons_append, afterFirst_cons (by simp [hd]), ih hfront]

/-! ## Replacing -/

/-- Every occurrence of `pat`, from left to right, replaced by `new`. -/
def replaceFrom (pat new : Bytes) : Nat → Bytes → Bytes
  | 0, text => text
  | _ + 1, [] => []
  | n + 1, c :: text =>
    if pat.isPrefixOf (c :: text) then new ++ replaceFrom pat new n ((c :: text).drop pat.length)
    else c :: replaceFrom pat new n text

/-- A text that lacks a byte of the pattern stays as it is. -/
theorem replaceFrom_of_notMem {b : UInt8} (hpat : b ∈ pat) (new : Bytes) (n : Nat)
    (htext : b ∉ text) : replaceFrom pat new n text = text := by
  induction n generalizing text with
  | zero => rfl
  | succ n ih =>
    cases text with
    | nil => rfl
    | cons c text =>
      have hno : ¬pat.isPrefixOf (c :: text) := fun h =>
        htext (( isPrefixOf_iff_prefix.mp h).subset hpat)
      rw [replaceFrom, if_neg hno, ih fun h => htext (mem_cons_of_mem c h)]

/-- A text begins as it did when the pattern and its substitute begin alike. -/
theorem head?_replaceFrom {root : Bytes} (hroot : root ≠ []) (a b : Bytes) (n : Nat)
    (text : Bytes) :
    (replaceFrom (root ++ a) (root ++ b) n text).head? = text.head? := by
  cases n with
  | zero => rfl
  | succ n =>
    cases text with
    | nil => rfl
    | cons c text =>
      obtain ⟨x, root, rfl⟩ := exists_cons_of_ne_nil hroot
      rw [replaceFrom]
      split_ifs with hpre
      · obtain ⟨rfl, -⟩ := cons_prefix_cons.mp ( isPrefixOf_iff_prefix.mp hpre)
        rfl
      · rfl

end Corepkgs.Lib.Text
