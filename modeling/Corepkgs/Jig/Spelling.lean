import Corepkgs.Jig.Paths
/-!
# How words are spelled in a key

`Key` normalises a word, masks the scratch names of cmake and, with content identities, the hashes
of store paths.  What becomes of a word that is no option is said here by the normal path it stands
for, and which words stay as they are by their text.
-/

namespace Corepkgs.Jig

open Lib List Text

/-! ## Words that are taken for paths -/

namespace NormalPath

/-- Without the separator at the end. -/
def unslashed (p : NormalPath) : NormalPath := { p with slash := false, slash_names := by simp }

variable {p : NormalPath}

theorem text_of_slash (h : p.slash = true) : p.text = p.unslashed.text ++ [47] := by
  have hnames := p.slash_names h
  have hparts : p.parts ≠ [] := by simp [parts, hnames]
  have hchunks : p.chunks = p.unslashed.chunks ++ [[]] := by
    rw [chunks, chunks, show p.unslashed.parts = p.parts from rfl, if_neg hparts, if_neg hparts]
    cases hroot : p.root <;> simp [unslashed, h, hnames, hroot]
  rw [text, hchunks, intercalate_concat (chunks_ne_nil _)]
  rfl

theorem getLast?_of_unslashed (h : p.slash = false) (hlen : 1 < p.text.length) :
    p.text.getLast? ≠ some 47 := by
  by_cases hpieces : pieces 47 p.text = []
  · -- only the root has no name in it
    rw [pieces_text] at hpieces
    split_ifs at hpieces with hroot hparts
    · simp [text, chunks, hroot, hpieces] at hlen
    · exact absurd hpieces hparts
  · rw [Ne, getLast?_text hpieces, h]
    simp

/-- Without it, a text of more than the root does not end in one. -/
theorem dropLast_text :
    (if 1 < p.text.length ∧ p.text.getLast? = some 47 then p.text.dropLast else p.text) =
      p.unslashed.text := by
  cases h : p.slash with
  | true =>
    have hpos := length_pos_iff.mpr (text_ne_nil p.unslashed)
    rw [text_of_slash h, if_pos (by simpa using hpos), dropLast_concat]
  | false =>
    have hsame : p.unslashed = p := NormalPath.ext rfl rfl rfl h.symm
    rw [if_neg fun hlast => getLast?_of_unslashed h hlast.1 hlast.2, hsame]

end NormalPath

open NormalPath

/-- What a word that is no option is normalised to. -/
def pathForm (word : Bytes) : Bytes :=
  if 47 ∉ word ∧ word.head? ≠ some 46 then word else (of word).unslashed.text

variable {word : Bytes}

theorem startsWith_dash (h : word.head? ≠ some 45) {s : String}
    (hs : (ascii s).head? = some 45) : startsWith s word = false := by
  unfold startsWith
  cases hpat : ascii s with
  | nil => simp [hpat] at hs
  | cons b w =>
    rw [hpat, head?_cons, Option.some.injEq] at hs
    cases word with
    | nil => rfl
    | cons c word =>
      have hc : c ≠ 45 := fun heq => h (heq ▸ rfl)
      simp [isPrefixOf, hs, Ne.symm hc]

theorem normalizePathArg_eq (h : word.head? ≠ some 45) : normalizePathArg word = pathForm word := by
  have hno : ∀ s : String, (ascii s).head? = some 45 → ¬(ascii s).isPrefixOf word = true :=
    fun s hs => ne_true_of_eq_false (startsWith_dash h hs)
  have hstart : valueStart word = some 0 := by
    rw [valueStart, if_neg (hno "--" rfl), if_neg fun hw => h hw.1, if_neg h]
  rw [normalizePathArg, if_neg (not_or.mpr ⟨hno "-D" rfl, hno "-U" rfl⟩), hstart]
  simp only [drop_zero, take_zero, nil_append]
  unfold pathForm
  by_cases hplain : 47 ∉ word ∧ word.head? ≠ some 46
  · rw [if_pos hplain, if_pos hplain]
  · have hne : word ≠ [] := by
      rintro rfl
      exact hplain ⟨not_mem_nil, by simp⟩
    rw [if_neg hplain, if_neg hplain, lexicallyNormal_eq hne]
    rw [dropLast_text, if_neg (text_ne_nil _)]

/-! ## Words that stay as they are -/

/-- A name that cmake has drawn at random, behind the word that announces it. -/
def Drawn (pat : Bytes) (width : Nat) (text : Bytes) : Prop :=
  pat <+: text ∧ width ≤ (text.drop pat.length).length ∧
    ((text.drop pat.length).take width).all isAlnum = true

instance (pat : Bytes) (width : Nat) (text : Bytes) : Decidable (Drawn pat width text) :=
  inferInstanceAs (Decidable (_ ∧ _))

theorem maskPattern_of_not_drawn {pat : Bytes} {width : Nat} (n : Nat) {text : Bytes}
    (h : ∀ t ∈ text.tails, ¬Drawn pat width t) : maskPattern pat width n text = text := by
  induction n generalizing text with
  | zero => rfl
  | succ n ih =>
    have hback : ∀ front rest : Bytes, text = front ++ rest →
        maskPattern pat width n rest = rest := fun front rest hcut => ih fun t ht =>
      h t ((mem_tails ..).mpr (hcut ▸ ((mem_tails ..).mp ht).trans (suffix_append front rest)))
    cases text with
    | nil => rfl
    | cons c text =>
      rw [maskPattern]
      by_cases hpat : pat.isPrefixOf (c :: text) = true
      · obtain ⟨rest, hrest⟩ := isPrefixOf_iff_prefix.mp hpat
        have hdrop : (c :: text).drop pat.length = rest := by rw [← hrest, drop_left]
        have hnot := h (c :: text) (by simp)
        rw [Drawn, hdrop] at hnot
        rw [if_pos hpat, hdrop]
        dsimp only
        rw [hback _ _ hrest.symm]
        split_ifs with hshort hall
        · rfl
        · exact absurd ⟨⟨rest, hrest⟩, Nat.le_of_not_lt hshort, hall⟩ hnot
        · exact hrest
      · rw [if_neg hpat, hback [c] _ rfl]

/-- A normal path without a separator at its end and without scratch names of cmake that is not
taken for an option. -/
structure Tidy (path : Bytes) : Prop where
  normal : ∃ p : NormalPath, p.slash = false ∧ p.text = path
  dash : path.head? ≠ some 45
  scratch : ∀ t ∈ path.tails, ¬Drawn (ascii "TryCompile-") 6 t ∧ ¬Drawn (ascii "cmTC_") 5 t

theorem Store.key_of_tidy (s : Store) {path : Bytes} (h : Tidy path) :
    s.key path = if s.byContent then maskHashes s.dir path else path := by
  have hnormal : normalizePathArg path = path := by
    obtain ⟨p, hslash, rfl⟩ := h.normal
    have hsame : p.unslashed = p := NormalPath.ext rfl rfl rfl hslash.symm
    rw [normalizePathArg_eq h.dash, pathForm, of_text, hsame, ite_self]
  have hrandom : maskRandomNames path = path := by
    rw [maskRandomNames, maskPattern_of_not_drawn _ fun t ht => (h.scratch t ht).1]
    exact maskPattern_of_not_drawn _ fun t ht => (h.scratch t ht).2
  rw [key, hnormal, hrandom]

end Corepkgs.Jig
