import Corepkgs.Lib.Text
/-!
# Swapping a word of a text for another and back

Every occurrence of one word is replaced by another of the same length, and
later the other way round.  The text comes back when the second word was not in
it.  Both words end with a byte they hold nowhere else, so that no two
occurrences overlap.

The last part is about a word that a single letter stands for.
-/

namespace Corepkgs.Lib.Text

open List

variable {pat text : Bytes}

theorem replaceFrom_fuel (hpat : pat ≠ []) (new : Bytes) {n m : Nat} (hn : text.length ≤ n)
    (hm : text.length ≤ m) :
    replaceFrom pat new n text = replaceFrom pat new m text := by
  induction n generalizing m text with
  | zero =>
    rw [length_eq_zero_iff.mp (Nat.le_zero.mp hn)]
    cases m <;> rfl
  | succ n ih =>
    cases text with
    | nil => cases m <;> rfl
    | cons c text =>
      cases m with
      | zero => simp at hm
      | succ m =>
        have hpos := length_pos_iff.mpr hpat
        rw [length_cons] at hn hm
        have hdrop : ((c :: text).drop pat.length).length ≤ text.length := by
          rw [length_drop, length_cons]
          omega
        rw [replaceFrom, replaceFrom, ih (m := m) (by omega) (by omega),
          ih (m := m) (by omega) (by omega)]

/-- Every occurrence of `pat` becomes `new`. -/
def replaceAll (pat new text : Bytes) : Bytes := replaceFrom pat new text.length text

theorem replaceAll_word (hpat : pat ≠ []) (new rest : Bytes) :
    replaceAll pat new (pat ++ rest) = new ++ replaceAll pat new rest := by
  cases htext : pat ++ rest with
  | nil => exact absurd (append_eq_nil_iff.mp htext).1 hpat
  | cons c text =>
    have hlen : rest.length ≤ text.length := by
      have hpos := length_pos_iff.mpr hpat
      have := congrArg length htext
      rw [length_append, length_cons] at this
      omega
    rw [replaceAll, length_cons, replaceFrom, ← htext, if_pos (by simp), drop_left,
      replaceFrom_fuel hpat new hlen (Nat.le_refl _), replaceAll]

variable (new : Bytes) {c : UInt8}

theorem replaceAll_cons (h : ¬pat <+: c :: text) :
    replaceAll pat new (c :: text) = c :: replaceAll pat new text := by
  rw [replaceAll, length_cons, replaceFrom, if_neg (by simpa using h), replaceAll]

theorem length_replaceAll {new : Bytes} (hpat : pat ≠ []) (hlen : new.length = pat.length)
    (text : Bytes) : (replaceAll pat new text).length = text.length := by
  induction hn : text.length using Nat.strongRecOn generalizing text with
  | _ n ih =>
    subst hn
    by_cases hpre : pat <+: text
    · obtain ⟨rest, rfl⟩ := hpre
      have hpos := length_pos_iff.mpr hpat
      have hrest := ih rest.length (by rw [length_append]; omega) rest rfl
      rw [replaceAll_word hpat, length_append, length_append, hrest, hlen]
    · cases text with
      | nil => rfl
      | cons c text => rw [replaceAll_cons new hpre, length_cons, length_cons,
          ih _ (by simp) text rfl]

section

variable {d x y : Bytes} {c : UInt8} (hc : c ∉ y)

include hc

/-- What is left of a word is in front of the text if it is there after the swap: it ends in `c`, so
it is not cut in `y`. -/
theorem prefix_of_prefix_replaceAll {w z : Bytes} (hw : w <:+ z ++ [c])
    (hshort : w.length < (d ++ y ++ [c]).length)
    (h : w <+: replaceAll (d ++ x ++ [c]) (d ++ y ++ [c]) text) : w <+: text := by
  induction text generalizing w with
  | nil => exact h
  | cons a text ih =>
    by_cases hpre : d ++ x ++ [c] <+: a :: text
    · obtain ⟨rest, hrest⟩ := hpre
      rw [← hrest, replaceAll_word (by simp)] at h
      rw [← hrest]
      have hin := prefix_of_prefix_length_le h (prefix_append _ _) hshort.le
      rw [length_append, length_singleton] at hshort
      have hdy := prefix_of_prefix_length_le hin (prefix_append (d ++ y) [c]) (by omega)
      rcases suffix_concat_iff.mp hw with rfl | ⟨w, rfl, -⟩
      · exact nil_prefix
      · have hle : (w ++ [c]).length ≤ d.length := by
          by_contra hlt
          rw [length_append, length_singleton] at hlt
          obtain ⟨back, hback⟩ := hdy
          have hdrop := congrArg (drop d.length) hback
          rw [drop_left, append_assoc, drop_append_of_le_length (by omega)] at hdrop
          exact hc (hdrop ▸ by simp)
        have hd : w ++ [c] <+: d :=
          prefix_of_prefix_length_le hdy (prefix_append d y) hle
        exact hd.trans ⟨x ++ [c] ++ rest, by simp⟩
    · rw [replaceAll_cons _ hpre] at h
      cases w with
      | nil => exact nil_prefix
      | cons b w =>
        rw [cons_prefix_cons] at h ⊢
        exact ⟨h.1, ih ((suffix_cons b w).trans hw) (by rw [length_cons] at hshort; omega) h.2⟩

theorem not_prefix_cons_replaceAll {z : Bytes} {a : UInt8} (hz : z.length ≤ (d ++ y).length)
    (h : ¬z ++ [c] <+: a :: text) :
    ¬z ++ [c] <+: a :: replaceAll (d ++ x ++ [c]) (d ++ y ++ [c]) text := by
  intro hin
  apply h
  cases hword : z ++ [c] with
  | nil => simp at hword
  | cons b w =>
    have hlen := congrArg length hword
    rw [hword, cons_prefix_cons] at hin
    refine cons_prefix_cons.mpr
      ⟨hin.1, prefix_of_prefix_replaceAll hc (hword ▸ suffix_cons b w) ?_ hin.2⟩
    simp only [length_append, length_cons, length_nil] at hlen hz ⊢
    omega

/-- Swapping `x` for `y` and then `y` for `z` is swapping `x` for `z`, if `y` was not there. -/
theorem replaceAll_replaceAll (h : ¬d ++ y ++ [c] <:+: text) :
    replaceAll (d ++ y ++ [c]) new (replaceAll (d ++ x ++ [c]) (d ++ y ++ [c]) text) =
      replaceAll (d ++ x ++ [c]) new text := by
  have hnil : ∀ x : Bytes, d ++ x ++ [c] ≠ [] := by simp
  induction hn : text.length using Nat.strongRecOn generalizing text with
  | _ n ih =>
    subst hn
    by_cases hpre : d ++ x ++ [c] <+: text
    · obtain ⟨rest, rfl⟩ := hpre
      have hshort : rest.length < (d ++ x ++ [c] ++ rest).length := by
        simp only [length_append, length_singleton]
        omega
      rw [replaceAll_word (hnil x), replaceAll_word (hnil y), replaceAll_word (hnil x),
        ih rest.length hshort (fun hin => h (hin.trans (suffix_append _ _).isInfix)) rfl]
    · cases text with
      | nil => rfl
      | cons a text =>
        rw [infix_cons_iff, not_or] at h
        rw [replaceAll_cons _ hpre, replaceAll_cons _ (not_prefix_cons_replaceAll hc le_rfl h.1),
          replaceAll_cons _ hpre, ih text.length (by simp) h.2 rfl]

end

/-- A word that was swapped for another of its length is gone from the text. -/
theorem not_infix_replaceAll {u v : Bytes} {c : UInt8} (hu : c ∉ u) (hv : c ∉ v)
    (hlen : u.length = v.length) (huv : u ≠ v) :
    ¬u ++ [c] <:+: replaceAll (u ++ [c]) (v ++ [c]) text := by
  induction hn : text.length using Nat.strongRecOn generalizing text with
  | _ n ih =>
    subst hn
    by_cases hpre : u ++ [c] <+: text
    · obtain ⟨rest, rfl⟩ := hpre
      have hrest := ih rest.length (by simp; omega) rfl
      rw [replaceAll_word (by simp)]
      generalize replaceAll _ _ rest = out at hrest ⊢
      rintro ⟨front, back, heq⟩
      by_cases hfront : c ∈ front
      · obtain ⟨front, mid, rfl, hnot⟩ := eq_append_cons_of_mem hfront
        have hcut : front ++ c :: (mid ++ (u ++ [c]) ++ back) = v ++ c :: out := by
          simpa using heq
        exact hrest ⟨mid, back, (cut_inj hnot hv hcut).2⟩
      · have hcut : front ++ u ++ c :: back = v ++ c :: out := by simpa using heq
        have hfu := (cut_inj (by simp [hfront, hu]) hv hcut).1
        have hnil : front = [] := by simpa [hlen] using congrArg length hfu
        exact huv (by simpa [hnil] using hfu)
    · cases text with
      | nil => simp [replaceAll, replaceFrom]
      | cons a text =>
        rw [replaceAll_cons _ hpre, infix_cons_iff, not_or]
        exact ⟨not_prefix_cons_replaceAll (d := []) hv hlen.le hpre, ih text.length (by simp) rfl⟩

/-! ## A word and a letter -/

theorem mem_of_mem_replaceAll {new : Bytes} {b : UInt8} (hpat : pat ≠ [])
    (h : b ∈ replaceAll pat new text) : b ∈ text ∨ b ∈ new := by
  induction hn : text.length using Nat.strongRecOn generalizing text with
  | _ n ih =>
    subst hn
    by_cases hpre : pat <+: text
    · obtain ⟨rest, rfl⟩ := hpre
      have hshort : rest.length < (pat ++ rest).length := by
        have hpos := length_pos_iff.mpr hpat
        rw [length_append]
        omega
      rw [replaceAll_word hpat, mem_append] at h
      rcases h with h | h
      · exact .inr h
      · exact (ih rest.length hshort h rfl).imp_left (mem_append_right pat)
    · cases text with
      | nil => exact .inl h
      | cons c text =>
        rw [replaceAll_cons new hpre, mem_cons] at h
        rcases h with h | h
        · exact .inl (h ▸ mem_cons_self)
        · exact (ih text.length (by simp) h rfl).imp_left (mem_cons_of_mem c)

theorem replaceAll_ne_nil {new : Bytes} (hpat : pat ≠ []) (hnew : new ≠ []) (htext : text ≠ []) :
    replaceAll pat new text ≠ [] := by
  by_cases hpre : pat <+: text
  · obtain ⟨rest, rfl⟩ := hpre
    rw [replaceAll_word hpat]
    exact append_ne_nil_of_left_ne_nil hnew _
  · cases text with
    | nil => exact absurd rfl htext
    | cons c text =>
      rw [replaceAll_cons new hpre]
      exact cons_ne_nil _ _

theorem replaceAll_letter (c : UInt8) (new text : Bytes) :
    replaceAll [c] new text = text.flatMap fun b => if b = c then new else [b] := by
  induction text with
  | nil => rfl
  | cons b text ih =>
    rw [flatMap_cons, ← ih]
    by_cases hb : b = c
    · rw [if_pos hb, hb]
      exact replaceAll_word (cons_ne_nil c []) new text
    · rw [if_neg hb, replaceAll_cons new (by simpa using Ne.symm hb)]
      rfl

section

variable {pat : Bytes}

theorem replaceAll_of_absent {text : Bytes} (h : ¬pat <:+: text) :
    replaceAll pat new text = text := by
  induction text with
  | nil => rfl
  | cons c text ih =>
    rw [infix_cons_iff, not_or] at h
    rw [replaceAll_cons new h.1, ih h.2]

theorem prefix_append_of_dropLast (front back : Bytes) :
    front ++ pat.dropLast <+: front ++ (pat ++ back) :=
  (prefix_append_right_inj front).mpr
    ((List.dropLast_prefix pat).trans (prefix_append pat back))

/-- The word is replaced where it stands, unless there is an occurrence that begins before it. -/
theorem replaceAll_first (hpat : pat ≠ []) (new : Bytes) {front : Bytes}
    (h : ¬pat <:+: front ++ pat.dropLast) (back : Bytes) :
    replaceAll pat new (front ++ (pat ++ back)) = front ++ (new ++ replaceAll pat new back) := by
  induction front with
  | nil => exact replaceAll_word hpat new back
  | cons c front ih =>
    rw [cons_append, infix_cons_iff, not_or] at h
    have hpre : ¬pat <+: c :: (front ++ (pat ++ back)) := by
      intro hpre
      apply h.1
      apply prefix_of_prefix_length_le hpre (prefix_append_of_dropLast (c :: front) back)
      simp only [length_cons, length_append, length_dropLast]
      omega
    rw [cons_append, replaceAll_cons new hpre, ih h.2, cons_append]

theorem exists_first {text : Bytes} (hpat : pat ≠ []) (h : pat <:+: text) :
    ∃ front back, text = front ++ (pat ++ back) ∧ ¬pat <:+: front ++ pat.dropLast := by
  have hshort : ¬pat <:+: pat.dropLast := by
    intro h
    have := h.length_le
    have := length_pos_iff.mpr hpat
    rw [length_dropLast] at *
    omega
  induction text with
  | nil => exact absurd (infix_nil.mp h) hpat
  | cons c text ih =>
    by_cases hpre : pat <+: c :: text
    · obtain ⟨back, hback⟩ := hpre
      exact ⟨[], back, hback.symm, hshort⟩
    · obtain ⟨front, back, rfl, hfirst⟩ := ih ((infix_cons_iff.mp h).resolve_left hpre)
      refine ⟨c :: front, back, rfl, ?_⟩
      rw [cons_append, infix_cons_iff, not_or]
      exact ⟨fun hin => hpre (hin.trans (prefix_append_of_dropLast (c :: front) back)), hfirst⟩

/-- The pieces between the occurrences of `pat` that a search from the left meets. -/
def Between (pat : Bytes) : List Bytes → Prop
  | [] => False
  | [last] => ¬pat <:+: last
  | piece :: next :: rest => ¬pat <:+: piece ++ pat.dropLast ∧ Between pat (next :: rest)

theorem exists_between (hpat : pat ≠ []) (text : Bytes) :
    ∃ pieces, Between pat pieces ∧ text = pat.intercalate pieces ∧
      ∀ new, replaceAll pat new text = new.intercalate pieces := by
  induction hn : text.length using Nat.strongRecOn generalizing text with
  | _ n ih =>
    subst hn
    by_cases hin : pat <:+: text
    · obtain ⟨front, back, rfl, hfirst⟩ := exists_first hpat hin
      have hpos := length_pos_iff.mpr hpat
      obtain ⟨pieces, hpieces, hback, hall⟩ :=
        ih back.length (by simp only [length_append]; omega) back rfl
      cases pieces with
      | nil => exact hpieces.elim
      | cons next rest =>
        refine ⟨front :: next :: rest, ⟨hfirst, hpieces⟩, ?_, fun new => ?_⟩
        · rw [intercalate_cons_cons, ← hback, append_assoc]
        · rw [replaceAll_first hpat new hfirst, hall, intercalate_cons_cons, append_assoc]
    · refine ⟨[text], hin, by simp, fun new => ?_⟩
      rw [replaceAll_of_absent new hin, intercalate_singleton]

theorem replaceAll_self (hpat : pat ≠ []) (text : Bytes) : replaceAll pat pat text = text := by
  obtain ⟨pieces, -, htext, hall⟩ := exists_between hpat text
  rw [hall, ← htext]

/-- The letter comes to stand for the word, and for nothing else, exactly if the word is not found
before its place or behind it. -/
theorem replaceAll_by_letter_iff (hpat : pat ≠ []) {front back : Bytes}
    (hfront : c ∉ front) (hback : c ∉ back) :
    replaceAll pat [c] (front ++ (pat ++ back)) = front ++ c :: back ↔
      ¬pat <:+: front ++ pat.dropLast ∧ ¬pat <:+: back := by
  constructor
  · intro h
    have hfirst : ¬pat <:+: front ++ pat.dropLast := by
      intro hin
      obtain ⟨front', back', heq, hfirst⟩ := exists_first hpat hin
      have hlen := congrArg length heq
      have hpos := length_pos_iff.mpr hpat
      simp only [length_append, length_dropLast] at hlen
      have hwhole : front ++ (pat ++ back) =
          front' ++ (pat ++ (back' ++ pat.getLast hpat :: back)) := by
        calc front ++ (pat ++ back)
            = front ++ (pat.dropLast ++ [pat.getLast hpat] ++ back) := by
              rw [dropLast_append_getLast hpat]
          _ = (front ++ pat.dropLast) ++ pat.getLast hpat :: back := by simp
          _ = front' ++ (pat ++ (back' ++ pat.getLast hpat :: back)) := by rw [heq]; simp
      -- the letter would stand inside `front`
      rw [hwhole, replaceAll_first hpat [c] hfirst] at h
      have hletter : front' ++ [c] <+: front := by
        apply prefix_of_prefix_length_le _ (prefix_append front (c :: back))
        · rw [length_append, length_singleton]
          omega
        · rw [← h, ← append_assoc]
          exact prefix_append _ _
      exact hfront (hletter.subset (by simp))
    refine ⟨hfirst, fun hin => ?_⟩
    rw [replaceAll_first hpat [c] hfirst] at h
    obtain ⟨front', back', rfl, hfirst'⟩ := exists_first hpat hin
    have hsame : replaceAll pat [c] (front' ++ (pat ++ back')) = front' ++ (pat ++ back') :=
      (cons.inj (append_cancel_left h)).2
    rw [replaceAll_first hpat [c] hfirst'] at hsame
    apply hback
    rw [← hsame]
    simp
  · rintro ⟨hfirst, hin⟩
    rw [replaceAll_first hpat [c] hfirst, replaceAll_of_absent [c] hin]
    rfl

/-! ## Texts in parts -/

theorem replaceAll_skip (w new : Bytes) {x : Bytes} (hx : c ∉ x) (y : Bytes) :
    replaceAll (c :: w) new (x ++ y) = x ++ replaceAll (c :: w) new y := by
  induction x with
  | nil => rfl
  | cons a x ih =>
    rw [mem_cons, not_or] at hx
    rw [cons_append, replaceAll_cons new fun hpre => hx.1 (cons_prefix_cons.mp hpre).1, ih hx.2,
      cons_append]

/-- No occurrence runs across a letter that is not in the word. -/
theorem replaceAll_append (hpat : pat ≠ []) (hc : c ∉ pat) (new x : Bytes) {y : Bytes}
    (hy : ∀ a ∈ y.head?, a = c) :
    replaceAll pat new (x ++ y) = replaceAll pat new x ++ replaceAll pat new y := by
  induction hn : x.length using Nat.strongRecOn generalizing x with
  | _ n ih =>
    subst hn
    by_cases hpre : pat <+: x ++ y
    · have hin : pat <+: x := by
        rcases prefix_or_prefix_of_prefix hpre (prefix_append x y) with hin | ⟨z, rfl⟩
        · exact hin
        · rw [prefix_append_right_inj] at hpre
          cases z with
          | nil => simp
          | cons a z =>
            obtain ⟨rest, rfl⟩ := hpre
            exact absurd (by simp [hy a rfl]) hc
      obtain ⟨rest, rfl⟩ := hin
      have hpos := length_pos_iff.mpr hpat
      rw [append_assoc, replaceAll_word hpat, replaceAll_word hpat,
        ih rest.length (by rw [length_append]; omega) rest rfl, append_assoc]
    · cases x with
      | nil => rfl
      | cons a x =>
        rw [cons_append] at hpre ⊢
        rw [replaceAll_cons new hpre,
          replaceAll_cons new fun hin => hpre (hin.trans (prefix_append (a :: x) y)),
          ih x.length (by simp) x rfl, cons_append]

theorem replaceAll_intercalate {sep sep' new : Bytes} {f g : Bytes → Bytes} {xs : List Bytes}
    (hsep : ∀ y, replaceAll pat new (sep ++ y) = sep' ++ replaceAll pat new y)
    (hxs : ∀ x ∈ xs, ∀ y, y = [] ∨ sep <+: y →
      replaceAll pat new (f x ++ y) = g x ++ replaceAll pat new y) :
    replaceAll pat new (sep.intercalate (xs.map f)) = sep'.intercalate (xs.map g) := by
  induction xs with
  | nil => rfl
  | cons x xs ih =>
    rw [forall_mem_cons] at hxs
    cases xs with
    | nil => simpa [replaceAll, replaceFrom] using hxs.1 [] (.inl rfl)
    | cons x' xs =>
      rw [map_cons, map_cons, map_cons, map_cons, intercalate_cons_cons, intercalate_cons_cons,
        append_assoc, hxs.1 _ (.inr (prefix_append _ _)), hsep, ← map_cons, ih hxs.2, map_cons,
        append_assoc]

theorem infix_intercalate_of_mem (sep : Bytes) {x : Bytes} {xs : List Bytes} (hx : x ∈ xs) :
    x <:+: sep.intercalate xs := by
  induction xs with
  | nil => cases hx
  | cons x' xs ih =>
    cases xs with
    | nil => simp [mem_singleton.mp hx]
    | cons x'' xs =>
      rw [intercalate_cons_cons, append_assoc]
      rcases mem_cons.mp hx with rfl | hx
      · exact (prefix_append x _).isInfix
      · exact (ih hx).trans ⟨x' ++ sep, [], by simp⟩

section

variable {w u mid mid' new : Bytes} (hu : u ≠ [])

include hu

/-- A word does not begin in the text and end in what was put in or in what follows. -/
theorem prefix_of_prefix_replaceAll_append {x y : Bytes} (hmid : ∃ a ∈ mid.head?, a ∉ w)
    (hy : ∀ a ∈ y.head?, a ∉ w) (h : w <+: replaceAll u mid x ++ y) : w <+: x := by
  induction w generalizing x with
  | nil => exact nil_prefix
  | cons b w ih =>
    cases x with
    | nil =>
      obtain ⟨rest, rfl⟩ : b :: w <+: y := h
      exact absurd mem_cons_self (hy b rfl)
    | cons a x =>
      obtain ⟨m, hm, hmw⟩ := hmid
      by_cases hpre : u <+: a :: x
      · obtain ⟨rest, hrest⟩ := hpre
        obtain ⟨mid, rfl⟩ := head?_eq_some_iff.mp hm
        rw [← hrest, replaceAll_word hu] at h
        exact absurd ((cons_prefix_cons.mp h).1 ▸ mem_cons_self) hmw
      · rw [replaceAll_cons mid hpre, cons_append, cons_prefix_cons] at h
        exact cons_prefix_cons.mpr ⟨h.1, ih ⟨m, hm, fun hin => hmw (mem_cons_of_mem b hin)⟩
          (fun e he hin => hy e he (mem_cons_of_mem b hin)) h.2⟩

/-- A word that was put in is taken for another. -/
theorem replaceAll_of_replaceAll
    (hmid : ∀ y, replaceAll (c :: w) new (mid ++ y) = mid' ++ replaceAll (c :: w) new y)
    {x y : Bytes} (hx : c ∈ x → ¬c :: w <:+: x ∧ (∃ a ∈ mid.head?, a ∉ w) ∧
      ∀ a ∈ y.head?, a ∉ w) :
    replaceAll (c :: w) new (replaceAll u mid x ++ y) =
      replaceAll u mid' x ++ replaceAll (c :: w) new y := by
  induction hn : x.length using Nat.strongRecOn generalizing x with
  | _ n ih =>
    subst hn
    by_cases hpre : u <+: x
    · obtain ⟨rest, rfl⟩ := hpre
      have hpos := length_pos_iff.mpr hu
      rw [replaceAll_word hu, replaceAll_word hu, append_assoc, hmid,
        ih rest.length (by rw [length_append]; omega) _ rfl, append_assoc]
      exact fun hin => (hx (mem_append_right u hin)).imp_left
        fun hno hin => hno (hin.trans (suffix_append u rest).isInfix)
    · cases x with
      | nil => rfl
      | cons a x =>
        have hno : ¬c :: w <+: a :: (replaceAll u mid x ++ y) := by
          intro h
          obtain ⟨rfl, hw⟩ := cons_prefix_cons.mp h
          obtain ⟨hno, hhead, hy⟩ := hx mem_cons_self
          exact hno (cons_prefix_cons.mpr
            ⟨rfl, prefix_of_prefix_replaceAll_append hu hhead hy hw⟩).isInfix
        rw [replaceAll_cons mid hpre, replaceAll_cons mid' hpre, cons_append,
          replaceAll_cons new hno, ih x.length (by simp) _ rfl, cons_append]
        exact fun hin => (hx (mem_cons_of_mem a hin)).imp_left
          fun hno hin => hno (hin.trans (suffix_cons a x).isInfix)

/-- The same in a text in parts. -/
theorem replaceAll_round {sep sep' : Bytes} {xs : List Bytes}
    (hsep : ∀ y, replaceAll (c :: w) new (sep ++ y) = sep' ++ replaceAll (c :: w) new y)
    (hmid : ∀ y, replaceAll (c :: w) new (mid ++ y) = mid' ++ replaceAll (c :: w) new y)
    (hxs : ∀ x ∈ xs, c ∈ x → ¬c :: w <:+: x ∧ (∃ a ∈ mid.head?, a ∉ w) ∧
      ∃ a ∈ sep.head?, a ∉ w) :
    replaceAll (c :: w) new (sep.intercalate (xs.map (replaceAll u mid))) =
      sep'.intercalate (xs.map (replaceAll u mid')) := by
  refine replaceAll_intercalate hsep fun x hx y hy => replaceAll_of_replaceAll hu hmid fun hin => ?_
  obtain ⟨hno, hhead, a, ha, haw⟩ := hxs x hx hin
  refine ⟨hno, hhead, ?_⟩
  obtain ⟨sep, rfl⟩ := head?_eq_some_iff.mp ha
  rcases hy with rfl | ⟨y, rfl⟩
  · simp
  · exact fun b hb => Option.some.inj hb ▸ haw

end

end

end Corepkgs.Lib.Text
