import Mathlib
/-!
# Flags in a ninja file

The `flags` lines of `vcxproj.nu`.  Each flag is quoted for the shell, and the line is written as it
is: ninja reads it first, and takes a `$` for the beginning of an escape.
-/

namespace Corepkgs.Builder.Vcxproj

open List Option

/-! ## Writing -/

def quote : Char := '\x27'

def backslash : Char := '\x5c'

/-- `\w`: letters, digits and underscores, also those beyond ASCII. -/
structure WordChars where
  test : Char → Bool
  ascii : ∀ c : Char, c.toNat < 128 → test c = (c.isAlphanum || c == '_')

def otherPlain : List Char := ['@', '%', '+', '=', ':', ',', '.', '/', '-']

/-- The characters of the regular expression in `shq`. -/
def WordChars.plain (word : WordChars) (c : Char) : Bool :=
  word.test c || otherPlain.contains c

def escapeQuote (c : Char) : List Char :=
  if c = quote then [quote, backslash, quote, quote] else [c]

def shq (word : WordChars) (s : List Char) : List Char :=
  if s ≠ [] ∧ s.all word.plain then s else quote :: s.flatMap escapeQuote ++ [quote]

def flagsText (word : WordChars) (flags : List (List Char)) : List Char :=
  [' '].intercalate (flags.map (shq word))

/-- The line without the newline at its end. -/
def flagsLine (word : WordChars) (flags : List (List Char)) : List Char :=
  "  flags = ".toList ++ flagsText word flags

/-! ## Reading -/

/-- `[a-zA-Z0-9_-]` -/
def isName (c : Char) : Bool := c.isAlphanum || c == '_' || c == '-'

/-- What a `$` and the text behind it stand for, and what follows.  The file binds no variable
outside of rules and build statements, so the value of a variable is empty. -/
def escape : List Char → Option (List Char × List Char)
  | '$' :: text => some (['$'], text)
  | ' ' :: text => some ([' '], text)
  | ':' :: text => some ([':'], text)
  | '{' :: text =>
    let rest := text.dropWhile fun c => isName c || c == '.'
    if rest.head? = some '}' ∧ rest.length < text.length then some ([], rest.drop 1) else none
  | text =>
    let rest := text.dropWhile isName
    if rest.length < text.length then some ([], rest) else none

def breaks : List Char := ['\n', '\r', '\x00']

def evaluateFrom : Nat → List Char → Option (List Char)
  | _, [] => some []
  | 0, _ => none
  | n + 1, c :: text =>
    if c = '$' then (escape text).bind fun e => (evaluateFrom n e.2).map (e.1 ++ ·)
    else if c ∈ breaks then none
    else (evaluateFrom n text).map (c :: ·)

/-- The value of a line: the text behind `=` and blanks, with its escapes replaced. -/
def readLine (line : List Char) : Option (List Char) :=
  let value := ((line.dropWhile (· ≠ '=')).drop 1).dropWhile (· = ' ')
  evaluateFrom value.length value

inductive Mode where
  | bare
  | quoted
  | escaped

/-- What means something to a shell outside quotes, but for blanks, quotes and backslashes. -/
def special : List Char :=
  ['|', '&', ';', '<', '>', '(', ')', '$', '\x60', '\x22', '*', '?', '[', '#', '~', '\n']

/-- The words of a command, `none` if there is more to it than quotes; `word` is the one at hand. -/
def wordsFrom : Mode → Option (List Char) → List Char → Option (List (List Char))
  | .bare, word, [] => some word.toList
  | _, _, [] => none
  | .quoted, word, c :: text =>
    if c = quote then wordsFrom .bare word text
    else wordsFrom .quoted (some (word.getD [] ++ [c])) text
  | .escaped, word, c :: text => wordsFrom .bare (some (word.getD [] ++ [c])) text
  | .bare, word, c :: text =>
    if c = quote then wordsFrom .quoted (some (word.getD [])) text
    else if c = backslash then wordsFrom .escaped word text
    else if c = ' ' ∨ c = '\t' then (wordsFrom .bare none text).map (word.toList ++ ·)
    else if c ∈ special then none
    else wordsFrom .bare (some (word.getD [] ++ [c])) text

def shellWords (command : List Char) : Option (List (List Char)) := wordsFrom .bare none command

/-! ## Quotes -/

variable {word : WordChars}

theorem not_plain {c : Char} (h : c ∈ quote :: backslash :: ' ' :: '\t' :: special) :
    word.plain c = false := by
  have hall : ∀ c ∈ quote :: backslash :: ' ' :: '\t' :: special, c.toNat < 128 ∧
      (c.isAlphanum || c == '_') = false ∧ otherPlain.contains c = false := by
    simp [special, otherPlain, quote, backslash]
  obtain ⟨hascii, hword, hother⟩ := hall c h
  rw [WordChars.plain, word.ascii c hascii, hword, hother]
  rfl

theorem wordsFrom_plain {s : List Char} (hs : s.all word.plain) {cur : Option (List Char)}
    (hcur : s = [] → cur ≠ none) (rest : List Char) :
    wordsFrom .bare cur (s ++ rest) = wordsFrom .bare (some (cur.getD [] ++ s)) rest := by
  induction s generalizing cur with
  | nil =>
    obtain ⟨w, rfl⟩ := ne_none_iff_exists'.mp (hcur rfl)
    simp
  | cons c s ih =>
    rw [all_cons, Bool.and_eq_true] at hs
    have hc : ∀ d ∈ quote :: backslash :: ' ' :: '\t' :: special, c ≠ d := by
      rintro d hd rfl
      rw [not_plain hd] at hs
      cases hs.1
    have hblank : ¬(c = ' ' ∨ c = '\t') := not_or.mpr ⟨hc _ (by simp), hc _ (by simp)⟩
    have hspecial : c ∉ special := fun h => hc c (by simp [h]) rfl
    rw [cons_append, wordsFrom, if_neg (hc _ (by simp)), if_neg (hc _ (by simp)), if_neg hblank,
      if_neg hspecial, ih hs.2 (fun _ => by simp)]
    simp

theorem wordsFrom_quoted (s cur rest : List Char) :
    wordsFrom .quoted (some cur) (s.flatMap escapeQuote ++ quote :: rest) =
      wordsFrom .bare (some (cur ++ s)) rest := by
  have hne : backslash ≠ quote := by decide
  induction s generalizing cur with
  | nil => simp [wordsFrom]
  | cons c s ih =>
    rw [flatMap_cons, escapeQuote]
    by_cases hc : c = quote
    · simp [hc, hne, wordsFrom, ih]
    · simp [hc, wordsFrom, ih]

theorem wordsFrom_shq (word : WordChars) (s rest : List Char) :
    wordsFrom .bare none (shq word s ++ rest) = wordsFrom .bare (some s) rest := by
  rw [shq]
  split_ifs with hs
  · exact wordsFrom_plain hs.2 (absurd · hs.1) rest
  · have hquoted := wordsFrom_quoted s [] rest
    simpa [wordsFrom] using hquoted

theorem shellWords_flagsText (flags : List (List Char)) :
    shellWords (flagsText word flags) = some flags := by
  rw [shellWords, flagsText]
  induction flags with
  | nil => rfl
  | cons f flags ih =>
    cases flags with
    | nil => simpa [wordsFrom] using wordsFrom_shq word f []
    | cons f' flags =>
      have hblank : ' ' ≠ quote ∧ ' ' ≠ backslash := by decide
      rw [map_cons, map_cons, intercalate_cons_cons, append_assoc, wordsFrom_shq, singleton_append,
        wordsFrom, if_neg hblank.1, if_neg hblank.2, if_pos (.inl rfl), ← map_cons, ih]
      rfl

/-! ## Dollars -/

theorem isName_of_mem_breaks : ∀ c ∈ breaks, (isName c || c == '.') = false := by
  simp [breaks, isName]

variable {text : List Char}

theorem notMem_breaks_of_mem_takeWhile {p : Char → Bool} (hp : ∀ c ∈ breaks, p c = false) :
    ∀ c ∈ text.takeWhile p, c ∉ breaks := by
  intro c hc hbreak
  have htrue := mem_takeWhile_imp hc
  rw [hp c hbreak] at htrue
  cases htrue

/-- An escape takes no end of a line, and more dollars than it gives. -/
theorem escape_eq_some {e : List Char × List Char} (h : escape text = some e) :
    ∃ taken, text = taken ++ e.2 ∧ (∀ c ∈ taken, c ∉ breaks) ∧
      e.1.count '$' ≤ taken.count '$' := by
  unfold escape at h
  split at h
  · cases h
    exact ⟨['$'], rfl, by simp [breaks], by simp⟩
  · cases h
    exact ⟨[' '], rfl, by simp [breaks], by simp⟩
  · cases h
    exact ⟨[':'], rfl, by simp [breaks], by simp⟩
  · rename_i text
    dsimp only at h
    split_ifs at h with hbrace
    cases h
    obtain ⟨rest, hrest⟩ := head?_eq_some_iff.mp hbrace.1
    have hcut := takeWhile_append_dropWhile (p := fun c => isName c || c == '.') (l := text)
    rw [hrest] at hcut ⊢
    refine ⟨'{' :: (text.takeWhile fun c => isName c || c == '.') ++ ['}'], ?_, ?_, by simp⟩
    · simp [hcut]
    · rw [cons_append, forall_mem_cons, forall_mem_append]
      exact ⟨by simp [breaks], notMem_breaks_of_mem_takeWhile isName_of_mem_breaks,
        by simp [breaks]⟩
  · dsimp only at h
    split_ifs at h
    cases h
    refine ⟨text.takeWhile isName, takeWhile_append_dropWhile.symm, ?_, by simp⟩
    exact notMem_breaks_of_mem_takeWhile fun c hc =>
      (Bool.or_eq_false_iff.mp (isName_of_mem_breaks c hc)).1

theorem evaluateFrom_eq_some {n : Nat} {out : List Char} (h : evaluateFrom n text = some out) :
    (∀ c ∈ breaks, c ∉ text) ∧ out.count '$' ≤ text.count '$' ∧
      ('$' ∈ text → out.count '$' < text.count '$') := by
  induction n generalizing text out with
  | zero =>
    cases text with
    | nil =>
      cases h
      simp
    | cons c text => cases h
  | succ n ih =>
    cases text with
    | nil =>
      cases h
      simp
    | cons c text =>
      rw [evaluateFrom] at h
      split_ifs at h with hdollar hbreak
      · obtain ⟨e, he, h⟩ := bind_eq_some_iff.mp h
        obtain ⟨rest, hrest, rfl⟩ := map_eq_some_iff.mp h
        obtain ⟨taken, rfl, hbreaks, hcount⟩ := escape_eq_some he
        obtain ⟨hnone, hle, -⟩ := ih hrest
        subst hdollar
        rw [count_append, count_cons_self, count_append]
        refine ⟨fun d hd hmem => ?_, by omega, fun _ => by omega⟩
        rcases mem_cons.mp hmem with rfl | hmem
        · simp [breaks] at hd
        · rcases mem_append.mp hmem with hmem | hmem
          · exact hbreaks d hmem hd
          · exact hnone d hd hmem
      · obtain ⟨rest, hrest, rfl⟩ := map_eq_some_iff.mp h
        obtain ⟨hnone, hle, hlt⟩ := ih hrest
        rw [count_cons_of_ne hdollar, count_cons_of_ne hdollar]
        refine ⟨fun d hd hmem => ?_, hle, fun hmem => ?_⟩
        · rcases mem_cons.mp hmem with rfl | hmem
          · exact hbreak hd
          · exact hnone d hd hmem
        · exact hlt ((mem_cons.mp hmem).resolve_left (Ne.symm hdollar))

theorem evaluateFrom_self (hdollar : '$' ∉ text) (hbreaks : ∀ c ∈ breaks, c ∉ text) :
    evaluateFrom text.length text = some text := by
  induction text with
  | nil => rfl
  | cons c text ih =>
    rw [mem_cons, not_or] at hdollar
    have hrest := ih hdollar.2 fun d hd hmem => hbreaks d hd (mem_cons_of_mem c hmem)
    rw [length_cons, evaluateFrom, if_neg (Ne.symm hdollar.1),
      if_neg fun hc => hbreaks c hc mem_cons_self, hrest, map_some]

theorem count_wordsFrom {mode : Mode} {cur : Option (List Char)}
    {words : List (List Char)} (h : wordsFrom mode cur text = some words) :
    words.flatten.count '$' = (cur.getD []).count '$' + text.count '$' := by
  have hquote : quote ≠ '$' ∧ backslash ≠ '$' := by decide
  have hblank : ' ' ≠ '$' ∧ '\t' ≠ '$' := by decide
  induction text generalizing mode cur words with
  | nil =>
    cases mode with
    | bare =>
      cases h
      cases cur <;> simp
    | quoted => cases h
    | escaped => cases h
  | cons c text ih =>
    have hadd : ((some (cur.getD [] ++ [c])).getD []).count '$' + text.count '$' =
        (cur.getD []).count '$' + (c :: text).count '$' := by
      rw [getD_some, count_append, Nat.add_assoc, ← count_append, singleton_append]
    cases mode with
    | quoted =>
      rw [wordsFrom] at h
      split_ifs at h with hc
      · rw [ih h, hc, count_cons_of_ne hquote.1]
      · rw [ih h, hadd]
    | escaped => rw [ih h, hadd]
    | bare =>
      rw [wordsFrom] at h
      split_ifs at h with hc hc' hblanks hspecial
      · rw [ih h, hc, count_cons_of_ne hquote.1, getD_some]
      · rw [ih h, hc', count_cons_of_ne hquote.2]
      · obtain ⟨words, hwords, rfl⟩ := map_eq_some_iff.mp h
        have hne : c ≠ '$' := by
          rintro rfl
          simp at hblanks
        rw [flatten_append, count_append, ih hwords, count_cons_of_ne hne]
        cases cur <;> simp
      · rw [ih h, hadd]

variable {c : Char}

theorem count_shq (hc : c ∉ [' ', quote, backslash]) (s : List Char) :
    (shq word s).count c = s.count c := by
  rw [mem_cons, mem_cons, mem_singleton, not_or, not_or] at hc
  have hquote := Ne.symm hc.2.1
  have hbody : (s.flatMap escapeQuote).count c = s.count c := by
    induction s with
    | nil => rfl
    | cons d s ih =>
      rw [flatMap_cons, count_append, ih, escapeQuote]
      split_ifs with hd
      · rw [hd, count_cons_of_ne hquote]
        simp [hquote, Ne.symm hc.2.2]
      · rw [← count_append, singleton_append]
  rw [shq]
  split_ifs
  · rfl
  · simp [hquote, hbody]

/-- Quoting only adds blanks, quotes and backslashes. -/
theorem count_flagsText (hc : c ∉ [' ', quote, backslash]) (flags : List (List Char)) :
    (flagsText word flags).count c = flags.flatten.count c := by
  have hblank : ' ' ≠ c := by
    rintro rfl
    exact hc mem_cons_self
  rw [flagsText]
  induction flags with
  | nil => rfl
  | cons f flags ih =>
    cases flags with
    | nil => simp [count_shq hc]
    | cons f' flags =>
      rw [map_cons, map_cons, intercalate_cons_cons, flatten_cons, count_append, count_append,
        count_append, ← map_cons, ih, count_shq hc, count_cons_of_ne hblank,
        count_nil, Nat.add_zero]

theorem mem_flagsText_iff (hc : c ∉ [' ', quote, backslash]) {flags : List (List Char)} :
    c ∈ flagsText word flags ↔ ∃ f ∈ flags, c ∈ f := by
  rw [← count_pos_iff, count_flagsText hc, count_pos_iff, mem_flatten]

/-! ## The line -/

theorem head_shq (word : WordChars) (s : List Char) :
    ∃ c rest, shq word s = c :: rest ∧ c ≠ ' ' := by
  rw [shq]
  split_ifs with hs
  · obtain ⟨c, rest, rfl⟩ := exists_cons_of_ne_nil hs.1
    refine ⟨c, rest, rfl, ?_⟩
    rintro rfl
    have hplain := hs.2
    rw [all_cons, not_plain (by simp)] at hplain
    cases hplain
  · exact ⟨quote, _, rfl, by decide⟩

theorem readLine_flagsLine (flags : List (List Char)) :
    readLine (flagsLine word flags) =
      evaluateFrom (flagsText word flags).length (flagsText word flags) := by
  have hvalue : (flagsText word flags).dropWhile (· = ' ') = flagsText word flags := by
    rw [flagsText]
    cases flags with
    | nil => rfl
    | cons f flags =>
      obtain ⟨c, rest, hshq, hc⟩ := head_shq word f
      cases flags <;> simp [hshq, hc]
  have hline : (flagsLine word flags).dropWhile (· ≠ '=') = '=' :: ' ' :: flagsText word flags :=
    rfl
  rw [readLine, hline, drop_succ_cons, drop_zero, dropWhile_cons_of_pos (by decide), hvalue]

/-- The flags come back through ninja and the shell exactly if ninja finds nothing in them to
replace or to refuse. -/
theorem flags_survive_iff (word : WordChars) (flags : List (List Char))
    (hlines : ∀ f ∈ flags, '\n' ∉ f) :
    (readLine (flagsLine word flags)).bind shellWords = some flags ↔
      ∀ f ∈ flags, '$' ∉ f ∧ '\r' ∉ f ∧ '\x00' ∉ f := by
  have hdollar : '$' ∉ [' ', quote, backslash] := by decide
  have hother : ∀ c ∈ breaks, c ∉ [' ', quote, backslash] := by simp [breaks, quote, backslash]
  rw [readLine_flagsLine]
  constructor
  · intro h f hf
    obtain ⟨out, hout, hwords⟩ := bind_eq_some_iff.mp h
    obtain ⟨hbreaks, -, hlt⟩ := evaluateFrom_eq_some hout
    have hnone : ∀ c ∈ breaks, c ∉ f := fun c hc hmem =>
      hbreaks c hc ((mem_flagsText_iff (hother c hc)).mpr ⟨f, hf, hmem⟩)
    refine ⟨fun hmem => ?_, hnone _ (by simp [breaks]), hnone _ (by simp [breaks])⟩
    -- the shell keeps the dollars that ninja leaves, and ninja leaves fewer than it finds
    have hless := hlt ((mem_flagsText_iff hdollar).mpr ⟨f, hf, hmem⟩)
    rw [count_flagsText hdollar, count_wordsFrom hwords] at hless
    simp at hless
  · intro h
    have hfree : ∀ c ∈ breaks, c ∉ flagsText word flags := by
      intro c hc hmem
      obtain ⟨f, hf, hmem⟩ := (mem_flagsText_iff (hother c hc)).mp hmem
      rw [breaks, mem_cons, mem_cons, mem_singleton] at hc
      rcases hc with rfl | rfl | rfl
      · exact hlines f hf hmem
      · exact (h f hf).2.1 hmem
      · exact (h f hf).2.2 hmem
    have hdollars : '$' ∉ flagsText word flags := by
      intro hmem
      obtain ⟨f, hf, hmem⟩ := (mem_flagsText_iff hdollar).mp hmem
      exact (h f hf).1 hmem
    rw [evaluateFrom_self hdollars hfree, bind_some, shellWords_flagsText]

def asciiWord : WordChars where
  test c := c.isAlphanum || c == '_'
  ascii _ _ := rfl

theorem flags_survive_define :
    (readLine (flagsLine asciiWord ["-O2".toList, "-DX=a \x27b\x27".toList])).bind shellWords =
      some ["-O2".toList, "-DX=a \x27b\x27".toList] :=
  (flags_survive_iff asciiWord _ (by decide +kernel)).mpr (by decide +kernel)

/-- Ninja takes `$y` for a variable and the compiler gets `-DX=`. -/
theorem flag_with_dollar_lost :
    (readLine (flagsLine asciiWord ["-DX=$y".toList])).bind shellWords = some ["-DX=".toList] := by
  decide +kernel

end Corepkgs.Builder.Vcxproj
