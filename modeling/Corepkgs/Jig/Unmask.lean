import Corepkgs.Jig.Store
import Corepkgs.Lib.Marks
import Mathlib.Data.List.TakeWhile
import Mathlib.Data.Set.List
/-!
# Texts that are masked and resolved

`MaskHashes` and `ResolveAll` rewrite a text in place.  A text with store
references is a text with holes: the hashes.  Masking puts a `*` into each hole and
resolving fills the holes with the hashes of the build at hand.  Where the two do
not fit together, a text does not come back.
-/

namespace Corepkgs.Jig

open Lib Lib.Template List Store Nat

/-! ## Names -/

def isNameChar (b : UInt8) : Bool := isAlnum b || (ascii "+-._?=").contains b

def IsName (name : Bytes) : Prop := ∀ b ∈ name, isNameChar b = true

instance : DecidablePred IsName := fun name => decidableBAll (isNameChar · = true) name

def endsName : Bytes → Bool
  | [] => true
  | b :: _ => !isNameChar b

variable {name after dir text : Bytes} {n : Nat} {b : UInt8}

theorem IsName.notMem (h : IsName name) (hb : isNameChar b = false) :
    b ∉ name := fun hmem => by
  rw [h b hmem] at hb
  cases hb

theorem endsName_of_endsRoot {rest : Bytes} (h : endsRoot rest = true) : endsName rest = true := by
  cases rest with
  | nil => rfl
  | cons b rest =>
    have hends : ∀ b ∈ kPathEnds, isNameChar b = false := by decide +kernel
    rw [endsRoot, Bool.or_eq_true, beq_iff_eq, contains_iff_mem] at h
    rw [endsName, Bool.not_eq_true']
    rcases h with rfl | h
    · rfl
    · exact hends b h

def StartsWith (ends : Bytes → Bool) (name after : Bytes) : Prop :=
  45 :: name <+: after ∧ ends (after.drop (name.length + 1)) = true

instance (ends : Bytes → Bool) (name after : Bytes) : Decidable (StartsWith ends name after) :=
  inferInstanceAs (Decidable (_ ∧ _))

theorem StartsWith.imp {ends : Bytes → Bool}
    (himp : ∀ {rest}, ends rest = true → endsName rest = true) (h : StartsWith ends name after) :
    StartsWith endsName name after := ⟨h.1, himp h.2⟩

/-- The name that stands at a place is all the name characters there. -/
theorem StartsWith.name_eq (h : StartsWith endsName name after) (hname : IsName name) :
    name = (after.drop 1).takeWhile isNameChar := by
  obtain ⟨⟨rest, rfl⟩, hrest⟩ := h
  have hdrop : (45 :: name ++ rest).drop (name.length + 1) = rest := drop_left' (by simp)
  rw [hdrop] at hrest
  rw [cons_append, drop_one, tail_cons, takeWhile_append_of_pos hname]
  cases rest with
  | nil => simp
  | cons b rest =>
    have hb : isNameChar b = false := by simpa [endsName] using hrest
    rw [takeWhile_cons, hb]
    simp

theorem StartsWith.unique {name' : Bytes} (h : StartsWith endsName name after)
    (h' : StartsWith endsName name' after) (hname : IsName name) (hname' : IsName name') :
    name = name' := by
  rw [h.name_eq hname, h'.name_eq hname']

/-! ## Masking twice -/

variable {w : Bytes}

/-- Up to the first `*` a masked text is the text. -/
theorem prefix_of_prefix_maskFrom (hw : 42 ∉ w) (h : w <+: maskFrom dir n text) :
    w <+: text := by
  induction n generalizing text w with
  | zero => exact h
  | succ n ih =>
    cases text with
    | nil => exact h
    | cons c text =>
      by_cases hdir : (dir ++ [47]).isPrefixOf (c :: text) = true
      · obtain ⟨rest, hrest⟩ := isPrefixOf_iff_prefix.mp hdir
        rw [← hrest, maskFrom_prefix] at h
        rw [← hrest]
        split_ifs at h with hhash
        · -- the word stops before the `*`
          have hcut : w <+: dir ++ [47] :=
            prefix_of_prefix_append_cons hw
              (by rwa [append_assoc, singleton_append])
          exact hcut.trans (prefix_append _ _)
        · have hsplit : dir ++ [47] ++ rest = (dir ++ 47 :: rest.take 1) ++ rest.drop 1 := by
            rw [append_assoc, append_assoc, cons_append, cons_append,
              take_append_drop, nil_append]
          rw [hsplit]
          rcases prefix_or_prefix_of_prefix h (prefix_append _ _) with hshort | ⟨w', rfl⟩
          · exact hshort.trans (prefix_append _ _)
          · rw [mem_append, not_or] at hw
            rw [prefix_append_right_inj] at h ⊢
            exact ih hw.2 h
      · rw [maskFrom, if_neg hdir] at h
        cases w with
        | nil => exact nil_prefix
        | cons b w =>
          rw [cons_prefix_cons] at h ⊢
          exact ⟨h.1, ih (fun hmem => hw (mem_cons_of_mem _ hmem)) h.2⟩

variable {c : UInt8}

theorem prefix_of_prefix_cons_maskFrom (hw : 42 ∉ w)
    (h : w <+: c :: maskFrom dir n text) : w <+: c :: text := by
  cases w with
  | nil => exact nil_prefix
  | cons b w =>
    rw [mem_cons, not_or] at hw
    rw [cons_prefix_cons] at h ⊢
    exact ⟨h.1, prefix_of_prefix_maskFrom hw.2 h.2⟩

/-- A hash that a second scan finds behind a store prefix was there for the first. -/
theorem hash_dash_of_masked {rest hash tail : Bytes} (hhash : isStoreHash hash = true)
    (h : rest.take 1 ++ maskFrom dir n (rest.drop 1) = hash ++ 45 :: tail) :
    hash ++ [45] <+: rest := by
  have hstar : 42 ∉ hash ++ [45] := by
    have := notMem_of_isStoreHash hhash (b := 42) (by decide)
    simpa using this
  have hpre : hash ++ [45] <+: rest.take 1 ++ maskFrom dir n (rest.drop 1) :=
    ⟨tail, by rw [h, append_assoc]; rfl⟩
  cases rest with
  | nil => exact prefix_of_prefix_maskFrom hstar hpre
  | cons b rest => exact prefix_of_prefix_cons_maskFrom hstar hpre

theorem maskFrom_maskFrom (hdir : 42 ∉ dir) (m : Nat) (hn : text.length ≤ n) :
    maskFrom dir m (maskFrom dir n text) = maskFrom dir n text := by
  induction n generalizing m text with
  | zero =>
    rw [length_eq_zero_iff.mp (le_zero.mp hn)]
    cases m <;> rfl
  | succ n ih =>
    cases m with
    | zero => rfl
    | succ m =>
      cases text with
      | nil => rfl
      | cons c text =>
        by_cases hpre : (dir ++ [47]).isPrefixOf (c :: text) = true
        · obtain ⟨rest, hrest⟩ := isPrefixOf_iff_prefix.mp hpre
          have hlen : ∀ k, (rest.drop k).length ≤ n := by
            intro k
            have := congrArg length hrest
            simp only [length_append, length_cons, length_nil,
              length_drop] at this hn ⊢
            omega
          rw [← hrest, maskFrom_prefix]
          split_ifs with hhash
          · -- behind a `*` there is no hash to find
            have hnone : ¬∃ hash tail, isStoreHash hash = true ∧
                42 :: maskFrom dir n (rest.drop kStoreHashLength) = hash ++ 45 :: tail := by
              rintro ⟨hash, tail, hhash, heq⟩
              cases hash with
              | nil => cases hhash
              | cons b hash =>
                rw [cons_append, cons.injEq] at heq
                exact notMem_of_isStoreHash hhash (b := 42) (by decide) (by simp [heq.1])
            have hcons : dir ++ 47 :: 42 :: maskFrom dir n (rest.drop kStoreHashLength) =
                dir ++ [47] ++ 42 :: maskFrom dir n (rest.drop kStoreHashLength) := by
              rw [append_assoc, singleton_append]
            rw [hcons, maskFrom_prefix, if_neg (fun h => hnone (hash_dash_iff.mp h)),
              drop_one, tail_cons, ih m (hlen _)]
            simp
          · have hnone : ¬∃ hash tail, isStoreHash hash = true ∧
                rest.take 1 ++ maskFrom dir n (rest.drop 1) = hash ++ 45 :: tail := by
              rintro ⟨hash, tail, hh, heq⟩
              obtain ⟨back, hback⟩ := hash_dash_of_masked hh heq
              exact hhash (hash_dash_iff.mpr ⟨hash, back, hh, by simp [← hback]⟩)
            have hcons : dir ++ 47 :: rest.take 1 ++ maskFrom dir n (rest.drop 1) =
                dir ++ [47] ++ (rest.take 1 ++ maskFrom dir n (rest.drop 1)) := by
              simp
            rw [hcons, maskFrom_prefix, if_neg (fun h => hnone (hash_dash_iff.mp h))]
            cases rest with
            | nil => cases m <;> cases n <;> simp [maskFrom]
            | cons b rest =>
              have hih := ih m (hlen 1)
              rw [drop_one, tail_cons] at hih
              simp [hih]
        · have hkept : ¬(dir ++ [47]).isPrefixOf (c :: maskFrom dir n text) = true := by
            intro h
            rw [List.isPrefixOf_iff_prefix] at h hpre
            exact hpre (prefix_of_prefix_cons_maskFrom (by simpa using hdir) h)
          rw [maskFrom, if_neg hpre, maskFrom, if_neg hkept,
            ih m (by rw [length_cons] at hn; omega)]

theorem maskHashes_maskHashes (hdir : 42 ∉ dir) (text : Bytes) :
    maskHashes dir (maskHashes dir text) = maskHashes dir text :=
  maskFrom_maskFrom hdir _ (le_refl _)

/-! ## One root -/

structure PlainDir (dir : Bytes) : Prop where
  slash : dir.head? = some 47
  noStar : 42 ∉ dir
  noDash : 45 ∉ dir
  noBlank : 32 ∉ dir

theorem PlainDir.suffix_of_suffix_append {x y : Bytes} (hdir : PlainDir dir) (hx : 47 ∉ x)
    (h : dir ++ [47] <:+ x ++ y) : dir ++ [47] <:+ y := by
  cases dir with
  | nil => cases hdir.slash
  | cons c dir =>
    cases hdir.slash
    exact Lib.suffix_of_suffix_append hx h

def rootPath (dir : Bytes) (hash : Bytes → Bytes) (name : Bytes) : Bytes :=
  dir ++ 47 :: hash name ++ 45 :: name

def maskedRoot (dir name : Bytes) : Bytes := dir ++ 47 :: 42 :: 45 :: name

def rootEntry (dir : Bytes) (hash : Bytes → Bytes) (name : Bytes) : Bytes × Bytes :=
  (maskedRoot dir name, rootPath dir hash name)

theorem maskedRoot_injective (dir : Bytes) : Function.Injective (maskedRoot dir) := by
  intro name name' h
  have := append_cancel_left h
  simpa using this

theorem rootEntry_injective (dir : Bytes) (hash : Bytes → Bytes) :
    Function.Injective (rootEntry dir hash) :=
  fun _ _ heq => maskedRoot_injective dir (Prod.mk.inj heq).1

def rootAt (dir : Bytes) (names : List Bytes) (before after : Bytes) : Option Bytes :=
  if dir ++ [47] <:+ before then names.find? fun name => StartsWith endsRoot name after else none

variable {before : Bytes}

theorem rootAt_eq_some_iff {names : List Bytes} (hnames : ∀ name ∈ names, IsName name) :
    rootAt dir names before after = some name ↔
      dir ++ [47] <:+ before ∧ name ∈ names ∧ StartsWith endsRoot name after := by
  unfold rootAt
  split_ifs with hbefore
  · constructor
    · intro h
      exact ⟨hbefore, mem_of_find?_eq_some h, by simpa using find?_some h⟩
    · rintro ⟨-, hmem, hstarts⟩
      cases hfind : names.find? fun name => decide (StartsWith endsRoot name after) with
      | none => exact absurd hstarts (by simpa using find?_eq_none.mp hfind name hmem)
      | some name' =>
        have hstarts' : StartsWith endsRoot name' after := by simpa using find?_some hfind
        rw [(hstarts'.imp endsName_of_endsRoot).unique (hstarts.imp endsName_of_endsRoot)
          (hnames name' (mem_of_find?_eq_some hfind)) (hnames name hmem)]
  · simp [hbefore]

theorem rootAt_singleton (dir name before rest : Bytes) :
    rootAt dir [name] (before ++ dir ++ [47]) (45 :: name ++ rest) =
      if endsRoot rest = true then some name else none := by
  have hstarts : StartsWith endsRoot name (45 :: name ++ rest) ↔ endsRoot rest = true := by
    have hdrop : (45 :: name ++ rest).drop (name.length + 1) = rest := drop_left' (by simp)
    rw [StartsWith, hdrop]
    simp
  have hbefore : dir ++ [47] <:+ before ++ dir ++ [47] := ⟨before, by simp⟩
  rw [rootAt, if_pos hbefore, find?_singleton]
  simp only [hstarts, decide_eq_true_eq]

/-- Every masked root of this name whose `*` is in the text starts in the text. -/
def NoneAcross (dir name before text : Bytes) : Prop :=
  ∀ front rest, text = front ++ (42 :: 45 :: name ++ rest) →
    dir ++ [47] <:+ before ++ front → dir ++ [47] <:+ front

theorem noneAcross_nil (dir name text : Bytes) : NoneAcross dir name [] text :=
  fun _ _ _ h => h

theorem NoneAcross.step (h : NoneAcross dir name before (c :: text))
    (hno : ¬maskedRoot dir name <+: c :: text) :
    NoneAcross dir name (before ++ [c]) text := by
  intro front rest htext hsuf
  have hcons : dir ++ [47] <:+ c :: front :=
    h (c :: front) rest (by rw [htext]; rfl) (by simpa using hsuf)
  rcases suffix_cons_iff.mp hcons with heq | hfront
  · refine absurd ⟨rest, ?_⟩ hno
    calc maskedRoot dir name ++ rest
        = dir ++ [47] ++ (42 :: 45 :: name ++ rest) := by simp [maskedRoot]
      _ = c :: (front ++ (42 :: 45 :: name ++ rest)) := by rw [heq, cons_append]
      _ = c :: text := by rw [htext]
  · exact hfront

/-- The search goes on behind a masked root: a store prefix holds no `*`, and it starts with what
is in no name. -/
theorem noneAcross_root (hdir : PlainDir dir) (hname : IsName name) (before rest : Bytes) :
    NoneAcross dir name (before ++ (dir ++ [47]) ++ [42] ++ 45 :: name) rest := by
  intro front back _ hsuf
  have hstar : 42 ∉ dir ++ [47] := by simpa using hdir.noStar
  have hslash : 47 ∉ 45 :: name := by simpa using hname.notMem (b := 47) rfl
  have hcut : dir ++ [47] <:+ before ++ (dir ++ [47]) ++ 42 :: (45 :: name ++ front) := by
    simpa using hsuf
  exact hdir.suffix_of_suffix_append hslash ((suffix_append_cons_iff hstar).mp hcut)

section

variable {dir name : Bytes} (hname : IsName name)
include hname

/-- A `*` whose root would start before the text belongs to no root. -/
theorem NoneAcross.readAt_eq {text : Bytes} (h : NoneAcross dir name before (c :: text)) :
    readAt 42 (rootAt dir [name]) before text c = .letter c := by
  by_cases hc : c = 42
  · have hnone : rootAt dir [name] before text = none := by
      rw [Option.eq_none_iff_forall_ne_some]
      intro name' hroot
      obtain ⟨hbefore, hmem, ⟨rest, hrest⟩, -⟩ :=
        (rootAt_eq_some_iff (by simpa using hname)).mp hroot
      rw [mem_singleton.mp hmem] at hrest
      have hnil := h [] rest (by rw [hc, ← hrest]; rfl) (by simpa using hbefore)
      simp at hnil
    rw [hc, readAt_mark, hnone]
    rfl
  · exact readAt_of_ne _ _ _ _ hc

/-- The search for one root, as a reading of the marks.  `before` is what it has behind it. -/
theorem resolveFrom_eq_spelled (hdir : PlainDir dir) (hash : Bytes → Bytes) {n : Nat}
    {text : Bytes} (hn : text.length ≤ n) (hacross : NoneAcross dir name before text) :
    resolveFrom (maskedRoot dir name) (rootPath dir hash name) n text =
      spelled hash (readBack 42 (rootAt dir [name]) before text) := by
  induction n generalizing before text with
  | zero =>
    rw [length_eq_zero_iff.mp (le_zero.mp hn)]
    rfl
  | succ n ih =>
    cases text with
    | nil => rfl
    | cons c text =>
      rw [resolveFrom]
      split_ifs with hpre
      · obtain ⟨rest, hrest⟩ := isPrefixOf_iff_prefix.mp hpre
        have hdrop : (c :: text).drop (maskedRoot dir name).length = rest := by
          rw [← hrest, drop_left]
        have hlen : rest.length ≤ n := by
          have := congrArg length hrest
          simp only [maskedRoot, length_append, length_cons] at this hn
          omega
        have htext : c :: text = (dir ++ [47]) ++ 42 :: (45 :: name ++ rest) := by
          rw [← hrest, maskedRoot]
          simp
        have hstar : 42 ∉ dir ++ [47] := by simpa using hdir.noStar
        have hstar' : 42 ∉ 45 :: name := by simpa using hname.notMem (b := 42) rfl
        dsimp only
        rw [hdrop, ih hlen (noneAcross_root hdir hname before rest), htext,
          readBack_append _ _ hstar, readBack, readBack_append _ _ hstar', readAt_mark,
          ← append_assoc before dir, rootAt_singleton, spelled_append, spelled_map_letter]
        split_ifs
        · rw [Option.elim_some, spelled_hole, spelled_append, spelled_map_letter, rootPath]
          simp
        · rw [Option.elim_none, spelled_letter, spelled_append, spelled_map_letter, maskedRoot]
          simp
      · rw [List.isPrefixOf_iff_prefix] at hpre
        rw [ih (le_of_succ_le_succ hn) (hacross.step hpre), readBack,
          hacross.readAt_eq hname, spelled_letter]

end

/-! ## All roots -/

/-- The two texts are the same back to a dash, or all the way. -/
def SameTail (x y : Bytes) : Prop :=
  x = y ∨ ∃ front front' tail, x = front ++ 45 :: tail ∧ y = front' ++ 45 :: tail

theorem SameTail.append {x y : Bytes} (h : SameTail x y) (c : UInt8) :
    SameTail (x ++ [c]) (y ++ [c]) := by
  rcases h with rfl | ⟨front, front', tail, rfl, rfl⟩
  · exact .inl rfl
  · exact .inr ⟨front, front', tail ++ [c], by simp, by simp⟩

theorem sameTail_dash (x y : Bytes) : SameTail (x ++ [45]) (y ++ [45]) := .inr ⟨x, y, [], rfl, rfl⟩

theorem SameTail.suffix_iff {x y : Bytes} (h : SameTail x y) (hw : 45 ∉ w) :
    w <:+ x ↔ w <:+ y := by
  rcases h with rfl | ⟨front, front', tail, rfl, rfl⟩
  · exact Iff.rfl
  · rw [suffix_append_cons_iff hw, suffix_append_cons_iff hw]

section

variable {dir : Bytes} {names : List Bytes} {hash : Bytes → Bytes}

/-- Only right behind a separator a character is anything but itself. -/
theorem spelled_readBack_cons (h : before.getLast? ≠ some 47) (c : UInt8) (after : Bytes) :
    spelled hash (readBack 42 (rootAt dir names) before (c :: after)) =
      c :: spelled hash (readBack 42 (rootAt dir names) (before ++ [c]) after) := by
  have hnone : rootAt dir names before after = none := by
    refine if_neg fun hsuf => h ?_
    obtain ⟨front, rfl⟩ := hsuf
    simp
  have hlit : readAt 42 (rootAt dir names) before after c = .letter c := by
    rw [readAt, hnone, Option.elim_none, ite_self]
  rw [readBack, hlit, spelled_letter]

variable {after : Bytes}

theorem prefix_spelled_readBack_iff (hw : 47 ∉ w) (h : before.getLast? ≠ some 47) :
    w <+: spelled hash (readBack 42 (rootAt dir names) before after) ↔ w <+: after := by
  induction w generalizing before after with
  | nil => simp
  | cons b w ih =>
    cases after with
    | nil => exact Iff.rfl
    | cons c after =>
      rw [mem_cons, not_or] at hw
      rw [spelled_readBack_cons h, cons_prefix_cons, cons_prefix_cons]
      refine and_congr_right fun hb => ih hw.2 ?_
      rw [← hb, getLast?_concat]
      exact fun heq => hw.1 (Option.some.inj heq).symm

theorem spelled_readBack_append (dir : Bytes) (names : List Bytes) (hash : Bytes → Bytes)
    (hw : 47 ∉ w) (h : before.getLast? ≠ some 47) (rest : Bytes) :
    ∃ before', before'.getLast? ≠ some 47 ∧
      spelled hash (readBack 42 (rootAt dir names) before (w ++ rest)) =
        w ++ spelled hash (readBack 42 (rootAt dir names) before' rest) := by
  induction w generalizing before with
  | nil => exact ⟨before, h, rfl⟩
  | cons b w ih =>
    rw [mem_cons, not_or] at hw
    have hlast : (before ++ [b]).getLast? ≠ some 47 := by
      rw [getLast?_concat]
      exact fun heq => hw.1 (Option.some.inj heq).symm
    obtain ⟨before', hbefore', heq⟩ := ih hw.2 hlast
    refine ⟨before', hbefore', ?_⟩
    rw [cons_append, spelled_readBack_cons h, heq, cons_append]

variable {name : Bytes}

/-- Filling other holes changes nothing about the name that follows a `*`. -/
theorem startsWith_spelled_readBack_iff (hname : IsName name) (h : before.getLast? ≠ some 47) :
    StartsWith endsRoot name (spelled hash (readBack 42 (rootAt dir names) before after)) ↔
      StartsWith endsRoot name after := by
  have hslash : 47 ∉ 45 :: name := by simpa using hname.notMem (b := 47) rfl
  rw [StartsWith, StartsWith, prefix_spelled_readBack_iff hslash h]
  refine and_congr_right fun hpre => ?_
  obtain ⟨rest, rfl⟩ := hpre
  obtain ⟨before', hbefore', heq⟩ := spelled_readBack_append dir names hash hslash h rest
  have hlen : name.length + 1 = (45 :: name).length := rfl
  rw [heq, hlen, drop_left, drop_left]
  cases rest with
  | nil => exact Iff.rfl
  | cons c rest =>
    rw [spelled_readBack_cons hbefore']
    exact Iff.rfl

theorem rootAt_append (dir : Bytes) (names names' : List Bytes) (before after : Bytes) :
    rootAt dir (names ++ names') before after =
      (rootAt dir names before after).or (rootAt dir names' before after) := by
  unfold rootAt
  split_ifs
  · exact find?_append
  · rfl

/-- One more root after the ones before: together they are read at once. -/
theorem spelled_readBack_spelled (hdir : PlainDir dir) (hname : IsName name)
    (hnames : ∀ n ∈ names, IsName n) (hhash : ∀ n ∈ names, isStoreHash (hash n) = true)
    {before' : Bytes} (htail : after.head? = some 45 ∨ SameTail before before') :
    spelled hash (readBack 42 (rootAt dir [name]) before'
        (spelled hash (readBack 42 (rootAt dir names) before after))) =
      spelled hash (readBack 42 (rootAt dir (names ++ [name])) before after) := by
  induction after generalizing before before' with
  | nil => rfl
  | cons c after ih =>
    by_cases hc : c = 42
    · subst hc
      have htail : SameTail before before' := htail.resolve_left (by simp)
      have hnext : (before ++ [42]).getLast? ≠ some 47 := by simp
      have hroot : rootAt dir [name] before'
          (spelled hash (readBack 42 (rootAt dir names) (before ++ [42]) after)) =
            rootAt dir [name] before after := by
        have hdash : 45 ∉ dir ++ [47] := by simpa using hdir.noDash
        simp only [rootAt, find?_singleton, htail.suffix_iff hdash,
          startsWith_spelled_readBack_iff hname hnext]
      rw [readBack, readBack, readAt_mark, readAt_mark, rootAt_append]
      cases hfound : rootAt dir names before after with
      | some found =>
        -- the hole is filled already, and a dash follows
        obtain ⟨-, hmem, ⟨rest, hrest⟩, -⟩ := (rootAt_eq_some_iff hnames).mp hfound
        have hstar := notMem_of_isStoreHash (hhash found hmem) (b := 42) (by decide)
        rw [Option.some_or, Option.elim_some, spelled_hole, spelled_hole, readBack_append _ _ hstar,
          spelled_append, spelled_map_letter, ih (.inl (by rw [← hrest]; rfl))]
      | none =>
        rw [Option.none_or, Option.elim_none, spelled_letter, readBack, readAt_mark, hroot]
        cases rootAt dir [name] before after with
        | some _ => rw [Option.elim_some, spelled_hole, spelled_hole, ih (.inr (htail.append 42))]
        | none => rw [Option.elim_none, spelled_letter, spelled_letter, ih (.inr (htail.append 42))]
    · have hnext : SameTail (before ++ [c]) (before' ++ [c]) := by
        rcases htail with hdash | htail
        · cases hdash
          exact sameTail_dash before before'
        · exact htail.append c
      rw [readBack, readBack, readAt_of_ne _ _ _ _ hc, readAt_of_ne _ _ _ _ hc, spelled_letter,
        spelled_letter, readBack, readAt_of_ne _ _ _ _ hc, spelled_letter, ih (.inr hnext)]

theorem foldl_resolveFrom (hdir : PlainDir dir) (done : List Bytes) {todo : List Bytes}
    (hnames : ∀ n ∈ done ++ todo, IsName n)
    (hhash : ∀ n ∈ done ++ todo, isStoreHash (hash n) = true) (text : Bytes) :
    (todo.map (rootEntry dir hash)).foldl
        (fun text root => resolveFrom root.1 root.2 text.length text)
        (spelled hash (readBack 42 (rootAt dir done) [] text)) =
      spelled hash (readBack 42 (rootAt dir (done ++ todo)) [] text) := by
  induction todo generalizing done with
  | nil => simp
  | cons name todo ih =>
    have hsplit : done ++ name :: todo = done ++ [name] ++ todo := by simp
    have hname : IsName name := hnames name (by simp)
    rw [map_cons, foldl_cons, rootEntry,
      resolveFrom_eq_spelled hname hdir hash (le_refl _) (noneAcross_nil dir name _),
      spelled_readBack_spelled hdir hname (fun n hn => hnames n (by simp [hn]))
        (fun n hn => hhash n (by simp [hn])) (.inr (.inl rfl)),
      hsplit, ih _ (by rwa [← hsplit]) (by rwa [← hsplit])]

end

/-! ## The roots of a build -/

/-- The roots that are masked in this build: one for each name. -/
structure HasRoots (dir : Bytes) (env : StoreEnv) (names : List Bytes) (hash : Bytes → Bytes) :
    Prop where
  byContent : env.byContent = true
  roots : ∀ root, (root ∈ rootsOf dir env ∧ maskHashes dir root ≠ root) ↔
    ∃ name ∈ names, root = rootPath dir hash name
  hashes : ∀ name ∈ names, isStoreHash (hash name) = true

theorem maskHashes_rootPath (dir : Bytes) {hash : Bytes → Bytes} (hname : IsName name)
    (hhash : isStoreHash (hash name) = true) :
    maskHashes dir (rootPath dir hash name) = maskedRoot dir name := by
  have hslash : 47 ∉ 45 :: name := by simpa using hname.notMem (b := 47) rfl
  simpa [rootPath, maskedRoot] using maskHashes_storePath hhash (noStorePath_of_notMem hslash)

theorem rootPath_ne_maskedRoot {hash : Bytes → Bytes} (hhash : isStoreHash (hash name) = true) :
    rootPath dir hash name ≠ maskedRoot dir name := by
  intro h
  have hcut : hash name ++ 45 :: name = 42 :: 45 :: name := by
    simpa [rootPath, maskedRoot] using h
  have hlen := congrArg length hcut
  simp only [length_append, length_cons, length_of_isStoreHash hhash,
    kStoreHashLength] at hlen
  omega

section

variable {dir : Bytes} {env : StoreEnv} {names : List Bytes} {hash : Bytes → Bytes}
  (hnames : ∀ name ∈ names, IsName name) (h : HasRoots dir env names hash)
include hnames h

/-- What the constructor has put into `masked_to_real_`. -/
theorem HasRoots.lookup_iff {masked real : Bytes} :
    (new dir env).maskedToReal.lookup masked = some real ↔
      ∃ name ∈ names, masked = maskedRoot dir name ∧ real = rootPath dir hash name := by
  rw [lookup_maskedToReal, rootFor, if_pos h.byContent]
  constructor
  · intro hfind
    have hreal : maskHashes dir real = masked ∧ real ≠ masked := by
      simpa using find?_some hfind
    obtain ⟨name, hmem, rfl⟩ := (h.roots real).mp
      ⟨mem_of_find?_eq_some hfind, fun heq => hreal.2 (heq.symm.trans hreal.1)⟩
    rw [maskHashes_rootPath dir (hnames name hmem) (h.hashes name hmem)] at hreal
    exact ⟨name, hmem, hreal.1.symm, rfl⟩
  · rintro ⟨name, hmem, rfl, rfl⟩
    have hmask := maskHashes_rootPath dir (hnames name hmem) (h.hashes name hmem)
    cases hfind : (rootsOf dir env).find?
        fun root => decide (maskHashes dir root = maskedRoot dir name ∧
          root ≠ maskedRoot dir name) with
    | none =>
      have hnot := find?_eq_none.mp hfind _ ((h.roots _).mpr ⟨name, hmem, rfl⟩).1
      rw [decide_eq_true_eq] at hnot
      exact absurd ⟨hmask, rootPath_ne_maskedRoot (h.hashes name hmem)⟩ hnot
    | some root =>
      -- any other root of this masked name has the same name
      have hroot : maskHashes dir root = maskedRoot dir name ∧ root ≠ maskedRoot dir name := by
        simpa using find?_some hfind
      obtain ⟨name', hmem', rfl⟩ := (h.roots root).mp
        ⟨mem_of_find?_eq_some hfind, fun heq => hroot.2 (heq.symm.trans hroot.1)⟩
      rw [maskHashes_rootPath dir (hnames name' hmem') (h.hashes name' hmem')] at hroot
      rw [maskedRoot_injective dir hroot.1]

theorem HasRoots.pairs_perm (hnodup : names.Nodup) :
    (new dir env).maskedToReal.pairs.Perm
      (names.map (rootEntry dir hash)) := by
  have hpairs : (new dir env).maskedToReal.pairs.Nodup := by
    refine (new dir env).maskedToReal.nodupKeys.nodup.map fun e e' heq => ?_
    cases e
    cases e'
    cases heq
    rfl
  refine (perm_ext_iff_of_nodup hpairs (hnodup.map (rootEntry_injective dir hash))).mpr fun pair =>
    ?_
  obtain ⟨masked, real⟩ := pair
  rw [Table.mem_pairs, h.lookup_iff hnames, mem_map]
  constructor
  · rintro ⟨name, hmem, rfl, rfl⟩
    exact ⟨name, hmem, rfl⟩
  · rintro ⟨name, hmem, heq⟩
    cases heq
    exact ⟨name, hmem, rfl, rfl⟩

/-- `ResolveAll` reads the marks and fills in the hashes of the build, whatever the order of the
roots. -/
theorem HasRoots.resolveAll_eq_spelled (hdir : PlainDir dir) (hnodup : names.Nodup)
    {order : List (Bytes × Bytes)} (horder : order.Perm (new dir env).maskedToReal.pairs)
    (text : Bytes) :
    (new dir env).resolveAll order text =
      spelled hash (readBack 42 (rootAt dir names) [] (maskHashes dir text)) := by
  have hperm := horder.trans (h.pairs_perm hnames hnodup)
  obtain ⟨names', rfl⟩ : order ∈ Set.range (map (rootEntry dir hash)) := by
    rw [Set.range_list_map]
    intro pair hpair
    obtain ⟨name, -, heq⟩ := mem_map.mp (hperm.mem_iff.mp hpair)
    exact ⟨name, heq⟩
  have hsame : ∀ name, name ∈ names' ↔ name ∈ names :=
    fun name => ((map_perm_map_iff (rootEntry_injective dir hash)).mp hperm).mem_iff
  have hnames' : ∀ name ∈ names', IsName name := fun name hmem => hnames name ((hsame name).mp hmem)
  have hroot : rootAt dir names' = rootAt dir names := by
    funext before after
    ext name
    rw [rootAt_eq_some_iff hnames', rootAt_eq_some_iff hnames, hsame]
  have hnew : (new dir env).dir = dir := by
    unfold new
    dsimp only
    split <;> rfl
  have hfold := foldl_resolveFrom hdir [] hnames'
    (fun name hmem => h.hashes name ((hsame name).mp hmem)) (maskHashes dir text)
  rw [spelled_readBack_of_none _ _ (fun before after => by simp [rootAt]), nil_append,
    hroot] at hfold
  rw [resolveAll, hnew, hfold]

end

def envWith (roots : List Bytes) : StoreEnv :=
  ⟨some (ascii "content"), none, some (Text.lines 32 roots)⟩

theorem hasRoots_envWith (hdir : PlainDir dir) {names : List Bytes}
    (hnames : ∀ name ∈ names, IsName name) (hash : Bytes → Bytes)
    (hhash : ∀ name ∈ names, isStoreHash (hash name) = true) :
    HasRoots dir (envWith (names.map (rootPath dir hash))) names hash := by
  have hslash : ∀ name ∈ names, 47 ∉ hash name ++ 45 :: name := by
    intro name hmem
    have hname := (hnames name hmem).notMem (b := 47) rfl
    have hhash := notMem_of_isStoreHash (hhash name hmem) (b := 47) (by decide)
    simp [hname, hhash]
  have hcut : ∀ name ∈ names, cutRoot dir (rootPath dir hash name) = rootPath dir hash name := by
    intro name hmem
    have hpath : rootPath dir hash name = (dir ++ [47]) ++ (hash name ++ 45 :: name) := by
      simp [rootPath]
    have hlen : dir.length + 1 = (dir ++ [47]).length := by simp
    rw [cutRoot, hpath, hlen, take_left, drop_left, takeWhile_eq_self_iff.mpr]
    intro b hb
    have hne : b ≠ 47 := fun heq => hslash name hmem (heq ▸ hb)
    simpa using hne
  have hsplit : split (Text.lines 32 (names.map (rootPath dir hash))) 32 =
      names.map (rootPath dir hash) := by
    refine Text.pieces_lines fun root hroot => ?_
    obtain ⟨name, hmem, rfl⟩ := mem_map.mp hroot
    have hname := (hnames name hmem).notMem (b := 32) rfl
    have hhash := notMem_of_isStoreHash (hhash name hmem) (b := 32) (by decide)
    simp [rootPath, hdir.noBlank, hname, hhash]
  have hroots : rootsOf dir (envWith (names.map (rootPath dir hash))) =
      names.map (rootPath dir hash) ++ [[]] := by
    have hnil : cutRoot dir [] = [] := by simp [cutRoot]
    show (split (Text.lines 32 (names.map (rootPath dir hash))) 32 ++ [[]]).map (cutRoot dir) = _
    rw [hsplit, map_append, map_map, map_singleton, hnil]
    congr 1
    exact map_congr_left hcut
  refine ⟨rfl, fun root => ?_, hhash⟩
  rw [hroots, mem_append, mem_map, mem_singleton]
  constructor
  · rintro ⟨⟨name, hmem, rfl⟩ | rfl, hmasked⟩
    · exact ⟨name, hmem, rfl⟩
    · exact absurd rfl hmasked
  · rintro ⟨name, hmem, rfl⟩
    refine ⟨.inl ⟨name, hmem, rfl⟩, ?_⟩
    rw [maskHashes_rootPath dir (hnames name hmem) (hhash name hmem)]
    exact (rootPath_ne_maskedRoot (hhash name hmem)).symm

/-! ## Texts that come back -/

section

variable (dir : Bytes) (names : List Bytes)

/-- A hole is the hash of a reference to one of the roots: no character that could belong to a store
name follows. -/
def IsReference (before : Bytes) (p : Piece UInt8 Bytes) (after : Bytes) : Prop :=
  match p with
  | .letter _ => True
  | .hole name => name ∈ names ∧ dir ++ [47] <:+ before ∧ StartsWith endsName name after

/-- What follows the name of a reference is the end, `/` or in `kPathEnds`. -/
def IsDelimited (p : Piece UInt8 Bytes) (after : Bytes) : Prop :=
  match p with
  | .letter _ => True
  | .hole name => endsRoot (after.drop (name.length + 1)) = true

/-- A `*` of the text itself does not stand in the masked path of a root. -/
def IsLiteral (before : Bytes) (p : Piece UInt8 Bytes) (after : Bytes) : Prop :=
  match p with
  | .letter b => ¬(b = 42 ∧ dir ++ [47] <:+ before ∧ ∃ name ∈ names, StartsWith endsRoot name after)
  | .hole _ => True

instance (before : Bytes) (p : Piece UInt8 Bytes) (after : Bytes) :
    Decidable (IsReference dir names before p after) :=
  match p with
  | .letter _ => inferInstanceAs (Decidable True)
  | .hole _ => inferInstanceAs (Decidable (_ ∧ _ ∧ _))

instance (p : Piece UInt8 Bytes) (after : Bytes) : Decidable (IsDelimited p after) :=
  match p with
  | .letter _ => inferInstanceAs (Decidable True)
  | .hole _ => inferInstanceAs (Decidable (_ = _))

instance (before : Bytes) (p : Piece UInt8 Bytes) (after : Bytes) :
    Decidable (IsLiteral dir names before p after) :=
  match p with
  | .letter _ => inferInstanceAs (Decidable (¬_))
  | .hole _ => inferInstanceAs (Decidable True)

/-- A text with references to the roots, the hashes left open. -/
def Refers (text : List (Piece UInt8 Bytes)) : Prop :=
  Everywhere 42 (IsReference dir names) [] text

instance (text : List (Piece UInt8 Bytes)) : Decidable (Refers dir names text) :=
  inferInstanceAs (Decidable (Everywhere 42 (IsReference dir names) [] text))

end

section

variable {dir : Bytes} {names : List Bytes} (hnames : ∀ name ∈ names, IsName name)
include hnames

variable {before after : Bytes}

theorem rootAt_eq_none_iff :
    rootAt dir names before after = none ↔
      ¬(dir ++ [47] <:+ before ∧ ∃ name ∈ names, StartsWith endsRoot name after) := by
  rw [Option.eq_none_iff_forall_ne_some]
  constructor
  · rintro h ⟨hbefore, name, hmem, hstarts⟩
    exact h name ((rootAt_eq_some_iff hnames).mpr ⟨hbefore, hmem, hstarts⟩)
  · intro h name hroot
    obtain ⟨hbefore, hmem, hstarts⟩ := (rootAt_eq_some_iff hnames).mp hroot
    exact h ⟨hbefore, name, hmem, hstarts⟩

/-- At a reference no other root can be found than its own. -/
theorem rootAt_reference {name' : Bytes} (href : IsReference dir names before (.hole name) after)
    (h : rootAt dir names before after = some name') : name' = name := by
  obtain ⟨-, hmem', hstarts'⟩ := (rootAt_eq_some_iff hnames).mp h
  exact (hstarts'.imp endsName_of_endsRoot).unique href.2.2 (hnames name' hmem')
    (hnames name href.1)

theorem readAt_letter_iff :
    readAt 42 (rootAt dir names) before after b = .letter b ↔
      IsLiteral dir names before (.letter b) after := by
  by_cases hb : b = 42
  · subst hb
    rw [readAt_mark, IsLiteral, eq_self, true_and, ← rootAt_eq_none_iff hnames]
    cases rootAt dir names before after <;> simp
  · rw [readAt_of_ne _ _ _ _ hb]
    exact iff_of_true rfl fun h => hb h.1

theorem readAt_hole_iff (href : IsReference dir names before (.hole name) after) :
    readAt 42 (rootAt dir names) before after 42 = .hole name ↔ IsDelimited (.hole name) after := by
  rw [readAt_mark]
  constructor
  · intro h
    cases hroot : rootAt dir names before after with
    | none => simp [hroot] at h
    | some name' =>
      rw [rootAt_reference hnames href hroot] at hroot
      exact ((rootAt_eq_some_iff hnames).mp hroot).2.2.2
  · intro h
    rw [(rootAt_eq_some_iff hnames).mpr ⟨href.2.1, href.1, href.2.2.1, h⟩]
    rfl

/-- At each place of a text with references, the reading is right if it is right about where the
holes are. -/
theorem readAt_eq_of_shape {p : Piece UInt8 Bytes} (href : IsReference dir names before p after)
    (h : shape (readAt 42 (rootAt dir names) before after (sign 42 p)) = shape p) :
    readAt 42 (rootAt dir names) before after (sign 42 p) = p := by
  cases p with
  | letter b =>
    cases hread : readAt 42 (rootAt dir names) before after b with
    | letter c => simpa [sign, hread, shape] using h
    | hole name => simp [sign, hread, shape] at h
  | hole name =>
    show readAt 42 (rootAt dir names) before after 42 = _
    rw [sign, readAt_mark] at h
    rw [readAt_mark]
    cases hroot : rootAt dir names before after with
    | none => simp [hroot, shape] at h
    | some name' =>
      rw [rootAt_reference hnames href hroot]
      rfl

theorem readAt_eq_iff {p : Piece UInt8 Bytes} (href : IsReference dir names before p after) :
    readAt 42 (rootAt dir names) before after (sign 42 p) = p ↔
      IsDelimited p after ∧ IsLiteral dir names before p after := by
  cases p with
  | letter b => exact (readAt_letter_iff hnames).trans (iff_of_eq (true_and _).symm)
  | hole name => exact (readAt_hole_iff hnames href).trans (iff_of_eq (and_true _).symm)

end

/-! ## What masking finds -/

section

variable {dir front : Bytes}

/-- The scan goes to the first store directory. -/
theorem maskFrom_front (h : ¬dir ++ [47] <:+: front ++ dir) (n : Nat) (rest : Bytes) :
    maskFrom dir (front.length + n) (front ++ (dir ++ [47] ++ rest)) =
      front ++ maskFrom dir n (dir ++ [47] ++ rest) := by
  induction front with
  | nil => rw [length_nil, Nat.zero_add, nil_append, nil_append]
  | cons c front ih =>
    rw [cons_append, infix_cons_iff, not_or] at h
    have hno : ¬dir ++ [47] <+: c :: (front ++ (dir ++ [47] ++ rest)) := fun hpre =>
      h.1 (prefix_of_prefix_length_le hpre ⟨47 :: rest, by simp⟩ (by simp))
    rw [length_cons, Nat.add_right_comm, cons_append, maskFrom,
      if_neg (by rwa [ isPrefixOf_iff_prefix]), ih h.2, cons_append]

/-- A text whose store directories are those of its references: what stands before the first, and
behind the hash and the dash of each. -/
def referring (dir front : Bytes) : List (Bytes × Bytes) → List (Piece UInt8 Bytes)
  | [] => front.map .letter
  | (name, tail) :: refs =>
    (front ++ (dir ++ [47])).map .letter ++ .hole name :: referring dir (45 :: tail) refs

/-- Masking finds the references of a text in which no other store directory stands, inside or
across them. -/
theorem maskHashes_referring {hash : Bytes → Bytes} (front : Bytes) (refs : List (Bytes × Bytes))
    (hhash : ∀ r ∈ refs, isStoreHash (hash r.1) = true) (hfront : ¬dir ++ [47] <:+: front ++ dir)
    (htails : ∀ r ∈ refs, ¬dir ++ [47] <:+: 45 :: r.2 ++ dir) :
    maskHashes dir (spelled hash (referring dir front refs)) =
      masked 42 (referring dir front refs) := by
  rw [maskHashes]
  generalize hn : (spelled hash (referring dir front refs)).length = n
  replace hn := hn.le
  induction refs generalizing front n with
  | nil =>
    rw [referring, spelled_map_letter, maskFrom_of_noStorePath]
    · simp [masked, sign, Function.comp_def]
    · rintro before h tail - rfl
      exact hfront ⟨before, h ++ 45 :: tail ++ dir, by simp⟩
  | cons r refs ih =>
    obtain ⟨s, hs⟩ : ∃ s, spelled hash (referring dir (45 :: r.2) refs) = 45 :: s := by
      cases refs <;> exact ⟨_, rfl⟩
    have hr := hhash r mem_cons_self
    rw [referring, spelled_append, spelled_map_letter, spelled_hole, hs, append_assoc] at hn ⊢
    obtain ⟨m, rfl⟩ : ∃ m, n = front.length + (m + 1) :=
      ⟨n - front.length - 1, by simp at hn; omega⟩
    have hrest := ih (45 :: r.2) (fun q hq => hhash q (mem_cons_of_mem r hq))
      (htails r mem_cons_self) (fun q hq => htails q (mem_cons_of_mem r hq)) m
      (by rw [hs]; simp at hn ⊢; omega)
    rw [maskFrom_front hfront, maskFrom_storePath hr, ← hs, hrest]
    simp [masked, sign, Function.comp_def]

end

/-! ## A search path and an XML file -/

def nixStore : Bytes := ascii "/nix/store"

theorem plainDir_nixStore : PlainDir nixStore := ⟨rfl, by decide, by decide, by decide⟩

def reference (name : Bytes) : List (Piece UInt8 Bytes) :=
  (nixStore ++ [47]).map .letter ++ .hole name :: (45 :: name).map .letter

def zlibNames : List Bytes := [ascii "zlib", ascii "zlib-ng"]

theorem isName_zlibNames : ∀ name ∈ zlibNames, IsName name := by decide

def zlibHash (name : Bytes) : Bytes :=
  replicate kStoreHashLength (if name = ascii "zlib" then 97 else 98)

def searchPath : List (Piece UInt8 Bytes) :=
  reference (ascii "zlib-ng") ++ (ascii "/lib:").map .letter ++ reference (ascii "zlib")

def otherHash (name : Bytes) : Bytes :=
  replicate kStoreHashLength (if name = ascii "zlib" then 48 else 49)

def otherBuild : Store := new nixStore (envWith (zlibNames.map (rootPath nixStore otherHash)))

def xmlPath : List (Piece UInt8 Bytes) :=
  (ascii "<path>").map .letter ++ reference (ascii "zlib") ++ (ascii "</path>").map .letter

end Corepkgs.Jig
