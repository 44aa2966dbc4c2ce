import Corepkgs.Jig.Manifest
/-!
# A build that nothing has changed for

The manifest of a compile is checked again with the files, the roots and the output
path it was written with.  Paths are written down in the spelling of `Key` and read
back by `Resolve`, which undoes the spelling of a path that is written down as it
is, and of a store path whose root is the first of its name.
-/

namespace Corepkgs.Jig.Build

open Lib List Store

variable {dir : Bytes}

section

variable (blake3 : Bytes → Bytes)

def fileId (b : Build dir) (path : Bytes) : Option Bytes :=
  (new dir b.env).inputId blake3 b.files path

/-- What is remembered and what the daemon answers are the identities of the files. -/
structure Honest (b : Build dir) : Prop where
  known : ∀ {path id : Bytes}, b.known.lookup path = some id → b.fileId blake3 path = some id
  answers : ∀ {ask : List Bytes} {path id : Bytes}, (path, id) ∈ ask.zip (b.identities ask) →
    id ≠ [] → b.fileId blake3 path = some id

/-- A path that is written down so that it is found again. -/
structure ReadsBack (dir : Bytes) (env : StoreEnv) (path : Bytes) : Prop where
  tab : 9 ∉ path
  newline : 10 ∉ path
  bang : path.head? ≠ some 33
  found : SameName dir env path ∨ ∃ hash package rest, InStore dir env path hash package rest ∧
    rootFor dir env (dir ++ ascii "/*-" ++ package) = some (dir ++ [47] ++ (hash ++ 45 :: package))

def Passes (b : Build dir) (paths : List Bytes) (line : Bytes) : Prop :=
  ∃ e, b.parseLine line = some e ∧ (b.prefetch paths).complaint blake3 e = none

end

variable {blake3 : Bytes → Bytes}

variable {b : Build dir} {path : Bytes}

theorem known_new (env : StoreEnv) (path : Bytes) : (new dir env).known.lookup path = none := by
  unfold new
  dsimp only
  split <;> rfl

theorem Honest.prefetch (h : b.Honest blake3) (paths : List Bytes) :
    (b.prefetch paths).Honest blake3 where
  known hlook := by
    rcases mem_of_remember hlook with hold | ⟨hnew, hne⟩
    · exact h.known hold
    · exact h.answers hnew hne
  answers := h.answers

theorem Honest.inputId (h : b.Honest blake3) (path : Bytes) :
    b.inputId blake3 path = b.fileId blake3 path := by
  cases hknown : b.known.lookup path with
  | none =>
    have hstore : b.store.known.lookup path = none := hknown
    unfold fileId Build.inputId Store.inputId
    rw [known_new, hstore]
    rfl
  | some id =>
    have hstore : b.store.known.lookup path = some id := hknown
    have hfile := h.known hknown
    by_cases hpath : isStorePath b.store.dir path = true ∧ b.store.byContent = false
    · have hboth : isStorePath (new dir b.env).dir path = true ∧
          (new dir b.env).byContent = false := hpath
      rw [Build.inputId, Store.inputId, if_pos hpath, fileId, Store.inputId, if_pos hboth]
    · rw [hfile, Build.inputId, Store.inputId, if_neg hpath, hstore]

/-! ## One line -/

theorem newline_notMem_of_fileId {id : Bytes} (h : b.fileId blake3 path = some id)
    (hpath : 10 ∉ path) : 10 ∉ id := by
  unfold fileId Store.inputId at h
  rw [known_new] at h
  split_ifs at h
  · cases h
    simpa [ascii] using hpath
  all_goals
    obtain ⟨content, -, rfl⟩ := Option.map_eq_some_iff.mp h
    rw [mem_append]
    rintro (hmem | hmem)
    · revert hmem
      decide
    · exact absurd (lt_of_mem_hexEncode hmem) (by decide)

/-- `Resolve` undoes `Key`. -/
theorem ReadsBack.resolve_key (h : ReadsBack dir b.env path) :
    b.store.resolve (b.store.key path) = some path ∧ 9 ∉ b.store.key path ∧
      10 ∉ b.store.key path ∧ (b.store.key path).head? ≠ some 33 := by
  rcases h.found with hsame | ⟨hash, package, rest, hstore, hroot⟩
  · rw [key_of_sameName hsame]
    exact ⟨resolve_of_unmarked hsame.unmarked, h.tab, h.newline, h.bang⟩
  · have htab := h.tab
    have hnewline := h.newline
    have hbang := h.bang
    rw [hstore.path_eq] at htab hnewline hbang
    rw [key_of_inStore hstore, resolve_masked hstore.slash hstore.cut, hroot]
    refine ⟨by simp [hstore.path_eq], ?_, ?_, ?_⟩
    · simp_all [ascii]
    · simp_all [ascii]
    · cases dir with
      | nil => simp [ascii]
      | cons c dir => simpa using hbang

theorem passes_input (hhonest : b.Honest blake3) (paths : List Bytes) {id : Bytes}
    (h : ReadsBack dir b.env path) (hid : b.fileId blake3 path = some id) :
    b.Passes blake3 paths (b.store.key path ++ 9 :: id) := by
  obtain ⟨hresolve, htab, -, hbang⟩ := h.resolve_key
  have hhead : (b.store.key path ++ 9 :: id).head? ≠ some 33 := by
    cases hkey : b.store.key path with
    | nil => simp
    | cons c key => simpa [hkey] using hbang
  rw [Passes, parseLine, if_neg hhead, Text.idxOf?_append_cons htab]
  refine ⟨_, rfl, ?_⟩
  have hdrop : (b.store.key path ++ 9 :: id).drop ((b.store.key path).length + 1) = id := by
    simp [drop_append]
  simp only [complaint, take_left, hdrop, hresolve, Option.getD_some,
    (hhonest.prefetch paths).inputId, fileId] at hid ⊢
  exact if_pos hid

theorem passes_absent (paths : List Bytes) (h : SameName dir b.env path)
    (hmiss : b.files.existing path = false) : b.Passes blake3 paths (b.absentLine path) := by
  have hhead : (b.absentLine path).head? = some 33 := rfl
  rw [Passes, parseLine, if_pos hhead]
  refine ⟨_, rfl, ?_⟩
  simp only [complaint, absentLine, tail_cons, key_of_sameName h, resolve_of_unmarked h.unmarked,
    Option.getD_some]
  exact if_neg (ne_true_of_eq_false hmiss)

/-! ## All lines -/

theorem of_mem_absentLines {seen absent : List Bytes} {l : Bytes}
    (h : l ∈ b.absentLines seen absent) :
    ∃ path ∈ absent, b.Missing path ∧ l = b.absentLine path := by
  induction absent generalizing seen with
  | nil => cases h
  | cons path absent ih =>
    have htail : ∀ {seen}, l ∈ b.absentLines seen absent →
        ∃ p ∈ path :: absent, b.Missing p ∧ l = b.absentLine p := by
      intro seen hl
      obtain ⟨p, hp, hrest⟩ := ih hl
      exact ⟨p, mem_cons_of_mem _ hp, hrest⟩
    rw [absentLines] at h
    split_ifs at h with hmiss hseen
    · exact htail h
    · rcases mem_cons.mp h with rfl | h
      · exact ⟨path, mem_cons_self, hmiss, rfl⟩
      · exact htail h
    · exact htail h

theorem checkEntries_eq_ok {entries : List Entry} (h : ∀ e ∈ entries, b.complaint blake3 e = none) :
    b.checkEntries blake3 entries = .ok (entries.map Entry.line) := by
  induction entries with
  | nil => rfl
  | cons e entries ih =>
    rw [checkEntries, h e mem_cons_self, ih fun e' he' => h e' (mem_cons_of_mem _ he')]
    rfl

theorem validateManifest_of_passes {a : Build dir} {inputs absent : List Bytes} {primary : Bytes}
    (requestKey : Bytes) (h : ∀ l ∈ a.manifestLines blake3 inputs primary absent, 10 ∉ l ∧
      b.Passes blake3
        (b.askedPaths (a.buildManifest blake3 requestKey inputs primary absent).text) l) :
    b.validateManifest blake3 requestKey
        (a.buildManifest blake3 requestKey inputs primary absent).text =
      .ok (a.buildManifest blake3 requestKey inputs primary absent).resultKey := by
  obtain ⟨hsplit, hmap⟩ := lines_parseManifest (b := b) fun l hl => (h l hl).1
  rw [validateManifest, checkEntries_eq_ok, buildManifest, hmap]
  · rfl
  · intro e he
    obtain ⟨l, hl, hparse⟩ := mem_filterMap.mp he
    rw [buildManifest, hsplit] at hl
    obtain ⟨-, e', hparse', hfine⟩ := h l hl
    cases hparse.symm.trans hparse'
    exact hfine

/-- A build that remembers nothing and asks no daemon is honest. -/
theorem honest_single (blake3 : Bytes → Bytes) (env : StoreEnv) (path content : Bytes)
    (hpath : path ≠ []) : (single env path content hpath : Build dir).Honest blake3 where
  known h := nomatch h
  answers {ask _ _} hmem _ := by
    have hnil : ask.zip ((single env path content hpath : Build dir).identities ask) = [] :=
      zip_nil_right
    rw [hnil] at hmem
    nomatch hmem

def gccHeader : Bytes :=
  ascii "/nix/store/" ++ replicate 32 48 ++ ascii "-gcc/lib/../include/x.h"

end Corepkgs.Jig.Build
