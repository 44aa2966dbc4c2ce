import Corepkgs.Jig.Spelling
/-!
# Manifests

`manifest.cc`: the text in which one build writes down what a compile read and
what it looked for in vain, and the check another build makes before it takes
the result.  Recorded paths are spelled by `Key` and read back by `Resolve`.
-/

namespace Corepkgs.Jig

open Lib List Option Store Text

/-- One jig process: its environment, the files it sees, and the daemon it asks. -/
structure Build (dir : Bytes) where
  env : StoreEnv
  files : Files
  /-- `CacheClient::Identities`, nothing on an error. -/
  identities : List Bytes → List Bytes
  /-- The daemon answers with lines, and with nothing but `C:` and hexadecimal digits. -/
  plain : ∀ ask id, id ∈ identities ask → 9 ∉ id ∧ 10 ∉ id
  known : Table Bytes Bytes
  /-- Only the daemon's answers are remembered. -/
  remembered : ∀ {path id}, known.lookup path = some id →
    (new dir env).daemonMayIdentify path = true ∧ 9 ∉ id ∧ 10 ∉ id

namespace Build

variable {dir : Bytes}

variable (b : Build dir)

def store : Store := { new dir b.env with known := b.known }

/-- `RememberIdentity` for every answer that is not empty. -/
def remember (known : Table Bytes Bytes) (answers : List (Bytes × Bytes)) : Table Bytes Bytes :=
  answers.foldl (fun known e => if e.2 = [] then known else known.insert e.1 e.2) known

theorem mem_of_remember {known : Table Bytes Bytes} {answers : List (Bytes × Bytes)}
    {path id : Bytes} (h : (remember known answers).lookup path = some id) :
    known.lookup path = some id ∨ (path, id) ∈ answers ∧ id ≠ [] := by
  induction answers generalizing known with
  | nil => exact .inl h
  | cons e answers ih =>
    rw [remember, foldl_cons] at h
    rcases ih h with hold | hnew
    · split at hold
      · exact .inl hold
      · rename_i hne
        rw [Table.lookup_insert] at hold
        split at hold
        · rename_i hpath
          cases hold
          rw [hpath]
          exact .inr ⟨mem_cons_self .., hne⟩
        · exact .inl hold
    · exact .inr ⟨mem_cons_of_mem _ hnew.1, hnew.2⟩

/-- `PrefetchIdentities`: one round trip for the store files among `paths`. -/
def prefetch (paths : List Bytes) : Build dir :=
  let ask := paths.filter b.store.daemonMayIdentify
  { b with
    known := remember b.known (ask.zip (b.identities ask))
    remembered := by
      intro path id h
      rcases mem_of_remember h with hold | hnew
      · exact b.remembered hold
      · obtain ⟨hask, hid⟩ := of_mem_zip hnew.1
        exact ⟨(mem_filter.mp hask).2, b.plain _ _ hid⟩ }

section

variable (blake3 : Bytes → Bytes)

def inputId (path : Bytes) : Option Bytes := b.store.inputId blake3 b.files path

/-! ## Writing -/

def inputLine (path id : Bytes) : Bytes := b.store.key path ++ 9 :: id

def absentLine (path : Bytes) : Bytes := 33 :: b.store.key path

def inputLines (inputs : List Bytes) (primary : Bytes) : List Bytes :=
  inputs.filterMap fun path =>
    if path = primary then none else (b.inputId blake3 path).map (b.inputLine path)

def Missing (path : Bytes) : Prop :=
  path ≠ [] ∧ isStorePath dir path = false ∧ b.files.existing path = false

instance (b : Build dir) (path : Bytes) : Decidable (b.Missing path) :=
  inferInstanceAs (Decidable (_ ∧ _ ∧ _))

def absentLines (b : Build dir) : List Bytes → List Bytes → List Bytes
  | _, [] => []
  | seen, path :: absent =>
    if b.Missing path then
      if b.absentLine path ∈ seen then absentLines b seen absent
      else b.absentLine path :: absentLines b (b.absentLine path :: seen) absent
    else absentLines b seen absent

structure Manifest where
  text : Bytes
  resultKey : Bytes

def manifestLines (inputs : List Bytes) (primary : Bytes) (absent : List Bytes) :
    List Bytes :=
  (b.prefetch inputs).inputLines blake3 inputs primary ++ (b.prefetch inputs).absentLines [] absent

def buildManifest (requestKey : Bytes) (inputs : List Bytes) (primary : Bytes)
    (absent : List Bytes) : Manifest :=
  let ls := b.manifestLines blake3 inputs primary absent
  { text := lines 10 ls, resultKey := digest blake3 (fed (requestKey :: ls)) }

/-! ## Checking -/

structure Entry where
  /-- In this build's store roots, empty when the build lacks the root. -/
  path : Bytes
  line : Bytes
  /-- Where the identity starts; `none` for a `!` line. -/
  tab : Option Nat

def parseLine (line : Bytes) : Option Entry :=
  if line.head? = some 33 then
    some { path := (b.store.resolve line.tail).getD [], line := line, tab := none }
  else
    (line.idxOf? 9).map fun tab =>
      { path := (b.store.resolve (line.take tab)).getD [], line := line, tab := some tab }

def parseManifest (text : Bytes) : List Entry :=
  (split text 10).filterMap b.parseLine

def complaint (e : Entry) : Option Bytes :=
  match e.tab with
  | none => if b.files.existing e.path then some (ascii "appeared:" ++ e.line.tail) else none
  | some tab =>
    if b.inputId blake3 e.path = some (e.line.drop (tab + 1)) then none
    else some (ascii "inputs-changed:" ++ e.line.take tab)

/-- The loop of `ValidateManifest`: the fields it has hashed, or the first complaint. -/
def checkEntries (b : Build dir) : List Entry → Except Bytes (List Bytes)
  | [] => .ok []
  | e :: entries =>
    match b.complaint blake3 e with
    | some why => .error why
    | none => (b.checkEntries entries).map (e.line :: ·)

def askedPaths (text : Bytes) : List Bytes :=
  ((b.parseManifest text).filter fun e => e.tab.isSome).map Entry.path

def validateManifest (requestKey text : Bytes) : Except Bytes Bytes :=
  ((b.prefetch (b.askedPaths text)).checkEntries blake3 (b.parseManifest text)).map
    fun ls => digest blake3 (fed (requestKey :: ls))

/-! ## What an accepted manifest says -/

variable {blake3}

variable {b : Build dir} {absent : List Bytes}

theorem checkEntries_ok {entries : List Entry} {ls : List Bytes}
    (h : b.checkEntries blake3 entries = .ok ls) :
    (∀ e ∈ entries, b.complaint blake3 e = none) ∧ ls = entries.map Entry.line := by
  induction entries generalizing ls with
  | nil =>
    cases h
    exact ⟨fun _ he => absurd he not_mem_nil, rfl⟩
  | cons e entries ih =>
    rw [checkEntries] at h
    cases hwhy : b.complaint blake3 e with
    | some why => rw [hwhy] at h; cases h
    | none =>
      rw [hwhy] at h
      cases hrest : b.checkEntries blake3 entries with
      | error why => rw [hrest] at h; cases h
      | ok ls' =>
        rw [hrest] at h
        cases h
        obtain ⟨hall, rfl⟩ := ih hrest
        refine ⟨?_, rfl⟩
        intro e' he'
        rcases mem_cons.mp he' with rfl | he'
        · exact hwhy
        · exact hall e' he'

/-- What a recorded spelling stands for in a build: the same name outside the store, the build's
first root of that package name inside it. -/
def Stands (b : Build dir) (spelling name : Bytes) : Prop :=
  (¬ (dir ++ ascii "/*-") <+: spelling ∧ name = spelling) ∨
    ∃ package rest root, spelling = dir ++ ascii "/*-" ++ package ++ rest ∧ 47 ∉ package ∧
      (rest = [] ∨ rest.head? = some 47) ∧
      rootFor dir b.env (dir ++ ascii "/*-" ++ package) = some root ∧ name = root ++ rest

theorem store_dir (b : Build dir) : b.store.dir = dir := by
  unfold store new
  dsimp only
  split <;> rfl

theorem store_byContent (b : Build dir) : b.store.byContent = b.env.byContent := by
  unfold store new
  dsimp only
  split <;> simp_all

/-- A path that is written down as it is. -/
structure SameName (dir : Bytes) (env : StoreEnv) (path : Bytes) : Prop where
  tidy : Tidy path
  unmarked : ¬dir ++ ascii "/*-" <+: path
  noStorePath : env.byContent = true → NoStorePath dir path

/-- A path of the store that is written down without its hash, and otherwise as it is. -/
structure InStore (dir : Bytes) (env : StoreEnv) (path hash package rest : Bytes) : Prop where
  byContent : env.byContent = true
  tidy : Tidy path
  path_eq : path = dir ++ [47] ++ (hash ++ 45 :: (package ++ rest))
  isHash : isStoreHash hash = true
  slash : 47 ∉ package
  cut : rest = [] ∨ rest.head? = some 47
  noStorePath : NoStorePath dir (45 :: (package ++ rest))

theorem key_of_sameName {path : Bytes} (h : SameName dir b.env path) : b.store.key path = path := by
  rw [key_of_tidy _ h.tidy, store_byContent, store_dir]
  split_ifs with hmode
  · exact maskHashes_of_noStorePath (h.noStorePath hmode)
  · rfl

theorem key_of_inStore {path hash package rest : Bytes}
    (h : InStore dir b.env path hash package rest) :
    b.store.key path = dir ++ ascii "/*-" ++ package ++ rest := by
  rw [key_of_tidy _ h.tidy, store_byContent, if_pos h.byContent, store_dir, h.path_eq,
    maskHashes_storePath h.isHash h.noStorePath]
  simp [ascii]

theorem resolve_eq (b : Build dir) (path : Bytes) :
    b.store.resolve path =
      if (dir ++ ascii "/*-").isPrefixOf path then
        (rootFor dir b.env (dir ++ ascii "/*-" ++
            (path.drop (dir ++ ascii "/*-").length).takeWhile (· ≠ 47))).map
          fun root => root ++ (path.drop (dir ++ ascii "/*-").length).dropWhile (· ≠ 47)
      else some path := by
  have hdir := b.store_dir
  have hreal : b.store.maskedToReal = (new dir b.env).maskedToReal := rfl
  unfold resolve
  rw [hreal]
  generalize b.store.dir = d at hdir
  subst hdir
  simp only [lookup_maskedToReal]

theorem resolve_masked {package rest : Bytes} (hpackage : 47 ∉ package)
    (hrest : rest = [] ∨ rest.head? = some 47) :
    b.store.resolve (dir ++ ascii "/*-" ++ package ++ rest) =
      (rootFor dir b.env (dir ++ ascii "/*-" ++ package)).map (· ++ rest) := by
  have hall : ∀ c ∈ package, decide (c ≠ 47) = true :=
    fun c hc => decide_eq_true fun heq => hpackage (heq ▸ hc)
  have htake : rest.takeWhile (fun c : UInt8 => decide (c ≠ 47)) = [] ∧
      rest.dropWhile (fun c : UInt8 => decide (c ≠ 47)) = rest := by
    rcases hrest with rfl | hrest
    · exact ⟨rfl, rfl⟩
    · cases rest with
      | nil => cases hrest
      | cons c rest =>
        cases hrest
        simp
  rw [resolve_eq, if_pos (List.isPrefixOf_iff_prefix.mpr ⟨package ++ rest, (append_assoc ..).symm⟩),
    append_assoc _ package, drop_left, takeWhile_append_of_pos hall,
    dropWhile_append_of_pos hall, htake.1, htake.2, append_nil]

theorem resolve_of_unmarked {path : Bytes} (h : ¬dir ++ ascii "/*-" <+: path) :
    b.store.resolve path = some path := by
  rw [resolve_eq, if_neg fun hmark => h (List.isPrefixOf_iff_prefix.mp hmark)]

theorem resolve_eq_some_iff {spelling name : Bytes} :
    b.store.resolve spelling = some name ↔ b.Stands spelling name := by
  constructor
  · intro h
    rw [resolve_eq] at h
    split at h
    · rename_i hmark
      obtain ⟨tail, rfl⟩ := isPrefixOf_iff_prefix.mp hmark
      rw [drop_left] at h
      obtain ⟨root, hroot, rfl⟩ := map_eq_some_iff.mp h
      refine .inr ⟨tail.takeWhile (· ≠ 47), tail.dropWhile (· ≠ 47), root, ?_, ?_, ?_, hroot, rfl⟩
      · rw [append_assoc _ _ (tail.dropWhile _), takeWhile_append_dropWhile]
      · intro hmem
        have hnot := mem_takeWhile_imp hmem
        simp at hnot
      · have hhead := head?_dropWhile_not (fun x : UInt8 => decide (x ≠ 47)) tail
        cases hrest : tail.dropWhile fun x : UInt8 => decide (x ≠ 47) with
        | nil => exact .inl rfl
        | cons c rest =>
          rw [hrest] at hhead
          right
          simpa using hhead
    · rename_i hmark
      cases h
      exact .inl ⟨fun hprefix => hmark (List.isPrefixOf_iff_prefix.mpr hprefix), rfl⟩
  · rintro (⟨hmark, rfl⟩ | ⟨package, rest, root, rfl, hpackage, hrest, hroot, rfl⟩)
    · exact resolve_of_unmarked hmark
    · rw [resolve_masked hpackage hrest, hroot, map_some]

theorem known_nil (b : Build dir) : b.store.known.lookup [] = none := by
  rw [eq_none_iff_forall_not_mem]
  intro id hid
  obtain ⟨hmay, -⟩ := b.remembered hid
  have hdir := b.store_dir
  unfold store at hdir
  simp [daemonMayIdentify, isStorePath, isPrefixOf_iff_prefix] at hmay

theorem inputId_nil (b : Build dir) : b.inputId blake3 [] = none := by
  have hstore : isStorePath b.store.dir [] = false := by
    cases hd : b.store.dir <;> rfl
  rw [inputId, Store.inputId, hstore, if_neg (by simp), b.known_nil, b.files.read_nil]
  rfl

/-- An identity has no tab, unless it is a path with one. -/
theorem tab_notMem_of_inputId {path id : Bytes} (h : b.inputId blake3 path = some id)
    (hpath : b.store.byContent = false → 9 ∉ path) :
    9 ∉ id := by
  unfold inputId Store.inputId at h
  split at h
  · rename_i hmode
    cases h
    rw [mem_append]
    rintro (htab | htab)
    · revert htab
      decide
    · exact hpath hmode.2 htab
  · split at h
    · rename_i hknown
      cases h
      exact (b.remembered hknown).2.1
    · obtain ⟨content, -, rfl⟩ := map_eq_some_iff.mp h
      rw [mem_append]
      rintro (htab | htab)
      · revert htab
        decide
      · have hlt := lt_of_mem_hexEncode htab
        revert hlt
        decide

/-- Without content identities nothing is masked, and nothing is resolved to another path. -/
theorem resolve_by_path (hmode : b.store.byContent = false) {path name : Bytes}
    (h : b.store.resolve path = some name) : name = path := by
  rw [store_byContent] at hmode
  rw [resolve_eq, rootFor, hmode] at h
  split at h
  · cases h
  · cases h
    rfl

/-- An input line that was taken for one: its path is read as recorded, and has the recorded
identity. -/
theorem of_accepted_input {spelling id : Bytes} {e : Entry}
    (hbang : (spelling ++ 9 :: id).head? ≠ some 33)
    (hparse : b.parseLine (spelling ++ 9 :: id) = some e) {b' : Build dir}
    (hstore : b'.store.byContent = b.store.byContent) (hcheck : b'.complaint blake3 e = none) :
    9 ∉ spelling ∧
      ∃ name, b.store.resolve spelling = some name ∧ b'.inputId blake3 name = some id := by
  -- the line is cut at its first tab
  obtain ⟨front, back, hline, hfront⟩ :=
    eq_append_cons_of_mem (show 9 ∈ spelling ++ 9 :: id by simp)
  rw [parseLine, if_neg hbang, hline, idxOf?_append_cons hfront, map_some,
    some.injEq] at hparse
  subst hparse
  have hid : b'.inputId blake3 ((b.store.resolve front).getD []) = some back := by
    simp only [complaint] at hcheck
    split at hcheck
    · rename_i hid
      have hdrop : (front ++ 9 :: back).drop (front.length + 1) = back := by simp [drop_append]
      rwa [hdrop, take_left] at hid
    · cases hcheck
  obtain ⟨name, hname⟩ : ∃ name, b.store.resolve front = some name := by
    rw [← ne_none_iff_exists']
    intro hnone
    rw [hnone, getD_none, inputId_nil] at hid
    cases hid
  rw [hname, getD_some] at hid
  by_cases htab : 9 ∈ spelling
  · -- then the identity would have a tab
    obtain ⟨front', back', rfl, hfront'⟩ := eq_append_cons_of_mem htab
    rw [append_assoc, cons_append] at hline
    obtain ⟨rfl, rfl⟩ := cut_inj hfront' hfront hline
    refine absurd (by simp) (tab_notMem_of_inputId hid fun hmode => ?_)
    rw [resolve_by_path (hstore ▸ hmode) hname]
    exact hfront
  · obtain ⟨rfl, rfl⟩ := cut_inj htab hfront hline
    exact ⟨htab, name, hname, hid⟩

theorem mem_absentLines {seen : List Bytes} {path : Bytes} (hmem : path ∈ absent)
    (hmiss : b.Missing path) :
    b.absentLine path ∈ seen ∨ b.absentLine path ∈ b.absentLines seen absent := by
  induction absent generalizing seen with
  | nil => cases hmem
  | cons path' absent ih =>
    rw [absentLines]
    rcases mem_cons.mp hmem with rfl | hmem
    · rw [if_pos hmiss]
      split
      · rename_i hseen
        exact .inl hseen
      · exact .inr (mem_cons_self ..)
    · split
      · split
        · exact ih hmem
        · rcases ih hmem with hseen | hlater
          · rcases mem_cons.mp hseen with heq | hseen
            · rw [heq]
              exact .inr (mem_cons_self ..)
            · exact .inl hseen
          · exact .inr (mem_cons_of_mem _ hlater)
      · exact ih hmem

theorem head_of_mem_absentLines {seen : List Bytes} {l : Bytes} (h : l ∈ b.absentLines seen absent)
    : l.head? = some 33 := by
  induction absent generalizing seen with
  | nil => cases h
  | cons path absent ih =>
    rw [absentLines] at h
    split at h
    · split at h
      · exact ih h
      · rcases mem_cons.mp h with rfl | h
        · rfl
        · exact ih h
    · exact ih h

/-- Every line of a manifest is an entry, whoever reads it. -/
theorem parseLine_manifestLine {a : Build dir} {inputs : List Bytes} {primary l : Bytes}
    (h : l ∈ a.manifestLines blake3 inputs primary absent) :
    l ≠ [] ∧ ∃ e, b.parseLine l = some e ∧ e.line = l := by
  have hbang : l.head? = some 33 → l ≠ [] ∧ ∃ e, b.parseLine l = some e ∧ e.line = l := by
    intro hhead
    refine ⟨?_, _, if_pos hhead, rfl⟩
    rintro rfl
    cases hhead
  rcases mem_append.mp h with hinput | habsent
  · by_cases hhead : l.head? = some 33
    · exact hbang hhead
    · obtain ⟨path, -, hl⟩ := mem_filterMap.mp hinput
      split at hl
      · cases hl
      · obtain ⟨id, -, rfl⟩ := map_eq_some_iff.mp hl
        obtain ⟨front, back, hline, hfront⟩ := eq_append_cons_of_mem
          (show 9 ∈ (a.prefetch inputs).inputLine path id by simp [inputLine])
        have htab : ((a.prefetch inputs).inputLine path id).idxOf? 9 = some front.length := by
          rw [hline, idxOf?_append_cons hfront]
        rw [parseLine, if_neg hhead, htab]
        exact ⟨by simp [inputLine], _, rfl, rfl⟩
  · exact hbang (head_of_mem_absentLines habsent)

/-- A manifest without a newline in a line is read back line by line. -/
theorem lines_parseManifest {a : Build dir} {inputs : List Bytes} {primary : Bytes}
    (h : ∀ l ∈ a.manifestLines blake3 inputs primary absent, 10 ∉ l) :
    split (lines 10 (a.manifestLines blake3 inputs primary absent)) 10 =
        a.manifestLines blake3 inputs primary absent ∧
      (b.parseManifest (lines 10 (a.manifestLines blake3 inputs primary absent))).map
        Entry.line = a.manifestLines blake3 inputs primary absent := by
  have hsplit : split (lines 10 (a.manifestLines blake3 inputs primary absent)) 10 =
      a.manifestLines blake3 inputs primary absent :=
    pieces_lines fun l hl => ⟨(parseLine_manifestLine (b := b) hl).1, h l hl⟩
  refine ⟨hsplit, ?_⟩
  rw [parseManifest, hsplit, map_filterMap]
  refine (filterMap_congr fun l hl => ?_).trans filterMap_some
  obtain ⟨-, e, hparse, hline⟩ := parseLine_manifestLine (b := b) hl
  rw [hparse, map_some, hline]

end

/-! ## Two small builds -/

def single (env : StoreEnv) (path content : Bytes) (hpath : path ≠ []) : Build dir where
  env := env
  files :=
    { read := fun p => if p = path then some content else none
      existing := fun p => p == path
      read_nil := if_neg (Ne.symm hpath)
      existing_nil := beq_eq_false_iff_ne.mpr (Ne.symm hpath) }
  identities := fun _ => []
  plain := fun _ _ h => absurd h not_mem_nil
  known := ∅
  remembered := fun h => by cases h

def zlibRoot (c : UInt8) : Bytes := ascii "/nix/store/" ++ replicate 32 c ++ ascii "-zlib"

def zlibBuild (c : UInt8) : Build (ascii "/nix/store") :=
  single ⟨some (ascii "content"), none, some (zlibRoot c)⟩ (zlibRoot c ++ ascii "/z.h") [120]
    (by simp [zlibRoot, ascii])

theorem noStorePath_of_short {dir text : Bytes} (h : text.length ≤ dir.length + 32) :
    NoStorePath dir text := by
  intro front hash tail hhash heq
  have hlen := congrArg length heq
  simp only [length_append, length_cons, length_nil, length_of_isStoreHash hhash,
    kStoreHashLength] at hlen
  omega

theorem inStore_zlib : InStore (ascii "/nix/store") (zlibBuild 48).env (zlibRoot 48 ++ ascii "/z.h")
    (replicate 32 48) (ascii "zlib") (ascii "/z.h") where
  byContent := rfl
  tidy := ⟨⟨.of (zlibRoot 48 ++ ascii "/z.h"), by decide, by decide⟩, by decide, by decide⟩
  path_eq := rfl
  isHash := by decide
  slash := by decide
  cut := .inr rfl
  noStorePath := noStorePath_of_short (by decide)

theorem sameName_early : SameName (ascii "/nix/store") (zlibBuild 48).env (ascii "early/z.h") where
  tidy := ⟨⟨.of (ascii "early/z.h"), by decide, by decide⟩, by decide, by decide⟩
  unmarked := by decide
  noStorePath _ := noStorePath_of_short (by decide)

def zlibManifest : Manifest :=
  (zlibBuild 48).buildManifest id [] [ascii "s.c", zlibRoot 48 ++ ascii "/z.h"] (ascii "s.c")
    [ascii "early/z.h"]

def oneFile (name : Bytes) (hname : name ≠ []) : Build (ascii "/nix/store") :=
  single ⟨none, none, none⟩ name [49] hname

def zeroSum : Bytes → Bytes := fun _ => replicate 16 0

end Build

end Corepkgs.Jig
