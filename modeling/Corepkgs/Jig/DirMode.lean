import Corepkgs.Jig.Unmask
/-!
# Directory trees in the cache

`dir_mode.cc`: a tree is stored as one listing and a blob for every file, text
files with their store hashes masked, and restored from them.
-/

namespace Corepkgs.Jig.DirMode

open Lib List Option Table

inductive Node where
  /-- The contents and the permission bits. -/
  | file (data : Bytes) (mode : Nat)
  | link (target : Bytes)
  | dir
  deriving DecidableEq

/-- A directory tree as its iterator goes through it. -/
structure Tree where
  entries : List (Bytes × Node)
  nodup : (entries.map Prod.fst).Nodup
  perms : ∀ rel data mode, (rel, Node.file data mode) ∈ entries → mode < 512
  /-- No file system has a link to nothing. -/
  targets : ∀ rel target, (rel, Node.link target) ∈ entries → target ≠ []

section

variable (blake3 : Bytes → Bytes) (s : Store) (order : List (Bytes × Bytes))

def isText (data : Bytes) : Bool := !data.contains 0

def stored (data : Bytes) : Bytes := if isText data then maskHashes s.dir data else data

def restored (data : Bytes) : Bytes := if isText data then s.resolveAll order data else data

def blobKey (hash : Bytes) : Bytes := ascii "b/" ++ hash

def hashFor (data : Bytes) : Bytes := hashOf blake3 (stored s data)

/-! ## `PutDir` -/

def head : Node → Option Bytes
  | .file data mode => some (ascii "f " ++ numeral 8 mode ++ 32 :: hashFor blake3 s data)
  | .link target => some (ascii "l 0 " ++ target)
  | .dir => none

def lineOf (entry : Bytes × Node) : Option Bytes :=
  (head blake3 s entry.2).map fun head => head ++ 9 :: entry.1

def listing (tree : Tree) : Bytes := Text.lines 10 (tree.entries.filterMap (lineOf blake3 s))

/-- What `Upload` puts, in batches: the blobs the daemon lacks. -/
def upload (has : Bytes → Bool) (tree : Tree) : List (Bytes × Bytes) :=
  tree.entries.filterMap fun entry =>
    match entry.2 with
    | .file data _ =>
      let key := blobKey (hashFor blake3 s data)
      if has key then none else some (key, stored s data)
    | .link _ | .dir => none

def putDir (has : Bytes → Bool) (key : Bytes) (tree : Tree) : List (Bytes × Bytes) :=
  upload blake3 s has tree ++ [(key, listing blake3 s tree)]

/-! ## `GetDir` -/

structure Entry where
  kind : UInt8
  mode : Nat
  /-- The hash of a file, the target of a link. -/
  ref : Bytes
  rel : Bytes
  deriving DecidableEq

def kDefaultMode : Nat := 420

def parseLine (line : Bytes) : Option Entry :=
  match line.idxOf? 9 with
  | none => none
  | some tab =>
    match splitWhitespace (line.take tab) with
    | [kind, mode, ref] =>
      some ⟨kind.headD 0, (parseUint 8 mode).getD kDefaultMode % 2 ^ 32, ref, line.drop (tab + 1)⟩
    | _ => none

def parseListing (text : Bytes) : List Entry := (split text 10).filterMap parseLine

/-- What works of the file system below the destination, which is empty at first. -/
structure Disk where
  link : Bytes → Bool
  write : Bytes → Bool
  chmod : Bytes → Bool
  /-- The permission bits of a file that was just written. -/
  fresh : Bytes → Nat

abbrev Dest := Table Bytes Node

/-- `remove` and `create_symlink`, whose errors are ignored. -/
def placeLink (disk : Disk) (dest : Dest) (e : Entry) : Dest :=
  if disk.link e.rel then dest.insert e.rel (.link e.ref) else dest.erase e.rel

/-- One file of a batch: the destination and how many blobs are missing. -/
def placeFile (cache : Bytes → Option Bytes) (disk : Disk) (at' : Dest × Nat) (e : Entry) :
    Dest × Nat :=
  match cache (blobKey e.ref) with
  | none => (at'.1, at'.2 + 1)
  | some blob =>
    if disk.write e.rel then
      (at'.1.insert e.rel (.file (restored s order blob)
        (if disk.chmod e.rel then e.mode % 512 else disk.fresh e.rel)), at'.2)
    else (at'.1, at'.2 + 1)

def getDir (cache : Bytes → Option Bytes) (disk : Disk) (key : Bytes) : Nat × Dest :=
  match cache key with
  | none => (1, ∅)
  | some text =>
    let entries := parseListing text
    let linked := (entries.filter (·.kind == 108)).foldl (placeLink disk) ∅
    let (dest, missing) :=
      (entries.filter (·.kind == 102)).foldl (placeFile s order cache disk) (linked, 0)
    if missing = 0 then (0, dest)
    else (1, entries.foldl (fun dest e => dest.erase e.rel) dest)

/-! ## The listing -/

def isBlank (b : UInt8) : Bool := b == 32 || b == 9 || b == 10

/-- What `SplitWhitespace` can hand out. -/
def Word (text : Bytes) : Prop := text ≠ [] ∧ ∀ b ∈ text, isBlank b = false

instance (text : Bytes) : Decidable (Word text) :=
  @instDecidableAnd _ _ _ (decidableBAll (fun b => isBlank b = false) text)

theorem word_of_mem_splitWhitespace {text word : Bytes} (h : word ∈ splitWhitespace text) :
    Word word := by
  obtain ⟨hmem, hne⟩ := mem_filter.mp h
  exact ⟨by simpa using hne, Text.of_mem_splitOnP hmem⟩

theorem splitWhitespace_words {a b c : Bytes} (ha : Word a) (hb : Word b) (hc : Word c) :
    splitWhitespace (a ++ 32 :: (b ++ 32 :: c)) = [a, b, c] := by
  have hsplit : (a ++ 32 :: (b ++ 32 :: c)).splitOnP isBlank = [a, b, c] := by
    rw [splitOnP_append_cons_of_forall_mem ha.2 32 rfl,
      splitOnP_append_cons_of_forall_mem hb.2 32 rfl, splitOnP_eq_singleton hc.2]
  show ((a ++ 32 :: (b ++ 32 :: c)).splitOnP isBlank).filter (· ≠ []) = _
  rw [hsplit]
  simp [ha.1, hb.1, hc.1]

theorem Word.notMem {word : Bytes} (h : Word word) {b : UInt8} (hb : isBlank b = true) : b ∉ word :=
  fun hmem => Bool.false_ne_true ((h.2 b hmem).symm.trans hb)

theorem parseLine_words {a b c : Bytes} (ha : Word a) (hb : Word b) (hc : Word c) (rel : Bytes) :
    parseLine (a ++ 32 :: (b ++ 32 :: c) ++ 9 :: rel) =
      some ⟨a.headD 0, (parseUint 8 b).getD kDefaultMode % 2 ^ 32, c, rel⟩ := by
  have htab : 9 ∉ a ++ 32 :: (b ++ 32 :: c) := by
    simp [ha.notMem (b := 9) rfl, hb.notMem (b := 9) rfl, hc.notMem (b := 9) rfl]
  rw [parseLine, Text.idxOf?_append_cons htab]
  simp only [take_left, splitWhitespace_words ha hb hc, some.injEq, Entry.mk.injEq,
    true_and]
  rw [← drop_drop, drop_left]
  rfl

variable {e : Entry}

theorem of_parseLine {line : Bytes} (hline : 10 ∉ line) (h : parseLine line = some e) :
    10 ∉ e.rel ∧ Word e.ref := by
  rw [parseLine] at h
  split at h
  · cases h
  · split at h
    · next hwords =>
        rw [← some.inj h]
        refine ⟨fun hmem => hline (mem_of_mem_drop hmem), ?_⟩
        apply word_of_mem_splitWhitespace
        rw [hwords]
        simp
    · cases h

theorem of_mem_parseListing {text : Bytes} (h : e ∈ parseListing text) :
    10 ∉ e.rel ∧ Word e.ref := by
  obtain ⟨line, hline, hparse⟩ := mem_filterMap.mp h
  refine of_parseLine (fun hmem => ?_) hparse
  have hpiece := Text.of_mem_splitOnP (p := (· == 10)) (mem_filter.mp hline).1 10 hmem
  simp at hpiece

def entryOf (entry : Bytes × Node) : Option Entry :=
  match entry.2 with
  | .file data mode => some ⟨102, mode, hashFor blake3 s data, entry.1⟩
  | .link target => some ⟨108, 0, target, entry.1⟩
  | .dir => none

/-- Names without newlines, link targets without blanks. -/
structure Plain (tree : Tree) : Prop where
  rels : ∀ rel node, (rel, node) ∈ tree.entries → node ≠ .dir → 10 ∉ rel
  targets : ∀ rel target, (rel, Node.link target) ∈ tree.entries → ∀ b ∈ target, isBlank b = false

variable {blake3 s order}

theorem isBlank_of_lt {b : UInt8} (h : 32 < b.toNat) : isBlank b = false := by
  have hne : b ≠ 32 ∧ b ≠ 9 ∧ b ≠ 10 := by
    refine ⟨?_, ?_, ?_⟩ <;>
    · rintro rfl
      simp at h
  simp [isBlank, hne]

theorem word_numeral (n : Nat) : Word (numeral 8 n) := by
  refine ⟨numeral_ne_nil (by decide) (by decide) n, fun b hb => ?_⟩
  have hdigit := isDigit_of_mem_numeral (by decide) (by decide) hb
  simp only [isDigit, Bool.and_eq_true, decide_eq_true_eq] at hdigit
  exact isBlank_of_lt (by omega)

section

variable (hblake : ∀ data, (blake3 data).length = 16)
include hblake

theorem word_hashFor (data : Bytes) : Word (hashFor blake3 s data) := by
  refine ⟨fun hnil => ?_, fun b hb => ?_⟩
  · have hbytes := hblake (stored s data)
    cases hdata : blake3 (stored s data) with
    | nil => simp [hdata] at hbytes
    | cons b bytes => simp [hashFor, hashOf, digest, hdata, hexEncode] at hnil
  · have := lt_of_mem_hexEncode hb
    exact isBlank_of_lt (by omega)

theorem parseLine_lineOf {tree : Tree} (hplain : Plain tree) {entry : Bytes × Node}
    (h : entry ∈ tree.entries) :
    (lineOf blake3 s entry).bind parseLine = entryOf blake3 s entry := by
  obtain ⟨rel, node⟩ := entry
  cases node with
  | dir => rfl
  | link target =>
    have htarget : Word target := ⟨tree.targets rel target h, hplain.targets rel target h⟩
    exact parseLine_words (a := ascii "l") (b := ascii "0") (by decide) (by decide) htarget rel
  | file data mode =>
    have hmode := tree.perms rel data mode h
    have hparse : parseUint 8 (numeral 8 mode) = some mode :=
      parseUint_numeral (by decide) (by decide) (by omega)
    have hline := parseLine_words (a := ascii "f") (by decide) (word_numeral mode)
      (word_hashFor (s := s) hblake data) rel
    rw [hparse, getD_some, Nat.mod_eq_of_lt (by omega)] at hline
    exact hline

theorem parseListing_listing {tree : Tree} (hplain : Plain tree) :
    parseListing (listing blake3 s tree) = tree.entries.filterMap (entryOf blake3 s) := by
  have hlines : ∀ line ∈ tree.entries.filterMap (lineOf blake3 s), line ≠ [] ∧ 10 ∉ line := by
    intro line hline
    obtain ⟨⟨rel, node⟩, hmem, hof⟩ := mem_filterMap.mp hline
    cases node with
    | dir => cases hof
    | link target =>
      obtain rfl := some.inj hof
      have hrel := hplain.rels rel _ hmem (by simp)
      have htarget : 10 ∉ target := fun h =>
        absurd (hplain.targets rel target hmem 10 h) (by decide)
      exact ⟨by simp, by simp [hrel, htarget, show (10 : UInt8) ∉ ascii "l 0 " by decide]⟩
    | file data mode =>
      obtain rfl := some.inj hof
      have hrel := hplain.rels rel _ hmem (by simp)
      have hdigits := (word_numeral mode).notMem (b := 10) rfl
      have hhash := (word_hashFor (s := s) hblake data).notMem (b := 10) rfl
      exact ⟨by simp, by simp [hrel, hdigits, hhash, show (10 : UInt8) ∉ ascii "f " by decide]⟩
  rw [parseListing, split, listing, Text.pieces_lines hlines, filterMap_filterMap]
  apply filterMap_congr
  exact fun entry hmem => parseLine_lineOf hblake hplain hmem

end

/-! ## The tree -/

theorem lookup_placeLink (disk : Disk) (dest : Dest) (e : Entry) (rel : Bytes) :
    (placeLink disk dest e).lookup rel =
      if rel = e.rel then (if disk.link e.rel then some (.link e.ref) else none)
      else dest.lookup rel := by
  rw [placeLink]
  split_ifs with hlink hrel hrel
  · rw [lookup_insert, if_pos hrel]
  · rw [lookup_insert, if_neg hrel]
  · rw [lookup_erase, if_pos hrel]
  · rw [lookup_erase, if_neg hrel]

def fileNode (s : Store) (order : List (Bytes × Bytes)) (cache : Bytes → Option Bytes) (disk : Disk)
    (e : Entry) : Option Node :=
  (cache (blobKey e.ref)).bind fun blob =>
    if disk.write e.rel then
      some (.file (restored s order blob)
        (if disk.chmod e.rel then e.mode % 512 else disk.fresh e.rel))
    else none

theorem placeFile_eq (cache : Bytes → Option Bytes) (disk : Disk) (dest : Dest) (missing : Nat)
    (e : Entry) :
    placeFile s order cache disk (dest, missing) e =
      match fileNode s order cache disk e with
      | some node => (dest.insert e.rel node, missing)
      | none => (dest, missing + 1) := by
  rw [placeFile, fileNode]
  cases cache (blobKey e.ref) with
  | none => rfl
  | some blob =>
    simp only [bind_some]
    split_ifs <;> rfl

theorem missing_le (s : Store) (order : List (Bytes × Bytes)) (cache : Bytes → Option Bytes)
    (disk : Disk) (es : List Entry) (dest : Dest) (missing : Nat) :
    missing ≤ (es.foldl (placeFile s order cache disk) (dest, missing)).2 := by
  induction es generalizing dest missing with
  | nil => exact Nat.le_refl _
  | cons e es ih =>
    rw [foldl_cons, placeFile_eq]
    cases fileNode s order cache disk e with
    | some node => exact ih _ _
    | none => exact Nat.le_trans (Nat.le_succ _) (ih _ _)

theorem foldl_placeFile {cache : Bytes → Option Bytes} {disk : Disk} {es : List Entry} {dest : Dest}
    {missing : Nat} (h : (es.foldl (placeFile s order cache disk) (dest, missing)).2 = missing) :
    (∀ e ∈ es, (fileNode s order cache disk e).isSome) ∧
      (es.foldl (placeFile s order cache disk) (dest, missing)).1 =
        es.foldl (fun dest e => dest.insert e.rel ((fileNode s order cache disk e).getD .dir))
          dest := by
  induction es generalizing dest with
  | nil => exact ⟨by simp, rfl⟩
  | cons e es ih =>
    rw [foldl_cons, placeFile_eq] at h ⊢
    cases hnode : fileNode s order cache disk e with
    | none =>
      rw [hnode] at h
      have := missing_le s order cache disk es dest (missing + 1)
      simp only at h
      omega
    | some node =>
      rw [hnode] at h
      obtain ⟨hall, hdest⟩ := ih h
      refine ⟨forall_mem_cons.mpr ⟨by simp [hnode], hall⟩, ?_⟩
      rw [foldl_cons, hnode]
      exact hdest

theorem restored_stored (data : Bytes) :
    restored s order (stored s data) =
      if isText data then s.resolveAll order (maskHashes s.dir data) else data := by
  rw [restored, stored]
  by_cases htext : isText data = true
  · have hmasked : isText (maskHashes s.dir data) = true := by
      have h0 : (0 : UInt8) ∉ data := by simpa [isText] using htext
      have : (0 : UInt8) ∉ maskHashes s.dir data := by
        intro hmem
        rcases mem_maskFrom hmem with h | h
        · exact h0 h
        · exact absurd h (by decide)
      simpa [isText] using this
    rw [if_pos htext, if_pos htext, if_pos hmasked]
  · rw [if_neg htext, if_neg htext, if_neg htext]

/-- Every file is back with its bytes and permission bits, and every link with its target. -/
def Restored (tree : Tree) (dest : Dest) : Prop :=
  ∀ rel node, (rel, node) ∈ tree.entries → node ≠ .dir → dest.lookup rel = some node

/-- The blobs of a tree are as they were put, or gone. -/
def Unchanged (blake3 : Bytes → Bytes) (s : Store) (cache : Bytes → Option Bytes) (key : Bytes)
    (tree : Tree) : Prop :=
  (∀ text, cache key = some text → text = listing blake3 s tree) ∧
    ∀ rel data mode, (rel, Node.file data mode) ∈ tree.entries →
      ∀ blob, cache (blobKey (hashFor blake3 s data)) = some blob → blob = stored s data

section

variable {cache : Bytes → Option Bytes} {disk : Disk} {key : Bytes}

theorem getDir_eq_zero (h : (getDir s order cache disk key).1 = 0) :
    ∃ text, cache key = some text ∧
      (∀ e ∈ (parseListing text).filter (·.kind == 102), (fileNode s order cache disk e).isSome) ∧
      (getDir s order cache disk key).2 =
        ((parseListing text).filter (·.kind == 102)).foldl
          (fun dest e => dest.insert e.rel ((fileNode s order cache disk e).getD .dir))
          (((parseListing text).filter (·.kind == 108)).foldl (placeLink disk) ∅) := by
  rw [getDir] at h ⊢
  cases hcache : cache key with
  | none =>
    rw [hcache] at h
    cases h
  | some text =>
    rw [hcache] at h
    simp only at h ⊢
    split_ifs at h ⊢ with hmissing
    · obtain ⟨hall, hdest⟩ := foldl_placeFile hmissing
      exact ⟨text, rfl, hall, hdest⟩

theorem lookup_insertFile (dest : Dest) (e : Entry) (rel : Bytes) :
    (dest.insert e.rel ((fileNode s order cache disk e).getD .dir)).lookup rel =
      if rel = e.rel then some ((fileNode s order cache disk e).getD .dir) else dest.lookup rel :=
  lookup_insert dest e.rel _ rel

theorem fileNode_ne_link (e : Entry) (target : Bytes) :
    (fileNode s order cache disk e).getD .dir ≠ .link target := by
  rw [fileNode]
  cases cache (blobKey e.ref) with
  | none => simp
  | some blob =>
    rw [bind_some]
    split_ifs <;> simp

/-- What can be restored at all: names without newlines, links to targets without blanks. -/
theorem of_lookup_getDir (h : (getDir s order cache disk key).1 = 0) {rel : Bytes} {node : Node}
    (hlook : (getDir s order cache disk key).2.lookup rel = some node) :
    10 ∉ rel ∧ ∀ target, node = .link target → Word target := by
  obtain ⟨text, -, -, hdest⟩ := getDir_eq_zero h
  rw [hdest] at hlook
  rcases of_lookup_foldl lookup_insertFile hlook with hlinked | ⟨e, hmem, rfl, hnode⟩
  · rcases of_lookup_foldl (lookup_placeLink disk) hlinked with hnone | ⟨e, hmem, rfl, hnode⟩
    · cases hnone
    · obtain ⟨hrel, href⟩ := of_mem_parseListing (mem_filter.mp hmem).1
      refine ⟨hrel, fun target htarget => ?_⟩
      split_ifs at hnode
      rw [htarget] at hnode
      rw [← Node.link.inj (some.inj hnode)]
      exact href
  · refine ⟨(of_mem_parseListing (mem_filter.mp hmem).1).1, fun target htarget => ?_⟩
    rw [htarget] at hnode
    exact absurd (some.inj hnode) (fileNode_ne_link e target)

theorem rel_entryOf {entry : Bytes × Node} (h : entryOf blake3 s entry = some e) :
    e.rel = entry.1 := by
  obtain ⟨rel, node⟩ := entry
  cases node with
  | dir => cases h
  | file _ _ | link _ => rw [← some.inj h]

theorem nodup_rels (blake3 : Bytes → Bytes) (s : Store) (tree : Tree) :
    ((tree.entries.filterMap (entryOf blake3 s)).map Entry.rel).Nodup := by
  have hsub : ∀ l : List (Bytes × Node),
      ((l.filterMap (entryOf blake3 s)).map Entry.rel).Sublist (l.map Prod.fst) := by
    intro l
    induction l with
    | nil => exact .slnil
    | cons entry l ih =>
      rw [filterMap_cons, map_cons]
      cases hentry : entryOf blake3 s entry with
      | none => exact ih.cons _
      | some e =>
        rw [map_cons, rel_entryOf hentry]
        exact ih.cons_cons _
  exact (hsub tree.entries).nodup tree.nodup

theorem nodup_rels_kind (blake3 : Bytes → Bytes) (s : Store) (tree : Tree) (kind : UInt8) :
    (((tree.entries.filterMap (entryOf blake3 s)).filter (·.kind == kind)).map Entry.rel).Nodup :=
  (filter_sublist.map Entry.rel).nodup (nodup_rels blake3 s tree)

section

variable (hblake : ∀ data, (blake3 data).length = 16) {tree : Tree} (hplain : Plain tree)
  (hblobs : Unchanged blake3 s cache key tree) (h : (getDir s order cache disk key).1 = 0)
include hblake hplain hblobs h

/-- The entries `GetDir` goes through are those of the tree. -/
theorem getDir_tree :
    (∀ e ∈ (tree.entries.filterMap (entryOf blake3 s)).filter (·.kind == 102),
        (fileNode s order cache disk e).isSome) ∧
      (getDir s order cache disk key).2 =
        ((tree.entries.filterMap (entryOf blake3 s)).filter (·.kind == 102)).foldl
          (fun dest e => dest.insert e.rel ((fileNode s order cache disk e).getD .dir))
          (((tree.entries.filterMap (entryOf blake3 s)).filter (·.kind == 108)).foldl
            (placeLink disk) ∅) := by
  obtain ⟨text, hcache, hall, hdest⟩ := getDir_eq_zero h
  rw [hblobs.1 text hcache, parseListing_listing hblake hplain] at hall hdest
  exact ⟨hall, hdest⟩

theorem lookup_file {rel data : Bytes} {mode : Nat}
    (hmem : (rel, Node.file data mode) ∈ tree.entries) :
    (getDir s order cache disk key).2.lookup rel =
      some (.file (restored s order (stored s data))
        (if disk.chmod rel then mode else disk.fresh rel)) := by
  obtain ⟨hall, hdest⟩ := getDir_tree hblake hplain hblobs h
  have hentry : (⟨102, mode, hashFor blake3 s data, rel⟩ : Entry) ∈
      (tree.entries.filterMap (entryOf blake3 s)).filter (·.kind == 102) :=
    mem_filter.mpr ⟨mem_filterMap.mpr ⟨_, hmem, rfl⟩, rfl⟩
  have hnode := hall _ hentry
  rw [hdest, lookup_foldl_of_mem lookup_insertFile (nodup_rels_kind blake3 s tree 102) hentry]
  rw [fileNode] at hnode ⊢
  cases hblob : cache (blobKey (hashFor blake3 s data)) with
  | none => simp [hblob] at hnode
  | some blob =>
    simp only [hblob, bind_some] at hnode ⊢
    have hdata := hblobs.2 rel data mode hmem blob hblob
    have hmode := Nat.mod_eq_of_lt (tree.perms rel data mode hmem)
    by_cases hwrite : disk.write rel = true
    · simp only [hwrite, if_true, hdata, hmode, getD_some]
    · simp [hwrite] at hnode

theorem lookup_link {rel target : Bytes} (hmem : (rel, Node.link target) ∈ tree.entries) :
    (getDir s order cache disk key).2.lookup rel =
      if disk.link rel then some (.link target) else none := by
  obtain ⟨-, hdest⟩ := getDir_tree hblake hplain hblobs h
  have hentry : (⟨108, 0, target, rel⟩ : Entry) ∈ tree.entries.filterMap (entryOf blake3 s) :=
    mem_filterMap.mpr ⟨_, hmem, rfl⟩
  have hfiles : rel ∉ ((tree.entries.filterMap (entryOf blake3 s)).filter (·.kind == 102)).map
    Entry.rel := by
    intro hrel
    obtain ⟨e, he, heq⟩ := mem_map.mp hrel
    obtain ⟨he, hkind⟩ := mem_filter.mp he
    rw [inj_on_of_nodup_map (nodup_rels blake3 s tree) he hentry heq] at hkind
    exact absurd hkind (by simp)
  rw [hdest, lookup_foldl_of_notMem lookup_insertFile hfiles]
  exact lookup_foldl_of_mem (lookup_placeLink disk) (nodup_rels_kind blake3 s tree 108)
    (mem_filter.mpr ⟨hentry, rfl⟩) ∅

end

/-- What brings a tree back: plain names and link targets, texts that masking and resolving give
back, and a file system on which links and permission bits can be set. -/
structure Survives (s : Store) (order : List (Bytes × Bytes)) (disk : Disk) (tree : Tree) :
    Prop where
  plain : Plain tree
  texts : ∀ rel data mode, (rel, Node.file data mode) ∈ tree.entries → isText data = true →
    s.resolveAll order (maskHashes s.dir data) = data
  links : ∀ rel target, (rel, Node.link target) ∈ tree.entries → disk.link rel = true
  modes : ∀ rel data mode, (rel, Node.file data mode) ∈ tree.entries →
    disk.chmod rel = true ∨ disk.fresh rel = mode

/-- Without roots, as in path mode, a text comes back exactly when masking leaves it as it is. -/
theorem resolveAll_nil_iff {s : Store} (hdir : 42 ∉ s.dir) (text : Bytes) :
    s.resolveAll [] (maskHashes s.dir text) = text ↔ maskHashes s.dir text = text := by
  change maskHashes s.dir (maskHashes s.dir text) = text ↔ _
  rw [maskHashes_maskHashes hdir]

end

end

/-! ## A text that names a dependency -/

def configText : Bytes := ascii "/nix/store/0123456789abcdfghijklmnpqrsvwxyz-zlib/lib"

def configEntries : List (Bytes × Node) :=
  [(ascii "config", .file configText 420), (ascii "lib", .dir),
    (ascii "lib/current", .link (ascii "../config"))]

theorem file_configEntries {rel data : Bytes} {mode : Nat}
    (h : (rel, Node.file data mode) ∈ configEntries) :
    rel = ascii "config" ∧ data = configText ∧ mode = 420 := by
  simpa [configEntries] using h

theorem link_configEntries {rel target : Bytes} (h : (rel, Node.link target) ∈ configEntries) :
    rel = ascii "lib/current" ∧ target = ascii "../config" := by
  simpa [configEntries] using h

def configTree : Tree where
  entries := configEntries
  nodup := by decide
  perms := by
    intro rel data mode h
    rw [(file_configEntries h).2.2]
    decide
  targets := by
    intro rel target h
    rw [(link_configEntries h).2]
    decide

def zeros : Bytes → Bytes := fun _ => replicate 16 0

def heldConfig (s : Store) : Bytes → Option Bytes := fun key =>
  lookup key (putDir zeros s (fun _ => false) (ascii "build1/mix/1") configTree)

def healthy : Disk := ⟨fun _ => true, fun _ => true, fun _ => true, fun _ => 420⟩

theorem unchanged_heldConfig {s : Store}
    (hlisting : heldConfig s (ascii "build1/mix/1") = some (listing zeros s configTree))
    (hblob : heldConfig s (blobKey (hashOf zeros [])) = some (stored s configText)) :
    Unchanged zeros s (heldConfig s) (ascii "build1/mix/1") configTree := by
  refine ⟨fun text htext => some.inj (htext.symm.trans hlisting), ?_⟩
  intro rel data mode hmem blob hcache
  rw [(file_configEntries hmem).2.1]
  exact some.inj (hcache.symm.trans hblob)

def pathStore : Store := Store.new (ascii "/nix/store") ⟨none, none, none⟩

def contentStore : Store :=
  Store.new (ascii "/nix/store")
    ⟨some (ascii "content"), none, some (ascii "/nix/store/0123456789abcdfghijklmnpqrsvwxyz-zlib")⟩

end Corepkgs.Jig.DirMode
