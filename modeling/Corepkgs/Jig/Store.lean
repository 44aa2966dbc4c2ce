import Corepkgs.Jig.Base
import Corepkgs.Lib.Table
/-!
# Store paths in keys

`store.cc`: how a path is spelled in a cache key, and how a masked spelling is
turned back into a path of this build.  Loops over `text.find(…, pos)` are
recursions over the rest of the text from `pos` on.
-/

namespace Corepkgs.Jig

open Lib List Option

/-! ## Masking -/

/-- Base-32 characters before the `-` in a store path name. -/
def kStoreHashLength : Nat := 32

/-- Nix base32: no `e`, `o`, `u`, `t`. -/
def isStoreHash (text : Bytes) : Bool :=
  text.length == kStoreHashLength && text.all fun b =>
    (ascii "0123456789abcdfghijklmnpqrsvwxyz").contains b

def isStorePath (dir path : Bytes) : Bool := (dir ++ [47]).isPrefixOf path

def maskFrom (dir : Bytes) : Nat → Bytes → Bytes
  | 0, text => text
  | _ + 1, [] => []
  | n + 1, c :: text =>
    if (dir ++ [47]).isPrefixOf (c :: text) then
      let rest := (c :: text).drop (dir.length + 1)
      if rest[kStoreHashLength]? = some 45 ∧ isStoreHash (rest.take kStoreHashLength) then
        dir ++ 47 :: 42 :: maskFrom dir n (rest.drop kStoreHashLength)
      else dir ++ 47 :: rest.take 1 ++ maskFrom dir n (rest.drop 1)
    else c :: maskFrom dir n text

/-- `"<dir>/<32 hash chars>-name"` becomes `"<dir>/*-name"`, every occurrence. -/
def maskHashes (dir text : Bytes) : Bytes := maskFrom dir text.length text

theorem length_of_isStoreHash {hash : Bytes} (h : isStoreHash hash = true) :
    hash.length = kStoreHashLength := by
  rw [isStoreHash, Bool.and_eq_true, beq_iff_eq] at h
  exact h.1

theorem notMem_of_isStoreHash {hash : Bytes} {b : UInt8} (h : isStoreHash hash = true)
    (hb : b ∉ ascii "0123456789abcdfghijklmnpqrsvwxyz") : b ∉ hash := by
  intro hmem
  rw [isStoreHash, Bool.and_eq_true, List.all_eq_true] at h
  exact hb (contains_iff_mem.mp (h.2 b hmem))

/-- The test of the scan: a hash and a dash. -/
theorem hash_dash_iff {rest : Bytes} :
    (rest[kStoreHashLength]? = some 45 ∧ isStoreHash (rest.take kStoreHashLength) = true) ↔
      ∃ hash tail, isStoreHash hash = true ∧ rest = hash ++ 45 :: tail := by
  constructor
  · intro h
    obtain ⟨hlt, hdash⟩ := List.getElem?_eq_some_iff.mp h.1
    refine ⟨rest.take kStoreHashLength, rest.drop (kStoreHashLength + 1), h.2, ?_⟩
    rw [← hdash, ← drop_eq_getElem_cons hlt, take_append_drop]
  · rintro ⟨hash, tail, hhash, rfl⟩
    have hlen := length_of_isStoreHash hhash
    rw [← hlen, getElem?_append_right (Nat.le_refl _), Nat.sub_self, take_left]
    exact ⟨rfl, hhash⟩

theorem maskFrom_prefix (dir : Bytes) (n : Nat) (rest : Bytes) :
    maskFrom dir (n + 1) (dir ++ [47] ++ rest) =
      if rest[kStoreHashLength]? = some 45 ∧ isStoreHash (rest.take kStoreHashLength) then
        dir ++ 47 :: 42 :: maskFrom dir n (rest.drop kStoreHashLength)
      else dir ++ 47 :: rest.take 1 ++ maskFrom dir n (rest.drop 1) := by
  cases htext : dir ++ [47] ++ rest with
  | nil => simp at htext
  | cons c text =>
    have hdrop : (c :: text).drop (dir.length + 1) = rest := by
      rw [← htext]
      exact drop_left' (by simp)
    rw [maskFrom, if_pos (by rw [← htext]; simp), hdrop]

variable {dir text : Bytes}

/-- No store path begins in the text. -/
def NoStorePath (dir text : Bytes) : Prop :=
  ∀ front hash tail : Bytes, isStoreHash hash = true →
    text ≠ front ++ (dir ++ [47] ++ (hash ++ 45 :: tail))

theorem NoStorePath.of_append (front : Bytes) (h : NoStorePath dir (front ++ text)) :
    NoStorePath dir text :=
  fun front' _ _ hhash heq => h (front ++ front') _ _ hhash (by rw [heq, append_assoc front])

theorem noStorePath_of_notMem (h : 47 ∉ text) : NoStorePath dir text :=
  fun _ _ _ _ heq => h (by simp [heq])

theorem maskFrom_of_noStorePath (n : Nat) (h : NoStorePath dir text) :
    maskFrom dir n text = text := by
  induction n generalizing text with
  | zero => rfl
  | succ n ih =>
    by_cases hdir : (dir ++ [47]).isPrefixOf text = true
    · obtain ⟨rest, rfl⟩ := isPrefixOf_iff_prefix.mp hdir
      have hone : NoStorePath dir (rest.drop 1) := by
        refine NoStorePath.of_append (dir ++ [47] ++ rest.take 1) ?_
        rwa [append_assoc _ (rest.take 1), take_append_drop]
      rw [ maskFrom_prefix, if_neg, ih hone]
      · rw [append_assoc, cons_append, take_append_drop, append_cons]
      · rw [hash_dash_iff]
        rintro ⟨hash, tail, hhash, rfl⟩
        exact h [] _ _ hhash rfl
    · cases text with
      | nil => rfl
      | cons c text => rw [maskFrom, if_neg hdir, ih (h.of_append [c])]

theorem maskHashes_of_noStorePath (h : NoStorePath dir text) : maskHashes dir text = text :=
  maskFrom_of_noStorePath text.length h

theorem maskFrom_storePath {hash tail : Bytes} (hhash : isStoreHash hash = true) (n : Nat) :
    maskFrom dir (n + 1) (dir ++ [47] ++ (hash ++ 45 :: tail)) =
      dir ++ 47 :: 42 :: maskFrom dir n (45 :: tail) := by
  rw [ maskFrom_prefix, if_pos (hash_dash_iff.mpr ⟨hash, tail, hhash, rfl⟩),
    ← length_of_isStoreHash hhash, drop_left]

theorem maskHashes_storePath {hash tail : Bytes} (hhash : isStoreHash hash = true)
    (h : NoStorePath dir (45 :: tail)) :
    maskHashes dir (dir ++ [47] ++ (hash ++ 45 :: tail)) = dir ++ 47 :: 42 :: 45 :: tail := by
  obtain ⟨n, hn⟩ : ∃ n, (dir ++ [47] ++ (hash ++ 45 :: tail)).length = n + 1 :=
    ⟨dir.length + (hash ++ 45 :: tail).length, by simp; omega⟩
  rw [maskHashes, hn, maskFrom_storePath hhash, maskFrom_of_noStorePath n h]

/-- Masking brings in nothing but the `*`. -/
theorem mem_maskFrom {n : Nat} {b : UInt8} (h : b ∈ maskFrom dir n text) : b ∈ text ∨ b = 42 := by
  induction n generalizing text with
  | zero => exact .inl h
  | succ n ih =>
    by_cases hdir : (dir ++ [47]).isPrefixOf text = true
    · obtain ⟨rest, rfl⟩ := isPrefixOf_iff_prefix.mp hdir
      have hback : ∀ {k : Nat}, b ∈ maskFrom dir n (rest.drop k) →
        b ∈ dir ++ [47] ++ rest ∨ b = 42 :=
        fun hmem => (ih hmem).imp_left fun h => mem_append_right _ (mem_of_mem_drop h)
      rw [ maskFrom_prefix] at h
      split_ifs at h
      · simp only [mem_append, mem_cons] at h
        rcases h with h | h | h | h
        · exact .inl (by simp [h])
        · exact .inl (by simp [h])
        · exact .inr h
        · exact hback h
      · simp only [mem_append, mem_cons] at h
        rcases h with (h | h | h) | h
        · exact .inl (by simp [h])
        · exact .inl (by simp [h])
        · exact .inl (mem_append_right _ (mem_of_mem_take h))
        · exact hback h
    · cases text with
      | nil => simp [maskFrom] at h
      | cons c text =>
        rw [maskFrom, if_neg hdir] at h
        rcases mem_cons.mp h with rfl | h
        · exact .inl mem_cons_self
        · exact (ih h).imp_left (mem_cons_of_mem _)

def kPathEnds : Bytes := ascii " \t\n\\:\"';,)]\x7d>"

/-- A whole root ends here: `*-zlib` is not in front of `*-zlib-ng`. -/
def endsRoot : Bytes → Bool
  | [] => true
  | b :: _ => b == 47 || kPathEnds.contains b

/-- The loop of `ResolveAll` for one root, on what follows `pos`. -/
def resolveFrom (masked real : Bytes) : Nat → Bytes → Bytes
  | 0, text => text
  | _ + 1, [] => []
  | n + 1, c :: text =>
    if masked.isPrefixOf (c :: text) then
      let rest := (c :: text).drop masked.length
      (if endsRoot rest then real else masked) ++ resolveFrom masked real n rest
    else c :: resolveFrom masked real n text

def isAlnum (b : UInt8) : Bool :=
  (48 ≤ b.toNat && b.toNat ≤ 57) || (65 ≤ b.toNat && b.toNat ≤ 90) ||
  (97 ≤ b.toNat && b.toNat ≤ 122)

/-- One pattern of `MaskRandomNames`, on what follows `pos`. -/
def maskPattern (pat : Bytes) (width : Nat) : Nat → Bytes → Bytes
  | 0, text => text
  | _ + 1, [] => []
  | n + 1, c :: text =>
    if pat.isPrefixOf (c :: text) then
      let tail := (c :: text).drop pat.length
      if tail.length < width then c :: text
      else if (tail.take width).all isAlnum then
        pat ++ maskPattern pat width n (replicate width 35 ++ tail.drop width)
      else pat ++ maskPattern pat width n tail
    else c :: maskPattern pat width n text

/-- Scratch names cmake draws at random. -/
def maskRandomNames (text : Bytes) : Bytes :=
  let text := maskPattern (ascii "TryCompile-") 6 text.length text
  maskPattern (ascii "cmTC_") 5 text.length text

/-! ## Path arguments -/

/-- One name of a path, read from the left onto the names before it (last one first). -/
def pushName (absolute : Bool) (names : List Bytes) (name : Bytes) : List Bytes :=
  if name = [] ∨ name = ascii "." then names
  else if name = ascii ".." then
    match names with
    | [] => if absolute then [] else [ascii ".."]
    | last :: before => if last = ascii ".." then ascii ".." :: names else before
  else name :: names

/-- `std::filesystem::path(p).lexically_normal().string()`. -/
def lexicallyNormal (p : Bytes) : Bytes :=
  if p = [] then []
  else
    let absolute := p.head? == some 47
    let names := (p.splitOn 47).foldl (pushName absolute) []
    -- a path that ends in a separator, `.` or `..` ends in a separator unless only `..` is left
    let trailing := names ≠ [] ∧ names.head? ≠ some (ascii "..") ∧
      (p.splitOn 47).getLast? ∈ [some [], some (ascii "."), some (ascii "..")]
    let normal := (if absolute then [47] else []) ++ [47].intercalate names.reverse ++
      (if trailing then [47] else [])
    if normal = [] then ascii "." else normal

/-- Where the value of a path argument starts; `none` for text that is left alone. -/
def valueStart (arg : Bytes) : Option Nat :=
  if (ascii "--").isPrefixOf arg then (arg.idxOf? 61).map (· + 1)
  else if arg.head? = some 45 ∧ 2 < arg.length then
    match arg.idxOf? 61 with
    | some equals => if 47 ∈ arg.take equals then some 2 else some (equals + 1)
    | none => some 2
  else if arg.head? = some 45 then none
  else some 0

def normalizePathArg (arg : Bytes) : Bytes :=
  if (ascii "-D").isPrefixOf arg ∨ (ascii "-U").isPrefixOf arg then arg
  else
    match valueStart arg with
    | none => arg
    | some start =>
      let value := arg.drop start
      if 47 ∉ value ∧ value.head? ≠ some 46 then arg
      else
        let normal := lexicallyNormal value
        let normal := if 1 < normal.length ∧ normal.getLast? = some 47 then normal.dropLast
          else normal
        arg.take start ++ if normal = [] then ascii "." else normal

/-! ## The store of one build -/

structure StoreEnv where
  /-- `JIG_STORE_IDENTITY` -/
  identity : Option Bytes
  out : Option Bytes
  /-- `JIG_STORE_ROOTS` -/
  roots : Option Bytes

def StoreEnv.byContent (env : StoreEnv) : Bool :=
  env.identity.getD (ascii "path") == ascii "content"

structure Store where
  dir : Bytes
  byContent : Bool
  out : Bytes
  outHash : Bytes
  maskedToReal : Table Bytes Bytes
  known : Table Bytes Bytes

namespace Store

def cutRoot (dir root : Bytes) : Bytes :=
  root.take (dir.length + 1) ++ (root.drop (dir.length + 1)).takeWhile (· ≠ 47)

def rootsOf (dir : Bytes) (env : StoreEnv) : List Bytes :=
  (split (env.roots.getD []) 32 ++ [env.out.getD []]).map (cutRoot dir)

/-- `masked_to_real_.emplace(masked, root)`: the first root of a masked name stays. -/
def emplace (dir : Bytes) (table : Table Bytes Bytes) (root : Bytes) : Table Bytes Bytes :=
  let masked := maskHashes dir root
  if masked ≠ root ∧ table.lookup masked = none then table.insert masked root else table

def new (dir : Bytes) (env : StoreEnv) : Store :=
  let out := env.out.getD []
  if env.byContent then
    { dir := dir
      byContent := true
      out := out
      outHash :=
        if isStorePath dir out ∧ out[dir.length + 1 + kStoreHashLength]? = some 45 then
          (out.drop (dir.length + 1)).take kStoreHashLength
        else []
      maskedToReal := (rootsOf dir env).foldl (emplace dir) ∅
      known := ∅ }
  else { dir := dir, byContent := false, out := out, outHash := [], maskedToReal := ∅, known := ∅ }

/-- The form a string takes inside a cache key. -/
def key (s : Store) (arg : Bytes) : Bytes :=
  let key := maskRandomNames (normalizePathArg arg)
  if s.byContent then maskHashes s.dir key else key

variable (s : Store)

/-- A masked store path as a path of this build, `none` for a root the build lacks. -/
def resolve (path : Bytes) : Option Bytes :=
  let mark := s.dir ++ ascii "/*-"
  if mark.isPrefixOf path then
    let tail := path.drop mark.length
    (s.maskedToReal.lookup (mark ++ tail.takeWhile (· ≠ 47))).map
      fun root => root ++ tail.dropWhile (· ≠ 47)
  else some path

/-- `SwapOutHash(bytes, false)` -/
def maskOut (bytes : Bytes) : Bytes :=
  if s.outHash = [] then bytes
  else Text.replaceFrom (s.dir ++ 47 :: s.outHash ++ [45])
    (s.dir ++ 47 :: replicate kStoreHashLength 101 ++ [45]) bytes.length bytes

theorem maskOut_of_notMem {bytes : Bytes} (h : 47 ∉ bytes) :
    s.maskOut bytes = bytes := by
  unfold maskOut
  split_ifs
  · rfl
  · exact Text.replaceFrom_of_notMem (by simp) _ _ h

/-- `SwapOutHash(bytes, true)` -/
def unmaskOut (bytes : Bytes) : Bytes :=
  if s.outHash = [] then bytes
  else Text.replaceFrom (s.dir ++ 47 :: replicate kStoreHashLength 101 ++ [45])
    (s.dir ++ 47 :: s.outHash ++ [45]) bytes.length bytes

/-- `ResolveAll`: every store path of a text as one of this build.  `order` is how the iteration
goes through the roots. -/
def resolveAll (order : List (Bytes × Bytes)) (text : Bytes) : Bytes :=
  order.foldl (fun text root => resolveFrom root.1 root.2 text.length text) (maskHashes s.dir text)

def daemonMayIdentify (path : Bytes) : Bool :=
  let underOut := s.out ≠ [] ∧ s.out.isPrefixOf path ∧
    (path.length = s.out.length ∨ path[s.out.length]? = some 47)
  s.byContent && isStorePath s.dir path && !decide underOut

end Store

/-- The file system as `ReadFile` and `Exists` see it: the contents a path leads to, if it can be
read, and whether it leads anywhere.  The empty path leads nowhere. -/
structure Files where
  read : Bytes → Option Bytes
  existing : Bytes → Bool
  read_nil : read [] = none
  existing_nil : existing [] = false

/-- The identity of a file for the validation of a manifest. -/
def Store.inputId (blake3 : Bytes → Bytes) (s : Store) (files : Files) (path : Bytes) :
    Option Bytes :=
  if isStorePath s.dir path ∧ s.byContent = false then some (ascii "S:" ++ path)
  else
    match s.known.lookup path with
    | some id => some id
    | none =>
      (files.read path).map fun content =>
        ascii "C:" ++ hashOf blake3 (if isStorePath s.dir path then content else s.maskOut content)

/-! ## Roots -/

namespace Store

theorem lookup_emplace (dir : Bytes) (table : Table Bytes Bytes) (root masked : Bytes) :
    (emplace dir table root).lookup masked =
      (table.lookup masked).or
        (if maskHashes dir root = masked ∧ root ≠ masked then some root else none) := by
  by_cases hmasked : maskHashes dir root = masked ∧ root ≠ masked
  · obtain ⟨rfl, hne⟩ := hmasked
    rw [if_pos ⟨rfl, hne⟩]
    cases hlook : table.lookup (maskHashes dir root) with
    | none =>
      rw [emplace, if_pos ⟨Ne.symm hne, hlook⟩, Table.lookup_insert, if_pos rfl, none_or]
    | some real =>
      have hkept : emplace dir table root = table :=
        if_neg fun h => some_ne_none _ (hlook.symm.trans h.2)
      rw [hkept, hlook, some_or]
  · rw [if_neg hmasked, or_none]
    unfold emplace
    dsimp only
    split
    · rename_i hnew
      rw [Table.lookup_insert, if_neg]
      rintro rfl
      exact hmasked ⟨rfl, Ne.symm hnew.1⟩
    · rfl

theorem lookup_foldl_emplace (dir : Bytes) (roots : List Bytes) (table : Table Bytes Bytes)
    (masked : Bytes) :
    (roots.foldl (emplace dir) table).lookup masked =
      (table.lookup masked).or
        (roots.find? fun root => maskHashes dir root = masked ∧ root ≠ masked) := by
  induction roots generalizing table with
  | nil => simp
  | cons root roots ih =>
    rw [foldl_cons, ih, lookup_emplace, Option.or_assoc]
    by_cases hroot : maskHashes dir root = masked ∧ root ≠ masked
    · rw [if_pos hroot, some_or,
        find?_cons_of_pos (by simpa only [decide_eq_true_eq] using hroot)]
    · rw [if_neg hroot, none_or,
        find?_cons_of_neg (by simpa only [decide_eq_true_eq] using hroot)]

/-- The first root of the build with a given masked name; only content identities mask names. -/
def rootFor (dir : Bytes) (env : StoreEnv) (masked : Bytes) : Option Bytes :=
  if env.byContent then
    (rootsOf dir env).find? fun root => maskHashes dir root = masked ∧ root ≠ masked
  else none

theorem lookup_maskedToReal (dir : Bytes) (env : StoreEnv) (masked : Bytes) :
    (new dir env).maskedToReal.lookup masked = rootFor dir env masked := by
  unfold new rootFor
  dsimp only
  split
  · rw [lookup_foldl_emplace]
    rfl
  · rfl

end Store

end Corepkgs.Jig
