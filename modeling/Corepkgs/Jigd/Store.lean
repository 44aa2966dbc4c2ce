import Corepkgs.Lib.Files
import Corepkgs.Jigd.PackName
import Corepkgs.Jigd.Record
import Mathlib.Data.List.Sort
/-!
# The blob store

`store.go`, one definition per function.  The state is the `Store` record and
the files below it; a function that can fail returns the state it leaves behind
beside its verdict.  What the kernel decides (which call fails, after how many
bytes, what a clock or an mtime says, in which order `range` visits a map) is an
argument, gathered in one environment record per operation.

Pack ids, offsets and lengths are `uint32` in the source and naturals reduced by
`u32` here; a `*pack` is named by its key in `packs`.  The temporary file `seal`
writes before its rename is not modelled: nothing ever opens it under that name.
-/

namespace Corepkgs.Jigd

open Lib

def touchEvery : Int := 60 * 10 ^ 9

/-- A `Put` body from here on waits for the lock in a temp file, not in RAM. -/
def spoolMin : Int := 4 * 2 ^ 20

def maxValue : Int := 2 * 2 ^ 30

inductive Ext where
  | pack
  | hint
  deriving DecidableEq, Repr

def Ext.text : Ext → Bytes
  | .pack => packExt
  | .hint => hintExt

def filePath (t id : Nat) (ext : Ext) : Path := (t, packName id ext.text)

def tmpPath (t id : Nat) (ext : Ext) : Path := (t, packName id (ext.text ++ ascii ".tmp"))

structure Tier where
  budget : Int
  total : Int

structure Pack where
  id : Nat
  /-- Index into `Store.tiers`. -/
  tier : Nat
  /-- The inode behind the open `*os.File`. -/
  file : Nat
  size : Nat
  live : Int
  used : Int
  touched : Int

structure Store where
  tiers : List Tier
  index : Table Bytes Loc
  packs : Table Nat Pack
  active : Option Nat
  closed : Bool

structure World where
  store : Store
  fs : FileSystem

/-- The order in which `range` visits a map: any. -/
structure RangeOrder where
  visit : List (Bytes × Loc) → List (Bytes × Loc)
  perm : ∀ l, (visit l).Perm l

namespace Store

variable (s : Store)

def modifyPack (id : Nat) (f : Pack → Pack) : Store :=
  match s.packs.lookup id with
  | some p => { s with packs := s.packs.insert id (f p) }
  | none => s

def addPack (p : Pack) : Store := { s with packs := s.packs.insert p.id p }

def modifyTier (t : Nat) (f : Tier → Tier) : Store :=
  { s with tiers := s.tiers.modify t f }

def addTotal (t : Nat) (n : Int) : Store :=
  s.modifyTier t fun tier => { tier with total := tier.total + n }

def activePack : Option Pack := s.active.bind fun id => s.packs.lookup id

def add (id : Nat) (s : Store) (e : Bytes × Loc) : Store :=
  match s.index.lookup e.1 with
  | some old =>
    if old.pack > e.2.pack then s
    else
      let s' := s.modifyPack old.pack fun p => { p with live := p.live - old.len }
      { s' with index := s'.index.insert e.1 e.2 }.modifyPack id fun p =>
        { p with live := p.live + e.2.len }
  | none =>
    { s with index := s.index.insert e.1 e.2 }.modifyPack id fun p =>
      { p with live := p.live + e.2.len }

def overBudget (tier : Tier) : Bool := 0 < tier.budget && tier.budget < tier.total

def stale (p : Pack) : Bool := p.live * 2 < p.size

def goesBefore (a b : Pack) : Bool :=
  if stale a != stale b then stale a
  else a.used < b.used || (a.used == b.used && a.id < b.id)

def leaving (t : Nat) : List Pack :=
  (s.packs.entries.map fun e => e.2).filter fun p => p.tier = t && s.active ≠ some p.id

def victim : Option Pack :=
  (List.range s.tiers.length).findSome? fun t =>
    match s.tiers[t]? with
    | some tier =>
      if overBudget tier then
        ((s.leaving t).insertionSort fun a b => goesBefore b a = false).head?
      else none
    | none => none

end Store

/-! ## Sealing and rotating -/

structure SealEnv where
  order : RangeOrder
  /-- `Create`, `Flush`, `Close` or `Rename` returns an error. -/
  fails : Bool

structure RotateEnv where
  sealing : SealEnv
  /-- The exclusive create of the new pack fails for another reason than the name being taken. -/
  openFails : Bool
  now : Int

namespace World

/-- `seal`: the hint lists what the index says about the pack at this moment. -/
def sealPack (env : SealEnv) (w : World) (p : Pack) : World × Bool :=
  if env.fails then (w, false)
  else
    let listed := (env.order.visit w.store.index.pairs).filter fun e => e.2.pack = p.id
    ({ w with fs := w.fs.place (filePath p.tier p.id .hint) (hintBytes listed) }, true)

def openActive (now : Int) (w : World) (id : Nat) : World :=
  { store :=
      { w.store with active := some id }.addPack
        { id := id, tier := 0, file := w.fs.inodes.length, size := 0, live := 0,
          used := now, touched := now }
    fs := w.fs.place (filePath 0 id .pack) [] }

def sealActive (env : SealEnv) (w : World) : World × Bool :=
  match w.store.activePack with
  | some p => w.sealPack env p
  | none => (w, true)

def rotate (env : RotateEnv) (w : World) (id : Nat) : World × Bool :=
  match w.sealActive env.sealing with
  | (w, false) => (w, false)
  | (w, true) =>
    if env.openFails || (w.fs.lookup (filePath 0 id .pack)).isSome then (w, false)
    else (w.openActive env.now id, true)

def close (env : SealEnv) (w : World) : World × Bool := w.sealActive env

/-! ## Get -/

end World

structure Reader where
  file : Nat
  off : Nat
  len : Nat
  deriving DecidableEq, Repr

/-- What reading the section to its end yields. -/
def Reader.read (r : Reader) (fs : FileSystem) : Bytes := slice (fs.data r.file) r.off r.len

namespace World

/-- The section `Get` hands out.  An index entry without its pack would be a nil dereference;
none is ever reached. -/
def reader (w : World) (key : Bytes) : Option Reader :=
  (w.store.index.lookup key).bind fun l =>
    (w.store.packs.lookup l.pack).map fun p => ⟨p.file, l.off, l.len⟩

def get (w : World) (key : Bytes) (now : Int) : World × Option Reader :=
  match w.store.index.lookup key with
  | none => (w, none)
  | some l =>
    ({ w with store := w.store.modifyPack l.pack fun p =>
        { p with
          used := now
          touched := if now - p.touched > touchEvery then now else p.touched } },
      w.reader key)

def value (w : World) (key : Bytes) : Option Bytes := (w.reader key).map fun r => r.read w.fs

/-! ## Put -/

end World

inductive PutError where
  | badPut
  | shortBody
  | spool
  | closed
  | rotate
  | seek
  | header
  | body
  deriving DecidableEq, Repr

structure PutEnv where
  /-- `CreateTemp`, the copy into it or the `Seek` back fails. -/
  spoolFails : Bool
  rotate : RotateEnv
  seekFails : Bool
  /-- The header write fails after this many bytes. -/
  headerStops : Option Nat
  /-- The body copy ends after this many bytes. -/
  bodyStops : Option Nat
  truncateFails : Bool

/-- The part of `Put` before the lock: check the arguments, read the whole body. -/
def readBody (env : PutEnv) (key : Bytes) (size : Int) (r : Bytes) : Except PutError Bytes :=
  if key.length = 0 || key.length > 4096 || key.any (fun b => b == 10 || b == 32) ||
      size < 0 || size > maxValue then .error .badPut
  else if size ≥ spoolMin && env.spoolFails then .error .spool
  else if (r.length : Int) < size then .error .shortBody
  else .ok (r.take size.toNat)

namespace World

/-- A failed write is undone by `Truncate`, whose own error is dropped. -/
def undoWrite (env : PutEnv) (w : World) (p : Pack) : World :=
  if env.truncateFails then w
  else { w with fs := w.fs.setData p.file (truncateTo (w.fs.data p.file) p.size) }

def writePack (w : World) (p : Pack) (off : Nat) (bytes : Bytes) : World :=
  { w with fs := w.fs.setData p.file (writeAt (w.fs.data p.file) off bytes) }

def commit (s : Store) (p : Pack) (key : Bytes) (size : Nat) : Store :=
  let recLen := recHeader + key.length + size
  let s := match s.index.lookup key with
    | some old => s.modifyPack old.pack fun q => { q with live := q.live - old.len }
    | none => s
  let s := { s with
    index := s.index.insert key
      ⟨p.id, u32 (u32 p.size + recHeader + u32 key.length), u32 size⟩ }
  let s := s.modifyPack p.id fun q => { q with size := q.size + recLen, live := q.live + size }
  s.addTotal 0 recLen

/-- Appending one record to the active pack `p`: seek, header, body, bookkeeping. -/
def append (env : PutEnv) (w : World) (p : Pack) (key body : Bytes) :
    World × Except PutError Unit :=
  let head := recordHead key body.length
  if env.seekFails then (w, .error .seek)
  else
    match env.headerStops with
    | some n => ((w.writePack p p.size (head.take n)).undoWrite env p, .error .header)
    | none =>
      let w := w.writePack p p.size head
      match env.bodyStops with
      | some n =>
        ((w.writePack p (p.size + head.length) (body.take n)).undoWrite env p, .error .body)
      | none =>
        let w := w.writePack p (p.size + head.length) body
        ({ w with store := commit w.store p key body.length }, .ok ())

def needsRotate (p : Pack) (key body : Bytes) : Bool :=
  p.size + (recHeader + key.length + body.length) > packLimit && p.size > 0

/-- The part of `Put` under the lock. -/
def putLocked (env : PutEnv) (w : World) (key body : Bytes) : World × Except PutError Unit :=
  if w.store.closed then (w, .error .closed)
  else
    match w.store.activePack with
    | none => (w, .error .closed)
    | some p =>
      if needsRotate p key body then
        match w.rotate env.rotate (u32 (p.id + 1)) with
        | (w, false) => (w, .error .rotate)
        | (w, true) =>
          match w.store.activePack with
          | none => (w, .error .rotate)
          | some p => w.append env p key body
      else w.append env p key body

def put (env : PutEnv) (w : World) (key : Bytes) (size : Int) (r : Bytes) :
    World × Except PutError Unit :=
  match readBody env key size r with
  | .error e => (w, .error e)
  | .ok body => w.putLocked env key body

/-! ## Loading -/

end World

/-- Which call of `load` fails. -/
inductive LoadFault where
  | opening
  | truncating
  | sealing
  deriving DecidableEq, Repr

structure OpenEnv where
  /-- The mtime of a tier's pack file. -/
  mtime : Nat → Nat → Int
  fault : Nat → Nat → Option LoadFault
  order : RangeOrder
  openFails : Bool
  now : Int

namespace World

/-- The pack `load` enters into the table before it knows what is in it. -/
def openedPack (env : OpenEnv) (fs : FileSystem) (t id file : Nat) : Pack :=
  { id := id, tier := t, file := file, size := (fs.data file).length, live := 0,
    used := env.mtime t id, touched := env.mtime t id }

/-- `load` of a sealed pack, from its hint. -/
def loadHint (w : World) (p : Pack) (hint : Nat) : World :=
  let s := (hintEntries p.id p.size (w.fs.data hint)).foldl (Store.add p.id) (w.store.addPack p)
  { w with store := s.addTotal p.tier p.size }

/-- `load` of a pack that was active when the daemon stopped: scan, truncate a torn tail, seal. -/
def loadScan (env : OpenEnv) (w : World) (p : Pack) : World × Bool :=
  let found := scan p.id (w.fs.data p.file)
  let s := found.1.foldl (Store.add p.id) (w.store.addPack p)
  if found.2 ≠ p.size ∧ env.fault p.tier p.id = some .truncating then ({ w with store := s }, false)
  else
    -- a complete file is truncated to its own length: no call, no change
    let fs := if found.2 ≠ p.size
      then w.fs.setData p.file (truncateTo (w.fs.data p.file) found.2) else w.fs
    let s := (s.modifyPack p.id fun q => { q with size := found.2 }).addTotal p.tier found.2
    sealPack ⟨env.order, env.fault p.tier p.id = some .sealing⟩ ⟨s, fs⟩ p

def load (env : OpenEnv) (w : World) (t id : Nat) : World × Bool :=
  match w.fs.lookup (filePath t id .pack) with
  | none => (w, false)
  | some file =>
    if env.fault t id = some .opening then (w, false)
    else
      match w.fs.lookup (filePath t id .hint) with
      | some hint => (w.loadHint (openedPack env w.fs t id file) hint, true)
      | none => w.loadScan env (openedPack env w.fs t id file)

/-- One file name of `OpenStore`'s loop; the second component is `last`. -/
def openName (env : OpenEnv) (t : Nat) (acc : World × Nat) (name : Bytes) : World × Nat :=
  match scanId name with
  | none => acc
  | some id =>
    if (acc.1.store.packs.lookup id).isSome then
      ({ acc.1 with fs := (acc.1.fs.remove (t, name)).remove (filePath t id .hint) }, acc.2)
    else
      match acc.1.load env t id with
      | (w, true) => (w, max acc.2 id)
      | (w, false) => (w, acc.2)

/-- One tier of `OpenStore`'s loop: the pack names of the directory, sorted. -/
def openTier (env : OpenEnv) (acc : World × Nat) (t : Nat) : World × Nat :=
  (((acc.1.fs.names t).filter globPack).insertionSort (· ≤ ·)).foldl (openName env t) acc

def emptyStore (budgets : List Int) : Store :=
  { tiers := budgets.map fun b => ⟨b, 0⟩, index := ∅, packs := ∅, active := none, closed := false }

/-- `OpenStore` on tiers with these budgets; `false` when it returns an error. -/
def openStore (env : OpenEnv) (budgets : List Int) (fs : FileSystem) : World × Bool :=
  let loaded := (List.range budgets.length).foldl (openTier env) (⟨emptyStore budgets, fs⟩, 0)
  loaded.1.rotate ⟨⟨env.order, false⟩, env.openFails, env.now⟩ (u32 (loaded.2 + 1))

/-! ## Demotion and eviction -/

def evict (w : World) (p : Pack) : World :=
  { store :=
      { w.store with
        index := w.store.index.keep fun _ l => l.pack ≠ p.id
        packs := w.store.packs.erase p.id }.addTotal p.tier (-p.size)
    fs := (w.fs.remove (filePath p.tier p.id .pack)).remove (filePath p.tier p.id .hint) }

/-- The locked end of `moveDown`: switch to the copy `file` in the next tier, drop the sources. -/
def switchDown (w : World) (p : Pack) (file : Nat) : World :=
  { store := ((w.store.modifyPack p.id fun q =>
        { q with file := file, tier := p.tier + 1 }).addTotal p.tier (-p.size)).addTotal
          (p.tier + 1) p.size
    fs := (w.fs.remove (filePath p.tier p.id .pack)).remove (filePath p.tier p.id .hint) }

end World

/-! ## Environments in which nothing fails -/

def plainPut : PutEnv :=
  { spoolFails := false
    rotate := ⟨⟨⟨fun l => l, fun l => List.Perm.refl l⟩, false⟩, false, 0⟩
    seekFails := false, headerStops := none, bodyStops := none, truncateFails := false }

def plainOpen : OpenEnv :=
  { mtime := fun _ _ => 0, fault := fun _ _ => none,
    order := ⟨fun l => l, fun l => List.Perm.refl l⟩, openFails := false, now := 0 }

end Corepkgs.Jigd
