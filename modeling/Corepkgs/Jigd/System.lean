import Corepkgs.Lib.Steps
import Corepkgs.Jigd.Store
/-!
# The store and its demoter

Goroutines meet at the store mutex: everything a `Put` or a `Get` does to shared
state happens in one critical section, and so do the two ends of `moveDown`.
Between them the demoter works on files only, one system call per step, while
other operations come and go.  A run is a list of such steps.

`pick` lets the demoter take any pack but the active one.  `victim` is one way to
choose; nothing that is proved for every choice depends on it.
-/

namespace Corepkgs.Jigd

open Lib

inductive MoveStage where
  | link (ext : Ext)
  | copying (ext : Ext)
  | rename (ext : Ext)
  | done
  deriving DecidableEq, Repr

def MoveStage.after : Ext → MoveStage
  | .pack => .link .hint
  | .hint => .done

inductive Demoter where
  | waiting
  | looping
  | picked (id : Nat)
  | moving (id src : Nat) (stage : MoveStage)
  deriving DecidableEq, Repr

structure Sys where
  world : World
  demoter : Demoter
  /-- The buffered element of the `demote` channel. -/
  kicked : Bool

inductive Label where
  | put (env : PutEnv) (key : Bytes) (size : Int) (r : Bytes)
  | get (key : Bytes) (now : Int)
  | recv
  | rest
  | pick (id : Nat)
  | evict
  | startMove
  | linked
  | linkFails
  | copySome (n : Nat)
  | copyRest
  | renamed
  | giveUp (dropTmp : Bool)
  | switch
  | beginClose

namespace Sys

variable (s : Sys)

def store : Store := s.world.store

def fs : FileSystem := s.world.fs

def withFs (fs : FileSystem) : Sys := { s with world := { s.world with fs := fs } }

/-- The tier a successful `Put` may leave over budget. -/
def firstOverBudget (s : Store) : Bool :=
  match s.tiers[0]? with
  | some tier => Store.overBudget tier
  | none => false

def stepPut (env : PutEnv) (key : Bytes) (size : Int) (r : Bytes) (s : Sys) : Sys :=
  match s.world.put env key size r with
  | (w, .ok _) => { s with world := w, kicked := s.kicked || firstOverBudget w.store }
  | (w, .error _) => { s with world := w }

def copyBytes (fs : FileSystem) (src dst : Path) (n : Nat) : FileSystem :=
  match fs.lookup src, fs.lookup dst with
  | some i, some j => fs.setData j (fs.data j ++ ((fs.data i).drop (fs.data j).length).take n)
  | _, _ => fs

def stepMove (id src : Nat) : MoveStage → Label → Option Sys
  | .link ext, .linked =>
    if (s.fs.lookup (filePath src id ext)).isSome then
      some { s.withFs (s.fs.link (filePath src id ext) (filePath (src + 1) id ext)) with
        demoter := .moving id src (MoveStage.after ext) }
    else none
  | .link ext, .linkFails =>
    if (s.fs.lookup (filePath src id ext)).isSome then
      some { s.withFs (s.fs.create (tmpPath (src + 1) id ext)) with
        demoter := .moving id src (.copying ext) }
    else none
  | .copying ext, .copySome n =>
    some (s.withFs (copyBytes s.fs (filePath src id ext) (tmpPath (src + 1) id ext) n))
  | .copying ext, .copyRest =>
    let n := match s.fs.lookup (filePath src id ext) with
      | some i => (s.fs.data i).length
      | none => 0
    some { s.withFs (copyBytes s.fs (filePath src id ext) (tmpPath (src + 1) id ext) n) with
      demoter := .moving id src (.rename ext) }
  | .rename ext, .renamed =>
    some { s.withFs (s.fs.rename (tmpPath (src + 1) id ext) (filePath (src + 1) id ext)) with
      demoter := .moving id src (MoveStage.after ext) }
  | .copying ext, .giveUp true =>
    some { s.withFs (s.fs.remove (tmpPath (src + 1) id ext)) with demoter := .waiting }
  | _, .giveUp false => some { s with demoter := .waiting }
  | .done, .switch =>
    match s.store.packs.lookup id, s.fs.lookup (filePath (src + 1) id .pack) with
    | some p, some file => some { s with world := s.world.switchDown p file, demoter := .looping }
    | _, _ => none
  | _, _ => none

def stepDemoter : Demoter → Label → Option Sys
  | .waiting, .recv => if s.kicked then some { s with demoter := .looping, kicked := false }
      else none
  | .looping, .rest => some { s with demoter := .waiting }
  | .looping, .pick id =>
    if (s.store.packs.lookup id).isSome ∧ s.store.active ≠ some id then
      some { s with demoter := .picked id }
    else none
  | .picked id, .evict =>
    match s.store.packs.lookup id with
    | some p =>
      if p.tier + 1 = s.store.tiers.length then
        some { s with world := s.world.evict p, demoter := .looping }
      else none
    | none => none
  | .picked id, .startMove =>
    match s.store.packs.lookup id with
    | some p =>
      if p.tier + 1 < s.store.tiers.length then
        some { s with demoter := .moving id p.tier (.link .pack) }
      else none
    | none => none
  | .moving id src stage, a => s.stepMove id src stage a
  | _, _ => none

def step : Label → Option Sys
  | .put env key size r => some (s.stepPut env key size r)
  | .get key now => some { s with world := (s.world.get key now).1 }
  | .beginClose =>
    some { s with world := { s.world with store := { s.world.store with closed := true } } }
  | a => s.stepDemoter s.demoter a

def fresh (w : World) : Sys := { world := w, demoter := .waiting, kicked := false }

end Sys

end Corepkgs.Jigd
