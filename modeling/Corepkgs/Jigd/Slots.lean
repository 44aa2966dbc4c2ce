import Corepkgs.Lib.Procs
import Corepkgs.Lib.Table
import Corepkgs.Lib.Bytes
import Corepkgs.Lib.Steps
import Mathlib.Data.List.Perm.Basic
/-!
# Compile slots

`slots.go` and the part of `serve` that uses it.  The fields of `Slots` are only
touched with its mutex held, so each of `Acquire`'s first half and `Release` is
one step of the system; everything a handler does to its own variables is a step
of its own.  A queued waiter's channel is named by the handler that blocks on it.
-/

namespace Corepkgs.Jigd

open Lib

@[ext] structure Waiter where
  build : Bytes
  /-- The handler that waits for this channel to be closed. -/
  ready : Nat
  deriving DecidableEq, Repr

structure Slots where
  limit : Int
  out : Int
  /-- Tokens per build. -/
  held : Table Bytes Int
  waiting : List Waiter

namespace Slots

def new (limit : Int) : Slots := { limit := limit, out := 0, held := ∅, waiting := [] }

variable (s : Slots)

def count (build : Bytes) : Int := (s.held.lookup build).getD 0

def charge (build : Bytes) : Slots :=
  { s with out := s.out + 1, held := s.held.insert build (s.count build + 1) }

def acquire (w : Waiter) : Slots × Bool :=
  if s.out < s.limit ∧ s.waiting = [] then (s.charge w.build, true)
  else ({ s with waiting := s.waiting ++ [w] }, false)

/-- The index of the waiter whose build holds the fewest tokens, the first among equals. -/
def best (s : Slots) : Nat :=
  s.waiting.zipIdx.foldl
    (fun best e =>
      if s.count e.1.build < ((s.waiting[best]?).map fun w => s.count w.build).getD 0 then e.2
      else best) 0

/-- One round of `grant`'s loop, with the waiter whose channel it closes. -/
def grantOne : Option (Waiter × Slots) :=
  if s.out < s.limit ∧ s.waiting ≠ [] then
    (s.waiting[s.best]?).map fun w =>
      (w, { s with waiting := s.waiting.eraseIdx s.best }.charge w.build)
  else none

def grantLoop : Nat → Slots → Slots × List Waiter
  | 0, s => (s, [])
  | n + 1, s =>
    match s.grantOne with
    | some (w, s') => ((grantLoop n s').1, w :: (grantLoop n s').2)
    | none => (s, [])

def grant : Slots × List Waiter := grantLoop s.waiting.length s

/-- `s.out--; if s.held[build]--; s.held[build] <= 0 { delete(s.held, build) }` -/
def discharge (build : Bytes) : Slots :=
  { s with
    out := s.out - 1
    held := if s.count build - 1 ≤ 0 then s.held.erase build
      else s.held.insert build (s.count build - 1) }

def release (build : Bytes) : Slots × List Waiter := (s.discharge build).grant

end Slots

/-! ## Connection handlers -/

inductive Pc where
  /-- In `readLine`. -/
  | reading
  /-- About to lock the mutex in `Acquire`. -/
  | acquiring (build : Bytes)
  /-- Receiving from the waiter's channel; `woken` once it is closed. -/
  | blocked (build : Bytes) (woken : Bool)
  /-- `Acquire` has returned, `held` does not say so yet. -/
  | acquired (build : Bytes)
  /-- `held` is counted down, `Release` has yet to lock the mutex. -/
  | releasing (build : Bytes)
  /-- Writing and flushing the answer. -/
  | replying
  /-- Leaving the loop, before the deferred function. -/
  | returning
  /-- In the deferred function: builds and counts it has yet to release. -/
  | unwinding (todo : List (Bytes × Nat))
  | returned
  deriving DecidableEq

/-- A connection's goroutine.  `held` never goes below zero, so its counts are natural numbers. -/
structure Handler where
  held : Table Bytes Nat
  pc : Pc

inductive Request where
  | slot (build : Bytes)
  | done (build : Bytes)
  /-- `GET`, `HAS`, `PUT`, `IDS` and `STATS` leave the slots alone. -/
  | other
  | bad
  deriving DecidableEq

def request : List Bytes → Request
  | [verb] => if verb = ascii "STATS" then .other else .bad
  | [verb, arg] =>
    if verb = ascii "GET" ∨ verb = ascii "HAS" ∨ verb = ascii "IDS" then .other
    else if verb = ascii "SLOT" then .slot arg
    else if verb = ascii "DONE" then .done arg
    else .bad
  | [verb, _, _] => if verb = ascii "PUT" then .other else .bad
  | _ => .bad

namespace Handler

def count (h : Handler) (build : Bytes) : Nat := (h.held.lookup build).getD 0

def goTo (h : Handler) (pc : Pc) : Handler := { h with pc := pc }

def dispatch (h : Handler) (fields : List Bytes) : Handler :=
  match request fields with
  | .slot build => h.goTo (.acquiring build)
  | .done build =>
    if 0 < h.count build then
      { held := h.held.insert build (h.count build - 1), pc := .releasing build }
    else h.goTo .replying
  | .other => h.goTo .replying
  | .bad => h.goTo .returning

def wake (h : Handler) : Handler :=
  match h.pc with
  | .blocked build _ => h.goTo (.blocked build true)
  | _ => h

end Handler

structure Server where
  slots : Slots
  handlers : List Handler

inductive HandlerAct where
  | line (fields : List Bytes)
  /-- The client hung up, or sent a line longer than the buffer. -/
  | readFails
  | acquire
  | resume
  | tally
  | release
  /-- Any request's answer is written, or an error ends the handler. -/
  | reply (ok : Bool)
  /-- The deferred function starts to range over `held`, in any order. -/
  | unwind (todo : List (Bytes × Nat))
  | next
  | finish

inductive ServerAct where
  | accept (allowed : Bool)
  | move (i : Nat) (a : HandlerAct)

namespace Server

def init (limit : Int) : Server := { slots := .new limit, handlers := [] }

variable (s : Server)

def put (i : Nat) (h : Handler) : Server :=
  { s with handlers := s.handlers.set i h }

def wake (handlers : List Handler) (w : Waiter) : List Handler :=
  match handlers[w.ready]? with
  | some h => handlers.set w.ready h.wake
  | none => handlers

def acquire (i : Nat) (h : Handler) (build : Bytes) : Server :=
  let r := s.slots.acquire ⟨build, i⟩
  { slots := r.1
    handlers := s.handlers.set i (h.goTo (if r.2 then .acquired build else .blocked build false)) }

def release (i : Nat) (h : Handler) (build : Bytes) : Server :=
  let r := s.slots.release build
  { slots := r.1, handlers := r.2.foldl wake (s.handlers.set i h) }

def stepHandler (i : Nat) (h : Handler) : Pc → HandlerAct → Option Server
  | .reading, .line fields => some (s.put i (h.dispatch fields))
  | .reading, .readFails => some (s.put i (h.goTo .returning))
  | .acquiring build, .acquire => some (s.acquire i h build)
  | .blocked build true, .resume => some (s.put i (h.goTo (.acquired build)))
  | .acquired build, .tally =>
    some (s.put i { held := h.held.insert build (h.count build + 1), pc := .replying })
  | .releasing build, .release => some (s.release i (h.goTo .replying) build)
  | .replying, .reply ok => some (s.put i (h.goTo (if ok then .reading else .returning)))
  | .returning, .unwind todo =>
    if todo.Perm h.held.pairs then some (s.put i (h.goTo (.unwinding todo))) else none
  | .unwinding ((build, n + 1) :: todo), .release =>
    some (s.release i (h.goTo (.unwinding ((build, n) :: todo))) build)
  | .unwinding ((_, 0) :: todo), .next => some (s.put i (h.goTo (.unwinding todo)))
  | .unwinding [], .finish => some (s.put i (h.goTo .returned))
  | _, _ => none

def step : ServerAct → Option Server
  | .accept allowed =>
    some { s with
      handlers := s.handlers ++ [{ held := ∅, pc := if allowed then .reading else .returned }] }
  | .move i a =>
    match s.handlers[i]? with
    | some h => s.stepHandler i h h.pc a
    | none => none

end Server

end Corepkgs.Jigd
