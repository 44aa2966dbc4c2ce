import Corepkgs.Lib.Procs
import Corepkgs.Lib.Steps
import Mathlib
/-!
# The jobserver broker

One broker feeds the semaphore of a build from daemon slots (`broker.cc`).  Its
thread moves one statement at a time, one call of `sem_trywait` or `sem_post` at
a time and, inside `resize`, one dropped slot at a time; between any two of its
steps every ghc may take a capability from the semaphore or give one back.
-/

namespace Corepkgs.Jsem

open Lib

inductive Pc where
  /-- Between two calls of `Tick`. -/
  | resting
  /-- `while (sem_->TryWait())` -/
  | draining (idle : Nat)
  /-- `++idle` -/
  | drained (idle : Nat)
  /-- `const size_t in_use = …` -/
  | measuring (idle : Nat)
  /-- `held_.resize(…)`, its argument not yet computed -/
  | trimming (inUse : Nat)
  /-- Inside `resize(target)`. -/
  | resizing (inUse target : Nat)
  /-- `const bool spare = …` -/
  | judging (inUse : Nat)
  /-- `source_(!spare)` -/
  | asking (inUse : Nat) (spare : Bool)
  /-- `held_.push_back(token)` if there is one -/
  | answered (inUse : Nat) (token : Bool)
  /-- `if (held_.size() > in_use) sem_->Post()` -/
  | posting (inUse : Nat)
  /-- The loop of `~Broker`. -/
  | closing (i : Nat)
  /-- The destruction of `held_`, after the loop. -/
  | dropping
  | destroyed
  deriving DecidableEq, Repr

structure Sys where
  /-- The count of the named semaphore. -/
  sem : Nat
  /-- The daemon slots in `held_`. -/
  held : Nat
  /-- For every ghc the capabilities it has taken from the semaphore. -/
  ghcs : List Nat
  pc : Pc
  deriving DecidableEq, Repr

inductive Label where
  /-- The broker's next statement; `token` is what the source answers if it is asked. -/
  | broker (token : Bool)
  /-- The broker goes out of scope. -/
  | destroy
  /-- A ghc starts. -/
  | start
  /-- `sem_wait` or a `sem_trywait` that succeeds, in ghc `i`. -/
  | take (i : Nat)
  /-- `sem_post` in ghc `i`, for a capability it has taken. -/
  | give (i : Nat)

namespace Sys

def init (tokens : Nat) : Sys := { sem := tokens, held := 0, ghcs := [], pc := .resting }

def taken (s : Sys) : Nat := s.ghcs.sum

def goTo (s : Sys) (pc : Pc) : Sys := { s with pc := pc }

def stepBroker (s : Sys) (token : Bool) : Pc → Sys
  | .resting => s.goTo (.draining 0)
  | .draining idle =>
    if 0 < s.sem then { s with sem := s.sem - 1, pc := .drained idle } else s.goTo (.measuring idle)
  | .drained idle => s.goTo (.draining (idle + 1))
  | .measuring idle => s.goTo (.trimming (s.held - min s.held idle))
  | .trimming inUse => s.goTo (.resizing inUse (min s.held (inUse + 1)))
  | .resizing inUse target =>
    if target < s.held then { s with held := s.held - 1 } else s.goTo (.judging inUse)
  | .judging inUse => s.goTo (.asking inUse (s.held == inUse + 1))
  | .asking inUse _ => s.goTo (.answered inUse token)
  | .answered inUse token =>
    { s with held := if token then s.held + 1 else s.held, pc := .posting inUse }
  | .posting inUse =>
    { s with sem := if inUse < s.held then s.sem + 1 else s.sem, pc := .resting }
  | .closing i =>
    if i < s.held ∧ 0 < s.sem then { s with sem := s.sem - 1, pc := .closing (i + 1) }
    else s.goTo .dropping
  | .dropping => if 0 < s.held then { s with held := s.held - 1 } else s.goTo .destroyed
  | .destroyed => s

def step (s : Sys) : Label → Option Sys
  | .broker token => some (s.stepBroker token s.pc)
  | .destroy => if s.pc = .resting then some (s.goTo (.closing 0)) else none
  | .start => some { s with ghcs := s.ghcs ++ [0] }
  | .take i =>
    match s.ghcs[i]? with
    | some n => if 0 < s.sem then some { s with sem := s.sem - 1, ghcs := s.ghcs.set i (n + 1) }
        else none
    | none => none
  | .give i =>
    match s.ghcs[i]? with
    | some n => if 0 < n then some { s with sem := s.sem + 1, ghcs := s.ghcs.set i (n - 1) }
        else none
    | none => none

end Sys

/-! ## No over-admission -/

/-- What bounds the tokens and the taken capabilities while the broker's thread is at `pc`: tokens
it has drained count as its own, and once it has measured it answers for `in_use` slots, which
`resize` leaves alone. -/
def Pc.Bound (tokens offered held : Nat) : Pc → Prop
  | .resting => offered ≤ tokens + held
  | .draining idle | .measuring idle | .closing idle => offered + idle ≤ tokens + held
  | .drained idle => offered + idle + 1 ≤ tokens + held
  | .trimming inUse | .judging inUse | .asking inUse _ | .answered inUse _ | .posting inUse =>
    offered ≤ tokens + inUse ∧ inUse ≤ held
  | .resizing inUse target => offered ≤ tokens + inUse ∧ inUse ≤ target ∧ target ≤ held
  | .dropping | .destroyed => True

def Pc.Alive : Pc → Prop
  | .dropping | .destroyed => False
  | _ => True

theorem Pc.Bound.le {tokens offered held : Nat} {pc : Pc} (h : pc.Bound tokens offered held)
    (halive : pc.Alive) : offered ≤ tokens + held := by
  cases pc with
  | dropping | destroyed => exact halive.elim
  | resting => exact h
  | draining idle | measuring idle | closing idle =>
    have hidle : offered + idle ≤ tokens + held := h
    omega
  | drained idle =>
    have hidle : offered + idle + 1 ≤ tokens + held := h
    omega
  | trimming inUse | judging inUse | posting inUse =>
    obtain ⟨hle, huse⟩ : offered ≤ tokens + inUse ∧ inUse ≤ held := h
    omega
  | asking inUse _ | answered inUse _ =>
    obtain ⟨hle, huse⟩ : offered ≤ tokens + inUse ∧ inUse ≤ held := h
    omega
  | resizing inUse target =>
    obtain ⟨hle, huse, htarget⟩ : offered ≤ tokens + inUse ∧ inUse ≤ target ∧ target ≤ held := h
    omega

namespace Sys

/-- Tokens on offer and capabilities in use. -/
def offered (s : Sys) : Nat := s.sem + s.taken

def Bounded (tokens : Nat) (s : Sys) : Prop := s.pc.Bound tokens s.offered s.held

theorem Bounded.stepBroker {tokens : Nat} {s : Sys} (h : s.Bounded tokens) (token : Bool) :
    (s.stepBroker token s.pc).Bounded tokens := by
  obtain ⟨sem, held, ghcs, pc⟩ := s
  simp only [Bounded, offered, taken] at h
  cases pc with
  | resting => exact h
  | draining idle =>
    simp only [Sys.stepBroker]
    split
    · simp only [Bounded, offered, taken, Pc.Bound] at h ⊢
      omega
    · exact h
  | drained _ | measuring _ | trimming _ =>
    simp only [Sys.stepBroker, goTo, Bounded, offered, taken, Pc.Bound] at h ⊢
    omega
  | resizing inUse target =>
    simp only [Sys.stepBroker]
    split
    · simp only [Bounded, offered, taken, Pc.Bound] at h ⊢
      omega
    · simp only [goTo, Bounded, offered, taken, Pc.Bound] at h ⊢
      omega
  | judging _ | asking _ _ => exact h
  | answered _ _ | posting _ =>
    simp only [Sys.stepBroker, Bounded, offered, taken, Pc.Bound] at h ⊢
    split <;> omega
  | closing i =>
    simp only [Sys.stepBroker]
    split
    · simp only [Bounded, offered, taken, Pc.Bound] at h ⊢
      omega
    · trivial
  | dropping =>
    simp only [Sys.stepBroker]
    split <;> trivial
  | destroyed => exact h

theorem taken_set {s : Sys} {i n : Nat} (hget : s.ghcs[i]? = some n) (m : Nat) :
    (s.ghcs.set i m).sum + n = s.taken + m := by
  have hsum := Procs.sum_set_add id hget m
  simpa [taken] using hsum

/-- A ghc only moves a token between the semaphore and itself. -/
theorem offered_of_step {s s' : Sys} {a : Label} (hstep : s.step a = some s')
    (hghc : ∀ token, a ≠ .broker token) (hdestroy : a ≠ .destroy) :
    s'.offered = s.offered ∧ s'.held = s.held ∧ s'.pc = s.pc := by
  cases a with
  | broker token => exact absurd rfl (hghc token)
  | destroy => exact absurd rfl hdestroy
  | start =>
    cases hstep
    simp [offered, taken]
  | take i =>
    rw [step] at hstep
    cases hget : s.ghcs[i]? with
    | none => rw [hget] at hstep; cases hstep
    | some n =>
      rw [hget] at hstep
      simp only at hstep
      split at hstep
      · rename_i hpos
        cases hstep
        have hsum := taken_set hget (n + 1)
        refine ⟨?_, rfl, rfl⟩
        simp only [offered, taken] at hsum ⊢
        omega
      · cases hstep
  | give i =>
    rw [step] at hstep
    cases hget : s.ghcs[i]? with
    | none => rw [hget] at hstep; cases hstep
    | some n =>
      rw [hget] at hstep
      simp only at hstep
      split at hstep
      · rename_i hpos
        cases hstep
        have hsum := taken_set hget (n - 1)
        refine ⟨?_, rfl, rfl⟩
        simp only [offered, taken] at hsum ⊢
        omega
      · cases hstep

theorem Bounded.step {tokens : Nat} {s s' : Sys} {a : Label} (h : s.Bounded tokens)
    (hstep : s.step a = some s') : s'.Bounded tokens := by
  by_cases hbroker : ∃ token, a = .broker token
  · obtain ⟨token, rfl⟩ := hbroker
    cases hstep
    exact h.stepBroker token
  · by_cases hdestroy : a = .destroy
    · subst hdestroy
      rw [Sys.step] at hstep
      split at hstep
      · rename_i hpc
        cases hstep
        rw [Bounded, hpc] at h
        exact h
      · cases hstep
    · obtain ⟨hoffered, hheld, hpc⟩ := offered_of_step hstep (fun token h => hbroker ⟨token, h⟩)
        hdestroy
      rw [Bounded, hoffered, hheld, hpc]
      exact h

/-- Whatever the ghcs do between two statements of `Tick`, and whatever the source answers, no
capability is offered or taken that neither the creator's tokens nor a held slot stand for. -/
theorem no_over_admission {tokens : Nat} {as : List Label} {s : Sys}
    (hrun : Steps (fun s a s' => s.step a = some s') (init tokens) as s) (halive : s.pc.Alive) :
    s.sem + s.taken ≤ tokens + s.held := by
  have h : s.Bounded tokens :=
    hrun.invariant (P := Bounded tokens) (fun _ _ _ h hstep => h.step hstep) le_rfl
  exact h.le halive

/-- A ghc gives its capability back after the broker has measured, and the source has a slot. -/
theorem no_over_admission_given_back : ∃ as,
    Steps (fun s a s' => Sys.step s a = some s') (init 1) as ⟨2, 1, [0], .resting⟩ ∧
    2 + Sys.taken ⟨2, 1, [0], .resting⟩ ≤ 1 + 1 := by
  have hrun : Steps (fun s a s' => Sys.step s a = some s') (init 1)
      [.start, .take 0, .broker false, .broker false, .broker false, .give 0, .broker false,
        .broker false, .broker false, .broker true, .broker false, .broker false]
      ⟨2, 1, [0], .resting⟩ :=
    .cons rfl <| .cons rfl <| .cons rfl <| .cons rfl <| .cons rfl <| .cons rfl <| .cons rfl <|
      .cons rfl <| .cons rfl <| .cons rfl <| .cons rfl <| .one rfl
  exact ⟨_, hrun, no_over_admission hrun trivial⟩

/-- The statements of `Tick` one after the other, with no ghc in between. -/
def Alone (token : Bool) : Sys → Sys → Prop :=
  Relation.ReflTransGen fun s s' => s.step (.broker token) = some s'

end Sys

end Corepkgs.Jsem
