import Corepkgs.Jsem.Broker
/-!
# What the broker holds at the end of a tick

`Pc.Bound` says that nothing is offered without a slot behind it.  Here the slots
are counted exactly: beside the system runs a tally of what the last `Tick` began
with, what its drain took out, and of the slots the source gave although the
broker did not want one.
-/

namespace Corepkgs.Jsem

open Lib

structure Tally where
  /-- The slots held when the last `Tick` began. -/
  began : Nat
  /-- The tokens its drain has taken out. -/
  drained : Nat
  /-- The slots it was given by `source_(false)`. -/
  surplus : Nat
  /-- The slots all ticks were given by `source_(false)`. -/
  unwanted : Nat
  deriving DecidableEq, Repr

namespace Tally

def zero : Tally := ⟨0, 0, 0, 0⟩

def found (t : Tally) : Nat := t.began - t.drained

def noteBroker (t : Tally) (s : Sys) (token : Bool) : Pc → Tally
  | .resting => { t with began := s.held, drained := 0, surplus := 0 }
  | .draining _ => if 0 < s.sem then { t with drained := t.drained + 1 } else t
  | .asking _ true =>
    if token then { t with surplus := t.surplus + 1, unwanted := t.unwanted + 1 } else t
  | _ => t

def note (t : Tally) (s : Sys) : Label → Tally
  | .broker token => t.noteBroker s token s.pc
  | _ => t

end Tally

def Pc.Counts (offered held : Nat) (t : Tally) : Pc → Prop
  | .resting => offered + t.unwanted = held ∧ held ≤ t.found + 1 + t.surplus
  | .draining idle | .measuring idle =>
    idle = t.drained ∧ t.surplus = 0 ∧ held = t.began ∧
      offered + t.drained + t.unwanted = held
  | .drained idle =>
    idle + 1 = t.drained ∧ t.surplus = 0 ∧ held = t.began ∧
      offered + t.drained + t.unwanted = held
  | .trimming inUse =>
    inUse = t.found ∧ t.surplus = 0 ∧ offered + t.unwanted = inUse ∧ inUse ≤ held
  | .resizing inUse target =>
    inUse = t.found ∧ t.surplus = 0 ∧ offered + t.unwanted = inUse ∧ inUse ≤ target ∧
      target ≤ inUse + 1 ∧ target ≤ held
  | .judging inUse =>
    inUse = t.found ∧ t.surplus = 0 ∧ offered + t.unwanted = inUse ∧ inUse ≤ held ∧
      held ≤ inUse + 1
  | .asking inUse spare =>
    inUse = t.found ∧ t.surplus = 0 ∧ offered + t.unwanted = inUse ∧
      held = if spare then inUse + 1 else inUse
  | .answered inUse token =>
    inUse = t.found ∧ offered + t.unwanted = inUse + t.surplus ∧ inUse ≤ held ∧
      (if token then held = inUse + t.surplus else t.surplus = 0 ∧ held ≤ inUse + 1)
  | .posting inUse =>
    inUse = t.found ∧ offered + t.unwanted = inUse + t.surplus ∧
      (held = inUse ∧ t.surplus = 0 ∨ held = inUse + 1 + t.surplus)
  | .closing i => offered + i + t.unwanted = held
  | .dropping | .destroyed => True

structure Watched where
  sys : Sys
  tally : Tally

namespace Watched

def init : Watched := ⟨Sys.init 0, Tally.zero⟩

def Step (w : Watched) (a : Label) (w' : Watched) : Prop :=
  w.sys.step a = some w'.sys ∧ w'.tally = w.tally.note w.sys a

/-- The tally only watches: every run of the system is a watched one. -/
theorem exists_of_steps {s s' : Sys} {as : List Label}
    (h : Steps (fun s a s' => s.step a = some s') s as s') (t : Tally) :
    ∃ t', Steps Step ⟨s, t⟩ as ⟨s', t'⟩ := by
  induction h generalizing t with
  | refl s => exact ⟨t, .refl _⟩
  | cons hstep _ ih =>
    obtain ⟨t', hrest⟩ := ih (t.note _ _)
    exact ⟨t', .cons ⟨hstep, rfl⟩ hrest⟩

def Counted (w : Watched) : Prop := w.sys.pc.Counts w.sys.offered w.sys.held w.tally

theorem Counted.stepBroker {s : Sys} {t : Tally} (h : Counted ⟨s, t⟩) (token : Bool) :
    Counted ⟨s.stepBroker token s.pc, t.noteBroker s token s.pc⟩ := by
  obtain ⟨sem, held, ghcs, pc⟩ := s
  simp only [Counted, Sys.offered, Sys.taken] at h
  cases pc with
  | resting => exact ⟨rfl, rfl, rfl, h.1⟩
  | draining idle =>
    simp only [Sys.stepBroker, Tally.noteBroker]
    split
    · simp only [Counted, Sys.offered, Sys.taken, Pc.Counts] at h ⊢
      omega
    · exact h
  | drained _ | trimming _ =>
    simp only [Sys.stepBroker, Tally.noteBroker, Sys.goTo, Counted, Sys.offered, Sys.taken,
      Pc.Counts] at h ⊢
    omega
  | measuring idle =>
    simp only [Sys.stepBroker, Tally.noteBroker, Sys.goTo, Counted, Sys.offered, Sys.taken,
      Pc.Counts, Tally.found] at h ⊢
    omega
  | resizing inUse target =>
    simp only [Sys.stepBroker, Tally.noteBroker]
    split <;>
      simp only [Counted, Sys.offered, Sys.taken, Sys.goTo, Pc.Counts] at h ⊢ <;> omega
  | judging inUse =>
    simp only [Sys.stepBroker, Tally.noteBroker, Sys.goTo, Counted, Sys.offered, Sys.taken,
      Pc.Counts, beq_iff_eq] at h ⊢
    split <;> omega
  | asking inUse spare =>
    -- a token that comes although there is a spare is the surplus
    cases spare <;> cases token <;>
      simp [Sys.stepBroker, Tally.noteBroker, Sys.goTo, Counted, Sys.offered, Sys.taken,
        Pc.Counts, Tally.found] at h ⊢ <;> omega
  | answered inUse token =>
    cases token <;>
      simp [Sys.stepBroker, Tally.noteBroker, Counted, Sys.offered, Sys.taken,
        Pc.Counts] at h ⊢ <;> omega
  | posting inUse =>
    simp only [Sys.stepBroker, Tally.noteBroker, Counted, Sys.offered, Sys.taken,
      Pc.Counts] at h ⊢
    split <;> omega
  | closing i =>
    simp only [Sys.stepBroker, Tally.noteBroker]
    split
    · simp only [Counted, Sys.offered, Sys.taken, Pc.Counts] at h ⊢
      omega
    · trivial
  | dropping =>
    simp only [Sys.stepBroker]
    split <;> trivial
  | destroyed => exact h

variable {a : Label}

theorem Counted.step {w w' : Watched} (h : w.Counted) (hstep : w.Step a w') :
    w'.Counted := by
  obtain ⟨s, t⟩ := w
  obtain ⟨s', t'⟩ := w'
  obtain ⟨hstep, rfl⟩ : s.step a = some s' ∧ t' = t.note s a := hstep
  by_cases hbroker : ∃ token, a = .broker token
  · obtain ⟨token, rfl⟩ := hbroker
    cases hstep
    exact h.stepBroker token
  · have hnote : t.note s a = t := by
      cases a with
      | broker token => exact absurd ⟨token, rfl⟩ hbroker
      | destroy | start | take _ | give _ => rfl
    rw [hnote]
    by_cases hdestroy : a = .destroy
    · subst hdestroy
      rw [Sys.step] at hstep
      split at hstep
      · rename_i hpc
        cases hstep
        rw [Counted, hpc] at h
        exact h.1
      · cases hstep
    · obtain ⟨hoffered, hheld, hpc⟩ := Sys.offered_of_step hstep
        (fun token h => hbroker ⟨token, h⟩) hdestroy
      rw [Counted, hoffered, hheld, hpc]
      exact h

theorem counted_init : init.Counted := ⟨rfl, Nat.zero_le _⟩

theorem counted_of_run {as : List Label} {w : Watched} (hrun : Steps Step init as w) :
    w.Counted :=
  hrun.invariant (P := Counted) (fun _ _ _ h hstep => h.step hstep) counted_init

end Watched

/-! ## The destructor -/

namespace Sys

def QuietStep (s : Sys) (a : Label) (s' : Sys) : Prop := s.step a = some s' ∧ s'.taken = 0

def Leaving (s : Sys) : Prop :=
  s.taken = 0 ∧
    match s.pc with
    | .closing i => s.sem + i ≤ s.held
    | .dropping => s.sem = 0
    | .destroyed => s.sem = 0 ∧ s.held = 0
    | _ => False

theorem leaving_of_ghc {s s' : Sys} (h : s.Leaving) (hoffered : s'.offered = s.offered)
    (hheld : s'.held = s.held) (hpc : s'.pc = s.pc) (hquiet : s'.taken = 0) : s'.Leaving := by
  have hsem : s'.sem = s.sem := by
    have htaken := h.1
    simp only [offered] at hoffered
    omega
  unfold Leaving at h ⊢
  rw [hpc, hsem, hheld]
  exact ⟨hquiet, h.2⟩

theorem Leaving.step {a : Label} {s s' : Sys} (h : s.Leaving) (hstep : s.QuietStep a s') :
    s'.Leaving := by
  obtain ⟨hstep, hquiet⟩ := hstep
  by_cases hbroker : ∃ token, a = .broker token
  · obtain ⟨token, rfl⟩ := hbroker
    cases hstep
    refine ⟨hquiet, ?_⟩
    obtain ⟨sem, held, ghcs, pc⟩ := s
    cases pc with
    | closing i =>
      have hleft : sem + i ≤ held := h.2
      simp only [stepBroker]
      split_ifs with hmore
      · change sem - 1 + (i + 1) ≤ held
        omega
      · change sem = 0
        omega
    | dropping =>
      have hleft : sem = 0 := h.2
      simp only [stepBroker]
      split_ifs with hmore
      · exact hleft
      · exact ⟨hleft, Nat.eq_zero_of_not_pos hmore⟩
    | destroyed => exact h.2
    | _ => exact h.2.elim
  · by_cases hdestroy : a = .destroy
    · subst hdestroy
      rw [Sys.step] at hstep
      split at hstep
      · rename_i hpc
        have hnone := h.2
        rw [hpc] at hnone
        exact hnone.elim
      · cases hstep
    · obtain ⟨hoffered, hheld, hpc⟩ := offered_of_step hstep (fun token h => hbroker ⟨token, h⟩)
        hdestroy
      exact leaving_of_ghc h hoffered hheld hpc hquiet

theorem Leaving.destroyed {s : Sys} (h : s.Leaving) (hpc : s.pc = .destroyed) :
    s.sem = 0 ∧ s.held = 0 := by
  have hleft := h.2
  rw [hpc] at hleft
  exact hleft

theorem alone_closing (token : Bool) (sem held i : Nat) (ghcs : List Nat) :
    ∃ sem', Alone token ⟨sem, held, ghcs, .closing i⟩ ⟨sem', held, ghcs, .dropping⟩ := by
  induction sem generalizing i with
  | zero =>
    refine ⟨0, .single ?_⟩
    simp [step, stepBroker, goTo]
  | succ sem ih =>
    by_cases hi : i < held
    · obtain ⟨sem', hrest⟩ := ih (i + 1)
      refine ⟨sem', .head ?_ hrest⟩
      simp [step, stepBroker, hi]
    · refine ⟨sem + 1, .single ?_⟩
      simp [step, stepBroker, hi, goTo]

theorem alone_dropping (token : Bool) (sem held : Nat) (ghcs : List Nat) :
    Alone token ⟨sem, held, ghcs, .dropping⟩ ⟨sem, 0, ghcs, .destroyed⟩ := by
  induction held with
  | zero => exact .single rfl
  | succ held ih => exact .head rfl ih

theorem alone_destroyed (s : Sys) (token : Bool) :
    ∃ s', Alone token (s.goTo (.closing 0)) s' ∧ s'.pc = .destroyed := by
  obtain ⟨sem', hclosing⟩ := alone_closing token s.sem s.held 0 s.ghcs
  exact ⟨_, hclosing.trans (alone_dropping token sem' s.held s.ghcs), rfl⟩

end Sys

/-! ## The daemon's slots -/

/-- What the daemon and the socket answer during one call of the source. -/
structure Reply where
  /-- `Conn::Open` -/
  opens : Bool
  /-- `order->Send` -/
  sends : Bool
  readable : Bool
  /-- `conn->Ok()` -/
  ok : Bool

/-- The closure of `DaemonSource`: whether an order is in flight after the call, and whether
it returns a token. -/
def daemonSource (order want : Bool) (r : Reply) : Bool × Bool :=
  if !want then (false, false)
  else if !order && !(r.opens && r.sends) then (false, false)
  else if !r.readable then (true, false)
  else (false, r.ok)

/-- A source that answers nothing when nothing is wanted. -/
def Obliging (s : Sys) (a : Label) : Prop := ∀ inUse, s.pc = .asking inUse true → a ≠ .broker true

/-- A broker whose answers come from `DaemonSource`: `order` says whether one is in flight. -/
def DaemonStep (p : Sys × Bool) (a : Label × Reply) (p' : Sys × Bool) : Prop :=
  p.1.step a.1 = some p'.1 ∧
    match p.1.pc, a.1 with
    | .asking _ spare, .broker token => (p'.2, token) = daemonSource p.2 (!spare) a.2
    | _, _ => p'.2 = p.2

theorem obliging_of_daemonStep {p p' : Sys × Bool} {a : Label × Reply} (h : DaemonStep p a p') :
    Obliging p.1 a.1 := by
  rintro inUse hpc ha
  have hanswer := h.2
  rw [hpc, ha] at hanswer
  have htoken : true = false := congrArg Prod.snd hanswer
  cases htoken

namespace Watched

theorem noteBroker_of_obliging {t : Tally} {s : Sys} {token : Bool}
    (h : Obliging s (.broker token)) (ht : t.unwanted = 0 ∧ t.surplus = 0) :
    (t.noteBroker s token s.pc).unwanted = 0 ∧ (t.noteBroker s token s.pc).surplus = 0 := by
  cases hpc : s.pc with
  | resting => exact ⟨ht.1, rfl⟩
  | draining idle =>
    simp only [Tally.noteBroker]
    split <;> exact ht
  | asking inUse spare =>
    cases spare with
    | false => exact ht
    | true =>
      have htoken : token = false := by
        cases token with
        | false => rfl
        | true => exact absurd rfl (h inUse hpc)
      rw [htoken]
      exact ht
  | _ => exact ht

theorem note_of_obliging {a : Label} {t : Tally} {s : Sys} (h : Obliging s a)
    (ht : t.unwanted = 0 ∧ t.surplus = 0) :
    (t.note s a).unwanted = 0 ∧ (t.note s a).surplus = 0 := by
  cases a with
  | broker token => exact noteBroker_of_obliging h ht
  | destroy | start | take _ | give _ => exact ht

/-- Whatever the source answers and whatever the ghcs do: between ticks the tokens on offer and
the capabilities in use are the slots held, those the source gave unwanted apart; a tick keeps at
most one more than its drain found in use; and once no ghc holds a capability, the destructor ends
with an empty semaphore and without a slot. -/
theorem broker_conserves {as : List Label} {w : Watched} (hrun : Steps Step init as w)
    (hrest : w.sys.pc = .resting) :
    w.sys.sem + w.sys.taken + w.tally.unwanted = w.sys.held ∧
      w.sys.held ≤ w.tally.found + 1 + w.tally.surplus ∧
      (w.sys.taken = 0 →
        (∃ s, Sys.Alone false (w.sys.goTo (.closing 0)) s ∧ s.pc = .destroyed) ∧
        ∀ bs s, Steps Sys.QuietStep (w.sys.goTo (.closing 0)) bs s → s.pc = .destroyed →
          s.sem = 0 ∧ s.held = 0) := by
  have hcounted := counted_of_run hrun
  rw [Counted, hrest] at hcounted
  obtain ⟨hslots, hspare⟩ := hcounted
  refine ⟨hslots, hspare, fun hidle => ⟨Sys.alone_destroyed w.sys false, ?_⟩⟩
  intro bs s hbs hpc
  have hstart : (w.sys.goTo (.closing 0)).Leaving := by
    refine ⟨hidle, ?_⟩
    change w.sys.sem + 0 ≤ w.sys.held
    simp only [Sys.offered] at hslots
    omega
  exact (hbs.invariant (P := Sys.Leaving) (fun _ _ _ h hstep => h.step hstep) hstart).destroyed hpc

def tickLabels (idle : Nat) (token : Bool) : List Label :=
  List.replicate (2 * idle + 6) (.broker false) ++ [.broker token, .broker false, .broker false]

theorem steps_first_tick :
    Steps (fun s a s' => Sys.step s a = some s') (Sys.init 0) (tickLabels 0 true)
      ⟨1, 1, [], .resting⟩ :=
  .cons rfl <| .cons rfl <| .cons rfl <| .cons rfl <| .cons rfl <| .cons rfl <| .cons rfl <|
    .cons rfl <| .one rfl

/-- The first tick orders a slot, which a ghc takes and gives back. -/
theorem broker_conserves_first_tick : ∃ as w, Steps Step init as w ∧ w.sys.held = 1 ∧
    w.sys.sem + w.sys.taken + w.tally.unwanted = w.sys.held ∧
    ∀ bs s, Steps Sys.QuietStep (w.sys.goTo (.closing 0)) bs s → s.pc = .destroyed →
      s.sem = 0 ∧ s.held = 0 := by
  have hghc : Steps (fun s a s' => Sys.step s a = some s') ⟨1, 1, [], .resting⟩
      [.start, .take 0, .give 0] ⟨1, 1, [0], .resting⟩ :=
    .cons rfl <| .cons rfl <| .one rfl
  obtain ⟨t, hrun⟩ := exists_of_steps (steps_first_tick.append hghc) Tally.zero
  obtain ⟨hslots, -, hdestroy⟩ := broker_conserves hrun rfl
  exact ⟨_, _, hrun, rfl, hslots, (hdestroy rfl).2⟩

/-- A source that answers `source_(false)` with a slot, in the second tick: the broker holds two
and offers one. -/
theorem unwanted_slot_not_offered : ∃ as s,
    Steps (fun s a s' => Sys.step s a = some s') (Sys.init 0) as s ∧ s.pc = .resting ∧
    s.sem + s.taken ≠ s.held := by
  have hsecond : Steps (fun s a s' => Sys.step s a = some s') ⟨1, 1, [], .resting⟩
      (tickLabels 1 true) ⟨1, 2, [], .resting⟩ :=
    .cons rfl <| .cons rfl <| .cons rfl <| .cons rfl <| .cons rfl <| .cons rfl <| .cons rfl <|
      .cons rfl <| .cons rfl <| .cons rfl <| .one rfl
  exact ⟨_, _, steps_first_tick.append hsecond, rfl, by decide⟩

/-- With `DaemonSource` nothing is ever given unwanted. -/
theorem daemon_conserves {as : List (Label × Reply)} {s : Sys} {order : Bool}
    (hrun : Steps DaemonStep (Sys.init 0, false) as (s, order)) (hrest : s.pc = .resting) :
    s.sem + s.taken = s.held := by
  have hwatched : ∃ t : Tally, Counted ⟨s, t⟩ ∧ t.unwanted = 0 ∧ t.surplus = 0 := by
    refine hrun.invariant
      (P := fun p => ∃ t : Tally, Counted ⟨p.1, t⟩ ∧ t.unwanted = 0 ∧ t.surplus = 0) ?_
      ⟨Tally.zero, counted_init, rfl, rfl⟩
    rintro p a p' ⟨t, hcounted, hnone⟩ hstep
    refine ⟨t.note p.1 a.1, hcounted.step ⟨hstep.1, rfl⟩, ?_⟩
    exact note_of_obliging (obliging_of_daemonStep hstep) hnone
  obtain ⟨t, hcounted, hunwanted, -⟩ := hwatched
  rw [Counted, hrest] at hcounted
  have hslots : s.sem + s.taken + t.unwanted = s.held := hcounted.1
  omega

/-- Of a first slot that a ghc has taken. -/
theorem daemon_conserves_first_tick : ∃ as s, Steps DaemonStep (Sys.init 0, false) as (s, false) ∧
    s.held = 1 ∧ s.taken = 1 ∧ s.sem + s.taken = s.held := by
  have hrun : Steps DaemonStep (Sys.init 0, false)
      ((tickLabels 0 true ++ [Label.start, .take 0]).map (·, ⟨true, true, true, true⟩))
      (⟨0, 1, [1], .resting⟩, false) := by
    iterate 10 refine .cons (t := (_, false)) ⟨rfl, rfl⟩ ?_
    exact .one ⟨rfl, rfl⟩
  exact ⟨_, _, hrun, rfl, rfl, daemon_conserves hrun rfl⟩

end Watched

end Corepkgs.Jsem
