import Corepkgs.Jigd.SlotAccounts
/-!
# Whom `grant` serves

A run of `Acquire` and `Release` calls, in the order in which they take the mutex,
leaves a log of what happened to each caller.  What the queue and the counts of
`Slots` hold is read off the log alone, and every grant in it is judged against
the part of the log before it.
-/

namespace Corepkgs.Jigd

open Lib List Table

namespace Slots

variable (s : Slots)

@[simp] theorem waiting_charge (b : Bytes) : (s.charge b).waiting = s.waiting := rfl

@[simp] theorem waiting_discharge (b : Bytes) :
    (s.discharge b).waiting = s.waiting := rfl

theorem count_charge (build b : Bytes) :
    (s.charge build).count b = if b = build then s.count b + 1 else s.count b := by
  unfold count charge
  rw [lookup_insert]
  split_ifs with h
  · rw [h]
    rfl
  · rfl

theorem count_discharge (build b : Bytes) :
    (s.discharge build).count b = if b = build then max (s.count b - 1) 0 else s.count b := by
  by_cases hb : b = build
  · rw [if_pos hb, hb]
    unfold discharge
    split_ifs with hlast
    · have hnone : (s.held.erase build).lookup build = none := by
        rw [lookup_erase, if_pos rfl]
      rw [count, hnone, Option.getD_none]
      omega
    · have hsome : (s.held.insert build (s.count build - 1)).lookup build
          = some (s.count build - 1) := by
        rw [lookup_insert, if_pos rfl]
      rw [count, hsome, Option.getD_some]
      omega
  · rw [if_neg hb]
    unfold discharge count
    split_ifs
    · rw [lookup_erase, if_neg hb]
    · rw [lookup_insert, if_neg hb]

end Slots

/-! ## What a log says -/

inductive SlotEvent where
  /-- The caller was put at the end of the queue. -/
  | queued (w : Waiter)
  /-- The caller has its token: at once, or because its channel was closed. -/
  | granted (w : Waiter)
  | released (build : Bytes)
  deriving DecidableEq

namespace SlotEvent

def queueAfter (q : List Waiter) : SlotEvent → List Waiter
  | .queued w => q ++ [w]
  | .granted w => q.erase w
  | .released _ => q

/-- A build's tokens.  A token given back too often leaves it with none. -/
def tokensAfter (build : Bytes) (n : Int) : SlotEvent → Int
  | .queued _ => n
  | .granted w => if build = w.build then n + 1 else n
  | .released b => if build = b then max (n - 1) 0 else n

def lateAfter (late : List Waiter) : SlotEvent → List Waiter
  | .queued w => late ++ [w]
  | .granted _ => late
  | .released _ => []

def grantee? : SlotEvent → Option Waiter
  | .granted w => some w
  | _ => none

end SlotEvent

abbrev SlotLog := List SlotEvent

namespace SlotLog

variable (log : SlotLog)

def queue : List Waiter := log.foldl SlotEvent.queueAfter []

def tokens (build : Bytes) : Int := log.foldl (SlotEvent.tokensAfter build) 0

def late : List Waiter := log.foldl SlotEvent.lateAfter []

def grantees : List Waiter := log.filterMap SlotEvent.grantee?

variable (log : SlotLog) (e : SlotEvent)

@[simp] theorem queue_concat :
    queue (log ++ [e]) = e.queueAfter (queue log) := by
  simp [queue]

@[simp] theorem tokens_concat (build : Bytes) :
    tokens (log ++ [e]) build = e.tokensAfter build (tokens log build) := by
  simp [tokens]

@[simp] theorem late_concat :
    late (log ++ [e]) = e.lateAfter (late log) := by
  simp [late]

@[simp] theorem grantees_concat :
    grantees (log ++ [e]) = grantees log ++ e.grantee?.toList := by
  unfold grantees
  rw [filterMap_append]
  cases e <;> rfl

structure Served (log : SlotLog) (w : Waiter) : Prop where
  /-- The first of those whose build holds the fewest tokens of all that wait. -/
  fewest : ∃ front back, queue log = front ++ w :: back ∧
    (∀ x ∈ front, tokens log w.build < tokens log x.build) ∧
    ∀ x ∈ back, tokens log w.build ≤ tokens log x.build
  /-- A token has been given back since `w` was queued. -/
  notLate : w ∉ late log

def MayGrant (log : SlotLog) (w : Waiter) : Prop :=
  queue log = [] ∧ w ∉ grantees log ∨ Served log w

def Fair (log : SlotLog) : Prop :=
  ∀ before w after, log = before ++ .granted w :: after → MayGrant before w

theorem Fair.concat {log : SlotLog} (h : Fair log) {e : SlotEvent}
    (he : ∀ w, e = .granted w → MayGrant log w) : Fair (log ++ [e]) := by
  intro before w after heq
  rcases eq_nil_or_concat after with rfl | ⟨after, last, rfl⟩
  · obtain ⟨rfl, hlast⟩ := append_inj' heq rfl
    exact he w (singleton_inj.mp hlast)
  · have hsnoc : log ++ [e] = (before ++ .granted w :: after) ++ [last] := by
      rw [heq, concat_eq_append, append_assoc, cons_append]
    exact h before w after (append_inj' hsnoc rfl).1

end SlotLog

/-! ## Runs -/

inductive SlotCall where
  | acquire (build : Bytes)
  | release (build : Bytes)
  deriving DecidableEq

/-- The slots, the callers so far and what has happened to them.  A caller's
channel is named by the number of callers before it. -/
structure SlotRun where
  slots : Slots
  callers : List Waiter
  log : SlotLog

namespace SlotRun

def start (limit : Int) : SlotRun := ⟨Slots.new limit, [], []⟩

def caller (r : SlotRun) (build : Bytes) : Waiter := ⟨build, r.callers.length⟩

def call (r : SlotRun) : SlotCall → SlotRun
  | .acquire build =>
    let w := r.caller build
    ⟨(r.slots.acquire w).1, r.callers ++ [w],
      r.log ++ [if (r.slots.acquire w).2 then .granted w else .queued w]⟩
  | .release build =>
    ⟨(r.slots.release build).1, r.callers,
      r.log ++ .released build :: (r.slots.release build).2.map .granted⟩

def run (limit : Int) (calls : List SlotCall) : SlotRun := calls.foldl call (start limit)

structure Kept (r : SlotRun) : Prop where
  queue : r.slots.waiting = r.log.queue
  tokens : ∀ b, r.slots.count b = r.log.tokens b
  fair : r.log.Fair
  /-- Every caller has been granted a token or waits, and only one of them once. -/
  lossless : (r.log.grantees ++ r.slots.waiting).Perm r.callers
  /-- The queue is in the order of the calls. -/
  order : r.slots.waiting.Pairwise (·.ready < ·.ready)
  names : r.callers.map Waiter.ready = range r.callers.length

variable {r : SlotRun}

namespace Kept

variable (h : r.Kept)

include h

theorem nodup : r.callers.Nodup :=
  List.Nodup.of_map Waiter.ready (h.names ▸ nodup_range)

theorem ready_lt {w : Waiter} (hw : w ∈ r.callers) : w.ready < r.callers.length := by
  have hmem : w.ready ∈ r.callers.map Waiter.ready := mem_map_of_mem hw
  rw [h.names] at hmem
  exact mem_range.mp hmem

theorem caller_notMem (build : Bytes) : r.caller build ∉ r.callers := by
  intro hmem
  have hlt := h.ready_lt hmem
  exact lt_irrefl _ hlt

theorem names_concat (build : Bytes) :
    (r.callers ++ [r.caller build]).map Waiter.ready
      = range (r.callers ++ [r.caller build]).length := by
  rw [map_append, h.names, length_append, length_singleton, range_succ]
  rfl

theorem serve (build : Bytes) (hwait : r.slots.waiting = []) :
    Kept ⟨r.slots.charge build, r.callers ++ [r.caller build],
      r.log ++ [.granted (r.caller build)]⟩ := by
  have hempty : r.log.queue = [] := h.queue.symm.trans hwait
  have hgranted : r.log.grantees.Perm r.callers := by
    have hperm := h.lossless
    rwa [hwait, append_nil] at hperm
  constructor
  · simp [hwait, hempty, SlotEvent.queueAfter]
  · intro b
    simp [Slots.count_charge, h.tokens, SlotEvent.tokensAfter, caller]
  · refine h.fair.concat fun w hw => .inl ⟨hempty, ?_⟩
    cases hw
    exact fun hmem => h.caller_notMem build (hgranted.mem_iff.mp hmem)
  · simp only [Slots.waiting_charge, hwait, append_nil, SlotLog.grantees_concat]
    exact hgranted.append_right _
  · simp [hwait]
  · exact h.names_concat build

theorem enqueue (build : Bytes) :
    Kept ⟨{ r.slots with waiting := r.slots.waiting ++ [r.caller build] },
      r.callers ++ [r.caller build], r.log ++ [.queued (r.caller build)]⟩ := by
  constructor
  · simp [h.queue, SlotEvent.queueAfter]
  · intro b
    rw [SlotLog.tokens_concat]
    exact h.tokens b
  · exact h.fair.concat fun w hw => nomatch hw
  · have hperm := h.lossless.append_right [r.caller build]
    simpa [SlotEvent.grantee?] using hperm
  · rw [pairwise_append]
    refine ⟨h.order, pairwise_singleton _ _, fun x hx y hy => ?_⟩
    rw [mem_singleton.mp hy]
    exact h.ready_lt (h.lossless.mem_iff.mp (mem_append_right _ hx))
  · exact h.names_concat build

theorem giveBack (build : Bytes) :
    Kept ⟨r.slots.discharge build, r.callers, r.log ++ [.released build]⟩ := by
  constructor
  · simp [h.queue, SlotEvent.queueAfter]
  · intro b
    simp [Slots.count_discharge, h.tokens, SlotEvent.tokensAfter]
  · exact h.fair.concat fun w hw => nomatch hw
  · simpa [SlotEvent.grantee?] using h.lossless
  · exact h.order
  · exact h.names

theorem grantOne (hlate : r.log.late = []) {w : Waiter} {s' : Slots}
    (hone : r.slots.grantOne = some (w, s')) :
    Kept ⟨s', r.callers, r.log ++ [.granted w]⟩ := by
  obtain ⟨front, back, hfewest, rfl⟩ := Slots.grantOne_spec hone
  have hqueue : r.log.queue = front ++ w :: back := h.queue.symm.trans hfewest.queue
  have hnodup : (front ++ w :: back).Nodup := by
    have hall := (h.lossless.nodup_iff).mpr h.nodup
    rw [hfewest.queue] at hall
    exact (nodup_append.mp hall).2.1
  have hfront : w ∉ front := fun hmem =>
    (nodup_append.mp hnodup).2.2 w hmem w mem_cons_self rfl
  have herase : (front ++ w :: back).erase w = front ++ back := by
    rw [erase_append_right _ hfront, erase_cons_head]
  constructor
  · simp [hqueue, SlotEvent.queueAfter, herase]
  · intro b
    rw [Slots.count_charge, SlotLog.tokens_concat, ← h.tokens]
    rfl
  · refine h.fair.concat fun x hx => .inr ?_
    cases hx
    refine ⟨⟨front, back, hqueue, ?_, ?_⟩, by simp [hlate]⟩
    · simpa only [h.tokens] using hfewest.ahead
    · simpa only [h.tokens] using hfewest.behind
  · have hperm := h.lossless
    rw [hfewest.queue] at hperm
    refine List.Perm.trans ?_ hperm
    have hmiddle : (w :: (front ++ back)).Perm (front ++ w :: back) := perm_middle.symm
    simpa [SlotEvent.grantee?] using hmiddle.append_left r.log.grantees
  · have horder := h.order
    rw [hfewest.queue] at horder
    exact horder.sublist (List.Sublist.append_left (sublist_cons_self w back) front)
  · exact h.names

omit h in
theorem grantLoop (n : Nat) (h : r.Kept) (hlate : r.log.late = []) :
    Kept ⟨(Slots.grantLoop n r.slots).1, r.callers,
      r.log ++ (Slots.grantLoop n r.slots).2.map .granted⟩ := by
  induction n generalizing r with
  | zero => simpa [Slots.grantLoop] using h
  | succ n ih =>
    rw [Slots.grantLoop]
    cases hone : r.slots.grantOne with
    | none => simpa using h
    | some next =>
      obtain ⟨w, s'⟩ := next
      have hnext := ih (h.grantOne hlate hone) (by
        rw [SlotLog.late_concat]
        exact hlate)
      simpa using hnext

theorem call (c : SlotCall) : (r.call c).Kept := by
  cases c with
  | acquire build =>
    by_cases hroom : r.slots.out < r.slots.limit ∧ r.slots.waiting = []
    · simp only [SlotRun.call, Slots.acquire, if_pos hroom]
      exact h.serve build hroom.2
    · simp only [SlotRun.call, Slots.acquire, if_neg hroom]
      exact h.enqueue build
  | release build =>
    have hlate : (r.log ++ [SlotEvent.released build]).late = [] := SlotLog.late_concat _ _
    have hall := (h.giveBack build).grantLoop (r.slots.discharge build).waiting.length hlate
    rw [append_assoc] at hall
    exact hall

end Kept

variable (limit : Int)

theorem kept_start : (start limit).Kept where
  queue := rfl
  tokens _ := rfl
  fair before w after heq := by
    have hlen := congrArg length heq
    simp [start] at hlen
  lossless := .refl _
  order := List.Pairwise.nil
  names := rfl

theorem kept_run (calls : List SlotCall) : (run limit calls).Kept := by
  induction calls using reverseRecOn with
  | nil => exact kept_start limit
  | append_singleton calls c ih =>
    rw [run, foldl_append]
    exact ih.call c

/-- The callers of a run are its `Acquire` calls, in order. -/
def acquires (calls : List SlotCall) : List Bytes :=
  calls.filterMap fun
    | .acquire build => some build
    | .release _ => none

theorem builds_run (calls : List SlotCall) :
    (run limit calls).callers.map Waiter.build = acquires calls := by
  induction calls using reverseRecOn with
  | nil => rfl
  | append_singleton calls c ih =>
    rw [run, foldl_append, acquires, filterMap_append, ← acquires, ← ih]
    cases c with
    | acquire build => exact map_append
    | release build => exact (append_nil _).symm

/-- Over every sequence of calls: a token goes to the first caller in the queue whose
build holds the fewest, nobody is forgotten or served twice, the queue stays in the
order of the calls, and a caller is served without waiting only if nobody waits, and
from the queue only once a token has been given back since. -/
theorem grants_fair_and_lossless (limit : Int) (calls : List SlotCall) :
    let r := run limit calls
    r.log.Fair ∧ r.slots.waiting = r.log.queue ∧ (∀ b, r.slots.count b = r.log.tokens b) ∧
      r.callers.map Waiter.build = acquires calls ∧
      r.callers.map Waiter.ready = range r.callers.length ∧
      (∀ w ∈ r.callers, r.log.grantees.count w = 1 ∧ w ∉ r.slots.waiting ∨
        w ∉ r.log.grantees ∧ r.slots.waiting.count w = 1) ∧
      (∀ w ∈ r.log.grantees, w ∈ r.callers) ∧
      r.slots.waiting.Pairwise (·.ready < ·.ready) := by
  intro r
  have h : r.Kept := kept_run limit calls
  refine ⟨h.fair, h.queue, h.tokens, builds_run limit calls, h.names, fun w hw => ?_,
    fun w hw => h.lossless.mem_iff.mp (mem_append_left _ hw), h.order⟩
  have hone : r.log.grantees.count w + r.slots.waiting.count w = 1 := by
    rw [← count_append, h.lossless.count_eq, count_eq_one_of_mem h.nodup hw]
  by_cases hgranted : w ∈ r.log.grantees
  · have hpos := count_pos_iff.mpr hgranted
    refine .inl ⟨by omega, count_eq_zero.mp (by omega)⟩
  · have hzero := count_eq_zero.mpr hgranted
    exact .inr ⟨hgranted, by omega⟩

end SlotRun

end Corepkgs.Jigd
