import Corepkgs.Jigd.Slots
import Corepkgs.Lib.Least
import Mathlib.Algebra.Order.Ring.Int
/-!
# Every token is somebody's

The shared counters of `Slots` and the private `held` maps of the handlers say the
same thing.  It is stated once, for an arbitrary weight of a token that may depend
on its build: with weight one it counts tokens, with the weight of a single build
it says which entry of the shared map a `Release` finds.
-/

namespace Corepkgs.Jigd

open Lib List Table

namespace Slots

variable {s s' : Slots} {w : Waiter}

/-! ## One round of `grant`'s loop -/

theorem best_eq_scanLeast (s : Slots) :
    s.best = scanLeast (fun w => s.count w.build) s.waiting 0 s.waiting.zipIdx := rfl

/-- The queue is cut at the first waiter whose build holds the fewest tokens. -/
structure Fewest (s : Slots) (front : List Waiter) (w : Waiter) (back : List Waiter) : Prop where
  queue : s.waiting = front ++ w :: back
  ahead : ∀ x ∈ front, s.count w.build < s.count x.build
  behind : ∀ x ∈ back, s.count w.build ≤ s.count x.build

theorem grantOne_spec (h : s.grantOne = some (w, s')) :
    ∃ front back, s.Fewest front w back ∧
      s' = { s with waiting := front ++ back }.charge w.build := by
  unfold grantOne at h
  split at h
  · rename_i hroom
    obtain ⟨front, x, back, hqueue, hbest, hahead, hbehind⟩ :=
      scanLeast_spec (f := fun w => s.count w.build) hroom.2
    rw [← best_eq_scanLeast] at hbest
    have hat : s.waiting[s.best]? = some x := by
      rw [hbest, hqueue, getElem?_append_right le_rfl, Nat.sub_self]
      rfl
    have herase : s.waiting.eraseIdx s.best = front ++ back := by
      rw [hbest, hqueue, eraseIdx_append_of_length_le le_rfl, Nat.sub_self]
      rfl
    rw [hat, Option.map_some, Option.some.injEq, Prod.mk.injEq] at h
    obtain ⟨rfl, rfl⟩ := h
    exact ⟨front, back, ⟨hqueue, hahead, hbehind⟩, by rw [herase]⟩
  · cases h

theorem grantOne_eq_none (h : s.grantOne = none) : ¬(s.out < s.limit ∧ s.waiting ≠ []) := by
  intro hroom
  obtain ⟨front, x, back, hqueue, hbest, -⟩ :=
    scanLeast_spec (f := fun w => s.count w.build) hroom.2
  rw [← best_eq_scanLeast] at hbest
  rw [grantOne, if_pos hroom, hbest, hqueue, getElem?_append_right le_rfl] at h
  simp at h

/-! ## Weights -/

def weigh (weight : Bytes → Int) (s : Slots) : Int := s.held.total fun b n => n * weight b

theorem count_eq (s : Slots) (build : Bytes) (weight : Bytes → Int) :
    (s.held.lookup build).elim 0 (fun n => n * weight build) = s.count build * weight build := by
  unfold count
  cases s.held.lookup build <;> simp

theorem weigh_charge (weight : Bytes → Int) (s : Slots) (build : Bytes) :
    (s.charge build).weigh weight = s.weigh weight + weight build := by
  have h := total_insert (fun b n => n * weight b) s.held build (s.count build + 1)
  rw [count_eq] at h
  refine h.trans ?_
  rw [weigh]
  ring

variable {build : Bytes}

theorem weigh_discharge (weight : Bytes → Int) (hpos : 0 < s.count build) :
    (s.discharge build).weigh weight = s.weigh weight - weight build := by
  unfold weigh discharge
  dsimp only
  split
  · have hone : s.count build = 1 := by omega
    rw [total_erase, count_eq, hone, one_mul]
  · rw [total_insert, count_eq]
    ring

def only (build : Bytes) : Bytes → Int := fun b => if b = build then 1 else 0

theorem weigh_only (s : Slots) (build : Bytes) : s.weigh (only build) = s.count build := by
  have hfun : (fun (b : Bytes) (n : Int) => n * only build b) =
      fun b n => if b = build then n else 0 := by
    funext b n
    simp [only]
  rw [weigh, hfun, total_single, count]
  cases s.held.lookup build <;> rfl

end Slots

namespace Handler

def weigh (weight : Bytes → Int) (h : Handler) : Int :=
  h.held.total fun b (n : Nat) => (n : Int) * weight b

/-- What the tokens a handler answers for weigh: those of its map, the one a blocked `Acquire` was
granted, the one between its map and a call into `Slots`; at the end, those yet to release. -/
def tokens (weight : Bytes → Int) (h : Handler) : Int :=
  match h.pc with
  | .blocked build true | .acquired build | .releasing build => h.weigh weight + weight build
  | .unwinding todo => (todo.map fun e => (e.2 : Int) * weight e.1).sum
  | .returned => 0
  | _ => h.weigh weight

theorem tokens_nonneg {weight : Bytes → Int} (hweight : ∀ b, 0 ≤ weight b) (h : Handler) :
    0 ≤ h.tokens weight := by
  have hmap : ∀ l : List (Bytes × Nat), 0 ≤ (l.map fun e => (e.2 : Int) * weight e.1).sum := by
    intro l
    apply sum_nonneg
    intro x hx
    obtain ⟨e, -, rfl⟩ := mem_map.mp hx
    exact mul_nonneg (Int.natCast_nonneg _) (hweight _)
  have hheld : 0 ≤ h.weigh weight := by
    apply sum_nonneg
    intro x hx
    obtain ⟨e, -, rfl⟩ := mem_map.mp hx
    exact mul_nonneg (Int.natCast_nonneg _) (hweight _)
  unfold tokens
  split
  · exact add_nonneg hheld (hweight _)
  · exact add_nonneg hheld (hweight _)
  · exact add_nonneg hheld (hweight _)
  · exact hmap _
  · exact le_rfl
  · exact hheld

theorem count_eq (h : Handler) (build : Bytes) (weight : Bytes → Int) :
    (h.held.lookup build).elim 0 (fun n => (n : Int) * weight build) =
      (h.count build : Int) * weight build := by
  unfold count
  cases h.held.lookup build <;> simp

theorem weigh_insert (weight : Bytes → Int) (h : Handler) (build : Bytes) (n : Nat) (pc : Pc) :
    weigh weight { held := h.held.insert build n, pc := pc } =
      h.weigh weight + (n - h.count build : Int) * weight build := by
  have hins := total_insert (fun b (n : Nat) => (n : Int) * weight b) h.held build n
  rw [count_eq] at hins
  refine hins.trans ?_
  rw [weigh]
  ring

theorem sum_pairs (weight : Bytes → Int) {h : Handler} {todo : List (Bytes × Nat)}
    (hperm : todo.Perm h.held.pairs) :
    (todo.map fun e => (e.2 : Int) * weight e.1).sum = h.weigh weight := by
  rw [(hperm.map _).sum_eq, pairs, map_map]
  rfl

def Queued (h : Handler) (build : Bytes) : Prop := h.pc = .blocked build false

end Handler

structure Balanced (s : Slots) (hs : List Handler) : Prop where
  positive : ∀ {build n}, s.held.lookup build = some n → 0 < n
  backed : ∀ weight, s.weigh weight = (hs.map (Handler.tokens weight)).sum
  out : s.out = s.weigh fun _ => 1
  within : s.out ≤ s.limit
  queue : ∀ {w}, w ∈ s.waiting ↔ ∃ h, hs[w.ready]? = some h ∧ h.Queued w.build
  nodup : s.waiting.Nodup

namespace Balanced

variable {s s' : Slots} {hs : List Handler} {i : Nat} {h h' : Handler} {build : Bytes}

variable (hb : Balanced s hs)

include hb

theorem update (hget : hs[i]? = some h) (hq : ∀ b, ¬ h.Queued b)
    (hq' : ∀ b, ¬ h'.Queued b) (hwait : s'.waiting = s.waiting)
    (hpos : ∀ {build n}, s'.held.lookup build = some n → 0 < n)
    (hweigh : ∀ weight, s'.weigh weight = s.weigh weight + (h'.tokens weight - h.tokens weight))
    (hout : s'.out = s'.weigh fun _ => 1) (hwithin : s'.out ≤ s'.limit) :
    Balanced s' (hs.set i h') where
  positive := hpos
  backed weight := by rw [hweigh, hb.backed, Procs.sum_set _ hget]
  out := hout
  within := hwithin
  queue {w} := by
    rw [hwait, hb.queue, Procs.get_set hget]
    by_cases hi : w.ready = i
    · rw [if_pos hi, hi, hget]
      simp [hq, hq']
    · rw [if_neg hi]
  nodup := hwait ▸ hb.nodup

theorem move (hget : hs[i]? = some h) (hq : ∀ b, ¬ h.Queued b)
    (hq' : ∀ b, ¬ h'.Queued b) (htok : ∀ weight, h'.tokens weight = h.tokens weight) :
    Balanced s (hs.set i h') :=
  hb.update hget hq hq' rfl hb.positive (fun weight => by rw [htok, sub_self, add_zero]) hb.out
    hb.within

theorem count_nonneg (build : Bytes) : 0 ≤ s.count build := by
  unfold Slots.count
  cases hn : s.held.lookup build with
  | none => exact le_rfl
  | some n => exact (hb.positive hn).le

theorem positive_charge (build : Bytes) {b : Bytes} {n : Int}
    (h : (s.charge build).held.lookup b = some n) : 0 < n := by
  change (s.held.insert build (s.count build + 1)).lookup b = some n at h
  rw [lookup_insert] at h
  split at h
  · cases h
    have hcount := hb.count_nonneg build
    omega
  · exact hb.positive h

theorem positive_discharge (build : Bytes) {b : Bytes} {n : Int}
    (h : (s.discharge build).held.lookup b = some n) : 0 < n := by
  unfold Slots.discharge at h
  dsimp only at h
  split at h
  · rw [lookup_erase] at h
    split at h
    · cases h
    · exact hb.positive h
  · rw [lookup_insert] at h
    split at h
    · cases h
      omega
    · exact hb.positive h

/-- A free token goes to a handler that does not wait for one. -/
theorem charge (hget : hs[i]? = some h) (hq : ∀ b, ¬ h.Queued b)
    (hq' : ∀ b, ¬ h'.Queued b) (hroom : s.out < s.limit)
    (htok : ∀ weight, h'.tokens weight = h.tokens weight + weight build) :
    Balanced (s.charge build) (hs.set i h') := by
  refine hb.update hget hq hq' rfl (hb.positive_charge build) ?_ ?_ ?_
  · intro weight
    rw [Slots.weigh_charge, htok]
    ring
  · rw [Slots.weigh_charge, ← hb.out]
    rfl
  · exact hroom

/-- The shared map has an entry for every token a handler answers for. -/
theorem count_pos (hget : hs[i]? = some h)
    (htok : 0 < h.tokens (Slots.only build)) : 0 < s.count build := by
  have hweight : ∀ b, 0 ≤ Slots.only build b := by
    intro b
    unfold Slots.only
    split <;> decide
  have hle := Procs.le_sum (f := Handler.tokens (Slots.only build))
    (fun p _ => p.tokens_nonneg hweight) hget
  rw [← hb.backed, Slots.weigh_only] at hle
  omega

theorem discharge (hget : hs[i]? = some h) (hq : ∀ b, ¬ h.Queued b) (hq' : ∀ b, ¬ h'.Queued b)
    (htok : ∀ weight, h.tokens weight = h'.tokens weight + weight build) :
    Balanced (s.discharge build) (hs.set i h') := by
  have hpos : 0 < s.count build := by
    apply hb.count_pos hget
    rw [htok]
    have hrest : 0 ≤ h'.tokens (Slots.only build) := by
      apply h'.tokens_nonneg
      intro b
      unfold Slots.only
      split <;> decide
    have hone : Slots.only build build = 1 := if_pos rfl
    omega
  refine hb.update hget hq hq' rfl (hb.positive_discharge build) ?_ ?_ ?_
  · intro weight
    rw [Slots.weigh_discharge weight hpos, htok]
    ring
  · rw [Slots.weigh_discharge _ hpos, ← hb.out]
    rfl
  · have hle := hb.within
    change s.out - 1 ≤ s.limit
    omega

theorem enqueue (hget : hs[i]? = some h) (hq : ∀ b, ¬ h.Queued b)
    (hq' : h'.Queued build) (htok : ∀ weight, h'.tokens weight = h.tokens weight) :
    Balanced { s with waiting := s.waiting ++ [⟨build, i⟩] } (hs.set i h') where
  positive := hb.positive
  backed weight := by
    rw [Procs.sum_set _ hget, htok, sub_self, add_zero]
    exact hb.backed weight
  out := hb.out
  within := hb.within
  queue {w} := by
    rw [mem_append, mem_singleton, hb.queue, Procs.get_set hget]
    by_cases hi : w.ready = i
    · rw [if_pos hi, hi, hget]
      constructor
      · rintro (⟨_, ⟨⟩, hqueued⟩ | rfl)
        · exact absurd hqueued (hq _)
        · exact ⟨h', rfl, hq'⟩
      · rintro ⟨_, ⟨⟩, hqueued⟩
        right
        have hbuild : Pc.blocked w.build false = .blocked build false := hqueued.symm.trans hq'
        cases hbuild
        cases hi
        rfl
    · rw [if_neg hi]
      constructor
      · rintro (hold | rfl)
        · exact hold
        · exact absurd rfl hi
      · exact .inl
  nodup := by
    apply hb.nodup.append (nodup_singleton _)
    intro w hw hnew
    rw [mem_singleton] at hnew
    subst hnew
    obtain ⟨h₀, hget₀, hqueued⟩ := hb.queue.mp hw
    rw [hget] at hget₀
    cases hget₀
    exact hq _ hqueued

theorem join (hq : ∀ b, ¬ h.Queued b) (htok : ∀ weight, h.tokens weight = 0) :
    Balanced s (hs ++ [h]) where
  positive := hb.positive
  backed weight := by rw [map_append, sum_append, hb.backed]; simp [htok]
  out := hb.out
  within := hb.within
  queue {w} := by
    rw [hb.queue, getElem?_append]
    split
    · rfl
    · rename_i hge
      rw [getElem?_eq_none (Nat.le_of_not_lt hge)]
      constructor
      · rintro ⟨_, ⟨⟩, -⟩
      · rintro ⟨h₀, hget, hqueued⟩
        have hnew : h₀ = h := mem_singleton.mp (mem_of_getElem? hget)
        exact absurd (hnew ▸ hqueued) (hq _)
  nodup := hb.nodup

theorem grantOne {w : Waiter} (hgrant : s.grantOne = some (w, s')) :
    Balanced s' (Server.wake hs w) := by
  unfold Slots.grantOne at hgrant
  split at hgrant
  · rename_i hroom
    obtain ⟨w', hbest, heq⟩ := Option.map_eq_some_iff.mp hgrant
    cases heq
    obtain ⟨hlt, hat⟩ := List.getElem?_eq_some_iff.mp hbest
    obtain ⟨h, hget, hqueued⟩ := hb.queue.mp (List.mem_of_getElem? hbest)
    have hwake : Server.wake hs w = hs.set w.ready h.wake := by rw [Server.wake, hget]
    have hawake : h.wake.pc = .blocked w.build true := by
      rw [Handler.wake, hqueued]
      rfl
    have hheld : h.wake.held = h.held := by
      rw [Handler.wake, hqueued]
      rfl
    have htok : ∀ weight, h.wake.tokens weight = h.tokens weight + weight w.build := by
      intro weight
      rw [Handler.tokens, hawake, Handler.tokens, hqueued, Handler.weigh, hheld]
      rfl
    have herase : s.waiting.eraseIdx s.best = s.waiting.erase w := by
      rw [← hat, hb.nodup.erase_getElem]
    rw [hwake]
    constructor
    · exact hb.positive_charge w.build
    · intro weight
      rw [Slots.weigh_charge, Procs.sum_set _ hget, htok, ← hb.backed]
      change s.weigh weight + weight w.build = _
      ring
    · rw [Slots.weigh_charge]
      exact congrArg (· + 1) hb.out
    · exact hroom.1
    · intro w'
      change w' ∈ s.waiting.eraseIdx s.best ↔ _
      rw [herase, hb.nodup.mem_erase_iff, Procs.get_set hget, hb.queue]
      by_cases hi : w'.ready = w.ready
      · rw [if_pos hi, hi, hget]
        constructor
        · rintro ⟨hne, _, ⟨⟩, hq⟩
          have hbuild : Pc.blocked w'.build false = .blocked w.build false := hq.symm.trans hqueued
          exact absurd (Waiter.ext (Pc.blocked.inj hbuild).1 hi) hne
        · rintro ⟨_, ⟨⟩, hq⟩
          have hflag := (Pc.blocked.inj (hq.symm.trans hawake)).2
          cases hflag
      · rw [if_neg hi]
        refine and_iff_right ?_
        rintro rfl
        exact hi rfl
    · change (s.waiting.eraseIdx s.best).Nodup
      rw [herase]
      exact hb.nodup.erase w
  · cases hgrant

omit hb in
theorem grantLoop (n : Nat) (hb : Balanced s hs) :
    Balanced (Slots.grantLoop n s).1 ((Slots.grantLoop n s).2.foldl Server.wake hs) := by
  induction n generalizing s hs with
  | zero => exact hb
  | succ n ih =>
    rw [Slots.grantLoop]
    cases hone : s.grantOne with
    | none => exact hb
    | some r =>
      obtain ⟨w, s'⟩ := r
      exact ih (hb.grantOne hone)

end Balanced

namespace Slots

def Full (s : Slots) : Prop := s.waiting ≠ [] → s.out = s.limit

/-- The loop ends when it has to: with its fuel the queue is empty or no token is free. -/
theorem grantLoop_done {s : Slots} {n : Nat} (hn : s.waiting.length ≤ n)
    (hroom : (grantLoop n s).1.out < (grantLoop n s).1.limit) : (grantLoop n s).1.waiting = [] := by
  induction n generalizing s with
  | zero => exact length_eq_zero_iff.mp (Nat.le_zero.mp hn)
  | succ n ih =>
    rw [grantLoop] at hroom ⊢
    cases hone : s.grantOne with
    | none =>
      rw [hone] at hroom
      by_contra hne
      exact grantOne_eq_none hone ⟨hroom, hne⟩
    | some r =>
      obtain ⟨w, s'⟩ := r
      rw [hone] at hroom
      refine ih ?_ hroom
      obtain ⟨front, back, hfewest, rfl⟩ := grantOne_spec hone
      have hlen := congrArg length hfewest.queue
      change (front ++ back).length ≤ n
      simp only [length_append, length_cons] at hlen ⊢
      omega

theorem limit_grantLoop (n : Nat) (s : Slots) : (grantLoop n s).1.limit = s.limit := by
  induction n generalizing s with
  | zero => rfl
  | succ n ih =>
    rw [grantLoop]
    cases hone : s.grantOne with
    | none => rfl
    | some r =>
      obtain ⟨w, s'⟩ := r
      obtain ⟨front, back, -, rfl⟩ := grantOne_spec hone
      exact ih _

end Slots

namespace Server

structure Sound (limit : Int) (s : Server) : Prop where
  balanced : Balanced s.slots s.handlers
  full : s.slots.Full
  limit : s.slots.limit = limit

variable {limit : Int} {build : Bytes}

theorem Sound.release {s : Server} (hs : s.Sound limit) {i : Nat} {h h' : Handler}
    (hget : s.handlers[i]? = some h) (hq : ∀ b, ¬ h.Queued b) (hq' : ∀ b, ¬ h'.Queued b)
    (htok : ∀ weight, h.tokens weight = h'.tokens weight + weight build) :
    (s.release i h' build).Sound limit := by
  have hb := (hs.balanced.discharge hget hq hq' htok).grantLoop
    (s.slots.discharge build).waiting.length
  refine ⟨hb, ?_, (Slots.limit_grantLoop _ _).trans hs.limit⟩
  intro hwait
  by_contra hne
  exact hwait (Slots.grantLoop_done le_rfl (lt_of_le_of_ne hb.within hne))

theorem Sound.acquire {s : Server} (hs : s.Sound limit) {i : Nat} {h : Handler}
    (hget : s.handlers[i]? = some h) (hpc : h.pc = .acquiring build) :
    (s.acquire i h build).Sound limit := by
  have hq : ∀ b, ¬ h.Queued b := by
    intro b hqueued
    rw [Handler.Queued, hpc] at hqueued
    cases hqueued
  have htok : ∀ weight, h.tokens weight = h.weigh weight := by
    intro weight
    rw [Handler.tokens, hpc]
  unfold Server.acquire Slots.acquire
  split
  · rename_i hroom
    refine ⟨hs.balanced.charge hget hq (fun b hqueued => by cases hqueued) hroom.1 ?_, ?_, hs.limit⟩
    · intro weight
      rw [htok]
      rfl
    · intro hwait
      exact absurd hroom.2 hwait
  · rename_i hroom
    refine ⟨hs.balanced.enqueue hget hq rfl ?_, ?_, hs.limit⟩
    · intro weight
      rw [htok]
      rfl
    · intro _
      change s.slots.out = s.slots.limit
      by_contra hne
      have hfree := lt_of_le_of_ne hs.balanced.within hne
      apply hroom ⟨hfree, ?_⟩
      by_contra hwait
      exact hne (hs.full hwait)

theorem Sound.move {s : Server} (hs : s.Sound limit) {i : Nat} {h h' : Handler}
    (hget : s.handlers[i]? = some h) (hq : ∀ b, ¬ h.Queued b) (hq' : ∀ b, ¬ h'.Queued b)
    (htok : ∀ weight, h'.tokens weight = h.tokens weight) : (s.put i h').Sound limit :=
  ⟨hs.balanced.move hget hq hq' htok, hs.full, hs.limit⟩

end Server

namespace Handler

theorem not_queued_of {h : Handler} {pc : Pc} (hpc : h.pc = pc) (hne : ∀ b, pc ≠ .blocked b false)
    (b : Bytes) : ¬ h.Queued b := by
  intro hq
  exact hne b (hpc.symm.trans hq)

theorem not_queued_goTo (h : Handler) {pc : Pc} (hne : ∀ b, pc ≠ .blocked b false) (b : Bytes) :
    ¬ (h.goTo pc).Queued b := not_queued_of rfl hne b

/-- Reading a line moves no token: a `DONE` for a build the connection does not hold is answered
without a `Release`. -/
theorem tokens_dispatch {h : Handler} (hpc : h.pc = .reading) (fields : List Bytes)
    (weight : Bytes → Int) : (h.dispatch fields).tokens weight = h.tokens weight := by
  have hh : h.tokens weight = h.weigh weight := by rw [tokens, hpc]
  rw [hh]
  unfold dispatch
  split
  · rfl
  · split
    · rename_i build _ hpos
      change weigh weight ⟨h.held.insert build (h.count build - 1), .releasing build⟩ +
        weight build =
        h.weigh weight
      have hless : ((h.count build - 1 : Nat) : Int) = h.count build - 1 := by omega
      rw [weigh_insert, hless]
      ring
    · rfl
  · rfl
  · rfl

theorem not_queued_dispatch (h : Handler) (fields : List Bytes) (b : Bytes) :
    ¬ (h.dispatch fields).Queued b := by
  unfold dispatch Queued
  split
  · exact fun h => by cases h
  · split
    · exact fun h => by cases h
    · exact fun h => by cases h
  · exact fun h => by cases h
  · exact fun h => by cases h

end Handler

namespace Server

variable {limit : Int}

theorem Sound.stepHandler {s s' : Server} (hs : s.Sound limit) {i : Nat}
    {h : Handler} (hget : s.handlers[i]? = some h) {a : HandlerAct}
    (hstep : s.stepHandler i h h.pc a = some s') : s'.Sound limit := by
  have hq : ∀ {pc}, h.pc = pc → (∀ b, pc ≠ .blocked b false) → ∀ b, ¬ h.Queued b :=
    fun hpc hne b => Handler.not_queued_of hpc hne b
  generalize hpc : h.pc = pc at hstep
  unfold Server.stepHandler at hstep
  split at hstep
  · cases hstep
    exact hs.move hget (hq hpc (by simp)) (h.not_queued_dispatch _)
      (Handler.tokens_dispatch hpc _)
  · cases hstep
    refine hs.move hget (hq hpc (by simp)) (h.not_queued_goTo (by simp)) fun weight => ?_
    rw [Handler.tokens, Handler.tokens, hpc]
    rfl
  · cases hstep
    exact hs.acquire hget hpc
  · cases hstep
    refine hs.move hget (hq hpc (by simp)) (h.not_queued_goTo (by simp)) fun weight => ?_
    rw [Handler.tokens, Handler.tokens, hpc]
    rfl
  · rename_i build
    cases hstep
    refine hs.move hget (hq hpc (by simp)) (fun b => Handler.not_queued_of rfl (by simp) b)
      fun weight => ?_
    have hnew : Handler.tokens weight ⟨h.held.insert build (h.count build + 1), .replying⟩ =
        Handler.weigh weight ⟨h.held.insert build (h.count build + 1), .replying⟩ := rfl
    rw [hnew, Handler.weigh_insert, Handler.tokens, hpc]
    push_cast
    ring
  · cases hstep
    refine hs.release hget (hq hpc (by simp)) (h.not_queued_goTo (by simp)) fun weight => ?_
    rw [Handler.tokens, hpc]
    rfl
  · rename_i ok
    cases hstep
    refine hs.move hget (hq hpc (by simp)) ?_ fun weight => ?_
    · cases ok <;> exact h.not_queued_goTo (by simp)
    · rw [Handler.tokens, Handler.tokens, hpc]
      cases ok <;> rfl
  · split at hstep
    · rename_i hperm
      cases hstep
      refine hs.move hget (hq hpc (by simp)) (h.not_queued_goTo (by simp)) fun weight => ?_
      refine (Handler.sum_pairs weight hperm).trans ?_
      rw [Handler.tokens, hpc]
    · cases hstep
  · rename_i build n todo
    cases hstep
    refine hs.release hget (hq hpc (by simp)) (h.not_queued_goTo (by simp)) fun weight => ?_
    rw [Handler.tokens, hpc]
    simp only [Handler.tokens, Handler.goTo, map_cons, sum_cons]
    push_cast
    ring
  · cases hstep
    refine hs.move hget (hq hpc (by simp)) (h.not_queued_goTo (by simp)) fun weight => ?_
    simp [Handler.tokens, Handler.goTo, hpc]
  · cases hstep
    refine hs.move hget (hq hpc (by simp)) (h.not_queued_goTo (by simp)) fun weight => ?_
    rw [Handler.tokens, Handler.tokens, hpc]
    rfl
  · cases hstep

theorem Sound.step {s s' : Server} (hs : s.Sound limit) {a : ServerAct}
    (hstep : s.step a = some s') : s'.Sound limit := by
  cases a with
  | accept allowed =>
    cases hstep
    refine ⟨hs.balanced.join ?_ ?_, hs.full, hs.limit⟩
    · cases allowed <;> exact Handler.not_queued_of rfl fun _ => nofun
    · cases allowed <;> exact fun weight => rfl
  | move i a =>
    rw [Server.step] at hstep
    cases hget : s.handlers[i]? with
    | none => rw [hget] at hstep; cases hstep
    | some h =>
      rw [hget] at hstep
      exact hs.stepHandler hget hstep

theorem sound_init (hlimit : 0 ≤ limit) : (init limit).Sound limit := by
  refine ⟨⟨?_, ?_, rfl, hlimit, ?_, nodup_nil⟩, ?_, rfl⟩
  · intro build n hn
    cases hn
  · exact fun weight => rfl
  · intro w
    simp [init, Slots.new]
  · exact fun hwait => absurd rfl hwait

def tokens (s : Server) : Int := (s.handlers.map (Handler.tokens fun _ => 1)).sum

/-- Over every interleaving of the connections the counters of `Slots` are exact. -/
theorem slots_accounted {limit : Int} (hlimit : 1 ≤ limit) {as : List ServerAct} {s : Server}
    (hrun : Steps (fun s a s' => s.step a = some s') (init limit) as s) :
    0 ≤ s.slots.out ∧ s.slots.out ≤ limit ∧ s.slots.out = s.slots.held.total (fun _ n => n) ∧
      s.slots.out = s.tokens ∧ (s.slots.waiting ≠ [] → s.slots.out = limit) ∧
      ((∀ h ∈ s.handlers, h.pc = .returned) → s.slots.out = 0 ∧ s.slots.waiting = []) := by
  have hs : s.Sound limit :=
    hrun.invariant (P := Sound limit) (fun _ _ _ hs hstep => hs.step hstep)
      (sound_init (by omega))
  obtain ⟨hb, hfull, rfl⟩ := hs
  have htokens : s.slots.out = s.tokens := hb.out.trans (hb.backed _)
  refine ⟨?_, hb.within, ?_, htokens, hfull, ?_⟩
  · rw [htokens]
    apply sum_nonneg
    intro x hx
    obtain ⟨h, -, rfl⟩ := mem_map.mp hx
    exact h.tokens_nonneg fun _ => by decide
  · rw [hb.out, Slots.weigh]
    simp only [mul_one]
  · intro hall
    constructor
    · rw [htokens]
      apply sum_eq_zero
      intro x hx
      obtain ⟨h, hmem, rfl⟩ := mem_map.mp hx
      rw [Handler.tokens, hall h hmem]
    · rw [eq_nil_iff_forall_not_mem]
      intro w hw
      obtain ⟨h, hget, hqueued⟩ := hb.queue.mp hw
      rw [Handler.Queued, hall h (mem_of_getElem? hget)] at hqueued
      cases hqueued

/-- Two connections share one token: the second waits until the first has hung up. -/
theorem slots_accounted_handover : ∃ as s,
    Steps (fun s a s' => Server.step s a = some s') (init 1) as s ∧
    s.handlers.map Handler.pc = [.unwinding [([97], 0)], .blocked [98] true] ∧
    0 ≤ s.slots.out ∧ s.slots.out ≤ 1 ∧ s.slots.out = s.slots.held.total (fun _ n => n) ∧
      s.slots.out = s.tokens ∧ (s.slots.waiting ≠ [] → s.slots.out = 1) ∧
      ((∀ h ∈ s.handlers, h.pc = .returned) → s.slots.out = 0 ∧ s.slots.waiting = []) := by
  have hrun : Steps (fun s a s' => Server.step s a = some s') (init 1)
      [.accept true, .accept true, .move 0 (.line [ascii "SLOT", [97]]), .move 0 .acquire,
        .move 0 .tally, .move 0 (.reply true), .move 1 (.line [ascii "SLOT", [98]]),
        .move 1 .acquire, .move 0 .readFails, .move 0 (.unwind [([97], 1)]), .move 0 .release] _ :=
    .cons rfl <| .cons rfl <| .cons rfl <| .cons rfl <| .cons rfl <| .cons rfl <| .cons rfl <|
      .cons rfl <| .cons rfl <| .cons rfl <| .one rfl
  exact ⟨_, _, hrun, rfl, slots_accounted (by decide) hrun⟩

end Server

end Corepkgs.Jigd
