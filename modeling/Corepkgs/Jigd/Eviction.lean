import Corepkgs.Jigd.Accounts
import Corepkgs.Jigd.FailedPut
import Corepkgs.Jigd.IdWrap
import Mathlib.Data.Prod.Lex
import Mathlib.Algebra.Order.BigOperators.Group.List
/-!
# The demoter's inner loop

`victim` orders the packs of a tier by a key, so its choice is the unique least pack.
Every move takes a pack one tier down, or out of the last: the steps all packs are away
from leaving bound the moves of any run without a `Put`.

* `victim_eq_some`, `victim_eq_none`: what is chosen, and what it means that nothing is;
* `Sys.LoopStep`: the program's steps while no `Put` runs and no move fails;
* `demoter_converges`: for every state an opened store can reach.
-/

namespace Corepkgs.Jigd

open Lib List Store World Table

/-! ## The choice -/

namespace Store

def leaveKey (p : Pack) : Bool ×ₗ Int ×ₗ Nat := toLex (!stale p, toLex (p.used, p.id))

theorem goesBefore_iff (a b : Pack) : goesBefore a b = true ↔ leaveKey a < leaveKey b := by
  unfold goesBefore leaveKey
  cases stale a <;> cases stale b <;> simp [Prod.Lex.toLex_lt_toLex]

theorem not_goesBefore_iff (a b : Pack) : goesBefore b a = false ↔ leaveKey a ≤ leaveKey b := by
  rw [← not_lt, ← goesBefore_iff, Bool.not_eq_true]

instance : Std.Total fun a b : Pack => goesBefore b a = false :=
  ⟨fun a b => by simpa only [not_goesBefore_iff] using le_total (leaveKey a) (leaveKey b)⟩

instance : IsTrans Pack fun a b => goesBefore b a = false :=
  ⟨fun a b c => by simpa only [not_goesBefore_iff] using le_trans⟩

variable {p : Pack} {s : Store}

theorem head?_sort {ps : List Pack}
    (h : (ps.insertionSort fun a b => goesBefore b a = false).head? = some p) :
    p ∈ ps ∧ ∀ q ∈ ps, leaveKey p ≤ leaveKey q := by
  obtain ⟨rest, hsort⟩ := head?_eq_some_iff.mp h
  have hmem : ∀ q, q ∈ ps ↔ q ∈ p :: rest := by
    intro q
    rw [← hsort, mem_insertionSort]
  have hsorted := pairwise_insertionSort (fun a b => goesBefore b a = false) ps
  rw [hsort, pairwise_cons] at hsorted
  refine ⟨(hmem p).mpr mem_cons_self, fun q hq => ?_⟩
  rcases mem_cons.mp ((hmem q).mp hq) with rfl | hrest
  · exact le_rfl
  · exact (not_goesBefore_iff p q).mp (hsorted.1 q hrest)

theorem sort_eq_nil {ps : List Pack} :
    ps.insertionSort (fun a b => goesBefore b a = false) = [] ↔ ps = [] := by
  rw [← length_eq_zero_iff, length_insertionSort, length_eq_zero_iff]

theorem mem_leaving {t : Nat} :
    p ∈ s.leaving t ↔ (∃ id, s.packs.lookup id = some p) ∧ p.tier = t ∧ s.active ≠ some p.id := by
  have hentry : (∃ e ∈ s.packs.entries, e.2 = p) ↔ ∃ id, s.packs.lookup id = some p := by
    constructor
    · rintro ⟨⟨id, q⟩, he, rfl⟩
      exact ⟨id, AList.mem_lookup_iff.mpr he⟩
    · rintro ⟨id, hid⟩
      exact ⟨⟨id, p⟩, AList.mem_lookup_iff.mp hid, rfl⟩
  rw [leaving, mem_filter, mem_map, hentry]
  simp

def Sheds (s : Store) (t : Nat) : Prop :=
  ∃ tier, s.tiers[t]? = some tier ∧ overBudget tier = true ∧ s.leaving t ≠ []

structure Chosen (s : Store) (p : Pack) : Prop where
  tier : ∃ tier, s.tiers[p.tier]? = some tier ∧ overBudget tier = true
  first : ∀ t < p.tier, ¬s.Sheds t
  there : s.packs.lookup p.id = some p
  idle : s.active ≠ some p.id
  least : ∀ q id, s.packs.lookup id = some q → q.tier = p.tier → s.active ≠ some q.id →
    q.id ≠ p.id → leaveKey p < leaveKey q

def victimIn (s : Store) (t : Nat) : Option Pack :=
  ((s.tiers[t]?).filter overBudget).bind fun _ =>
    ((s.leaving t).insertionSort fun a b => goesBefore b a = false).head?

theorem victim_eq (s : Store) : s.victim = (range s.tiers.length).findSome? s.victimIn := by
  unfold victim
  congr 1
  funext t
  unfold victimIn
  cases s.tiers[t]? with
  | none => rfl
  | some tier => cases hover : overBudget tier <;> simp [hover, Option.filter_some]

theorem victimIn_eq_none {t : Nat} : s.victimIn t = none ↔ ¬s.Sheds t := by
  unfold victimIn Sheds
  cases s.tiers[t]? with
  | none => simp
  | some tier => cases hover : overBudget tier <;> simp [hover, Option.filter_some, sort_eq_nil]

theorem victim_eq_none : s.victim = none ↔ ∀ t, ¬s.Sheds t := by
  rw [victim_eq, findSome?_eq_none_iff]
  simp only [mem_range, victimIn_eq_none]
  constructor
  · intro h t hsheds
    obtain ⟨tier, htier, -⟩ := id hsheds
    exact h t (List.getElem?_eq_some_iff.mp htier).1 hsheds
  · exact fun h t _ => h t

theorem leaveKey_injective_id {q : Pack} (h : leaveKey p = leaveKey q) : p.id = q.id := by
  have hpair := (Prod.mk.inj (toLex_inj.mp h)).2
  exact (Prod.mk.inj (toLex_inj.mp hpair)).2

/-- Every tier before the one `findSome?` stops at has nothing to shed. -/
theorem victimIn_of_victim (h : s.victim = some p) :
    ∃ t, s.victimIn t = some p ∧ ∀ t' < t, ¬s.Sheds t' := by
  rw [victim_eq] at h
  obtain ⟨before, t, after, hrange, hround, hbefore⟩ := findSome?_eq_some_iff.mp h
  refine ⟨t, hround, fun t' ht' => victimIn_eq_none.mp (hbefore t' ?_)⟩
  have hlen : before.length = t := by
    have hat : (range s.tiers.length)[before.length]? = some t := by simp [hrange]
    obtain ⟨hlt, hget⟩ := List.getElem?_eq_some_iff.mp hat
    rwa [List.getElem_range] at hget
  have htake : before = range t := by
    have hle : t ≤ s.tiers.length := by
      have hall := congrArg length hrange
      simp only [length_range, length_append, length_cons] at hall
      omega
    have hprefix := congrArg (take t) hrange
    rw [take_range, min_eq_left hle, ← hlen, take_left'] at hprefix
    · rw [← hlen]
      exact hprefix.symm
    · rfl
  rw [htake]
  exact mem_range.mpr ht'

theorem chosen_of_victim (hfiled : World.Filed s) (h : s.victim = some p) : s.Chosen p := by
  obtain ⟨t, hin, hfirst⟩ := victimIn_of_victim h
  obtain ⟨tier, htier, hhead⟩ := Option.bind_eq_some_iff.mp hin
  obtain ⟨htier, hover⟩ := Option.filter_eq_some_iff.mp htier
  obtain ⟨hmem, hleast⟩ := head?_sort hhead
  obtain ⟨⟨id, hid⟩, rfl, hidle⟩ := mem_leaving.mp hmem
  have hpid : p.id = id := hfiled id _ (extent_of_lookup hid)
  refine ⟨⟨tier, htier, hover⟩, hfirst, hpid ▸ hid, hidle, fun q id' hq ht hq' hne => ?_⟩
  have hle := hleast q (mem_leaving.mpr ⟨⟨id', hq⟩, ht, hq'⟩)
  exact lt_of_le_of_ne hle fun heq => hne (leaveKey_injective_id heq).symm

end Store

/-! ## Packs stay under their ids -/

namespace World

theorem Filed.addPack {s : Store} (h : Filed s) (p : Pack) : Filed (s.addPack p) := by
  intro id e he
  rw [extent_addPack] at he
  split at he
  · rename_i hid
    cases he
    exact hid.symm
  · exact h id e he

theorem Filed.modifyPack {s : Store} (h : Filed s) (id : Nat) {f : Pack → Pack}
    (hf : ∀ p, (f p).id = p.id) : Filed (s.modifyPack id f) := by
  intro q e he
  rw [extent, lookup_modifyPack] at he
  split at he
  · rename_i hq
    rw [Option.map_map, Option.map_eq_some_iff] at he
    obtain ⟨p, hp, rfl⟩ := he
    rw [hq]
    exact (hf p).trans (h id _ (extent_of_lookup hp))
  · exact h q e he

theorem Filed.commit {s : Store} (h : Filed s) (p : Pack) (key : Bytes) (size : Nat) :
    Filed (commit s p key size) := by
  have hold : Filed (s.dropOld key) := by
    intro q e he
    rw [extent_dropOld] at he
    exact h q e he
  intro q e he
  rw [commit_eq, extent_addTotal] at he
  refine Filed.modifyPack ?_ p.id ?_ q e he
  · exact hold
  · exact fun _ => rfl

variable {w : World}

theorem Filed.append (h : Filed w.store) (env : PutEnv) (p : Pack)
    (key body : Bytes) : Filed (w.append env p key body).1.store := by
  rcases store_append env w p key body with ⟨hstore, -⟩ | heq
  · rw [hstore]
    exact h
  · rw [heq]
    exact h.commit p key body.length

theorem Filed.rotate (h : Filed w.store) (env : RotateEnv) (id : Nat) :
    Filed (w.rotate env id).1.store := by
  have hseal : Filed (w.sealActive env.sealing).1.store := by
    rw [sealActive_store]
    exact h
  rcases rotate_cases env w id with heq | ⟨-, -, heq⟩
  · rw [heq]
    exact hseal
  · rw [heq]
    exact Filed.addPack (s := { (w.sealActive env.sealing).1.store with active := some id }) hseal _

theorem Filed.put (h : Filed w.store) (env : PutEnv) (key : Bytes) (size : Int)
    (r : Bytes) : Filed (w.put env key size r).1.store := by
  unfold World.put
  split
  · exact h
  · unfold putLocked
    split
    · exact h
    · split
      · exact h
      · rename_i p _
        have hrot := h.rotate env.rotate (u32 (p.id + 1))
        split
        · split
          · rename_i heq
            rw [heq] at hrot
            exact hrot
          · rename_i heq
            rw [heq] at hrot
            split
            · exact hrot
            · exact hrot.append env _ key _
        · exact h.append env _ key _

theorem Filed.openStore (env : OpenEnv) (budgets : List Int) (fs : FileSystem) :
    Filed (openStore env budgets fs).1.store := by
  apply Filed.rotate
  refine foldl_openTier_of (P := fun acc => Filed acc.1.store) ?_ _ ?_
  · exact fun _ _ name h => filed_openName h name
  · intro id e he
    cases he

theorem Filed.evict (h : Filed w.store) (p : Pack) : Filed (w.evict p).store := by
  intro q e he
  rw [extent_evict] at he
  split at he
  · cases he
  · exact h q e he

theorem Filed.switchDown (h : Filed w.store) (p : Pack) (file : Nat) :
    Filed (w.switchDown p file).store :=
  Filed.modifyPack (s := w.store) h p.id fun _ => rfl

end World

namespace Sys

variable {s s' : Sys} {a : Label}

theorem filed_step {l : Label} (h : World.Filed s.store) (hstep : s.step l = some s') :
    World.Filed s'.store := by
  rcases Sys.step_inv hstep with ⟨env, key, size, r, rfl, rfl⟩ | ⟨key, now, rfl, rfl⟩ |
    ⟨rfl, rfl⟩ | ⟨-, hdem⟩
  · rw [Sys.store, (stepPut_world s env key size r).1]
    exact h.put env key size r
  · intro id e he
    exact h id e ((extent_get s.world key now id).symm.trans he)
  · exact h
  · cases hdem with
    | evict _ _ _ => exact h.evict _
    | switch _ _ _ => exact h.switchDown _ _
    | _ => exact h

/-! ## The loop without a `Put` -/

def Succeeds : Label → Prop
  | .put _ _ _ _ => False
  | .giveUp _ => False
  | _ => True

/-- A step of the program, which asks `victim`, while no `Put` runs and moves succeed. -/
def LoopStep (s : Sys) (a : Label) (s' : Sys) : Prop :=
  s.step a = some s' ∧ s.Strict a ∧ Succeeds a

def isMove : Label → Bool
  | .evict => true
  | .switch => true
  | _ => false

def moves (as : List Label) : Nat := as.countP isMove

/-- A step of the loop is a `Get`, the beginning of `Close` or one of the demoter's. -/
theorem loopStep_cases (h : s.LoopStep a s') :
    (isMove a = false ∧ s'.demoter = s.demoter ∧ (∀ id, s'.store.extent id = s.store.extent id) ∧
      s'.store.active = s.store.active ∧ s'.store.tiers = s.store.tiers) ∨ DemoterStep s a s' := by
  obtain ⟨hstep, -, ha⟩ := h
  cases a with
  | put env key size r => exact ha.elim
  | get key now =>
    cases hstep
    refine .inl ⟨rfl, rfl, extent_get s.world key now, get_active _ _ _, ?_⟩
    change (s.world.get key now).1.store.tiers = _
    unfold World.get
    split
    · rfl
    · exact modifyPack_tiers _ _ _
  | beginClose =>
    cases hstep
    exact .inl ⟨rfl, rfl, fun _ => rfl, rfl, rfl⟩
  | _ => exact .inr (stepDemoter_inv hstep)

def Hand (s : Store) : Demoter → Prop
  | .waiting => True
  | .looping => True
  | .picked id => ∃ e, s.extent id = some e ∧ s.active ≠ some id
  | .moving id src _ =>
    ∃ e, s.extent id = some e ∧ s.active ≠ some id ∧ e.tier = src ∧ src + 1 < s.tiers.length

structure Loop (s : Sys) : Prop where
  filed : World.Filed s.store
  hand : Hand s.store s.demoter

theorem Hand.congr {s s' : Store} {d : Demoter} (h : Hand s d)
    (hext : ∀ id, s'.extent id = s.extent id) (hactive : s'.active = s.active)
    (htiers : s'.tiers = s.tiers) : Hand s' d := by
  cases d with
  | waiting | looping => trivial
  | picked id => simpa only [Hand, hext, hactive] using h
  | moving id src stage => simpa only [Hand, hext, hactive, htiers] using h

theorem Loop.step (h : s.Loop) (hstep : s.LoopStep a s') : s'.Loop := by
  refine ⟨filed_step h.filed hstep.1, ?_⟩
  rcases loopStep_cases hstep with ⟨-, hdem, hext, hactive, htiers⟩ | hmove
  · rw [hdem]
    exact h.hand.congr hext hactive htiers
  · have hhand := h.hand
    cases hmove with
    | pick _ hp ha => exact ⟨_, extent_of_lookup hp, ha⟩
    | startMove hd hp ht =>
      rw [hd] at hhand
      obtain ⟨e, -, ha⟩ := hhand
      exact ⟨_, extent_of_lookup hp, ha, rfl, ht⟩
    | linked hd _ | linkFails hd _ | copyRest hd _ _ | renamed hd =>
      rw [hd] at hhand
      exact hhand
    | copySome _ _ => exact hhand
    | _ => trivial

end Sys

/-! ## Every move brings a pack nearer to its end -/

namespace Store

/-- The moves after which no pack would be left. -/
def rungs (s : Store) : Int := s.packs.total fun _ p => ((s.tiers.length - p.tier : Nat) : Int)

theorem rungs_nonneg (s : Store) : 0 ≤ s.rungs := by
  apply sum_nonneg
  intro n hn
  obtain ⟨e, -, rfl⟩ := mem_map.mp hn
  exact Int.natCast_nonneg _

theorem rungs_congr {s s' : Store} (hext : ∀ id, s'.extent id = s.extent id)
    (htiers : s'.tiers.length = s.tiers.length) : s'.rungs = s.rungs := by
  have hshare : ∀ (s : Store) (q : Nat),
      (s.packs.lookup q).elim 0 (fun p => ((s.tiers.length - p.tier : Nat) : Int)) =
        (s.extent q).elim 0 fun e => ((s.tiers.length - e.tier : Nat) : Int) := by
    intro s q
    rw [extent]
    cases s.packs.lookup q <;> rfl
  apply total_congr
  intro q
  rw [hshare, hshare, hext, htiers]

end Store

namespace World

variable {p : Pack}

theorem rungs_evict {w : World} (hp : w.store.packs.lookup p.id = some p)
    (ht : p.tier + 1 = w.store.tiers.length) : (w.evict p).store.rungs + 1 = w.store.rungs := by
  have htiers : (w.evict p).store.tiers.length = w.store.tiers.length := length_addTotal _ _ _
  unfold rungs
  rw [htiers]
  change total _ (w.store.packs.erase p.id) + 1 = _
  rw [total_erase, hp, Option.elim_some]
  omega

theorem rungs_switchDown {w : World} (hp : w.store.packs.lookup p.id = some p)
    (ht : p.tier + 1 < w.store.tiers.length) (file : Nat) :
    (w.switchDown p file).store.rungs + 1 = w.store.rungs := by
  unfold rungs
  rw [length_tiers_switchDown]
  change total _ (w.store.modifyPack p.id _).packs + 1 = _
  rw [modifyPack_of_lookup hp, total_insert, hp, Option.elim_some]
  dsimp only
  omega

end World

namespace Sys

structure Orderly (s s' : Sys) : Prop where
  active : s'.store.active = s.store.active
  /-- Only the pack in hand changes, and that is not the active one. -/
  touched : ∀ id, s'.store.extent id ≠ s.store.extent id →
    s.demoter.pack = some id ∧ s.store.active ≠ some id
  /-- A pack is deleted from the last tier only. -/
  gone : ∀ id e, s.store.extent id = some e → s'.store.extent id = none →
    e.tier + 1 = s.store.tiers.length
  /-- Otherwise it stays where it is or goes to the next. -/
  moved : ∀ id e e', s.store.extent id = some e → s'.store.extent id = some e' →
    e'.tier = e.tier ∨ e'.tier = e.tier + 1 ∧ e'.tier < s.store.tiers.length

variable {s s' : Sys} {p : Pack}

theorem orderly_of_same (hext : ∀ id, s'.store.extent id = s.store.extent id)
    (hactive : s'.store.active = s.store.active) : s.Orderly s' where
  active := hactive
  touched id hne := absurd (hext id) hne
  gone id e he hnone := by
    rw [hext, he] at hnone
    cases hnone
  moved id e e' he he' := by
    rw [hext, he] at he'
    cases he'
    exact .inl rfl

/-- The pack in hand is deleted from the last tier, or goes to the next. -/
theorem orderly_of_extent {x : Option Extent} (hactive : s'.store.active = s.store.active)
    (hext : ∀ id, s'.store.extent id = if id = p.id then x else s.store.extent id)
    (hd : s.demoter.pack = some p.id) (hp : s.store.packs.lookup p.id = some p)
    (ha : s.store.active ≠ some p.id) (hgone : x = none → p.tier + 1 = s.store.tiers.length)
    (hmoved : ∀ e' ∈ x, e'.tier = p.tier + 1 ∧ e'.tier < s.store.tiers.length) :
    s.Orderly s' where
  active := hactive
  touched id hne := by
    have hid : id = p.id := by
      by_contra hid
      exact hne ((hext id).trans (if_neg hid))
    rw [hid]
    exact ⟨hd, ha⟩
  gone id e he hnone := by
    rw [hext] at hnone
    split at hnone
    · rename_i hid
      rw [hid, extent_of_lookup hp] at he
      cases he
      exact hgone hnone
    · rw [hnone] at he
      cases he
  moved id e e' he he' := by
    rw [hext] at he'
    split at he'
    · rename_i hid
      rw [hid, extent_of_lookup hp] at he
      cases he
      exact .inr (hmoved e' he')
    · rw [he'] at he
      cases he
      exact .inl rfl

/-- One step of the loop: what it does to the packs, and that a move is one rung. -/
theorem Loop.orderly {a : Label} (h : s.Loop) (hstep : s.LoopStep a s') :
    s.Orderly s' ∧ s'.store.rungs + (if isMove a then 1 else 0) = s.store.rungs := by
  have hhand := h.hand
  rcases loopStep_cases hstep with ⟨hmove, -, hext, hactive, htiers⟩ | hmove
  · refine ⟨orderly_of_same hext hactive, ?_⟩
    rw [hmove, rungs_congr hext (congrArg length htiers)]
    simp
  · cases hmove with
    | evict hd hp ht =>
      rename_i id p
      have hpid : p.id = id := h.filed id _ (extent_of_lookup hp)
      subst hpid
      rw [hd] at hhand
      obtain ⟨e, -, ha⟩ := hhand
      exact ⟨orderly_of_extent rfl (extent_evict s.world p) (by rw [hd]; rfl) hp ha (fun _ => ht)
        (fun _ he' => nomatch he'), rungs_evict hp ht⟩
    | switch hd hp hfile =>
      rename_i id src file p
      have hpid : p.id = id := h.filed id _ (extent_of_lookup hp)
      subst hpid
      rw [hd] at hhand
      obtain ⟨e, he, ha, rfl, hlt⟩ := hhand
      rw [extent_of_lookup hp] at he
      cases he
      refine ⟨orderly_of_extent (switchDown_active s.world p file) (extent_switchDown hp file)
        (by rw [hd]; rfl) hp ha (fun hnone => nomatch hnone) fun e' he' => ?_,
        rungs_switchDown hp hlt file⟩
      cases he'
      exact ⟨rfl, hlt⟩
    | _ => exact ⟨orderly_of_same (fun _ => rfl) rfl, add_zero _⟩

theorem Loop.run {as : List Label} (h : s.Loop) (hrun : Steps LoopStep s as s') :
    s'.Loop ∧ s'.store.rungs + moves as = s.store.rungs := by
  induction hrun with
  | refl s => exact ⟨h, add_zero _⟩
  | cons hstep _ ih =>
    obtain ⟨hloop, hcount⟩ := ih (h.step hstep)
    refine ⟨hloop, ?_⟩
    have hone := (h.orderly hstep).2
    rw [moves, countP_cons, ← moves]
    push_cast
    omega

theorem booksKept_loopStep {a : Label} (h : s.BooksKept) (hstep : s.LoopStep a s') :
    s'.BooksKept := by
  refine booksKept_step h ⟨hstep.1, fun hwraps => ?_⟩
  obtain ⟨-, -, ha⟩ := hstep
  cases a with
  | put env key size r => exact ha
  | _ => exact hwraps

def Fits (s : Store) (bytes : Nat → Tier → Int) : Prop :=
  ∀ t tier, s.tiers[t]? = some tier → 0 < tier.budget →
    bytes t tier ≤ tier.budget ∨ ∀ id e, s.extent id = some e → e.tier = t → s.active = some id

/-- The loop from `s` on. -/
structure Converges (s : Sys) : Prop where
  /-- However it goes on, the number of moves is bounded. -/
  bounded : ∀ as s', Steps LoopStep s as s' → (moves as : Int) ≤ s.store.rungs
  /-- At its head the loop ends or has a victim. -/
  goesOn : ∀ as s', Steps LoopStep s as s' → s'.demoter = .looping →
    (∃ s'', s'.LoopStep .rest s'') ∨ ∃ id s'', s'.LoopStep (.pick id) s''
  /-- If every move that is begun can be brought to its end, so can the loop. -/
  ends : (∀ as s', Steps LoopStep s as s' → s'.demoter = .looping → s'.store.victim ≠ none →
      ∃ bs s'', Steps LoopStep s' bs s'' ∧ 0 < moves bs ∧ s''.demoter = .looping) →
    ∃ as s' s'', Steps LoopStep s as s' ∧ s'.LoopStep .rest s''
  /-- When it ends the tiers fit, by their totals and, if the books are in order, by the bytes
  of their packs. -/
  fits : ∀ as s' s'', Steps LoopStep s as s' → s'.LoopStep .rest s'' →
    Fits s'.store (fun _ tier => tier.total) ∧
      (s.BooksKept → Fits s'.store fun t _ => s'.store.tierBytes t)
  /-- A victim is the least pack of the first tier that has something to shed. -/
  chosen : ∀ as s' id s'', Steps LoopStep s as s' → s'.LoopStep (.pick id) s'' →
    ∃ p, p.id = id ∧ s'.store.Chosen p
  /-- And nothing else is moved or deleted. -/
  orderly : ∀ as s' a s'', Steps LoopStep s as s' → s'.LoopStep a s'' → s'.Orderly s''

theorem fits_of_victim {s : Store} (hfiled : World.Filed s) (h : s.victim = none) :
    Fits s fun _ tier => tier.total := by
  intro t tier htier hbudget
  by_cases hover : tier.total ≤ tier.budget
  · exact .inl hover
  · refine .inr fun id e he het => ?_
    obtain ⟨p, hp, rfl⟩ := lookup_of_extent he
    by_contra hidle
    refine victim_eq_none.mp h t ⟨tier, htier, ?_, ?_⟩
    · simp only [overBudget, Bool.and_eq_true, decide_eq_true_eq]
      omega
    · have hpid : p.id = id := hfiled id _ he
      have hmem : p ∈ s.leaving t := mem_leaving.mpr ⟨⟨id, hp⟩, het, hpid ▸ hidle⟩
      exact ne_nil_of_mem hmem

theorem rest_or_pick (h : s.Loop) (hd : s.demoter = .looping) :
    (∃ s', s.LoopStep .rest s') ∨ ∃ id s', s.LoopStep (.pick id) s' := by
  cases hvictim : s.store.victim with
  | none =>
    refine .inl ⟨{ s with demoter := .waiting }, ?_, hvictim, trivial⟩
    simp only [Sys.step, hd, stepDemoter]
  | some p =>
    have hchosen := chosen_of_victim h.filed hvictim
    refine .inr ⟨p.id, { s with demoter := .picked p.id }, ?_, ⟨p, hvictim, rfl⟩, trivial⟩
    simp only [Sys.step, hd, stepDemoter, hchosen.there, Option.isSome_some]
    rw [if_pos ⟨trivial, hchosen.idle⟩]

/-- By induction on the rungs that are left. -/
theorem Loop.ends (h : s.Loop) (hd : s.demoter = .looping)
    (hmoves : ∀ as s', Steps LoopStep s as s' → s'.demoter = .looping → s'.store.victim ≠ none →
      ∃ bs s'', Steps LoopStep s' bs s'' ∧ 0 < moves bs ∧ s''.demoter = .looping) :
    ∃ as s' s'', Steps LoopStep s as s' ∧ s'.LoopStep .rest s'' := by
  induction hn : s.store.rungs.toNat using Nat.strong_induction_on generalizing s with
  | _ n ih =>
    by_cases hvictim : s.store.victim = none
    · refine ⟨[], s, { s with demoter := .waiting }, .refl s, ?_, hvictim, trivial⟩
      simp only [Sys.step, hd, stepDemoter]
    · obtain ⟨bs, t, hbs, hpos, hdt⟩ := hmoves [] s (.refl s) hd hvictim
      obtain ⟨hloop, hcount⟩ := h.run hbs
      have hless : t.store.rungs.toNat < n := by
        have hnonneg := t.store.rungs_nonneg
        omega
      obtain ⟨as, s', s'', has, hrest⟩ := ih _ hless hloop hdt
        (fun as s' has => hmoves (bs ++ as) s' (hbs.append has)) rfl
      exact ⟨bs ++ as, s', s'', hbs.append has, hrest⟩

theorem Loop.converges (h : s.Loop) (hd : s.demoter = .looping) : s.Converges where
  bounded as s' has := by
    have hcount := (h.run has).2
    have hnonneg := s'.store.rungs_nonneg
    omega
  goesOn as s' has hd' := rest_or_pick (h.run has).1 hd'
  ends := h.ends hd
  fits as s' s'' has hrest := by
    have hfits := fits_of_victim (h.run has).1.filed hrest.2.1
    refine ⟨hfits, fun hbooks t tier htier hbudget => ?_⟩
    obtain ⟨a, haccounted, -⟩ :=
      has.invariant (P := BooksKept) (fun _ _ _ h hstep => booksKept_loopStep h hstep) hbooks
    have htotal := haccounted.books.totals t tier htier
    rw [Pi.zero_apply, add_zero] at htotal
    change s'.store.tierBytes t ≤ _ ∨ _
    rw [← htotal]
    exact hfits t tier htier hbudget
  chosen as s' id s'' has hpick := by
    obtain ⟨p, hvictim, hid⟩ := hpick.2.1
    exact ⟨p, hid, chosen_of_victim (h.run has).1.filed hvictim⟩
  orderly as s' a s'' has hstep := ((h.run has).1.orderly hstep).1

end Sys

/-- In every state a store can be in, whatever its directories held and whatever failed. -/
theorem demoter_converges {env : OpenEnv} {budgets : List Int} {fs : FileSystem} {w : World}
    (hopen : openStore env budgets fs = (w, true)) {labels : List Label} {s : Sys}
    (hrun : Steps (fun s a s' => s.step a = some s') (Sys.fresh w) labels s)
    (hloop : s.demoter = .looping) : s.Converges := by
  have hfresh : World.Filed (Sys.fresh w).store := by
    have hfiled := World.Filed.openStore env budgets fs
    rw [hopen] at hfiled
    exact hfiled
  have hfiled := hrun.invariant (P := fun s => World.Filed s.store)
    (fun _ _ _ h hstep => Sys.filed_step h hstep) hfresh
  refine Sys.Loop.converges ⟨hfiled, ?_⟩ hloop
  rw [hloop]
  trivial

/-! ## A first tier with nothing but the active pack -/

def lowerPack : FileSystem :=
  (FileSystem.empty.place (filePath 1 1 .pack) (replicate 20 0)).place (filePath 1 1 .hint) []

def bothOver : Sys :=
  { (Sys.fresh (openStore plainOpen [5, 5] lowerPack).1).stepPut plainPut [97] 1 [7] with
    demoter := .looping
    kicked := false }

theorem steps_bothOver :
    Steps (fun s a s' => Sys.step s a = some s')
      (Sys.fresh (openStore plainOpen [5, 5] lowerPack).1)
      [.put plainPut [97] 1 [7], .recv] bothOver :=
  .cons rfl (.one rfl)

theorem demoter_converges_bothOver : bothOver.store.rungs = 3 ∧ bothOver.Converges := by
  have hopen : openStore plainOpen [5, 5] lowerPack = (_, true) := rfl
  exact ⟨by decide +kernel, demoter_converges hopen steps_bothOver rfl⟩

/-- The first tier is over budget, and the victim is in the second: `victim` goes past a tier that
holds only the active pack. -/
theorem victim_past_active_tier :
    Steps (fun s a s' => Sys.step s a = some s')
        (Sys.fresh (openStore plainOpen [5, 5] lowerPack).1)
        [.put plainPut [97] 1 [7], .recv] bothOver ∧
      (bothOver.store.tiers[0]?).map overBudget = some true ∧
      bothOver.store.victim.map Pack.tier = some 1 :=
  ⟨steps_bothOver, by decide +kernel, by decide +kernel⟩

end Corepkgs.Jigd
