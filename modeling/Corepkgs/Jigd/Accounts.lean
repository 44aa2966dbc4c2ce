import Mathlib.Algebra.Group.Pi.Basic
import Corepkgs.Jigd.Demotion
import Corepkgs.Jigd.Opening
/-!
# The store's books

`live` of a pack and `total` of a tier are counters, kept up to date by `load`,
`Put` and `moveDown` on their way.  The budgets, the choice of a victim and the
answer to `STATS` rest on them.

* `Store.Balanced` — the counters agree with the index and the table, up to what the
  calls under way still owe the tiers;
* one lemma for each kind of update, `balanced_modifyPack` and its neighbours;
* `accounted_of_run` — from an `OpenStore` that cut off every torn tail, through any run
  that does not run out of ids;
* `failed_truncation_uncounted` — the pack whose tail stays is in no tier's total.
-/

namespace Corepkgs.Jigd

open Lib Store World Option Table

def Pack.share (p : Pack) : Nat → Int := Pi.single p.tier (p.size : Int)

namespace Store

def tierBytes (s : Store) (t : Nat) : Int := s.packs.total fun _ p => p.share t

/-- The books, where tier `t` still waits for `owed t` bytes. -/
structure Balanced (s : Store) (owed : Nat → Int) : Prop where
  known : s.Known
  live : ∀ id, s.Counts id
  filed : ∀ id e, s.extent id = some e → e.id = id
  totals : ∀ t tier, s.tiers[t]? = some tier → tier.total + owed t = s.tierBytes t

/-- Nothing is owed, and the active pack `a` is the newest and in the first tier. -/
structure Accounted (s : Store) (a : Nat) : Prop where
  books : s.Balanced 0
  active : s.active = some a
  first : ∃ e, s.extent a = some e ∧ e.tier = 0
  newest : ∀ id e, s.extent id = some e → id ≠ a → id < a

/-! ## Single updates -/

variable {s : Store}

theorem tierBytes_congr {s' : Store} (h : ∀ q, s'.extent q = s.extent q) (t : Nat) :
    s'.tierBytes t = s.tierBytes t := by
  have hshare : ∀ (s : Store) (q : Nat), (s.packs.lookup q).elim 0 (fun p => p.share t) =
      (s.extent q).elim 0 fun e => Pi.single (M := fun _ => Int) e.tier (e.size : Int) t := by
    intro s q
    rw [extent]
    cases s.packs.lookup q <;> rfl
  apply total_congr
  intro q
  rw [hshare, hshare, h]

theorem tierBytes_insert (s : Store) (id : Nat) (p : Pack) (t : Nat) :
    { s with packs := s.packs.insert id p }.tierBytes t =
      s.tierBytes t - (s.packs.lookup id).elim 0 (fun q => q.share t) + p.share t :=
  total_insert _ s.packs id p

variable {p : Pack} {id : Nat}

theorem modifyPack_of_lookup (hp : s.packs.lookup id = some p)
    (f : Pack → Pack) : s.modifyPack id f = { s with packs := s.packs.insert id (f p) } := by
  rw [modifyPack, hp]

section Updates

variable {s : Store} {owed : Nat → Int}

variable (h : s.Balanced owed)

include h

theorem Balanced.congr {owed' : Nat → Int} (heq : owed = owed') :
    s.Balanced owed' := heq ▸ h

theorem Balanced.of_extents {s' : Store}
    (hext : ∀ q, s'.extent q = s.extent q) (htiers : s'.tiers = s.tiers) (hknown : s'.Known)
    (hlive : ∀ id, s'.Counts id) : s'.Balanced owed := by
  refine ⟨hknown, hlive, ?_, ?_⟩
  · intro id e he
    rw [hext] at he
    exact h.filed id e he
  · intro t tier ht
    rw [htiers] at ht
    rw [tierBytes_congr hext]
    exact h.totals t tier ht

theorem balanced_modifyPack
    (hp : s.packs.lookup id = some p) {f : Pack → Pack} (hid : (f p).id = p.id)
    (hlive : (f p).live = p.live) :
    (s.modifyPack id f).Balanced (owed + (f p).share - p.share) := by
  refine ⟨?_, ?_, ?_, ?_⟩
  · intro key l hl
    rw [modifyPack_index] at hl
    obtain ⟨q, hq⟩ := h.known key l hl
    rw [lookup_modifyPack]
    split
    · exact ⟨f p, by rw [hp]; rfl⟩
    · exact ⟨q, hq⟩
  · intro q p' hp'
    rw [liveBytes, modifyPack_index]
    rw [lookup_modifyPack, hp] at hp'
    split at hp'
    · rename_i hq
      cases hp'
      rw [hlive, hq]
      exact h.live id p hp
    · exact h.live q p' hp'
  · intro q e he
    rw [extent, lookup_modifyPack, hp] at he
    split at he
    · rename_i hq
      cases he
      rw [hq]
      exact hid.trans (h.filed id p.extent (extent_of_lookup hp))
    · exact h.filed q e he
  · intro t tier ht
    rw [modifyPack_tiers] at ht
    have htotal := h.totals t tier ht
    rw [modifyPack_of_lookup hp, tierBytes_insert, hp, elim_some, Pi.sub_apply,
      Pi.add_apply]
    omega

theorem balanced_addTotal (t : Nat) (n : Int) :
    (s.addTotal t n).Balanced (owed - Pi.single t n) := by
  refine ⟨h.known, h.live, h.filed, ?_⟩
  intro t' tier ht'
  change _ = s.tierBytes t'
  rw [addTotal, modifyTier, List.getElem?_modify, map_eq_map,
    map_eq_some_iff] at ht'
  obtain ⟨tier', htier', rfl⟩ := ht'
  have htotal := h.totals t' tier' htier'
  rw [Pi.sub_apply, Pi.single_apply]
  by_cases heq : t = t'
  · rw [if_pos heq, if_pos heq.symm]
    change tier'.total + n + _ = _
    omega
  · rw [if_neg heq, if_neg (Ne.symm heq)]
    change tier'.total + _ = _
    omega

theorem balanced_addPack (hnew : s.packs.lookup p.id = none)
    (hlive : p.live = 0) : (s.addPack p).Balanced (owed + p.share) := by
  refine ⟨?_, ?_, ?_, ?_⟩
  · intro key l hl
    obtain ⟨q, hq⟩ := h.known key l hl
    rw [addPack, lookup_insert]
    split
    · exact ⟨p, rfl⟩
    · exact ⟨q, hq⟩
  · intro q
    by_cases hq : q = p.id
    · rw [hq]
      exact counts_addPack h.known hnew hlive
    · intro p' hp'
      rw [addPack, lookup_insert, if_neg hq] at hp'
      exact h.live q p' hp'
  · intro q e he
    rw [extent_addPack] at he
    split at he
    · rename_i hq
      cases he
      exact hq.symm
    · exact h.filed q e he
  · intro t tier ht
    have htotal := h.totals t tier ht
    rw [addPack, tierBytes_insert, hnew, elim_none, Pi.add_apply]
    omega

theorem balanced_foldl_add (hin : (s.extent id).isSome)
    {es : List (Bytes × Loc)} (hid : ∀ e ∈ es, e.2.pack = id) :
    (es.foldl (add id) s).Balanced owed :=
  h.of_extents (extent_foldl_add id s es) (sameRest_foldl_add id s es).tiers
    (known_foldl_add h.known hin hid) fun q => counts_foldl_add (h.live q) hid

theorem balanced_supersede (key : Bytes) {l : Loc}
    (hpack : ∃ p, s.packs.lookup l.pack = some p) : (s.supersede key l).Balanced owed := by
  refine h.of_extents ?_ ?_ (known_supersede h.known hpack) fun q =>
    counts_supersede (h.live q) key l
  · intro q
    rw [supersede, extent_addLive]
    exact extent_dropOld s key q
  · exact (sameRest_addLive _ _ _).tiers.trans (sameRest_dropOld s key).tiers

def forget (s : Store) (p : Pack) : Store :=
  { s with
    index := s.index.keep fun _ l => l.pack ≠ p.id
    packs := s.packs.erase p.id }

omit h in
theorem liveBytes_forget (hid : id ≠ p.id) :
    (s.forget p).liveBytes id = s.liveBytes id := by
  apply total_congr
  intro key
  rw [forget, lookup_keep]
  cases s.index.lookup key with
  | none => rfl
  | some l =>
    rw [filter_some]
    by_cases hl : l.pack = p.id
    · simp [hl, Ne.symm hid]
    · simp [hl]

theorem balanced_forget (hp : s.packs.lookup p.id = some p) :
    (s.forget p).Balanced (owed - p.share) := by
  refine ⟨?_, ?_, ?_, ?_⟩
  · intro key l hl
    rw [forget, lookup_keep, filter_eq_some_iff] at hl
    obtain ⟨q, hq⟩ := h.known key l hl.1
    refine ⟨q, ?_⟩
    rw [forget, lookup_erase, if_neg (by simpa using hl.2)]
    exact hq
  · intro id q hq
    rw [forget, lookup_erase] at hq
    split at hq
    · cases hq
    · rename_i hid
      rw [liveBytes_forget hid]
      exact h.live id q hq
  · intro id e he
    rw [extent, forget, lookup_erase] at he
    split at he
    · cases he
    · exact h.filed id e he
  · intro t tier ht
    have htotal := h.totals t tier ht
    have herase : (s.forget p).tierBytes t =
        s.tierBytes t - (s.packs.lookup p.id).elim 0 (fun q => q.share t) :=
      total_erase _ s.packs p.id
    rw [herase, hp, elim_some, Pi.sub_apply]
    omega

end Updates

end Store

namespace World

/-! ## Loading -/

section Load

variable {env : OpenEnv} {w : World} {p : Pack} {s : Store}

theorem balanced_loadHint (h : w.store.Balanced 0)
    (hnew : w.store.packs.lookup p.id = none) (hlive : p.live = 0) (hint : Nat) :
    (w.loadHint p hint).store.Balanced 0 := by
  have hin : ((w.store.addPack p).extent p.id).isSome := by
    rw [extent_addPack, if_pos rfl]
    rfl
  have hid : ∀ e ∈ hintEntries p.id p.size (w.fs.data hint), e.2.pack = p.id :=
    fun e he => pack_of_mem_hintEntries he
  have hadd := balanced_foldl_add (balanced_addPack h hnew hlive) hin hid
  refine (balanced_addTotal hadd p.tier p.size).congr ?_
  rw [Pack.share, zero_add, sub_self]

theorem balanced_scanned (h : s.Balanced 0)
    (hnew : s.packs.lookup p.id = none) (hlive : p.live = 0) {found : List (Bytes × Loc) × Nat}
    (hid : ∀ e ∈ found.1, e.2.pack = p.id) : (scanned s p found).Balanced 0 := by
  have hext : (s.addPack p).extent p.id = some p.extent := by
    rw [extent_addPack, if_pos rfl]
  have hadd := balanced_foldl_add (balanced_addPack h hnew hlive)
    (by rw [hext]; rfl) hid
  obtain ⟨q, hq, hqe⟩ := lookup_of_extent
    ((extent_foldl_add p.id (s.addPack p) found.1 p.id).trans hext)
  have hplace : q.tier = p.tier ∧ q.size = p.size := by
    have hmk : (⟨q.id, q.tier, q.file, q.size⟩ : Extent) = ⟨p.id, p.tier, p.file, p.size⟩ := hqe
    simp only [Extent.mk.injEq] at hmk
    exact ⟨hmk.2.1, hmk.2.2.2⟩
  have hsize := balanced_modifyPack hadd hq (f := fun q => { q with size := found.2 }) rfl rfl
  refine (balanced_addTotal hsize p.tier found.2).congr ?_
  have hshare : q.share = p.share := by
    rw [Pack.share, Pack.share, hplace.1, hplace.2]
  have hnewShare : Pack.share { q with size := found.2 } = Pi.single p.tier (found.2 : Int) := by
    rw [← hplace.1]
    rfl
  rw [hshare, hnewShare, zero_add, add_sub_cancel_left, sub_self]

/-- A load that cuts off the tail where it has to leaves the books in balance, even if the hint
cannot be written. -/
theorem balanced_load (h : w.store.Balanced 0) {t id : Nat} (hnew : w.store.packs.lookup id = none)
    (hcut : ∀ i, w.fs.lookup (filePath t id .pack) = some i →
      w.fs.lookup (filePath t id .hint) = none → TornEnd (w.fs.data i) →
        env.fault t id ≠ some .truncating) :
    (w.load env t id).1.store.Balanced 0 := by
  rcases load_cases env w t id with ⟨-, heq⟩ | ⟨file, hint, -, -, -, heq⟩ |
    ⟨file, hfile, -, hhint, heq⟩
  · rw [heq]
    exact h
  · rw [heq]
    exact balanced_loadHint h hnew rfl hint
  · rw [heq]
    have hscanned := balanced_scanned (p := openedPack env w.fs t id file) h hnew rfl
      fun e (he : e ∈ (scan id (w.fs.data file)).1) => pack_of_mem_scan he
    rcases loadScan_cases env w
      (openedPack env w.fs t id file) with ⟨htorn, hfault, -⟩ | ⟨-, hres⟩ |
      ⟨-, -, bytes, hres⟩
    · exact absurd hfault (hcut file hfile hhint ((tornEnd_iff id _).mpr htorn))
    · rw [hres]
      exact hscanned
    · rw [hres]
      exact hscanned

end Load

/-- What the loads of `OpenStore` have to meet: every torn tail is cut off, and no pack gets into
the table beyond the packs that load. -/
structure Settles (env : OpenEnv) (n : Nat) (fs : FileSystem) : Prop where
  cut : ∀ {t id i}, t < n → fs.lookup (filePath t id .pack) = some i →
    fs.lookup (filePath t id .hint) = none → TornEnd (fs.data i) → env.fault t id ≠ some .truncating
  top : ∀ {t id}, t < n → id < 1000000 → Enters env fs t id →
    ∃ id' ≥ id, id' < 1000000 ∧ Counted env n fs id'

theorem keptBy_balanced {env : OpenEnv} {n : Nat} {fs : FileSystem} (h : Settles env n fs) :
    KeptBy env fs n fun acc => acc.1.store.Balanced 0 := by
  intro V acc t name ht hopened hbal
  cases hid : scanId name with
  | none => rwa [openName, hid]
  | some id =>
    rcases openName_cases env t acc hid with ⟨-, heq⟩ | ⟨hnone, heq⟩
    · rwa [heq]
    · rw [heq]
      apply balanced_load hbal hnone
      intro i hi hhint htorn
      rw [hopened.names hnone] at hi hhint
      exact h.cut ht hi hhint (hopened.tornEnd (FileSystem.lookup_lt hi) htorn)

theorem balanced_emptyStore (budgets : List Int) : (emptyStore budgets).Balanced 0 := by
  refine ⟨?_, ?_, ?_, ?_⟩
  · intro key l hl
    cases hl
  · intro id p hp
    cases hp
  · intro id e he
    cases he
  · intro t tier ht
    simp only [emptyStore, List.getElem?_map, map_eq_some_iff] at ht
    obtain ⟨b, -, rfl⟩ := ht
    rfl

variable {w : World} {p : Pack}

theorem accounted_openActive (h : w.store.Balanced 0) {id : Nat}
    (hid : ∀ q e, w.store.extent q = some e → q < id) (now : Int) :
    (w.openActive now id).store.Accounted id := by
  have hnew : w.store.packs.lookup id = none := by
    cases hp : w.store.packs.lookup id with
    | none => rfl
    | some p => exact absurd (hid id _ (extent_of_lookup hp)) (Nat.lt_irrefl id)
  have hadd := balanced_addPack h
    (p := ⟨id, 0, w.fs.inodes.length, 0, 0, now, now⟩) hnew rfl
  have hzero : Pack.share ⟨id, 0, w.fs.inodes.length, 0, 0, now, now⟩ = 0 := Pi.single_zero 0
  rw [hzero, add_zero] at hadd
  refine ⟨⟨hadd.known, hadd.live, hadd.filed, hadd.totals⟩, rfl, ?_, ?_⟩
  · exact ⟨_, (extent_addPack _ _ _).trans (if_pos rfl), rfl⟩
  · intro q e he hne
    have hold := (extent_addPack _ _ _).symm.trans he
    rw [if_neg hne] at hold
    exact hid q e hold

theorem accounted_openStore {env : OpenEnv} {budgets : List Int} {fs : FileSystem}
    (h : Settles env budgets.length fs) (hopen : openStore env budgets fs = (w, true)) :
    w.store.Accounted (newId env budgets fs) := by
  have hend := openedTiers_of (keptBy_balanced h) (balanced_emptyStore budgets)
  obtain ⟨V, hopened, hbound, -⟩ := hend.visited
  rw [openStore_eq] at hopen
  split at hopen
  · cases hopen
  · cases hopen
    apply accounted_openActive hend.kept
    intro id e he
    obtain ⟨p, hp, -⟩ := lookup_of_extent he
    obtain ⟨t, hmem, henter⟩ := hopened.entered.mp (by rw [hp]; rfl)
    obtain ⟨id', hge, hlt, hcounted⟩ := h.top (hbound _ hmem) (hopened.ids hmem) henter
    have hlast := le_last_of_counted env budgets hlt hcounted
    rw [newId_eq]
    omega

/-! ## Put -/

theorem modifyPack_modifyPack (s : Store) (id : Nat) (f g : Pack → Pack) :
    (s.modifyPack id f).modifyPack id g = s.modifyPack id fun p => g (f p) := by
  cases hp : s.packs.lookup id with
  | none =>
    have hf : s.modifyPack id f = s := by rw [modifyPack, hp]
    rw [hf, modifyPack, modifyPack, hp]
  | some p =>
    have hf : (s.modifyPack id f).packs.lookup id = some (f p) := by
      rw [lookup_modifyPack, if_pos rfl, hp, map_some]
    rw [modifyPack_of_lookup hf, modifyPack_of_lookup hp,
      modifyPack_of_lookup hp]
    simp only [AList.insert_insert]

/-- A value below 4 GiB is counted in full. -/
theorem commit_eq_supersede (s : Store) (p : Pack) (key : Bytes) {size : Nat}
    (hsize : size < 2 ^ 32) :
    commit s p key size =
      ((s.supersede key ⟨p.id, u32 (u32 p.size + recHeader + u32 key.length), size⟩).modifyPack p.id
        fun q => { q with size := q.size + (recHeader + key.length + size) }).addTotal 0
          (recHeader + key.length + size : Nat) := by
  rw [commit_eq, supersede, addLive, modifyPack_modifyPack, u32_of_lt hsize]

section Put

variable {w : World} {a : Nat} {s : Store}

theorem accounted_commit (h : s.Accounted a) (hid : p.id = a)
    (hp : s.extent a = some p.extent) (key : Bytes) {size : Nat} (hsize : size < 2 ^ 32) :
    (commit s p key size).Accounted a := by
  obtain ⟨q, hq, hqe⟩ := lookup_of_extent hp
  set l : Loc := ⟨p.id, u32 (u32 p.size + recHeader + u32 key.length), size⟩
  have hnew := balanced_supersede h.books key (l := l) ⟨q, by rw [← hq, ← hid]⟩
  have hq' : (s.supersede key l).packs.lookup p.id = some { q with
      live := q.live - s.oldBytes key p.id + if l.pack = p.id then (l.len : Int) else 0 } := by
    rw [lookup_supersede, hid, hq, map_some]
  have hext := extent_commit (by rw [hid]; exact hp) key size (s := s) (p := p)
  have htier : q.tier = 0 := by
    obtain ⟨e, he, hzero⟩ := h.first
    rw [hp, ← hqe] at he
    cases he
    exact hzero
  have hgrow := balanced_modifyPack hnew hq'
    (f := fun q => { q with size := q.size + (recHeader + key.length + size) }) rfl rfl
  have hbooks := balanced_addTotal hgrow 0 (recHeader + key.length + size : Nat)
  rw [commit_eq_supersede s p key hsize] at hext ⊢
  refine ⟨hbooks.congr ?_, ?_, ?_, ?_⟩
  · funext t
    simp only [Pack.share, htier, Pi.sub_apply, Pi.add_apply, Pi.zero_apply, Pi.single_apply]
    split
    · push_cast
      omega
    · omega
  · rw [← commit_eq_supersede s p key hsize, commit_active]
    exact h.active
  · refine ⟨_, (hext a).trans (if_pos hid.symm), ?_⟩
    rw [← hqe]
    exact htier
  · intro id e he hne
    rw [hext, if_neg (by rw [hid]; exact hne)] at he
    exact h.newest id e he hne

theorem accounted_append (h : w.store.Accounted a) (hid : p.id = a)
    (hp : w.store.extent a = some p.extent) (env : PutEnv) (key : Bytes) {body : Bytes}
    (hbody : body.length < 2 ^ 32) : (w.append env p key body).1.store.Accounted a := by
  rcases store_append env w p key body with ⟨hstore, -⟩ | heq
  · rw [hstore]
    exact h
  · rw [heq]
    exact accounted_commit h hid hp key hbody

theorem accounted_put (h : w.store.Accounted a) {env : PutEnv} {key : Bytes} {size : Int}
    {r : Bytes} {d : Demoter} {k : Bool} (hwrap : ¬ Sys.Wraps ⟨w, d, k⟩ (.put env key size r)) :
    ∃ a' ≥ a, (w.put env key size r).1.store.Accounted a' := by
  obtain ⟨e, he, -⟩ := h.first
  obtain ⟨p, hp, hpe⟩ := lookup_of_extent he
  have hid : p.id = a := by
    rw [← hpe] at he
    exact h.books.filed a _ he
  have hactive : w.store.activePack = some p := by
    rw [activePack, h.active, bind_some, hp]
  have hext := extent_of_lookup hp
  cases put_path env key size r hactive with
  | refused e result =>
    rw [result]
    exact ⟨a, le_rfl, h⟩
  | direct body hbody _ _ result =>
    rw [result]
    have hlen := (storable_of_readBody hbody).2.value_lt
    exact ⟨a, le_rfl, accounted_append h hid hext env key hlen⟩
  | stuck body _ _ _ _ result =>
    rw [result]
    refine ⟨a, le_rfl, ?_⟩
    change ((w.sealActive _).1.store).Accounted a
    rw [sealActive_store]
    exact h
  | rotated body q hbody hclosed full _ hq result =>
    rw [u32_of_not_wraps hwrap hactive hbody hclosed full, hid] at result hq
    rw [result]
    have hlen := (storable_of_readBody hbody).2.value_lt
    have hseal : (w.sealActive env.rotate.sealing).1.store = w.store := sealActive_store _ _
    have hopen : ((w.sealActive env.rotate.sealing).1.openActive env.rotate.now
        (a + 1)).store.Accounted (a + 1) := by
      apply accounted_openActive
      · rw [hseal]
        exact h.books
      · intro q e hq
        rw [hseal] at hq
        rcases eq_or_ne q a with rfl | hne
        · exact Nat.lt_succ_self q
        · exact (h.newest q e hq hne).trans (Nat.lt_succ_self a)
    refine ⟨a + 1, Nat.le_succ a, accounted_append hopen ?_ ?_ env key hlen⟩
    · rw [hq]
    · rw [hq]
      exact (extent_addPack _ _ _).trans (if_pos rfl)

end Put

/-! ## The other steps -/

theorem accounted_get {a : Nat} (h : w.store.Accounted a) (key : Bytes) (now : Int) :
    (w.get key now).1.store.Accounted a := by
  have hbooks : (w.get key now).1.store.Balanced 0 := by
    unfold get
    split
    · exact h.books
    · rename_i l hl
      obtain ⟨p, hp⟩ := h.books.known key l hl
      have htouch := balanced_modifyPack h.books hp
        (f := fun p => { p with
          used := now
          touched := if now - p.touched > touchEvery then now else p.touched }) rfl rfl
      exact htouch.congr (by rw [zero_add]; exact sub_self p.share)
  refine ⟨hbooks, ?_, ?_, ?_⟩
  · rw [get_active]
    exact h.active
  · rw [extent_get]
    exact h.first
  · intro id e he
    rw [extent_get] at he
    exact h.newest id e he

theorem accounted_evict {a : Nat} (h : w.store.Accounted a) {id : Nat} (hid : id < a)
    (hp : w.store.packs.lookup id = some p) : (w.evict p).store.Accounted a := by
  have hpid : p.id = id := h.books.filed id _ (extent_of_lookup hp)
  have hbooks := balanced_addTotal (balanced_forget h.books (hpid ▸ hp)) p.tier (-p.size)
  refine ⟨hbooks.congr ?_, h.active, ?_, ?_⟩
  · funext t
    simp only [Pack.share, Pi.sub_apply, Pi.zero_apply, Pi.single_apply]
    split <;> omega
  · rw [extent_evict, if_neg (by omega)]
    exact h.first
  · intro q e he hne
    rw [extent_evict] at he
    split at he
    · cases he
    · exact h.newest q e he hne

theorem accounted_switchDown {a : Nat} (h : w.store.Accounted a) {id : Nat}
    (hid : id < a) (hp : w.store.packs.lookup id = some p) (file : Nat) :
    (w.switchDown p file).store.Accounted a := by
  have hpid : p.id = id := h.books.filed id _ (extent_of_lookup hp)
  have hp' : w.store.packs.lookup p.id = some p := hpid ▸ hp
  have hmove := balanced_modifyPack h.books hp'
    (f := fun q => { q with file := file, tier := p.tier + 1 }) rfl rfl
  have hbooks := balanced_addTotal (balanced_addTotal hmove p.tier (-p.size))
    (p.tier + 1) p.size
  refine ⟨hbooks.congr ?_, ?_, ?_, ?_⟩
  · funext t
    simp only [Pack.share, Pi.sub_apply, Pi.add_apply, Pi.zero_apply, Pi.single_apply]
    split <;> split <;> omega
  · rw [switchDown_active]
    exact h.active
  · rw [extent_switchDown hp', if_neg (by omega)]
    exact h.first
  · intro q e he hne
    rw [extent_switchDown hp'] at he
    split at he
    · omega
    · exact h.newest q e he hne

end World

/-! ## Runs -/

def Demoter.pack : Demoter → Option Nat
  | .waiting => none
  | .looping => none
  | .picked id => some id
  | .moving id _ _ => some id

namespace Sys

def NumberedStep (s : Sys) (l : Label) (s' : Sys) : Prop := s.step l = some s' ∧ ¬ s.Wraps l

/-- The books are in order, and the demoter is not at the active pack. -/
def BooksKept (s : Sys) : Prop :=
  ∃ a, s.store.Accounted a ∧ ∀ id, s.demoter.pack = some id → id < a

theorem booksKept_demoterStep {s s' : Sys} {l : Label} (hstep : DemoterStep s l s')
    (h : s.BooksKept) :
    s'.BooksKept := by
  obtain ⟨a, hbooks, hdem⟩ := h
  -- the demoter goes on with the pack it has, or with none
  have hsame : ∀ s' : Sys, s'.store = s.store →
      (∀ id, s'.demoter.pack = some id → s.demoter.pack = some id) → s'.BooksKept := by
    intro s' hstore hpack
    refine ⟨a, ?_, fun id hid => hdem id (hpack id hid)⟩
    rw [hstore]
    exact hbooks
  cases hstep with
  | recv _ _ | rest _ | dropTmp _ | giveUp _ => exact hsame _ rfl fun id hid => nomatch hid
  | pick h hp ha =>
    rename_i id p
    refine ⟨a, hbooks, ?_⟩
    intro q hq
    cases hq
    refine hbooks.newest id _ (extent_of_lookup hp) ?_
    rintro rfl
    exact ha hbooks.active
  | evict h hp ht =>
    rename_i id p
    have hid : id < a := hdem id (by rw [h]; rfl)
    exact ⟨a, accounted_evict hbooks hid hp, fun q hq => nomatch hq⟩
  | startMove h _ _ | linked h _ | linkFails h _ | copyRest h _ _ | renamed h =>
    exact hsame _ rfl fun q hq => by rw [h]; exact hq
  | copySome n h => exact hsame _ rfl fun q hq => hq
  | switch h hp hfile =>
    rename_i id src file p
    have hid : id < a := hdem id (by rw [h]; rfl)
    exact ⟨a, accounted_switchDown hbooks hid hp file, fun q hq => nomatch hq⟩

theorem booksKept_step {s s' : Sys} {l : Label} (h : s.BooksKept) (hstep : s.NumberedStep l s') :
    s'.BooksKept := by
  rcases step_inv hstep.1 with ⟨env, key, size, r, rfl, rfl⟩ | ⟨key, now, rfl, rfl⟩ |
    ⟨rfl, rfl⟩ | ⟨-, hdem⟩
  · obtain ⟨a, hbooks, hdem⟩ := h
    obtain ⟨a', hle, hbooks'⟩ := accounted_put hbooks hstep.2
    obtain ⟨hworld, hdemoter⟩ := stepPut_world s env key size r
    refine ⟨a', ?_, ?_⟩
    · rw [store, hworld]
      exact hbooks'
    · rw [hdemoter]
      exact fun id hid => (hdem id hid).trans_le hle
  · obtain ⟨a, hbooks, hdem⟩ := h
    exact ⟨a, accounted_get hbooks key now, hdem⟩
  · obtain ⟨a, hbooks, hdem⟩ := h
    have hb := hbooks.books
    exact ⟨a, ⟨⟨hb.known, hb.live, hb.filed, hb.totals⟩, hbooks.active, hbooks.first,
      hbooks.newest⟩, hdem⟩
  · exact booksKept_demoterStep hdem h

end Sys

/-- After an `OpenStore` that settles, on whatever directories, the books are in order in every
state of every run that does not run out of pack ids. -/
theorem accounted_of_run {env : OpenEnv} {budgets : List Int} {fs : FileSystem} {w : World}
    (hsettles : World.Settles env budgets.length fs)
    (hopen : openStore env budgets fs = (w, true)) {labels : List Label} {s : Sys}
    (hrun : Steps Sys.NumberedStep (Sys.fresh w) labels s) : ∃ a, s.store.Accounted a := by
  have hfresh : (Sys.fresh w).BooksKept :=
    ⟨_, accounted_openStore hsettles hopen, fun id hid => nomatch hid⟩
  obtain ⟨a, hbooks, -⟩ := hrun.invariant (fun _ _ _ h hstep => Sys.booksKept_step h hstep) hfresh
  exact ⟨a, hbooks⟩

theorem settles_onePackFile : World.Settles plainOpen 1 (onePackFile []) := by
  refine ⟨fun _ _ _ _ hfault => (nomatch hfault), ?_⟩
  rintro t id ht - ⟨⟨i, hi⟩, -⟩
  obtain ⟨rfl, rfl⟩ := lookup_onePackFile hi
  exact ⟨1, le_rfl, by decide, counted_onePackFile ht hi⟩

theorem accounted_of_run_onePackFile :
    ∃ a, ((Sys.fresh (openStore plainOpen [0] (onePackFile [])).1).stepPut
      plainPut [97] 1 [7]).store.Accounted a := by
  have hopen : openStore plainOpen [0] (onePackFile []) =
      ((openStore plainOpen [0] (onePackFile [])).1, true) := rfl
  refine accounted_of_run settles_onePackFile hopen (.one (a := .put plainPut [97] 1 [7]) ⟨rfl, ?_⟩)
  rintro ⟨p, body, -, -, hp, hfull, -⟩
  have hactive : (Sys.fresh (openStore plainOpen [0] (onePackFile [])).1).store.activePack
      = some ⟨2, 0, 2, 0, 0, 0, 0⟩ := rfl
  rw [hactive] at hp
  cases hp
  simp [needsRotate] at hfull

def tornAndWhole : FileSystem := (onePackFile [0]).place (filePath 0 2 .pack) []

def firstCutFails : OpenEnv :=
  { plainOpen with fault := fun _ id => if id = 1 then some .truncating else none }

/-- A pack whose torn tail could not be cut off is in the table, but in no total. -/
theorem failed_truncation_uncounted :
    (openStore firstCutFails [0] tornAndWhole).2 = true ∧
      ¬ ∃ a, (openStore firstCutFails [0] tornAndWhole).1.store.Accounted a := by
  refine ⟨rfl, ?_⟩
  rintro ⟨a, h⟩
  have htier : (openStore firstCutFails [0] tornAndWhole).1.store.tiers[0]? = some ⟨0, 0⟩ := rfl
  have hbytes : (openStore firstCutFails [0] tornAndWhole).1.store.tierBytes 0 = 1 := rfl
  have htotal := h.books.totals 0 _ htier
  rw [hbytes] at htotal
  exact absurd htotal (by decide)

end Corepkgs.Jigd
