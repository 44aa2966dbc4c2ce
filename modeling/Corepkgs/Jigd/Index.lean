import Corepkgs.Jigd.Store
/-!
# Index and pack table

What the bookkeeping of `store.go` does to the index, to the place of each pack
and to its live bytes.  Where a pack lies is its `Extent`; recency and live bytes
come and go without moving it, so everything said about file contents is said
about extents.
-/

namespace Corepkgs.Jigd

open Lib Option Table List

structure Extent where
  id : Nat
  tier : Nat
  file : Nat
  size : Nat
  deriving DecidableEq, Repr

def Pack.extent (p : Pack) : Extent := ⟨p.id, p.tier, p.file, p.size⟩

namespace Store

def extent (s : Store) (id : Nat) : Option Extent := (s.packs.lookup id).map Pack.extent

variable {s : Store} {id : Nat} {e : Bytes × Loc}

theorem extent_of_lookup {p : Pack} (h : s.packs.lookup id = some p) :
    s.extent id = some p.extent := by
  rw [extent, h]
  rfl

theorem lookup_of_extent {e : Extent} (h : s.extent id = some e) :
    ∃ p, s.packs.lookup id = some p ∧ p.extent = e := by
  rw [extent, map_eq_some_iff] at h
  exact h

/-! ## Updates of one pack or tier -/

theorem lookup_modifyPack (s : Store) (id : Nat) (f : Pack → Pack) (q : Nat) :
    (s.modifyPack id f).packs.lookup q =
      if q = id then (s.packs.lookup id).map f else s.packs.lookup q := by
  unfold modifyPack
  split
  · rename_i p hp
    rw [lookup_insert, hp]
    rfl
  · rename_i hnone
    split
    · rename_i hq
      rw [hq, hnone]
      rfl
    · rfl

@[simp] theorem modifyPack_index (s : Store) (id : Nat) (f : Pack → Pack) :
    (s.modifyPack id f).index = s.index := by
  unfold modifyPack
  split <;> rfl

@[simp] theorem modifyPack_active (s : Store) (id : Nat) (f : Pack → Pack) :
    (s.modifyPack id f).active = s.active := by
  unfold modifyPack
  split <;> rfl

@[simp] theorem modifyPack_closed (s : Store) (id : Nat) (f : Pack → Pack) :
    (s.modifyPack id f).closed = s.closed := by
  unfold modifyPack
  split <;> rfl

@[simp] theorem modifyPack_tiers (s : Store) (id : Nat) (f : Pack → Pack) :
    (s.modifyPack id f).tiers = s.tiers := by
  unfold modifyPack
  split <;> rfl

theorem extent_modifyPack {f : Pack → Pack} {g : Extent → Extent}
    (hf : ∀ p, (f p).extent = g p.extent) (s : Store) (id q : Nat) :
    (s.modifyPack id f).extent q = if q = id then (s.extent q).map g else s.extent q := by
  rw [extent, lookup_modifyPack, extent]
  split
  · rename_i hq
    rw [hq]
    cases s.packs.lookup id with
    | none => rfl
    | some p => exact congrArg some (hf p)
  · rfl

theorem extent_modifyPack_same {f : Pack → Pack} (hf : ∀ p, (f p).extent = p.extent) (s : Store)
    (id q : Nat) : (s.modifyPack id f).extent q = s.extent q := by
  rw [extent_modifyPack (g := fun e => e) hf, Option.map_id', ite_self]

@[simp] theorem addTotal_index (s : Store) (t : Nat) (n : Int) :
    (s.addTotal t n).index = s.index := rfl

@[simp] theorem addTotal_packs (s : Store) (t : Nat) (n : Int) :
    (s.addTotal t n).packs = s.packs := rfl

@[simp] theorem addTotal_active (s : Store) (t : Nat) (n : Int) :
    (s.addTotal t n).active = s.active := rfl

@[simp] theorem addTotal_closed (s : Store) (t : Nat) (n : Int) :
    (s.addTotal t n).closed = s.closed := rfl

@[simp] theorem length_addTotal (s : Store) (t : Nat) (n : Int) :
    (s.addTotal t n).tiers.length = s.tiers.length := by
  simp [addTotal, modifyTier]

@[simp] theorem extent_addTotal (s : Store) (t : Nat) (n : Int) (q : Nat) :
    (s.addTotal t n).extent q = s.extent q := rfl

@[simp] theorem extent_addPack (s : Store) (p : Pack) (q : Nat) :
    (s.addPack p).extent q = if q = p.id then some p.extent else s.extent q := by
  rw [extent, addPack, lookup_insert]
  split <;> rfl

/-! ## Adding what a pack holds -/

def addLive (s : Store) (id : Nat) (n : Int) : Store :=
  s.modifyPack id fun p => { p with live := p.live + n }

@[simp] theorem extent_addLive (s : Store) (id : Nat) (n : Int) (q : Nat) :
    (s.addLive id n).extent q = s.extent q := by
  unfold addLive
  apply extent_modifyPack_same
  exact fun _ => rfl

@[simp] theorem addLive_index (s : Store) (id : Nat) (n : Int) :
    (s.addLive id n).index = s.index := modifyPack_index s id _

/-- The live bytes a superseded entry gives back. -/
def dropOld (s : Store) (key : Bytes) : Store :=
  match s.index.lookup key with
  | some old => s.addLive old.pack (-old.len)
  | none => s

@[simp] theorem extent_dropOld (s : Store) (key : Bytes) (q : Nat) :
    (s.dropOld key).extent q = s.extent q := by
  unfold dropOld
  split
  · exact extent_addLive s _ _ q
  · rfl

def Newer (s : Store) (key : Bytes) (id : Nat) : Prop :=
  ∃ old, s.index.lookup key = some old ∧ id < old.pack

theorem add_of_newer (h : s.Newer e.1 e.2.pack) :
    s.add id e = s := by
  obtain ⟨old, hold, hlt⟩ := h
  simp only [add, hold, gt_iff_lt, hlt, if_true]

theorem add_of_not_newer (h : ¬ s.Newer e.1 e.2.pack) :
    s.add id e =
      { s.dropOld e.1 with index := s.index.insert e.1 e.2 }.addLive id e.2.len := by
  cases hold : s.index.lookup e.1 with
  | none => simp only [add, dropOld, hold, addLive]
  | some old =>
    have hle : ¬ old.pack > e.2.pack := fun hlt => h ⟨old, hold, hlt⟩
    simp only [add, dropOld, hold, if_neg hle, modifyPack_index, addLive, Int.sub_eq_add_neg]

theorem extent_add (id : Nat) (s : Store) (e : Bytes × Loc) (q : Nat) :
    (s.add id e).extent q = s.extent q := by
  by_cases h : s.Newer e.1 e.2.pack
  · rw [add_of_newer h]
  · rw [add_of_not_newer h, extent_addLive]
    exact extent_dropOld s e.1 q

theorem extent_foldl_add (id : Nat) (s : Store) (es : List (Bytes × Loc)) (q : Nat) :
    (es.foldl (add id) s).extent q = s.extent q := by
  induction es generalizing s with
  | nil => rfl
  | cons e es ih => rw [foldl_cons, ih, extent_add]

structure SameRest (s s' : Store) : Prop where
  tiers : s'.tiers = s.tiers
  active : s'.active = s.active
  closed : s'.closed = s.closed

theorem SameRest.trans {a b c : Store} (h : SameRest a b) (h' : SameRest b c) : SameRest a c :=
  ⟨h'.tiers.trans h.tiers, h'.active.trans h.active, h'.closed.trans h.closed⟩

theorem sameRest_addLive (s : Store) (id : Nat) (n : Int) : SameRest s (s.addLive id n) :=
  ⟨modifyPack_tiers s id _, modifyPack_active s id _, modifyPack_closed s id _⟩

theorem sameRest_dropOld (s : Store) (key : Bytes) : SameRest s (s.dropOld key) := by
  unfold dropOld
  split
  · exact sameRest_addLive s _ _
  · exact ⟨rfl, rfl, rfl⟩

theorem sameRest_add (id : Nat) (s : Store) (e : Bytes × Loc) : SameRest s (s.add id e) := by
  by_cases h : s.Newer e.1 e.2.pack
  · rw [add_of_newer h]
    exact ⟨rfl, rfl, rfl⟩
  · rw [add_of_not_newer h]
    have hold := sameRest_dropOld s e.1
    have hlive := sameRest_addLive { s.dropOld e.1 with index := s.index.insert e.1 e.2 } id e.2.len
    exact ⟨hlive.tiers.trans hold.tiers, hlive.active.trans hold.active,
      hlive.closed.trans hold.closed⟩

theorem sameRest_foldl_add (id : Nat) (s : Store) (es : List (Bytes × Loc)) :
    SameRest s (es.foldl (add id) s) := by
  induction es generalizing s with
  | nil => exact ⟨rfl, rfl, rfl⟩
  | cons e es ih => exact (sameRest_add id s e).trans (ih (s.add id e))

/-- Newest pack id wins, and within a pack the later entry. -/
def newest (id : Nat) (found old : Option Loc) : Option Loc :=
  match old with
  | some l => if id < l.pack then some l else found.or (some l)
  | none => found

theorem newest_none (id : Nat) (old : Option Loc) : newest id none old = old := by
  cases old with
  | none => rfl
  | some l => simp [newest]

theorem newest_newest (a : Option Loc) {l : Loc} (hl : l.pack = id) (old : Option Loc) :
    newest id a (newest id (some l) old) = newest id (a.or (some l)) old := by
  cases old with
  | none => simp [newest, hl]
  | some o =>
    by_cases ho : id < o.pack
    · simp [newest, ho]
    · simp [newest, ho, hl]

theorem lookup_add (s : Store) (he : e.2.pack = id) (key : Bytes) :
    (s.add id e).index.lookup key =
      if key = e.1 then newest id (some e.2) (s.index.lookup key) else s.index.lookup key := by
  by_cases h : s.Newer e.1 e.2.pack
  · rw [add_of_newer h]
    obtain ⟨old, hold, hlt⟩ := h
    split
    · rename_i hkey
      rw [hkey, hold, newest, if_pos (he ▸ hlt)]
    · rfl
  · rw [add_of_not_newer h, addLive_index, lookup_insert]
    split
    · rename_i hkey
      rw [hkey]
      cases hold : s.index.lookup e.1 with
      | none => rfl
      | some old =>
        have hle : ¬ id < old.pack := fun hlt => h ⟨old, hold, he ▸ hlt⟩
        simp [newest, hle]
    · rfl

variable {es : List (Bytes × Loc)}

theorem lookup_foldl_add (s : Store) (hid : ∀ e ∈ es, e.2.pack = id) (key : Bytes) :
    (es.foldl (add id) s).index.lookup key =
      newest id (lastOf es key) (s.index.lookup key) := by
  induction es generalizing s with
  | nil => exact (newest_none id _).symm
  | cons e es ih =>
    have he : e.2.pack = id := hid e (by simp)
    have hcons : lastOf (e :: es) key = (lastOf es key).or (lastOf [e] key) :=
      lastOf_append [e] es key
    rw [foldl_cons, ih _ (fun e' he' => hid e' (by simp [he'])), lookup_add s he, hcons,
      ← nil_append [e], lastOf_concat]
    by_cases hkey : key = e.1
    · rw [if_pos hkey, if_pos hkey.symm, newest_newest _ he]
    · rw [if_neg hkey, if_neg (Ne.symm hkey), lastOf_nil, or_none]

/-! ## Live bytes -/

def liveBytes (s : Store) (id : Nat) : Int :=
  s.index.total fun _ l => if l.pack = id then (l.len : Int) else 0

def Known (s : Store) : Prop :=
  ∀ key l, s.index.lookup key = some l → ∃ p, s.packs.lookup l.pack = some p

def Counts (s : Store) (id : Nat) : Prop :=
  ∀ p, s.packs.lookup id = some p → p.live = s.liveBytes id

def oldBytes (s : Store) (key : Bytes) (id : Nat) : Int :=
  (s.index.lookup key).elim 0 fun l => if l.pack = id then (l.len : Int) else 0

theorem liveBytes_insert (s : Store) (key : Bytes) (l : Loc) (id : Nat) :
    { s with index := s.index.insert key l }.liveBytes id =
      s.liveBytes id - s.oldBytes key id + if l.pack = id then (l.len : Int) else 0 :=
  total_insert _ s.index key l

theorem lookup_dropOld (s : Store) (key : Bytes) (q : Nat) :
    (s.dropOld key).packs.lookup q =
      (s.packs.lookup q).map fun p => { p with live := p.live - s.oldBytes key q } := by
  cases hold : s.index.lookup key with
  | none =>
    have hzero : s.oldBytes key q = 0 := by rw [oldBytes, hold, elim_none]
    rw [dropOld, hold, hzero]
    cases s.packs.lookup q <;> simp
  | some old =>
    have hbytes : s.oldBytes key q = if old.pack = q then (old.len : Int) else 0 := by
      rw [oldBytes, hold, elim_some]
    rw [dropOld, hold, hbytes]
    simp only [addLive, lookup_modifyPack]
    by_cases hq : q = old.pack
    · subst hq
      simp only [if_true, Int.sub_eq_add_neg]
    · rw [if_neg hq, if_neg (Ne.symm hq)]
      cases s.packs.lookup q <;> simp

/-- The common end of `add` and `Put`: the index entry replaced, the live bytes moved. -/
def supersede (s : Store) (key : Bytes) (l : Loc) : Store :=
  { s.dropOld key with index := s.index.insert key l }.addLive l.pack l.len

theorem lookup_supersede (s : Store) (key : Bytes) (l : Loc) (q : Nat) :
    (s.supersede key l).packs.lookup q = (s.packs.lookup q).map fun p =>
      { p with live := p.live - s.oldBytes key q + if l.pack = q then (l.len : Int) else 0 } := by
  rw [supersede, addLive, lookup_modifyPack]
  simp only [lookup_dropOld]
  by_cases hq : q = l.pack
  · subst hq
    cases s.packs.lookup l.pack <;> simp
  · rw [if_neg hq]
    cases s.packs.lookup q <;> simp [Ne.symm hq]

theorem supersede_index (s : Store) (key : Bytes) (l : Loc) :
    (s.supersede key l).index = s.index.insert key l := by
  rw [supersede, addLive_index]

theorem counts_supersede (h : s.Counts id) (key : Bytes) (l : Loc) :
    (s.supersede key l).Counts id := by
  intro p hp
  rw [lookup_supersede, map_eq_some_iff] at hp
  obtain ⟨p₀, hp₀, rfl⟩ := hp
  have hbytes := liveBytes_insert s key l id
  rw [liveBytes, supersede_index]
  rw [liveBytes] at hbytes
  rw [hbytes, h p₀ hp₀]

variable {key : Bytes}

theorem known_supersede (h : s.Known) {l : Loc}
    (hpack : ∃ p, s.packs.lookup l.pack = some p) : (s.supersede key l).Known := by
  intro k l' hl'
  rw [supersede_index, lookup_insert] at hl'
  have hexists : ∃ p, s.packs.lookup l'.pack = some p := by
    split at hl'
    · cases hl'
      exact hpack
    · exact h k l' hl'
  obtain ⟨p, hp⟩ := hexists
  exact ⟨_, by rw [lookup_supersede, hp]; rfl⟩

theorem add_eq_supersede (he : e.2.pack = id) (h : ¬ s.Newer e.1 e.2.pack) :
    s.add id e = s.supersede e.1 e.2 := by
  rw [add_of_not_newer h, supersede, he]

theorem counts_foldl_add {q : Nat} (h : s.Counts q) (hid : ∀ e ∈ es, e.2.pack = id) :
    (es.foldl (add id) s).Counts q := by
  induction es generalizing s with
  | nil => exact h
  | cons e es ih =>
    apply ih _ (fun e' he' => hid e' (by simp [he']))
    by_cases hnew : s.Newer e.1 e.2.pack
    · rw [add_of_newer hnew]
      exact h
    · rw [add_eq_supersede (hid e (by simp)) hnew]
      exact counts_supersede h e.1 e.2

theorem known_foldl_add (h : s.Known) (hin : (s.extent id).isSome)
    (hid : ∀ e ∈ es, e.2.pack = id) : (es.foldl (add id) s).Known := by
  induction es generalizing s with
  | nil => exact h
  | cons e es ih =>
    have he : e.2.pack = id := hid e (by simp)
    apply ih _ (by rw [extent_add]; exact hin) (fun e' he' => hid e' (by simp [he']))
    by_cases hnew : s.Newer e.1 e.2.pack
    · rw [add_of_newer hnew]
      exact h
    · rw [add_eq_supersede he hnew]
      apply known_supersede h
      rw [extent, isSome_map, isSome_iff_exists] at hin
      rw [he]
      exact hin

end Store

/-! ## What `seal` lists -/

theorem mem_listing {s : Store} {order : RangeOrder} {id : Nat} {x : Bytes × Loc} :
    x ∈ (order.visit s.index.pairs).filter (fun e => e.2.pack = id) ↔
      s.index.lookup x.1 = some x.2 ∧ x.2.pack = id := by
  rw [mem_filter, (order.perm _).mem_iff, ← mem_pairs]
  simp

theorem nodup_listing (s : Store) (order : RangeOrder) (id : Nat) :
    (((order.visit s.index.pairs).filter fun e => e.2.pack = id).map Prod.fst).Nodup := by
  have hmap : s.index.pairs.map Prod.fst = s.index.entries.keys := by
    rw [Table.pairs, List.map_map]
    rfl
  have hkeys : (s.index.pairs.map Prod.fst).Nodup := by
    rw [hmap]
    exact s.index.nodupKeys
  have hperm := (order.perm s.index.pairs).map Prod.fst
  exact (hperm.nodup_iff.mpr hkeys).sublist (filter_sublist.map _)

/-! ## Committing an append -/

structure Storable (key value : Bytes) : Prop where
  key_pos : 0 < key.length
  key_le : key.length ≤ 4096
  key_plain : key.any (fun b => b == 10 || b == 32) = false
  value_le : (value.length : Int) ≤ maxValue

variable {key : Bytes}

theorem Storable.key_lt {value : Bytes} (h : Storable key value) : key.length < 2 ^ 32 := by
  have := h.key_le
  omega

theorem Storable.value_lt {value : Bytes} (h : Storable key value) :
    value.length < 2 ^ 32 := by
  have := h.value_le
  simp only [maxValue] at this
  omega

/-- The whole body is read before the lock is taken. -/
theorem storable_of_readBody {env : PutEnv} {size : Int} {r body : Bytes}
    (h : readBody env key size r = .ok body) : body = r.take size.toNat ∧ Storable key body := by
  unfold readBody at h
  split at h
  · cases h
  · rename_i hargs
    split at h
    · cases h
    · split at h
      · cases h
      · rename_i hlong
        cases h
        simp only [Bool.or_eq_true, decide_eq_true_eq, not_or, Bool.not_eq_true] at hargs
        obtain ⟨⟨⟨⟨hk0, hk1⟩, hplain⟩, h0⟩, h1⟩ := hargs
        refine ⟨rfl, ⟨by omega, by omega, hplain, ?_⟩⟩
        rw [length_take]
        omega

theorem readBody_of_storable {env : PutEnv} (henv : env.spoolFails = false) {body : Bytes}
    (hkey : Storable key body) : readBody env key body.length body = .ok body := by
  obtain ⟨hpos, hle, hplain, hval⟩ := hkey
  have hargs : ¬ ((decide (key.length = 0) || decide (key.length > 4096) ||
      key.any (fun b => b == 10 || b == 32) || decide ((body.length : Int) < 0) ||
        decide ((body.length : Int) > maxValue)) = true) := by
    simp only [hplain, Bool.or_false, Bool.or_eq_true, decide_eq_true_eq, not_or]
    omega
  rw [readBody, if_neg hargs, henv]
  simp

namespace World

variable (s : Store)

theorem commit_eq (p : Pack) (key : Bytes) (size : Nat) :
    commit s p key size =
      ({ s.dropOld key with
          index := s.index.insert key
            ⟨p.id, u32 (u32 p.size + recHeader + u32 key.length), u32 size⟩ }.modifyPack p.id
        fun q => { q with
          size := q.size + (recHeader + key.length + size)
          live := q.live + size }).addTotal 0 (recHeader + key.length + size : Nat) := by
  simp only [commit, Store.dropOld, Store.addLive, Int.sub_eq_add_neg]
  cases s.index.lookup key <;> simp

@[simp] theorem commit_index (p : Pack) (key : Bytes) (size : Nat) :
    (commit s p key size).index = s.index.insert key
      ⟨p.id, u32 (u32 p.size + recHeader + u32 key.length), u32 size⟩ := by
  rw [commit_eq, Store.addTotal_index, Store.modifyPack_index]

@[simp] theorem commit_active (p : Pack) (key : Bytes) (size : Nat) :
    (commit s p key size).active = s.active := by
  rw [commit_eq, Store.addTotal_active, Store.modifyPack_active]
  exact (Store.sameRest_dropOld s key).active

theorem commit_tiers (p : Pack) (key : Bytes) (size : Nat) :
    (commit s p key size).tiers = s.tiers.modify 0 fun tier =>
      { tier with total := tier.total + (recHeader + key.length + size : Nat) } := by
  rw [commit_eq, Store.addTotal, Store.modifyTier]
  simp only [Store.modifyPack_tiers, (Store.sameRest_dropOld s key).tiers]

@[simp] theorem commit_closed (p : Pack) (key : Bytes) (size : Nat) :
    (commit s p key size).closed = s.closed := by
  rw [commit_eq, Store.addTotal_closed, Store.modifyPack_closed]
  exact (Store.sameRest_dropOld s key).closed

theorem extent_commit {s : Store} {p : Pack} (hp : s.extent p.id = some p.extent) (key : Bytes)
    (size : Nat) (q : Nat) :
    (commit s p key size).extent q =
      if q = p.id then some { p.extent with size := p.size + (recHeader + key.length + size) }
      else s.extent q := by
  have hold := Store.extent_dropOld s key q
  rw [commit_eq, Store.extent_addTotal, Store.extent_modifyPack
    (g := fun e => { e with size := e.size + (recHeader + key.length + size) })]
  · change (if _ then ((s.dropOld key).extent q).map _ else (s.dropOld key).extent q) = _
    rw [hold]
    split
    · rename_i hq
      rw [hq, hp]
      rfl
    · rfl
  · exact fun _ => rfl

/-! ## Recency -/

variable (w : World)

theorem extent_get (key : Bytes) (now : Int) (id : Nat) :
    (w.get key now).1.store.extent id = w.store.extent id := by
  unfold get
  split
  · rfl
  · apply Store.extent_modifyPack_same
    exact fun _ => rfl

@[simp] theorem get_fs (key : Bytes) (now : Int) : (w.get key now).1.fs = w.fs := by
  unfold get
  split <;> rfl

@[simp] theorem get_active (key : Bytes) (now : Int) :
    (w.get key now).1.store.active = w.store.active := by
  unfold get
  split
  · rfl
  · exact Store.modifyPack_active _ _ _

@[simp] theorem get_index (key : Bytes) (now : Int) :
    (w.get key now).1.store.index = w.store.index := by
  unfold get
  split
  · rfl
  · exact Store.modifyPack_index _ _ _

/-! ## Leaving a tier -/

theorem extent_evict (p : Pack) (q : Nat) :
    (w.evict p).store.extent q = if q = p.id then none else w.store.extent q := by
  change Option.map _ ((w.store.packs.erase p.id).lookup q) = _
  rw [Table.lookup_erase]
  split <;> rfl

theorem lookup_index_evict (p : Pack) (key : Bytes) :
    (w.evict p).store.index.lookup key =
      (w.store.index.lookup key).filter fun l => l.pack ≠ p.id :=
  lookup_keep _ w.store.index key

theorem lookup_evict_eq_some {w : World} {p : Pack} {key : Bytes} {l : Loc} :
    (w.evict p).store.index.lookup key = some l ↔
      w.store.index.lookup key = some l ∧ l.pack ≠ p.id := by
  rw [lookup_index_evict, Option.filter_eq_some_iff, decide_eq_true_iff]

theorem extent_switchDown {w : World} {p : Pack} (hp : w.store.packs.lookup p.id = some p)
    (file q : Nat) :
    (w.switchDown p file).store.extent q =
      if q = p.id then some { p.extent with file := file, tier := p.tier + 1 }
      else w.store.extent q := by
  change Store.extent (w.store.modifyPack p.id _) q = _
  rw [Store.extent, Store.lookup_modifyPack, hp]
  split <;> rfl

theorem length_tiers_switchDown (p : Pack) (file : Nat) :
    (w.switchDown p file).store.tiers.length = w.store.tiers.length := by
  simp [switchDown]

@[simp] theorem switchDown_active (p : Pack) (file : Nat) :
    (w.switchDown p file).store.active = w.store.active :=
  Store.modifyPack_active _ _ _

@[simp] theorem switchDown_closed (p : Pack) (file : Nat) :
    (w.switchDown p file).store.closed = w.store.closed :=
  Store.modifyPack_closed _ _ _

@[simp] theorem switchDown_index (p : Pack) (file : Nat) :
    (w.switchDown p file).store.index = w.store.index :=
  Store.modifyPack_index _ _ _

/-! ## The loop of `OpenStore` -/

/-- What every name preserves, the whole loop preserves. -/
theorem foldl_openTier_of {env : OpenEnv} {P : World × Nat → Prop}
    (hstep : ∀ t acc name, P acc → P (openName env t acc name)) (ts : List Nat)
    {acc : World × Nat} (h : P acc) : P (ts.foldl (openTier env) acc) := by
  have hnames : ∀ (t : Nat) (names : List Bytes) (acc : World × Nat), P acc →
      P (names.foldl (openName env t) acc) := by
    intro t names
    induction names with
    | nil => exact fun acc h => h
    | cons name names ih => exact fun acc h => ih _ (hstep t acc name h)
  induction ts generalizing acc with
  | nil => exact h
  | cons t ts ih => exact ih (hnames t _ acc h)

end World

end Corepkgs.Jigd
