import Corepkgs.Jigd.Demotion
/-!
# What `Get` serves

The ghost `latest` remembers, for each key, the bytes of the last `Put` that
returned without an error.  In every state the index entry of a key, if there is
one, points at those bytes, inside a pack and in its frozen part; so the section
`Get` hands out reads them now and at any later time.
-/

namespace Corepkgs.Jigd

open Lib FileSystem World Function

variable {key : Bytes} {latest : Bytes → Option Bytes} {a : Nat}

theorem InPack.mono {id n m : Nat} {l : Loc} (h : InPack id n key l) (hle : n ≤ m) :
    InPack id m key l :=
  ⟨h.pack, h.head, h.bound.trans hle, h.off_lt, h.len_lt⟩

namespace World

/-- Every index entry lies in its pack and holds the latest value of its key. -/
def Serves (w : World) (latest : Bytes → Option Bytes) : Prop :=
  ∀ key l, w.store.index.lookup key = some l → ∃ e, w.store.extent l.pack = some e ∧
    InPack l.pack e.size key l ∧ latest key = some (slice (w.fs.data e.file) l.off l.len)

variable {w : World}

theorem Serves.of_carried {w' : World} (h : w.Serves latest)
    (hw : Carried w w') : w'.Serves latest := by
  intro key l hl
  obtain ⟨e, he, hin, hval⟩ := h key l (hw.index hl)
  obtain ⟨e', he', hsize, hdata⟩ := hw.place hl he
  refine ⟨e', he', hin.mono hsize, ?_⟩
  rw [hval, slice_congr hin.bound hdata]

/-- The location `Put` records is the one its bytes were written to. -/
theorem inPack_commit {p : Pack} {body : Bytes} (hkey : Storable key body)
    (hfits : needsRotate p key body = false) :
    let l : Loc := ⟨p.id, u32 (u32 p.size + recHeader + u32 key.length), u32 body.length⟩
    l = ⟨p.id, p.size + (recHeader + key.length), body.length⟩ ∧
      InPack p.id (p.size + (recHeader + key.length + body.length)) key l := by
  intro l
  have hk := hkey.key_le
  have hoff : p.size + (recHeader + key.length) < 2 ^ 32 := by
    simp only [needsRotate, Bool.and_eq_false_iff, decide_eq_false_iff_not, not_lt, gt_iff_lt,
      Nat.le_zero, packLimit] at hfits
    simp only [recHeader] at hfits ⊢
    omega
  have hl : l = ⟨p.id, p.size + (recHeader + key.length), body.length⟩ := by
    simp only [l]
    rw [u32_of_lt (n := key.length) hkey.key_lt, u32_of_lt (n := p.size) (by omega),
      u32_of_lt (n := body.length) hkey.value_lt, u32_of_lt (by omega)]
    congr 1
    omega
  refine ⟨hl, ?_⟩
  rw [hl]
  refine ⟨rfl, ?_, ?_, hoff, hkey.value_lt⟩
  · exact Nat.le_add_left _ _
  · change p.size + (recHeader + key.length) + body.length ≤ _
    omega

theorem serves_append (h : w.Consistent a) (hserves : w.Serves latest) {p : Pack} (hid : p.id = a)
    (hp : w.store.extent a = some p.extent) (env : PutEnv) {body : Bytes}
    (hkey : Storable key body) (hfits : needsRotate p key body = false) :
    (w.append env p key body).1.Serves (match (w.append env p key body).2 with
      | .ok _ => update latest key (some body)
      | .error _ => latest) := by
  have hafter := after_append h hid hp env key body
  rcases store_append env w p key body with ⟨hstore, e, herror⟩ | heq
  · rw [herror]
    exact hserves.of_carried (carried_of_store h hafter.steady (by rw [hstore])
      fun q e' he' => ⟨e', by rw [hstore]; exact he', rfl, le_rfl⟩)
  · rw [heq] at hafter ⊢
    have hext := extent_commit (s := w.store) (by rw [hid]; exact hp) key body.length
    intro k l hl
    change (commit w.store p key body.length).index.lookup k = some l at hl
    rw [commit_index, Table.lookup_insert] at hl
    split at hl
    · rename_i hk
      subst hk
      obtain ⟨hloc, hin⟩ := inPack_commit hkey hfits
      rw [hloc] at hl hin
      cases hl
      refine ⟨_, (hext p.id).trans (if_pos rfl), hin, ?_⟩
      obtain ⟨-, hslice⟩ := data_append (h.frozen hp).lt k body
      simp only [update_self]
      exact congrArg some hslice.symm
    · rename_i hk
      obtain ⟨e, he, hin, hval⟩ := hserves k l hl
      simp only [update_of_ne hk]
      have hsame : ∀ file, file = e.file → latest k = some (slice
          (((w.writePack p p.size (recordHead key body.length)).writePack p
            (p.size + (recHeader + key.length)) body).fs.data file) l.off l.len) := by
        rintro file rfl
        rw [hval]
        exact congrArg some (slice_congr hin.bound
          (hafter.steady.frozen (h.frozen_pack he)).2.symm)
      by_cases hq : l.pack = p.id
      · have hee : e = p.extent := by
          rw [hq, hid, hp] at he
          exact (Option.some.inj he).symm
        subst hee
        exact ⟨_, (hext l.pack).trans (if_pos hq), hin.mono (Nat.le_add_right _ _), hsame _ rfl⟩
      · exact ⟨e, ((hext l.pack).trans (if_neg hq)).trans he, hin, hsame _ rfl⟩

theorem carried_sealActive (h : w.Consistent a) (env : SealEnv) :
    Carried w (w.sealActive env).1 := by
  apply carried_of_store h (steady_sealActive env w)
  · rw [sealActive_store]
  · intro id e he
    exact ⟨e, by rw [sealActive_store]; exact he, rfl, le_rfl⟩

theorem carried_openActive {id : Nat} (h : w.Consistent a) (now : Int)
    (hid : a < id) : Carried w (w.openActive now id) := by
  apply carried_of_store h (steady_openActive now w id) rfl
  intro q e he
  have hq : q ≠ id := ((h.packs he).2.trans_lt hid).ne
  exact ⟨e, ((Store.extent_addPack _ _ q).trans (if_neg hq)).trans he, rfl, le_rfl⟩

end World

namespace Sys

def latestAfter (s : Sys) (latest : Bytes → Option Bytes) : Label → Bytes → Option Bytes
  | .put env key size r =>
    match (s.world.put env key size r).2 with
    | .ok _ => update latest key (some (r.take size.toNat))
    | .error _ => latest
  | _ => latest

end Sys

namespace World

theorem serves_put {env : PutEnv} {w : World} (h : w.Consistent a) (hserves : w.Serves latest)
    {size : Int} {r : Bytes} {d : Demoter} {k : Bool}
    (hwrap : ¬ Sys.Wraps ⟨w, d, k⟩ (.put env key size r)) :
    (w.put env key size r).1.Serves
      (Sys.latestAfter ⟨w, d, k⟩ latest (.put env key size r)) := by
  obtain ⟨p, hp, hid, hext⟩ := h.activePack
  simp only [Sys.latestAfter]
  cases put_path env key size r hp with
  | refused e result =>
    rw [result]
    exact hserves
  | direct body hbody _ fits result =>
    obtain ⟨rfl, hkey⟩ := storable_of_readBody hbody
    rw [result]
    exact serves_append h hserves hid hext env hkey fits
  | stuck body _ _ _ _ result =>
    rw [result]
    exact hserves.of_carried (carried_sealActive h env.rotate.sealing)
  | rotated body q hbody hclosed full _ hq result =>
    obtain ⟨rfl, hkey⟩ := storable_of_readBody hbody
    rw [u32_of_not_wraps hwrap hp hbody hclosed full, hid] at result hq
    rw [result]
    have hseal := h.sealActive env.rotate.sealing
    have hopen := hseal.openActive env.rotate.now (Nat.lt_succ_self a)
    have hserves' := (hserves.of_carried (carried_sealActive h env.rotate.sealing)).of_carried
      (carried_openActive hseal env.rotate.now (Nat.lt_succ_self a))
    subst hq
    refine serves_append hopen hserves' rfl ?_ env hkey ?_
    · exact (Store.extent_addPack _ _ _).trans (if_pos rfl)
    · simp [needsRotate]

theorem after_get {w : World} (h : w.Consistent a) (key : Bytes) (now : Int) :
    After w (w.get key now).1 a a ∧ Carried w (w.get key now).1 := by
  obtain ⟨hs, hc⟩ := h.sameExtents (get_active w key now) (extent_get w key now)
  have hw : (⟨(w.get key now).1.store, w.fs⟩ : World) = (w.get key now).1 := by
    rw [← get_fs w key now]
  rw [hw] at hs hc
  refine ⟨⟨le_rfl, hs, hc, ?_⟩, carried_of_store h hs (get_index w key now)
    fun id e he => ⟨e, (extent_get w key now id).trans he, rfl, le_rfl⟩⟩
  rw [← hw]
  exact Undisturbed.store fun id _ => extent_get w key now id

end World

/-! ## Runs -/

structure Tracked where
  sys : Sys
  latest : Bytes → Option Bytes

def Tracked.Step (x : Tracked) (a : Label) (y : Tracked) : Prop :=
  x.sys.step a = some y.sys ∧ y.latest = x.sys.latestAfter x.latest a ∧ ¬ x.sys.Wraps a

def Tracked.Ok (x : Tracked) : Prop :=
  ∃ a, x.sys.Ok a ∧ x.sys.world.Serves x.latest

theorem latestAfter_of_ne_put (s : Sys) (latest : Bytes → Option Bytes) {a : Label}
    (hnot : ∀ env key size r, a ≠ .put env key size r) : s.latestAfter latest a = latest := by
  cases a with
  | put env key size r => exact absurd rfl (hnot env key size r)
  | _ => rfl

/-- One step keeps the invariant and everything frozen. -/
theorem Tracked.Step.ok {x y : Tracked} {a : Label} (h : x.Step a y) (hx : x.Ok) :
    y.Ok ∧ World.Steady x.sys.world y.sys.world := by
  obtain ⟨hstep, hlatest, hwrap⟩ := h
  obtain ⟨n, ⟨hc, hd⟩, hserves⟩ := hx
  obtain ⟨s', latest'⟩ := y
  simp only at hstep hlatest
  rcases Sys.step_inv hstep with ⟨env, key, size, r, rfl, hy⟩ | ⟨key, now, rfl, rfl⟩ |
    ⟨rfl, rfl⟩ | ⟨hput, hdem⟩
  · obtain ⟨n', hafter⟩ := after_put (d := x.sys.demoter) (k := x.sys.kicked) hc hwrap
    obtain ⟨hworld, hdemoter⟩ := stepPut_world x.sys env key size r
    rw [← hy] at hworld hdemoter
    refine ⟨⟨n', ⟨?_, ?_⟩, ?_⟩, ?_⟩
    · exact hworld ▸ hafter.consistent
    · simp only [hworld, hdemoter]
      exact hd.of_after hafter hc
    · simp only [hworld, hlatest]
      exact serves_put hc hserves hwrap
    · simp only [hworld]
      exact hafter.steady
  · obtain ⟨hafter, hcarried⟩ := after_get hc key now
    subst hlatest
    exact ⟨⟨n, ⟨hafter.consistent, hd.of_after hafter hc⟩, hserves.of_carried hcarried⟩,
      hafter.steady⟩
  · obtain ⟨hs, hc'⟩ := hc.sameExtents (s := { x.sys.world.store with closed := true }) rfl
      (fun _ => rfl)
    have hafter : World.After x.sys.world ⟨{ x.sys.world.store with closed := true },
        x.sys.world.fs⟩ n n :=
      ⟨le_rfl, hs, hc', World.Undisturbed.store fun _ _ => rfl⟩
    subst hlatest
    exact ⟨⟨n, ⟨hc', hd.of_after hafter hc⟩, hserves.of_carried
      (carried_of_store hc hs rfl fun _ e he => ⟨e, he, rfl, le_rfl⟩)⟩, hs⟩
  · obtain ⟨hok, hs, hcarried⟩ := hdem.ok ⟨hc, hd⟩
    rw [latestAfter_of_ne_put x.sys x.latest hput] at hlatest
    subst hlatest
    exact ⟨⟨n, hok, hserves.of_carried hcarried⟩, hs⟩

theorem Tracked.ok_of_steps {x y : Tracked} {as : List Label} (h : Steps Tracked.Step x as y)
    (hx : x.Ok) : y.Ok ∧ World.Steady x.sys.world y.sys.world := by
  induction h with
  | refl => exact ⟨hx, World.Steady.refl _⟩
  | cons hstep _ ih =>
    obtain ⟨hok, hs⟩ := hstep.ok hx
    obtain ⟨hok', hs'⟩ := ih hok
    exact ⟨hok', hs.trans hs'⟩

/-! ## From an empty store -/

namespace World

variable {env : OpenEnv}

theorem openTier_of_names_nil {acc : World × Nat} {t : Nat}
    (h : acc.1.fs.names t = []) : openTier env acc t = acc := by
  rw [openTier, h]
  rfl

theorem openStore_empty {budgets : List Int} {w : World}
    (h : openStore env budgets empty = (w, true)) :
    w = openActive env.now ⟨emptyStore budgets, empty⟩ 1 := by
  have hload : ∀ ts : List Nat, ts.foldl (openTier env)
      (⟨emptyStore budgets, empty⟩, 0) =
        (⟨emptyStore budgets, empty⟩, 0) := by
    intro ts
    induction ts with
    | nil => rfl
    | cons t ts ih => rw [List.foldl_cons, openTier_of_names_nil rfl, ih]
  have hseal : ∀ e, sealActive e ⟨emptyStore budgets, empty⟩ =
      (⟨emptyStore budgets, empty⟩, true) := fun _ => rfl
  rw [openStore, hload] at h
  rcases rotate_cases ⟨⟨env.order, false⟩, env.openFails, env.now⟩
    ⟨emptyStore budgets, empty⟩ (u32 (0 + 1)) with heq | ⟨-, -, heq⟩
  · rw [heq] at h
    cases h
  · rw [heq, hseal] at h
    cases h
    rfl

theorem consistent_openStore_empty {budgets : List Int} {w : World}
    (h : openStore env budgets empty = (w, true)) :
    w.Consistent 1 ∧ ∀ key, w.store.index.lookup key = none := by
  rw [openStore_empty h]
  refine ⟨consistent_openActive _ ?_ ?_ ?_ ?_ ?_, fun _ => rfl⟩
  · intro q e he
    cases he
  · intro t q ext i hn
    cases hn
  · intro q e t i he
    cases he
  · intro t q i hn
    cases hn
  · intro t q ext i q' hn
    cases hn

end World

theorem World.get_snd (w : World) (key : Bytes) (now : Int) : (w.get key now).2 = w.reader key := by
  unfold get
  split
  · rename_i hnone
    rw [reader, hnone, Option.bind_none]
  · rfl

theorem World.Serves.get {w : World} (h : w.Serves latest) {now : Int} {r : Reader}
    (hget : (w.get key now).2 = some r) :
    ∃ (l : Loc) (e : Extent), w.store.extent l.pack = some e ∧ r = ⟨e.file, l.off, l.len⟩ ∧
      l.off + l.len ≤ e.size ∧
      latest key = some (r.read w.fs) := by
  rw [get_snd, reader, Option.bind_eq_some_iff] at hget
  obtain ⟨l, hl, hr⟩ := hget
  obtain ⟨e, he, hin, hval⟩ := h key l hl
  obtain ⟨p, hp, rfl⟩ := Store.lookup_of_extent he
  rw [hp, Option.map_some] at hr
  cases hr
  exact ⟨l, _, he, rfl, hin.bound, hval⟩

/-- In every run of a store opened empty that does not run out of pack ids, `Get` either misses
or hands out a section of one pack file, inside it, that holds the bytes of the last successful
`Put` of the key, whenever it is read. -/
theorem get_returns_latest {env : OpenEnv} {budgets : List Int} {w : World}
    (hopen : openStore env budgets empty = (w, true)) {as bs : List Label}
    {x y : Tracked} (hrun : Steps Tracked.Step ⟨Sys.fresh w, fun _ => none⟩ as x)
    (hlater : Steps Tracked.Step x bs y) {key : Bytes} {now : Int} {r : Reader}
    (hget : (x.sys.world.get key now).2 = some r) :
    x.latest key = some (r.read x.sys.fs) ∧
      r.off + r.len ≤ (x.sys.fs.data r.file).length ∧ r.read y.sys.fs = r.read x.sys.fs := by
  obtain ⟨hc, hnone⟩ := consistent_openStore_empty hopen
  have hinit : Tracked.Ok ⟨Sys.fresh w, fun _ => none⟩ := by
    refine ⟨1, ⟨hc, trivial⟩, ?_⟩
    intro k l hl
    change w.store.index.lookup k = some l at hl
    rw [hnone] at hl
    cases hl
  obtain ⟨hx, -⟩ := Tracked.ok_of_steps hrun hinit
  obtain ⟨-, hs⟩ := Tracked.ok_of_steps hlater hx
  obtain ⟨a, hok, hserves⟩ := hx
  obtain ⟨l, e, he, rfl, hbound, hval⟩ := hserves.get hget
  have hf := hok.consistent.frozen_pack he
  have hsec : x.sys.world.Frozen e.file (l.off + l.len) :=
    ⟨hf.lt, hbound.trans hf.le, hf.noTmp, fun e' he' hfile => hbound.trans (hf.tail e' he' hfile)⟩
  exact ⟨hval, hsec.le, hs.read hsec⟩

/-- One `Put` into a store with one tier, and the `Get` after it. -/
theorem get_returns_latest_after_put :
    let w := (openStore plainOpen [0] empty).1
    let x : Tracked := ⟨(Sys.fresh w).stepPut plainPut [97] 1 [7],
      (Sys.fresh w).latestAfter (fun _ => none) (.put plainPut [97] 1 [7])⟩
    ∃ r, (x.sys.world.get [97] 5).2 = some r ∧ x.latest [97] = some (r.read x.sys.fs) ∧
      r.off + r.len ≤ (x.sys.fs.data r.file).length ∧ r.read x.sys.fs = r.read x.sys.fs := by
  intro w x
  have hwrap : ¬ (Sys.fresh w).Wraps (.put plainPut [97] 1 [7]) := by
    rintro ⟨p, body, -, -, hp, -, hid⟩
    have hact : (Sys.fresh w).store.activePack = some ⟨1, 0, 0, 0, 0, 0, 0⟩ := rfl
    rw [hact] at hp
    cases hp
    simp at hid
  have hget : (x.sys.world.get [97] 5).2 = some ⟨0, 9, 1⟩ := by decide
  have hopen : openStore plainOpen [0] empty = (w, true) := rfl
  exact ⟨_, hget, get_returns_latest hopen (.one ⟨rfl, rfl, hwrap⟩) (.refl x) hget⟩

end Corepkgs.Jigd
