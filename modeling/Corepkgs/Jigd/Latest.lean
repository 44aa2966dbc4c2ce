import Corepkgs.Jigd.Crash
/-!
# Lives without evictions

As long as no pack leaves the last tier, the index says what the packs say: for
each key the last of its records in the newest pack that has one.  A restart keeps
that up unless it loads a hint that had fallen behind its pack.

* `Latest` — the index and the records of all packs agree;
* `Grows` — what a step other than an eviction does to index and table;
* `KeptLife` — lives without evictions, with a condition on the stops;
* `KeptLife.latest` — the agreement, in every state of such a life.
-/

namespace Corepkgs.Jigd

open Lib World Option

namespace World

/-- The index holds, for each key, the last of its records in the newest pack that has one. -/
def Latest (w : World) (recs : Records) : Prop :=
  w.store.Best fun id => recordLocs id 0 (recs id)

/-- New entries and new packs are those of the active pack, and no key is lost. -/
structure Grows (w w' : World) : Prop where
  index : ∀ key, w'.store.index.lookup key = w.store.index.lookup key ∨
    ∃ l, w'.store.index.lookup key = some l ∧ w'.store.active = some l.pack
  packs : ∀ {id e'}, w'.store.extent id = some e' →
    (∃ e, w.store.extent id = some e) ∨ w'.store.active = some id

theorem grows_of_same {w w' : World} (hindex : w'.store.index = w.store.index)
    (hext : ∀ {id e'}, w'.store.extent id = some e' → ∃ e, w.store.extent id = some e) :
    Grows w w' :=
  ⟨fun key => .inl (by rw [hindex]), fun he => .inl (hext he)⟩

variable {recs : Records}

theorem Latest.grows {w w' : World} {b : Nat} {recs' : Records} (h : w.Latest recs)
    (hgrows : Grows w w') (hc : w'.Consistent b) (hsh : w'.Shelved b recs')
    (hrecs : ∀ id ≠ b, recs' id = recs id) : w'.Latest recs' := by
  -- what is not of the active pack was there before
  have hentry : ∀ {key l}, w'.store.index.lookup key = some l → l.pack ≠ b →
      w.store.index.lookup key = some l := by
    intro key l hl hne
    rcases hgrows.index key with heq | ⟨l', hl', hactive⟩
    · rw [← heq, hl]
    · rw [hl] at hl'
      cases hl'
      rw [hc.active] at hactive
      exact absurd (some.inj hactive).symm hne
  have hpack : ∀ {id e'}, w'.store.extent id = some e' → id ≠ b →
      ∃ e, w.store.extent id = some e := by
    intro id e' he' hne
    rcases hgrows.packs he' with hold | hactive
    · exact hold
    · rw [hc.active] at hactive
      exact absurd (some.inj hactive).symm hne
  refine ⟨?_, ?_, ?_⟩
  · intro key l hl
    refine ⟨(hsh.indexed hl).1, ?_⟩
    by_cases hb : l.pack = b
    · rw [hb]
      exact hsh.lastOf_active hl hb
    · rw [hrecs _ hb]
      exact (h.found (hentry hl hb)).2
  · intro key l id e' hl he' hlast
    by_cases hid : id = b
    · subst hid
      obtain ⟨l', hl'⟩ := ne_none_iff_exists'.mp hlast
      have hcurrent := hsh.current hl'
      rw [hl] at hcurrent
      cases hcurrent
      exact (mem_recordLocs (mem_of_lastOf hl')).1.ge
    · rw [hrecs id hid] at hlast
      by_cases hb : l.pack = b
      · rw [hb]
        exact (hc.packs he').2
      · obtain ⟨e, he⟩ := hpack he' hid
        exact h.ahead (hentry hl hb) he hlast
  · intro key id e' hl he'
    by_cases hid : id = b
    · subst hid
      by_contra hlast
      obtain ⟨l, hl'⟩ := ne_none_iff_exists'.mp hlast
      have hcurrent := hsh.current hl'
      rw [hl] at hcurrent
      cases hcurrent
    · obtain ⟨e, he⟩ := hpack he' hid
      rw [hrecs id hid]
      refine h.missing ?_ he
      rcases hgrows.index key with heq | ⟨l, hl', -⟩
      · rw [← heq, hl]
      · rw [hl] at hl'
        cases hl'

/-! ## Steps -/

theorem grows_append {w : World} {p : Pack} (hactive : w.store.active = some p.id)
    (hp : w.store.extent p.id = some p.extent) (env : PutEnv) (key body : Bytes) :
    Grows w (w.append env p key body).1 ∧
      (w.append env p key body).1.store.active = some p.id := by
  rcases store_append env w p key body with ⟨hstore, -⟩ | heq
  · rw [hstore]
    exact ⟨grows_of_same (by rw [hstore]) (fun he => ⟨_, hstore ▸ he⟩), hactive⟩
  · rw [heq]
    have hcommit : (commit w.store p key body.length).active = some p.id :=
      (commit_active _ _ _ _).trans hactive
    refine ⟨⟨?_, ?_⟩, hcommit⟩
    · intro k
      change (commit w.store p key body.length).index.lookup k = _ ∨ _
      by_cases hk : k = key
      · exact .inr ⟨_, by rw [commit_index, Table.lookup_insert, if_pos hk], hcommit⟩
      · exact .inl (by rw [commit_index, Table.lookup_insert, if_neg hk])
    · intro id e' he'
      change (commit w.store p key body.length).extent id = some e' at he'
      rw [extent_commit hp] at he'
      split at he'
      · rename_i hid
        exact .inr (hid ▸ hcommit)
      · exact .inl ⟨e', he'⟩

variable {a : Nat}

theorem grows_put {w : World} (hc : w.Consistent a) (env : PutEnv) (key : Bytes)
    (size : Int) (r : Bytes) : Grows w (w.put env key size r).1 := by
  obtain ⟨p, hp, rfl, hext⟩ := hc.activePack
  cases put_path env key size r hp with
  | refused e result =>
    rw [result]
    exact grows_of_same rfl fun he => ⟨_, he⟩
  | direct body _ _ _ result =>
    rw [result]
    exact (grows_append hc.active hext env key body).1
  | stuck body _ _ _ _ result =>
    rw [result]
    have hstore := sealActive_store env.rotate.sealing w
    exact grows_of_same (by rw [hstore]) fun he => ⟨_, hstore ▸ he⟩
  | rotated body q _ _ _ _ hq result =>
    have hstore := sealActive_store env.rotate.sealing w
    have hqid : q.id = u32 (p.id + 1) := by rw [hq]
    rw [result, ← hqid]
    set opened := (w.sealActive env.rotate.sealing).1.openActive env.rotate.now q.id
    have hopened : ∀ id, opened.store.extent id =
        if id = q.id then some ⟨q.id, 0, (w.sealActive env.rotate.sealing).1.fs.inodes.length, 0⟩
        else (w.sealActive env.rotate.sealing).1.store.extent id := Store.extent_addPack _ _
    have hqext : opened.store.extent q.id = some q.extent := by
      rw [hopened, if_pos rfl, hq]
      rfl
    obtain ⟨hgrows, hactive⟩ := grows_append (w := opened) rfl hqext env key body
    refine ⟨?_, ?_⟩
    · intro k
      have hindex : opened.store.index = w.store.index := by
        change (w.sealActive env.rotate.sealing).1.store.index = _
        rw [hstore]
      rw [← hindex]
      exact hgrows.index k
    · intro id e' he'
      rcases hgrows.packs he' with ⟨e, he⟩ | hid
      · rw [hopened] at he
        split at he
        · rename_i hid
          exact .inr (by rw [hactive, hid])
        · rw [hstore] at he
          exact .inl ⟨e, he⟩
      · exact .inr hid

end World

variable {a : Nat} {recs : Records}

theorem DemoterStep.grows {s s' : Sys} {l : Label} (h : DemoterStep s l s')
    (hc : s.world.Consistent a)
    (hkeep : ∀ {id e}, s.store.extent id = some e → ∃ e', s'.store.extent id = some e') :
    World.Grows s.world s'.world := by
  cases h with
  | @evict id p _ hp _ =>
    -- the pack would be gone
    have hpe := Store.extent_of_lookup hp
    have hid : p.id = id := (hc.packs hpe).1
    obtain ⟨e', he'⟩ := hkeep hpe
    have hgone : (s.world.evict p).store.extent id = some e' := he'
    rw [extent_evict, if_pos hid.symm] at hgone
    cases hgone
  | @switch id src file p _ hp _ =>
    have hid : p.id = id := (hc.packs (Store.extent_of_lookup hp)).1
    subst hid
    refine grows_of_same (switchDown_index _ _ _) ?_
    intro id e' he'
    change (s.world.switchDown p file).store.extent id = some e' at he'
    rw [extent_switchDown hp] at he'
    split at he'
    · rename_i hid
      exact ⟨_, hid ▸ Store.extent_of_lookup hp⟩
    · exact ⟨e', he'⟩
  | _ => exact grows_of_same rfl fun he => ⟨_, he⟩

theorem Sys.CarefulStep.grows {s s' : Sys} {l : Label} (h : s.CarefulStep l s')
    (hc : s.world.Consistent a)
    (hkeep : ∀ {id e}, s.store.extent id = some e → ∃ e', s'.store.extent id = some e') :
    World.Grows s.world s'.world := by
  rcases Sys.step_inv h.1 with ⟨env, key, size, r, rfl, rfl⟩ | ⟨key, now, rfl, rfl⟩ |
    ⟨rfl, rfl⟩ | ⟨-, hdem⟩
  · rw [(stepPut_world s env key size r).1]
    exact grows_put hc env key size r
  · refine grows_of_same (get_index _ _ _) ?_
    intro id e' he'
    exact ⟨e', (extent_get _ _ _ id) ▸ he'⟩
  · exact grows_of_same rfl fun he => ⟨_, he⟩
  · exact hdem.grows hc hkeep

/-! ## Lives -/

/-- The hint of the active pack, if the directories have one, lists all that the index says about
the pack. -/
def Sys.HintCurrent (s : Sys) (fs : FileSystem) : Prop :=
  ∀ a e h key l, s.store.active = some a → s.store.extent a = some e →
    fs.lookup (filePath 0 a .hint) = some h → s.store.index.lookup key = some l → l.pack = a →
      (key, l) ∈ hintEntries a e.size (fs.data h)

/-- A life in which no pack is evicted, be it by a step or in the middle of one when the process
stops, and in which the stops meet a condition. -/
inductive KeptLife (n : Nat) (Stop : Sys → FileSystem → Prop) : Sys → Prop where
  | opened {env : OpenEnv} {budgets : List Int} {w : World} (hpos : 0 < n)
      (hlen : budgets.length = n) (h : openStore env budgets FileSystem.empty = (w, true)) :
      KeptLife n Stop (Sys.fresh w)
  | step {s s' : Sys} {l : Label} (life : KeptLife n Stop s) (hstep : s.CarefulStep l s')
      (hkeep : ∀ {id e}, s.store.extent id = some e → ∃ e', s'.store.extent id = some e') :
      KeptLife n Stop s'
  | reopened {s : Sys} {fs : FileSystem} {env : OpenEnv} {budgets : List Int} {w : World}
      (life : KeptLife n Stop s) (hids : ∀ a, s.store.active = some a → a < 1000000)
      (hleft : s.Left fs)
      (hkeep : ∀ {id e}, s.store.extent id = some e →
        ∃ t i, fs.lookup (filePath t id .pack) = some i)
      (hstop : Stop s fs) (hlen : budgets.length = n) (hfault : ∀ t id, env.fault t id = none)
      (h : openStore env budgets fs = (w, true)) : KeptLife n Stop (Sys.fresh w)

/-- A hint that was current when the process stopped is up to date. -/
theorem Sys.HintCurrent.upToDate {s : Sys} {fs : FileSystem} (hcur : s.HintCurrent fs) {n : Nat}
    (hs : s.Sound n a recs) {w : World} (hc : w.Consistent a)
    (hsh : w.Shelved a recs) (himage : w.Image a fs) (hindex : w.store.index = s.store.index) :
    w.UpToDate a recs := by
  obtain ⟨e, he⟩ := hs.ok.consistent.opened
  obtain ⟨e', he'⟩ := hc.opened
  have hsize : e.size = e'.size := by
    rw [(hs.shelved.written he).2.1, (hsh.written he').2.1]
  cases hhint : w.fs.lookup (filePath 0 a .hint) with
  | none =>
    left
    rw [listedBy, he', bind_some, hsh.front he', hhint, map_none]
  | some h =>
    right
    obtain ⟨-, listed, hdata, hlisted⟩ := hsh.stale hhint
    refine ⟨h, listed, hhint, hdata, hlisted, ?_⟩
    intro key l hl hpack
    have hmem := hcur a e h key l hs.ok.consistent.active he (himage.hints hhint)
      (hindex ▸ hl) hpack
    rwa [hsize, himage.data (hc.hints hhint), hdata, hsh.entries_of_listed he' hlisted.mem] at hmem

/-- What `OpenStore` adds to the store it finds is its new pack. -/
theorem World.Restored.grows {w w' : World} (h : Restored w w' a recs)
    (hpacks : ∀ {id e'}, w'.store.extent id = some e' →
      id = a + 1 ∨ ∃ e, w.store.extent id = some e)
    (hsh : w.Shelved a recs) (hlatest : w.Latest recs) (hfresh : w.UpToDate a recs) :
    Grows w w' := by
  refine ⟨?_, ?_⟩
  · intro key
    left
    cases hl : w.store.index.lookup key with
    | some l => exact h.kept hl fun _ => hfresh
    | none =>
      rw [eq_none_iff_forall_not_mem]
      intro l hl'
      -- it would come from a hint, and a record that a hint lists is in the index
      obtain ⟨-, es, hlist, hmem⟩ := h.revived hl hl'
      obtain ⟨e, -, he, -, -, hlisted, -⟩ := hsh.listed_of_listedBy hlist
      exact lastOf_eq_none.mp (hlatest.missing hl he) _ (hlisted.mem _ hmem) rfl
  · intro id e' he'
    rcases hpacks he' with rfl | hold
    · exact .inr h.consistent.active
    · exact .inl hold

theorem KeptLife.latest {n : Nat} {s : Sys} (h : KeptLife n Sys.HintCurrent s) :
    ∃ a recs, s.Sound n a recs ∧ s.world.Latest recs := by
  induction h with
  | opened hpos hlen hopen =>
    subst hlen
    refine ⟨_, _, sound_openStore_empty hpos hopen, ?_⟩
    have hempty : ∀ id, recordLocs id 0
        (Function.update (fun _ => []) 1 [] id : List (Bytes × Bytes)) = [] := by
      intro id
      rw [Function.update_apply]
      split <;> rfl
    refine ⟨?_, ?_, ?_⟩
    · intro key l hl
      rw [openStore_empty hopen] at hl
      cases hl
    · intro key l id e hl
      rw [openStore_empty hopen] at hl
      cases hl
    · intro key id e _ _
      simp only [hempty]
      rfl
  | step _ hstep hkeep ih =>
    obtain ⟨a, recs, hs, hlatest⟩ := ih
    obtain ⟨b, recs', hs', hrecs⟩ := hstep.sound hs
    have hgrows := hstep.grows hs.ok.consistent hkeep
    exact ⟨b, recs', hs', hlatest.grows hgrows hs'.ok.consistent hs'.shelved hrecs⟩
  | @reopened s fs env budgets w _ hids hleft hkeep hstop hlen hfault hopen ih =>
    obtain ⟨a, recs, hs, hlatest⟩ := ih
    obtain ⟨wi, hc, hsh, himage, htiers, hsame⟩ := hs.image hleft
    obtain ⟨hindex, hpacks⟩ := hsame (.inr hkeep)
    obtain ⟨w', hres, hrest, hnew⟩ := restored_openStore hc hsh himage
      (hids a hs.ok.consistent.active) (hlen.trans htiers.symm) hfault
      (openFails_of_openStore hopen)
    rw [hopen] at hres
    cases hres
    have hleftLatest : wi.Latest recs :=
      hlatest.grows (grows_of_same hindex fun he => (hpacks _).mpr ⟨_, he⟩) hc hsh
        fun _ _ => rfl
    have hgrows := hrest.grows hnew hsh hleftLatest (hstop.upToDate hs hc hsh himage hindex)
    refine ⟨_, _, ⟨⟨hrest.consistent, trivial⟩, hrest.shelved, hrest.tiers.trans htiers,
      fun hm => by cases hm⟩, ?_⟩
    exact hleftLatest.grows hgrows hrest.consistent hrest.shelved
      fun id hne => Function.update_of_ne hne _ _

end Corepkgs.Jigd
