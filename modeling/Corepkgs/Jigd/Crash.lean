import Corepkgs.Jigd.Restart
import Corepkgs.Jigd.IdWrap
/-!
# Stopping at any moment

The life of a store: opened on empty directories, used, stopped somewhere, opened
on what it left, and so on.  `Left` lists what a process can leave, down to the
single file operations of a demotion.
-/

namespace Corepkgs.Jigd

open Lib FileSystem Store World

/-- The directories at a moment at which the process may stop. -/
inductive Sys.Left (s : Sys) : FileSystem → Prop where
  | now : Left s s.fs
  /-- In the middle of an append. -/
  | torn {p : Pack} {key value torn : Bytes} (hp : s.store.activePack = some p)
      (hkey : Storable key value) (hpre : torn <+: record key value) (hne : torn ≠ record key value)
      (hhint : ∀ t, s.fs.lookup (filePath t p.id .hint) = none) :
      Left s (s.fs.setData p.file (s.fs.data p.file ++ torn))
  /-- Between the two removals of a demotion, and after them. -/
  | switching {id src : Nat} (hd : s.demoter = .moving id src .done) :
      Left s (s.fs.remove (filePath src id .pack))
  | switched {id src : Nat} (hd : s.demoter = .moving id src .done) :
      Left s ((s.fs.remove (filePath src id .pack)).remove (filePath src id .hint))
  /-- Between the two removals of an eviction. -/
  | evicting {id : Nat} {p : Pack} (hd : s.demoter = .picked id)
      (hp : s.store.packs.lookup id = some p) (ht : p.tier + 1 = s.store.tiers.length) :
      Left s (s.fs.remove (filePath p.tier id .pack))
  | closed (env : SealEnv) : Left s (s.world.close env).1.fs

namespace World

variable {w : World} {a : Nat}

theorem image_removePack {w' : World} {t id : Nat} (hc : w.Consistent a) (hc' : w'.Consistent a)
    (hs : Steady w w') (hid : id < a)
    (hfs : w'.fs = (w.fs.remove (filePath t id .pack)).remove (filePath t id .hint))
    (hgone : ∀ e, w'.store.extent id = some e → t < e.tier) :
    w'.Image a (w.fs.remove (filePath t id .pack)) := by
  have hdata : ∀ i, w'.fs.data i = w.fs.data i := by
    intro i
    rw [hfs]
    rfl
  refine ⟨?_, ?_, ?_, ?_, ?_, ?_⟩
  · intro q hq
    rw [hfs, lookup_remove _ (filePath t id .hint), if_neg (hq t id)]
  · intro t' id' h hi
    rw [hfs, lookup_remove] at hi
    split at hi
    · cases hi
    · exact hi
  · intro t' id' h hi
    by_cases hpath : filePath t' id' .hint = filePath t id .hint
    · right
      obtain ⟨rfl, rfl, -⟩ := filePath_inj.mp hpath
      rw [lookup_remove, if_neg (by rw [filePath_inj]; simp)] at hi
      exact ⟨hid, (hs.settled (hc.hints hi)).1, hgone⟩
    · left
      rw [hfs, lookup_remove _ (filePath t id .hint), if_neg hpath]
      exact hi
  · intro t' id' ext i q htmp hq
    exact tmpUnique_remove hc.tmps _ htmp hq
  · exact fun {i} _ => (hdata i).symm
  · intro e he
    obtain ⟨key, value, torn, htorn, hrest⟩ := (image_refl hc').active he
    refine ⟨key, value, torn, ?_, hrest⟩
    rw [← htorn]
    exact (hdata _).symm

theorem image_torn (hc : w.Consistent a) {p : Pack}
    (hp : w.store.activePack = some p) {key value torn : Bytes} (hkey : Storable key value)
    (hpre : torn <+: record key value) (hne : torn ≠ record key value)
    (hhint : ∀ t, w.fs.lookup (filePath t p.id .hint) = none) :
    w.Image a (w.fs.setData p.file (w.fs.data p.file ++ torn)) := by
  obtain ⟨q, hq, rfl, hext⟩ := hc.activePack
  rw [hp] at hq
  cases hq
  refine ⟨fun _ _ => rfl, fun hi => hi, fun hi => .inl hi, hc.tmps, ?_, ?_⟩
  · intro i hi
    apply data_setData_ne
    exact fun hf => hi.notActive _ (hc.activeExtent_of hext) hf.symm
  · intro e he
    rw [hext] at he
    cases he
    exact ⟨key, value, torn, data_setData_same _ (hc.frozen hext).lt, hkey, hpre, hne,
      fun _ => hhint⟩

end World

variable {fs : FileSystem} {s : Sys} {w : World} {a : Nat}

/-- What a process leaves are the directories of a sound store, with the same packs and keys unless
a file of an eviction is gone. -/
theorem Sys.Sound.image {n : Nat} {recs : Records} (hs : s.Sound n a recs) (hl : s.Left fs) :
    ∃ w : World, w.Consistent a ∧ w.Shelved a recs ∧ w.Image a fs ∧ w.store.tiers.length = n ∧
      ((∀ id, s.demoter ≠ .picked id) ∨
        (∀ {id e}, s.store.extent id = some e → ∃ t i, fs.lookup (filePath t id .pack) = some i) →
        w.store.index = s.store.index ∧
          ∀ id, (∃ e, s.store.extent id = some e) ↔ ∃ e', w.store.extent id = some e') := by
  obtain ⟨⟨hc, hd⟩, hsh, htiers, hroom⟩ := hs
  -- a demotion that is over but for the removals
  have hswitch : ∀ {id src}, s.demoter = .moving id src .done →
      ∃ (p : Pack) (file : Nat), p.id = id ∧ p.tier = src ∧ id < a ∧
        s.world.store.packs.lookup p.id = some p ∧
        World.Steady s.world (s.world.switchDown p file) ∧
        (s.world.switchDown p file).Consistent a ∧ (s.world.switchDown p file).Shelved a recs ∧
        (s.world.switchDown p file).store.tiers.length = n := by
    intro id src hdem
    rw [hdem] at hd
    obtain ⟨⟨e, he, htier⟩, hid, ⟨file, hfile⟩, ⟨i, hhint⟩⟩ := hd
    obtain ⟨p, hp, rfl⟩ := lookup_of_extent he
    have hpid : p.id = id := (hc.packs he).1
    subst hpid
    have hsrc : p.tier = src := htier
    subst hsrc
    obtain ⟨hst, hc'⟩ := hc.switchDown hid.ne hp hfile
    exact ⟨p, file, rfl, rfl, hid, hp, hst, hc',
      hsh.switchDown hc hid.ne hp (htiers ▸ hroom hdem) hfile hhint,
      (length_tiers_switchDown _ p file).trans htiers⟩
  have hpacks : ∀ {p : Pack} {file : Nat}, s.world.store.packs.lookup p.id = some p →
      ∀ id, (∃ e, s.store.extent id = some e) ↔
        ∃ e', (s.world.switchDown p file).store.extent id = some e' := by
    intro p file hp id
    rw [extent_switchDown hp]
    split
    · rename_i hid
      exact ⟨fun _ => ⟨_, rfl⟩, fun _ => ⟨_, hid ▸ extent_of_lookup hp⟩⟩
    · exact Iff.rfl
  cases hl with
  | now => exact ⟨s.world, hc, hsh, image_refl hc, htiers, fun _ => ⟨rfl, fun _ => Iff.rfl⟩⟩
  | torn hp hkey hpre hne hhint =>
    exact ⟨s.world, hc, hsh, image_torn hc hp hkey hpre hne hhint, htiers,
      fun _ => ⟨rfl, fun _ => Iff.rfl⟩⟩
  | switching hdem =>
    obtain ⟨p, file, rfl, rfl, hid, hp, hst, hc', hsh', htiers'⟩ := hswitch hdem
    refine ⟨_, hc', hsh', image_removePack hc hc' hst hid rfl ?_, htiers',
      fun _ => ⟨switchDown_index _ _ _, hpacks hp⟩⟩
    intro e he
    rw [extent_switchDown hp, if_pos rfl] at he
    cases he
    exact Nat.lt_succ_self _
  | switched hdem =>
    obtain ⟨p, file, rfl, rfl, hid, hp, -, hc', hsh', htiers'⟩ := hswitch hdem
    exact ⟨_, hc', hsh', image_refl hc', htiers',
      fun _ => ⟨switchDown_index _ _ _, hpacks hp⟩⟩
  | @evicting id p hdem hp ht =>
    rw [hdem] at hd
    have hpid : p.id = id := (hc.packs (extent_of_lookup hp)).1
    subst hpid
    obtain ⟨hst, hc'⟩ := hc.evict hd.2.ne
    refine ⟨s.world.evict p, hc', hsh.evict hd.2.ne hp ht,
      image_removePack hc hc' hst hd.2 rfl ?_, (length_addTotal _ _ _).trans htiers, ?_⟩
    · intro e he
      rw [extent_evict, if_pos rfl] at he
      cases he
    · rintro (hnot | hkept)
      · exact absurd hdem (hnot _)
      · -- its only file was the one that is gone
        have hpe : s.store.extent p.id = some p.extent := extent_of_lookup hp
        obtain ⟨t, i, hi⟩ := hkept hpe
        rw [lookup_remove] at hi
        split at hi
        · cases hi
        · rename_i hne
          obtain ⟨hle, hlt⟩ := hsh.lowest hpe hi
          have hle' : p.tier ≤ t := hle
          have htt : t = p.tier := by
            change t < s.store.tiers.length at hlt
            omega
          exact absurd (by rw [htt]) hne
  | closed env =>
    have hstore : (s.world.close env).1.store = s.world.store := sealActive_store env s.world
    refine ⟨(s.world.close env).1, hc.sealActive env, (hsh.sealActive hc env).1,
      image_refl (hc.sealActive env), ?_, fun _ => ?_⟩
    · rw [hstore]
      exact htiers
    · rw [hstore]
      exact ⟨rfl, fun _ => Iff.rfl⟩

/-! ## Lives -/

/-- The states of a store over `n` tiers that was opened on empty directories and, as often as you
like, stopped and opened again. -/
inductive Life (n : Nat) : Sys → Prop where
  | opened {env : OpenEnv} {budgets : List Int} {w : World} (hpos : 0 < n)
      (hlen : budgets.length = n) (h : openStore env budgets empty = (w, true)) :
      Life n (Sys.fresh w)
  | step {s s' : Sys} {l : Label} (life : Life n s) (hstep : s.CarefulStep l s') : Life n s'
  | reopened {s : Sys} {fs : FileSystem} {env : OpenEnv} {budgets : List Int} {w : World}
      (life : Life n s) (hids : ∀ a, s.store.active = some a → a < 1000000) (hleft : s.Left fs)
      (hlen : budgets.length = n) (hfault : ∀ t id, env.fault t id = none)
      (h : openStore env budgets fs = (w, true)) : Life n (Sys.fresh w)

variable {budgets : List Int} {env : OpenEnv}

theorem openFails_of_openStore
    (h : openStore env budgets fs = (w, true)) : env.openFails = false := by
  cases hfails : env.openFails with
  | false => rfl
  | true =>
    rw [openStore, rotate] at h
    simp only [hfails, Bool.true_or, if_true] at h
    split at h <;> cases h

theorem sound_openStore_empty
    (hpos : 0 < budgets.length) (h : openStore env budgets empty = (w, true)) :
    (Sys.fresh w).Sound budgets.length 1 (Function.update (fun _ => []) 1 []) := by
  obtain ⟨hc, -⟩ := consistent_openStore_empty h
  refine ⟨⟨hc, trivial⟩, ?_, ?_, fun hm => by cases hm⟩
  · change w.Shelved 1 _
    rw [openStore_empty h]
    have hno : ∀ {id e}, (emptyStore budgets).extent id = some e → False := by
      intro id e he
      cases he
    apply shelved_openActive
    · change 0 < (budgets.map _).length
      rw [List.length_map]
      exact hpos
    · exact fun he => (hno he).elim
    · exact fun hi => by cases hi
    · exact ⟨fun he => (hno he).elim, fun hl => (by cases hl), fun he => (hno he).elim,
        fun he => (hno he).elim, fun hi => (by cases hi)⟩
    · exact fun he => (hno he).elim
    · exact fun he => (hno he).elim
  · change w.store.tiers.length = _
    rw [openStore_empty h]
    change (budgets.map _).length = _
    rw [List.length_map]

theorem Life.sound {n : Nat} (h : Life n s) : ∃ a recs, s.Sound n a recs := by
  induction h with
  | opened hpos hlen hopen =>
    subst hlen
    exact ⟨_, _, sound_openStore_empty hpos hopen⟩
  | step _ hstep ih =>
    obtain ⟨a, recs, hs⟩ := ih
    obtain ⟨b, recs', hs', -⟩ := hstep.sound hs
    exact ⟨b, recs', hs'⟩
  | @reopened s fs env budgets w _ hids hleft hlen hfault hopen ih =>
    obtain ⟨a, recs, hs⟩ := ih
    obtain ⟨wi, hc, hsh, himage, htiers, -⟩ := hs.image hleft
    obtain ⟨w', hres, hrest, -⟩ := restored_openStore hc hsh himage
      (hids a hs.ok.consistent.active) (hlen.trans htiers.symm) hfault
      (openFails_of_openStore hopen)
    rw [hopen] at hres
    cases hres
    exact ⟨_, _, ⟨hrest.consistent, trivial⟩, hrest.shelved, hrest.tiers.trans htiers,
      fun hm => by cases hm⟩

/-- Wherever a demotion is cut short, opening the store again loads the pack once, from the one tier
that then has it, and every key served from it, or from another sealed pack, reads as before. -/
theorem demotion_survives_crash {n : Nat} {s : Sys} (h : Life n s) {id src : Nat}
    {stage : MoveStage} (hmove : s.demoter = .moving id src stage)
    (hids : ∀ a, s.store.active = some a → a < 1000000) {fs : FileSystem} (hleft : s.Left fs)
    {env : OpenEnv} {budgets : List Int} (hlen : budgets.length = n)
    (hfault : ∀ t id, env.fault t id = none) (hopen : env.openFails = false) :
    ∃ w, openStore env budgets fs = (w, true) ∧
      (∃ e, w.store.extent id = some e ∧
        ∀ t, (∃ i, w.fs.lookup (filePath t id .pack) = some i) ↔ t = e.tier) ∧
      ∀ key l, s.store.index.lookup key = some l → s.store.active ≠ some l.pack →
        w.value key = s.world.value key := by
  obtain ⟨a, recs, hs⟩ := h.sound
  have hactive := hs.ok.consistent.active
  obtain ⟨wi, hc, hsh, himage, htiers, hsame⟩ := hs.image hleft
  obtain ⟨hindex, hpacks⟩ := hsame (.inl fun id' hpicked => by rw [hmove] at hpicked; cases hpicked)
  obtain ⟨w, hres, hrest, -⟩ := restored_openStore hc hsh himage (hids a hactive)
    (hlen.trans htiers.symm) hfault hopen
  refine ⟨w, hres, ?_, ?_⟩
  · have hd := hs.ok.demoter
    rw [hmove] at hd
    obtain ⟨⟨e, he, -⟩, -⟩ := hd
    obtain ⟨e', he'⟩ := (hpacks id).mp ⟨e, he⟩
    exact hrest.loaded he'
  · intro key l hl hne
    have hpack : l.pack ≠ a := by
      rintro rfl
      exact hne hactive
    obtain ⟨⟨e, he⟩, -⟩ := hs.shelved.indexed hl
    have hlt : l.pack ≠ a + 1 := ((hs.ok.consistent.packs he).2.trans_lt (Nat.lt_succ_self a)).ne
    have hl' := hrest.kept (hindex ▸ hl) (fun heq => absurd heq hpack)
    rw [hrest.shelved.value_of_index hl', hs.shelved.value_of_index hl, Function.update_of_ne hlt]

theorem careful_of_strict {x y : Tracked} {l : Label} (h : x.StrictStep l y)
    (hput : ∀ env key size r, l ≠ .put env key size r) : x.sys.CarefulStep l y.sys := by
  refine ⟨h.1, ?_, ?_⟩
  · cases l with
    | put env key size r => exact absurd rfl (hput env key size r)
    | _ => trivial
  · cases l with
    | put env key size r => exact absurd rfl (hput env key size r)
    | _ => exact fun hwrap => hwrap

theorem not_wraps_put {p : Pack} (hp : s.store.activePack = some p)
    (hid : p.id + 1 < 2 ^ 32) {env : PutEnv} {key : Bytes} {size : Int} {r : Bytes} :
    ¬ s.Wraps (.put env key size r) := by
  rintro ⟨p', body, -, -, hp', -, hge⟩
  rw [hp] at hp'
  cases hp'
  omega

/-- A `plainPut` into a store whose active pack has room for another id. -/
theorem careful_plainPut {x y : Tracked} {key r : Bytes} {size : Int}
    (h : x.StrictStep (.put plainPut key size r) y) (hactive : x.sys.store.active = some a)
    (hids : ∀ {id e}, x.sys.store.extent id = some e → id = a → e.id = id) (ha : a + 1 < 2 ^ 32) :
    x.sys.CarefulStep (.put plainPut key size r) y.sys := by
  refine ⟨h.1, rfl, fun hwrap => ?_⟩
  have hopened := hwrap
  obtain ⟨p, -, -, -, hp, -⟩ := hopened
  refine not_wraps_put hp ?_ hwrap
  rw [activePack, hactive, Option.bind_some] at hp
  have hid : p.id = a := hids (extent_of_lookup hp) rfl
  omega

/-- The first demotion of a store whose first tier is tiny: one key in pack 1, then a value that
fills a pack. -/
theorem first_demotion : ∃ s, Life 2 s ∧ s.demoter = .moving 1 0 (.link .pack) ∧
    s.store.index.lookup firstKey = some ⟨1, 9, 1⟩ ∧ s.store.active = some 2 := by
  obtain ⟨w, hopen⟩ : ∃ w, openStore plainOpen [1, 0] empty = (w, true) := ⟨_, rfl⟩
  obtain ⟨x₁, hfirst, hx₁⟩ := alone_first hopen
  obtain ⟨big, hbig⟩ : ∃ big : Bytes, big.length = packLimit :=
    ⟨List.replicate packLimit 0, List.length_replicate⟩
  obtain ⟨x₂, hfill, hx₂⟩ := fill_step hbig hx₁
  have htwo : u32 (1 + 1) = 2 := rfl
  rw [htwo] at hx₂
  have hlife₀ : Life 2 (Sys.fresh w) := .opened (by decide) rfl hopen
  have hlife₁ : Life 2 x₁.sys := by
    obtain ⟨hc, -⟩ := consistent_openStore_empty hopen
    exact .step hlife₀ (careful_plainPut hfirst hc.active (fun he _ => (hc.packs he).1) (by decide))
  have hlife₂ : Life 2 x₂.sys := by
    obtain ⟨f, n, m, hext, -⟩ := hx₁.home
    refine .step hlife₁ (careful_plainPut hfill hx₁.active ?_ (by decide))
    rintro id e he rfl
    rw [hext] at he
    cases he
    rfl
  have hrun : ∀ {as : List Label} {x y : Tracked}, Steps Tracked.StrictStep x as y →
      (∀ l ∈ as, ∀ env key size r, l ≠ .put env key size r) → Life 2 x.sys → Life 2 y.sys := by
    intro as x y h
    induction h with
    | refl => exact fun _ hlife => hlife
    | cons hstep _ ih =>
      intro hput hlife
      exact ih (fun l hl => hput l (List.mem_cons_of_mem _ hl))
        (.step hlife (careful_of_strict hstep (hput _ (List.mem_cons_self ..))))
  have hlife₃ := hrun (start_steps hx₂ (by decide)) (by simp) hlife₂
  exact ⟨_, hlife₃, rfl, hx₂.entry, hx₂.active⟩

theorem demotion_survives_crash_first : ∃ s w, Life 2 s ∧
    s.demoter = .moving 1 0 (.link .pack) ∧ openStore plainOpen [1, 0] s.fs = (w, true) ∧
    (∃ e, w.store.extent 1 = some e ∧
      ∀ t, (∃ i, w.fs.lookup (filePath t 1 .pack) = some i) ↔ t = e.tier) ∧
    w.value firstKey = s.world.value firstKey := by
  obtain ⟨s, hlife, hmove, hentry, hactive⟩ := first_demotion
  obtain ⟨w, hopen, hloaded, hvalue⟩ := demotion_survives_crash hlife hmove
    (fun a ha => by rw [hactive] at ha; cases ha; decide) .now
    (show ([1, 0] : List Int).length = 2 from rfl)
    (show ∀ t id, plainOpen.fault t id = none from fun _ _ => rfl) rfl
  refine ⟨s, w, hlife, hmove, hopen, hloaded, hvalue firstKey _ hentry ?_⟩
  rw [hactive]
  decide

/-! ## Ids with seven digits -/

namespace World

theorem extent_load_ne (env : OpenEnv) (w : World) (t : Nat) {id q : Nat} (hq : q ≠ id) :
    (w.load env t id).1.store.extent q = w.store.extent q := by
  rcases extent_load env w t id with ⟨-, heq⟩ | ⟨-, i, n, -, -, hext⟩
  · rw [heq]
  · rw [hext, if_neg hq]

/-- A pack that `OpenStore` passes over, and that stays where it is. -/
structure Overlooked (q : Nat) (acc : World × Nat) : Prop where
  unloaded : acc.1.store.extent q = none
  last : acc.2 < 1000000
  file : ∃ i, acc.1.fs.lookup (filePath 0 q .pack) = some i

theorem Overlooked.openName {q t : Nat} {acc : World × Nat} (hq : 1000000 ≤ q)
    (h : Overlooked q acc) (name : Bytes) : Overlooked q (openName env t acc name) := by
  unfold World.openName
  split
  · exact h
  · rename_i id hid
    have hlt := scanId_lt hid
    have hne : q ≠ id := by omega
    split
    · refine ⟨h.unloaded, h.last, ?_⟩
      obtain ⟨i, hi⟩ := h.file
      refine ⟨i, ?_⟩
      rw [lookup_remove, if_neg (by rw [filePath_inj]; simp), lookup_remove,
        if_neg]
      · exact hi
      · intro hpath
        -- its name would have been read as no id at all
        have hname : packName q packExt = name := congrArg Prod.snd hpath
        rw [← hname, scanId_packName_of_le hq] at hid
        cases hid
    · have hfile : ∃ i, (acc.1.load env t id).1.fs.lookup (filePath 0 q .pack) = some i := by
        obtain ⟨i, hi⟩ := h.file
        refine ⟨i, ((loadedFiles_load env acc.1 t id).names fun hpath => ?_).trans hi⟩
        exact absurd (filePath_inj.mp hpath).2.2 (by decide)
      have hext := (extent_load_ne env acc.1 t hne).trans h.unloaded
      split
      · rename_i hw
        rw [hw] at hfile hext
        exact ⟨hext, max_lt h.last hlt, hfile⟩
      · rename_i hw
        rw [hw] at hfile hext
        exact ⟨hext, h.last, hfile⟩

/-- A pack in the first tier whose id has seven digits is not loaded. -/
theorem openStore_overlooks {q : Nat} (hq : 1000000 ≤ q)
    (hfile : ∃ i, fs.lookup (filePath 0 q .pack) = some i)
    (hopen : openStore env budgets fs = (w, true)) : w.store.extent q = none := by
  have hend : Overlooked q ((List.range budgets.length).foldl (openTier env)
      (⟨emptyStore budgets, fs⟩, 0)) :=
    foldl_openTier_of (fun _ _ name h => h.openName hq name) _ ⟨rfl, Nat.zero_lt_succ _, hfile⟩
  rw [openStore] at hopen
  generalize (List.range budgets.length).foldl (openTier env) (⟨emptyStore budgets, fs⟩, 0) =
    loaded at hend hopen
  have hu : u32 (loaded.2 + 1) = loaded.2 + 1 := u32_of_lt (by have := hend.last; omega)
  rcases rotate_cases ⟨⟨env.order, false⟩, env.openFails, env.now⟩ loaded.1
    (u32 (loaded.2 + 1)) with
    heq | ⟨-, hfree, heq⟩
  · rw [heq] at hopen
    cases hopen
  · rw [heq] at hopen
    cases hopen
    refine (extent_addPack _ _ q).trans ((if_neg ?_).trans ?_)
    · -- the new active pack cannot have its id: the name is taken
      intro hid
      have hlook : (loaded.1.sealActive ⟨env.order, false⟩).1.fs.lookup (filePath 0 q .pack) =
          loaded.1.fs.lookup (filePath 0 q .pack) := by
        unfold sealActive
        split
        · unfold sealPack
          split
          · rfl
          · exact (lookup_place _ _ _ _).trans (if_neg (by rw [filePath_inj]; simp))
        · rfl
      obtain ⟨i, hi⟩ := hend.file
      have hid' : q = u32 (loaded.2 + 1) := hid
      rw [← hid', hlook, hi] at hfree
      cases hfree
    · change (loaded.1.sealActive ⟨env.order, false⟩).1.store.extent q = none
      rw [sealActive_store]
      exact hend.unloaded

end World

/-- The millionth pack, stopped before the first link of its demotion, is not loaded again. -/
theorem demotion_loses_millionth_pack :
    ∃ (w : World) (as : List Label) (x : Tracked),
      openStore plainOpen [1, 0] empty = (w, true) ∧
      Steps Tracked.StrictStep ⟨Sys.fresh w, fun _ => none⟩ as x ∧
      x.sys.demoter = .moving 1000000 0 (.link .pack) ∧ x.sys.Left x.sys.fs ∧
      ∀ env budgets w', openStore env budgets x.sys.fs = (w', true) →
        w'.store.extent 1000000 = none := by
  obtain ⟨w, hopen⟩ : ∃ w, openStore plainOpen [1, 0] empty = (w, true) := ⟨_, rfl⟩
  obtain ⟨x₁, hfirst, hx₁⟩ := alone_first hopen
  obtain ⟨big, hbig⟩ : ∃ big : Bytes, big.length = packLimit :=
    ⟨List.replicate packLimit 0, List.length_replicate⟩
  obtain ⟨as, x₂, hrounds, hx₂⟩ := rounds hbig 999999 hx₁
  obtain ⟨x₃, hfill, hx₃⟩ := fill_step hbig hx₂
  have hids : u32 (999999 + 1) = 1000000 ∧ u32 (1000000 + 1) = 1000001 := by decide
  rw [hids.1, hids.2] at hx₃
  obtain ⟨f, g, n, m, r, -, -, -, -, -, hname, -⟩ := hx₃.home
  have hstart := start_steps hx₃ (by decide)
  refine ⟨w, _, _, hopen, .cons hfirst (hrounds.append (.cons hfill hstart)), rfl, .now, ?_⟩
  intro env budgets w' hw'
  exact openStore_overlooks le_rfl ⟨f, hname⟩ hw'

end Corepkgs.Jigd
