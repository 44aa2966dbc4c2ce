import Corepkgs.Jigd.CleanRestart
/-!
# Durability

Whatever a store serves is in its directories at every moment of its life, and the next process
finds it there.
-/

namespace Corepkgs.Jigd

open Lib FileSystem Store World List Option

variable {n a : Nat} {s : Sys} {w w' : World} {recs : Records} {fs : FileSystem}
  {env env' : OpenEnv} {budgets budgets' : List Int}

theorem record_of_mem {id off : Nat} {recs : List (Bytes × Bytes)} {e : Bytes × Loc}
    (h : e ∈ recordLocs id off recs) :
    ∃ front value back, recs = front ++ (e.1, value) :: back ∧
      e.2.off = off + (packBytes front).length + recHeader + e.1.length ∧
      e.2.len = value.length := by
  induction recs generalizing off with
  | nil => cases h
  | cons r recs ih =>
    rcases mem_cons.mp h with rfl | h
    · exact ⟨[], r.2, recs, rfl, rfl, rfl⟩
    · obtain ⟨front, value, back, rfl, hoff, hlen⟩ := ih h
      refine ⟨r :: front, value, back, rfl, ?_, hlen⟩
      rw [hoff, packBytes_cons, length_append]
      omega

/-- The file behind a pack's name in its tier has the bytes of the pack. -/
theorem Sys.Sound.pack_file {id : Nat} (hs : s.Sound n a recs) {e : Extent}
    (he : s.store.extent id = some e) :
    ∃ i, s.fs.lookup (filePath e.tier id .pack) = some i ∧ s.fs.data i = packBytes (recs id) := by
  obtain ⟨-, i, hi⟩ := hs.shelved.home he
  refine ⟨i, hi, Eq.trans ?_ (hs.shelved.written he).1⟩
  by_cases hid : id = a
  · subst hid
    exact congrArg s.fs.data (hs.ok.consistent.sole he hi)
  · exact (hs.ok.consistent.copies he hid hi).2

/-- At every moment of its life, between any two steps of the demoter and after any number of
crashes, each key of the index has its whole record in the file of its pack. -/
theorem index_backed_by_files (h : Life n s) {key : Bytes} {l : Loc}
    (hl : s.store.index.lookup key = some l) :
    ∃ t < n, ∃ i before value after, s.fs.lookup (filePath t l.pack .pack) = some i ∧
      s.fs.data i = before ++ record key value ++ after ∧
      l.off = before.length + recHeader + key.length ∧ l.len = value.length ∧
      s.world.value key = some value := by
  obtain ⟨a, recs, hs⟩ := h.sound
  obtain ⟨⟨e, he⟩, hmem⟩ := hs.shelved.indexed hl
  obtain ⟨i, hi, hdata⟩ := hs.pack_file he
  obtain ⟨front, value, back, hrecs, hoff, hlen⟩ := record_of_mem hmem
  have htier : e.tier < n := hs.tiers ▸ (hs.shelved.home he).1
  rw [Nat.zero_add] at hoff
  refine ⟨e.tier, htier, i, packBytes front, value, packBytes back, hi, ?_, hoff, hlen, ?_⟩
  · rw [hdata, hrecs]
    simp [packBytes]
  · rw [hs.shelved.value_of_index hl, hoff, hlen, hrecs, slice_packBytes]

theorem index_backed_by_files_oneKey :
    ∃ i before value after, oneKey.fs.data i = before ++ record [97] value ++ after := by
  have hl : oneKey.store.index.lookup [97] = some ⟨1, 9, 1⟩ := rfl
  obtain ⟨-, -, i, before, value, after, -, hdata, -⟩ := index_backed_by_files life_oneKey hl
  exact ⟨i, before, value, after, hdata⟩

/-- A process killed at any moment loses nothing that it serves: if each pack still has a file, and
the active one no hint, then the next process answers as it did. -/
theorem kill_loses_nothing (h : Life n s)
    (hids : ∀ a, s.store.active = some a → a < 1000000) (hleft : s.Left fs)
    (hfiles : ∀ id e, s.store.extent id = some e → ∃ t i, fs.lookup (filePath t id .pack) = some i)
    (hhint : ∀ a, s.store.active = some a → ∀ t < n, fs.lookup (filePath t a .hint) = none)
    (hlen : budgets.length = n) (hfault : ∀ t id, env.fault t id = none)
    (hopen : env.openFails = false) :
    ∃ w, openStore env budgets fs = (w, true) ∧
      ∀ key l, s.store.index.lookup key = some l → w.value key = s.world.value key := by
  obtain ⟨a, recs, hs⟩ := h.sound
  have hc := hs.ok.consistent
  obtain ⟨wi, hci, hshi, himage, htiers, hsame⟩ := hs.image hleft
  obtain ⟨hindex, hpacks⟩ := hsame (.inr fun he => hfiles _ _ he)
  obtain ⟨w, hres, hrest, -⟩ := restored_openStore hci hshi himage (hids a hc.active)
    (hlen.trans htiers.symm) hfault hopen
  refine ⟨w, hres, fun key l hl => ?_⟩
  obtain ⟨⟨e, he⟩, -⟩ := hs.shelved.indexed hl
  have hne : l.pack ≠ a + 1 := ((hc.packs he).2.trans_lt (Nat.lt_succ_self a)).ne
  -- without a hint the active pack is read record by record
  have hfresh : wi.UpToDate a recs := by
    left
    obtain ⟨ea, hea⟩ := hci.opened
    rw [listedBy, hea, bind_some, map_eq_none_iff, eq_none_iff_forall_not_mem]
    intro k hk
    have hnone := hhint a hc.active ea.tier (htiers ▸ (hshi.home hea).1)
    rw [himage.hints hk] at hnone
    cases hnone
  have hl' := hrest.kept (hindex ▸ hl) fun _ => hfresh
  rw [hrest.shelved.value_of_index hl', hs.shelved.value_of_index hl, Function.update_of_ne hne]

theorem kill_loses_nothing_oneKey :
    ∃ w, openStore plainOpen [0] oneKey.fs = (w, true) ∧
      ∀ key l, oneKey.store.index.lookup key = some l → w.value key = oneKey.world.value key := by
  obtain ⟨a, recs, hs⟩ := life_oneKey.sound
  refine kill_loses_nothing life_oneKey ?_ .now (fun _ e he => ⟨e.tier, (hs.shelved.home he).2⟩) ?_
    rfl (fun _ _ => rfl) rfl
  · rintro _ ⟨⟩
    decide
  · rintro _ ⟨⟩ t ht
    obtain rfl : t = 0 := by omega
    rfl

/-! ## Opening again -/

/-- `OpenStore` indexes every key that the hints beside the packs list when it is done. -/
theorem nothingDropped_openStore
    (hc : w.Consistent a) (h : w.Shelved a recs) (himage : w.Image a fs) (ha : a < 1000000)
    (hlen : budgets.length = w.store.tiers.length)
    (hfault : ∀ t id, env.fault t id = none) (hopen : openStore env budgets fs = (w', true))
    (hsh : w'.Shelved (a + 1) (Function.update recs (a + 1) [])) : w'.NothingDropped := by
  have hd := onDisk_of_image hc h himage
  rw [← hlen] at hd
  obtain ⟨wl, hres, hloading, -⟩ := openStore_onDisk hd ha hfault (openFails_of_openStore hopen)
  cases hopen.symm.trans hres
  intro id es key l hactive hlist hmem
  have hne : id ≠ a + 1 := fun heq => hactive (congrArg some heq.symm)
  obtain ⟨e, k, he, hk, hdata, hlisted, -⟩ := hsh.listed_of_listedBy hlist
  have he' : wl.store.extent id = some e :=
    (if_neg hne).symm.trans ((extent_addPack _ _ id).symm.trans he)
  obtain ⟨k', es', hk', hdata', -, hmem', -, hfound⟩ := hloading.hint he'
  have hlook : (wl.openActive env.now (a + 1)).fs.lookup (filePath e.tier id .hint) = some k' :=
    (lookup_place _ _ _ _).trans ((if_neg fun hq => hne (filePath_inj.mp hq).2.1).trans hk')
  obtain rfl : k = k' := some.inj (hk.symm.trans hlook)
  -- the hint is the one that was loaded or written
  have hsame : es = es' := by
    have hbytes := hdata.symm.trans ((data_place_old _ _ (lookup_lt hk')).trans hdata')
    rw [← hsh.entries_of_listed he hlisted.mem, hbytes, hsh.entries_of_listed he]
    rwa [Function.update_of_ne hne]
  rw [← ne_none_iff_exists']
  exact fun hnone => hfound _ (hsame ▸ hmem) (hloading.best.missing hnone he')

/-- A store opened and stopped before it served anything answers the same when opened again. -/
theorem reopen_idempotent (h : Life n s)
    (hids : ∀ a, s.store.active = some a → a + 1 < 1000000) (hleft : s.Left fs)
    (hlen : budgets.length = n) (hlen' : budgets'.length = n)
    (hfault : ∀ t id, env.fault t id = none) (hfault' : ∀ t id, env'.fault t id = none)
    (hopen' : env'.openFails = false) (hopen : openStore env budgets fs = (w, true)) :
    ∃ w', openStore env' budgets' w.fs = (w', true) ∧ ∀ key, w'.value key = w.value key := by
  obtain ⟨a, recs, hs⟩ := h.sound
  have ha := hids a hs.ok.consistent.active
  obtain ⟨wi, hci, hshi, himage, htiers, -⟩ := hs.image hleft
  have ha' := Nat.lt_of_succ_lt ha
  have hlen₁ := hlen.trans htiers.symm
  obtain ⟨w₁, hres, hrest, -⟩ := restored_openStore hci hshi himage ha' hlen₁ hfault
    (openFails_of_openStore hopen)
  cases hopen.symm.trans hres
  have hdrop := nothingDropped_openStore hci hshi himage ha' hlen₁ hfault hopen hrest.shelved
  obtain ⟨w', hres', hrest', -⟩ := restored_openStore hrest.consistent hrest.shelved
    (image_refl hrest.consistent) ha (hlen'.trans (hrest.tiers.trans htiers).symm) hfault' hopen'
  refine ⟨w', hres', fun key => ?_⟩
  cases hl : w.store.index.lookup key with
  | some l =>
    obtain ⟨⟨e, he⟩, hmem⟩ := hrest.shelved.indexed hl
    have hne : l.pack ≠ a + 1 := by
      intro hpack
      rw [hpack, Function.update_self] at hmem
      cases hmem
    have hlt := ((hrest.consistent.packs he).2.trans_lt (Nat.lt_succ_self _)).ne
    have hl' := hrest'.kept hl fun hpack => absurd hpack hne
    rw [hrest'.shelved.value_of_index hl', hrest.shelved.value_of_index hl,
      Function.update_of_ne hlt]
  | none =>
    rw [value_of_no_index hl]
    apply value_of_no_index
    rw [eq_none_iff_forall_not_mem]
    intro l' hl'
    obtain ⟨hne, es, hlist, hmem⟩ := hrest'.revived hl hl'
    have hactive : w.store.active ≠ some l'.pack := by
      rw [hrest.consistent.active]
      exact fun heq => hne (some.inj heq).symm
    obtain ⟨l, hl₀⟩ := hdrop _ es key l' hactive hlist hmem
    rw [hl] at hl₀
    cases hl₀

theorem reopen_idempotent_oneKey :
    ∃ w', openStore plainOpen [0] (openStore plainOpen [0] oneKey.fs).1.fs = (w', true) ∧
      ∀ key, w'.value key = (openStore plainOpen [0] oneKey.fs).1.value key := by
  have hopen : openStore plainOpen [0] oneKey.fs = (_, true) := rfl
  refine reopen_idempotent life_oneKey ?_ .now rfl rfl (fun _ _ => rfl) (fun _ _ => rfl) rfl hopen
  rintro _ ⟨⟩
  decide

end Corepkgs.Jigd
