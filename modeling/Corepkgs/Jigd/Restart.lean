import Corepkgs.Jigd.Reopen
/-!
# Restarts

What a store answers after it was stopped, at whatever moment, and opened again.
The new index is that of the hints and of the records of the last active pack,
so a key that was in the index is found where it was; a key that was not may come
back if the hint of some pack still lists it.
-/

namespace Corepkgs.Jigd

open Lib Option

namespace World

def listedBy (w : World) (id : Nat) : Option (List (Bytes × Loc)) :=
  (w.store.extent id).bind fun e =>
    (w.fs.lookup (filePath e.tier id .hint)).map fun h => hintEntries id e.size (w.fs.data h)

def homeOf (w : World) (id : Nat) : Option Nat := (w.store.extent id).map Extent.tier

/-- The directories of `w` as a stopped process may leave them: with part of one more record in the
active pack, and with hints that were to be removed. -/
structure Image (w : World) (a : Nat) (fs : FileSystem) : Prop where
  same : ∀ q, (∀ t id, q ≠ filePath t id .hint) → fs.lookup q = w.fs.lookup q
  hints : ∀ {t id h}, w.fs.lookup (filePath t id .hint) = some h →
    fs.lookup (filePath t id .hint) = some h
  extra : ∀ {t id h}, fs.lookup (filePath t id .hint) = some h →
    w.fs.lookup (filePath t id .hint) = some h ∨
      (id < a ∧ w.Settled h ∧ ∀ e, w.store.extent id = some e → t < e.tier)
  tmps : TmpUnique fs
  data : ∀ {i}, w.Settled i → fs.data i = w.fs.data i
  active : ∀ {e}, w.store.extent a = some e → ∃ key value torn,
    fs.data e.file = w.fs.data e.file ++ torn ∧ Storable key value ∧ torn <+: record key value ∧
      torn ≠ record key value ∧
      (torn ≠ [] → ∀ t, w.fs.lookup (filePath t a .hint) = none)

theorem image_refl {w : World} {a : Nat} (hc : w.Consistent a) : w.Image a w.fs where
  same _ _ := rfl
  hints hi := hi
  extra hi := .inl hi
  tmps := hc.tmps
  data _ := rfl
  active _ := ⟨[97], [], [], (List.append_nil _).symm, by constructor <;> decide, List.nil_prefix,
    by decide, fun hne => absurd rfl hne⟩

section

variable {w : World} {a : Nat} {recs : Records} {fs : FileSystem}

variable {id : Nat} {key : Bytes} {e : Extent}

theorem Shelved.entries_of_listed (h : w.Shelved a recs) {es : List (Bytes × Loc)}
    (he : w.store.extent id = some e) (hmem : ∀ x ∈ es, x ∈ recordLocs id 0 (recs id)) :
    hintEntries id e.size (hintBytes es) = es := by
  obtain ⟨-, hsize, happ⟩ := h.written he
  rw [hsize]
  apply hintEntries_hintBytes happ.length_lt
  intro x hx
  have hin := inPack_of_mem_recordLocs happ.addressable (hmem x hx)
  rw [Nat.zero_add] at hin
  exact hin

/-- What a hint lists is of its pack and not superseded by an older one. -/
theorem Shelved.listed_of_listedBy (h : w.Shelved a recs) {es : List (Bytes × Loc)}
    (hl : w.listedBy id = some es) : ∃ e k, w.store.extent id = some e ∧
      w.fs.lookup (filePath e.tier id .hint) = some k ∧ w.fs.data k = hintBytes es ∧
      w.Listed recs id es ∧ (id ≠ a → w.Hinted recs id es) := by
  rw [listedBy, bind_eq_some_iff] at hl
  obtain ⟨e, he, hl⟩ := hl
  rw [map_eq_some_iff] at hl
  obtain ⟨k, hk, hes⟩ := hl
  refine ⟨e, k, he, hk, ?_⟩
  by_cases hid : id = a
  · subst hid
    obtain ⟨-, es', hdata, hh⟩ := h.stale hk
    rw [hdata, h.entries_of_listed he hh.mem] at hes
    subst hes
    exact ⟨hdata, hh, fun hne => absurd rfl hne⟩
  · obtain ⟨k', es', hk', hdata, hh⟩ := h.hints he hid
    rw [hk] at hk'
    cases hk'
    rw [hdata, h.entries_of_listed he hh.mem] at hes
    subst hes
    exact ⟨hdata, hh.toListed, fun _ => hh⟩

theorem Shelved.listedBy_eq_none (h : w.Shelved a recs)
    (he : w.store.extent id = some e) (hl : w.listedBy id = none) :
    id = a ∧ ∀ t, w.fs.lookup (filePath t id .hint) = none := by
  rw [listedBy, he, bind_some, map_eq_none_iff] at hl
  have hid : id = a := by
    by_contra hne
    obtain ⟨k, -, hk, -⟩ := h.hints he hne
    rw [hl] at hk
    cases hk
  refine ⟨hid, fun t => ?_⟩
  subst hid
  rw [eq_none_iff_forall_not_mem]
  intro k hk
  rw [h.front he] at hl
  rw [mem_def, (h.stale hk).1, hl] at hk
  cases hk

/-- What a stopped process leaves is a well-formed set of directories. -/
theorem onDisk_of_image (hc : w.Consistent a) (h : w.Shelved a recs) (hi : w.Image a fs) :
    OnDisk fs w.store.tiers.length a w.homeOf recs w.listedBy := by
  have hhome : ∀ {id t}, w.homeOf id = some t → ∃ e, w.store.extent id = some e ∧ e.tier = t := by
    intro id t ht
    rwa [homeOf, map_eq_some_iff] at ht
  have hpackName : ∀ {t id t' id'}, filePath t id .pack ≠ filePath t' id' .hint := by
    intro t id t' id' hpath
    exact absurd (filePath_inj.mp hpath).2.2 (by decide)
  have hpack : ∀ {t id}, fs.lookup (filePath t id .pack) = w.fs.lookup (filePath t id .pack) :=
    hi.same _ (fun _ _ => hpackName)
  -- a hint beside or below the pack is one that was there
  have hhint : ∀ {id e t k}, w.store.extent id = some e → e.tier ≤ t →
      fs.lookup (filePath t id .hint) = some k → w.fs.lookup (filePath t id .hint) = some k := by
    intro id e t k he ht hk
    rcases hi.extra hk with hold | ⟨-, -, hlt⟩
    · exact hold
    · exact absurd (hlt e he) (Nat.not_lt.mpr ht)
  obtain ⟨ea, hea⟩ := hc.opened
  obtain ⟨key, value, torn, htorn, hkey, hpre, hne, hclean⟩ := hi.active hea
  have hfile : ∀ {t i}, w.homeOf a = some t → w.fs.lookup (filePath t a .pack) = some i →
      i = ea.file := fun _ hk => hc.sole hea hk
  refine ⟨?_, ⟨ea.tier, by rw [homeOf, hea]; rfl⟩, ?_, ?_, ?_, ?_, hi.tmps, ?_, ?_, ?_, ?_,
    ?_, ?_, ?_⟩
  · intro id t ht
    obtain ⟨e, he, rfl⟩ := hhome ht
    exact ⟨(hc.packs he).2, (h.home he).1⟩
  · intro id t ht
    obtain ⟨e, he, rfl⟩ := hhome ht
    obtain ⟨-, i, hk⟩ := h.home he
    exact ⟨i, hpack.trans hk⟩
  · intro id t t' i ht hk
    obtain ⟨e, he, rfl⟩ := hhome ht
    exact h.lowest he (hpack ▸ hk)
  · intro t name i hk hglob
    rw [hi.same] at hk
    · obtain ⟨id, e, hname, he⟩ := h.known hk hglob
      exact ⟨id, e.tier, hname, by rw [homeOf, he]; rfl⟩
    · intro t' id' hq
      have hname : name = packName id' hintExt := congrArg Prod.snd hq
      rw [hname, globPack_hint] at hglob
      cases hglob
  · intro t id ext k hk
    cases ext with
    | pack => exact hc.names (hpack ▸ hk)
    | hint =>
      rcases hi.extra hk with hold | ⟨hlt, -⟩
      · exact hc.names hold
      · exact hlt.le
  · intro id t ht
    obtain ⟨e, he, -⟩ := hhome ht
    exact (h.written he).2.2
  · intro id t i es ht hl hk
    obtain ⟨e, he, rfl⟩ := hhome ht
    rw [hpack] at hk
    by_cases hid : id = a
    · subst hid
      obtain ⟨e', k, he', hk', -⟩ := h.listed_of_listedBy hl
      rw [hfile ht hk, htorn]
      have hnil : torn = [] := by
        by_contra hnil
        rw [he] at he'
        cases he'
        rw [hclean hnil] at hk'
        cases hk'
      rw [hnil, List.append_nil]
      exact (h.written hea).1
    · obtain ⟨hset, hdata⟩ := hc.copies he hid hk
      rw [hi.data hset, hdata]
      exact (h.written he).1
  · intro id t i ht hl hk
    obtain ⟨e, he, rfl⟩ := hhome ht
    obtain ⟨rfl, -⟩ := h.listedBy_eq_none he hl
    rw [hpack] at hk
    refine ⟨key, value, torn, ?_, hkey, hpre, hne⟩
    rw [hfile ht hk, htorn, (h.written hea).1]
  · intro id t es ht hl
    obtain ⟨e, he, rfl⟩ := hhome ht
    obtain ⟨e', k, he', hk, -, hh, -⟩ := h.listed_of_listedBy hl
    rw [he] at he'
    cases he'
    exact ⟨⟨k, hi.hints hk⟩, hh.nodup, hh.mem⟩
  · intro id t t' k es ht hl hle hk
    obtain ⟨e, he, rfl⟩ := hhome ht
    obtain ⟨e', k', he', hk', hdata, -⟩ := h.listed_of_listedBy hl
    rw [he] at he'
    cases he'
    have hk₀ := hhint he hle hk
    rw [hi.data (hc.hints hk₀), ← hdata]
    by_cases hid : id = a
    · subst hid
      rw [(h.stale hk').1] at hk'
      rw [(h.stale hk₀).1, hk'] at hk₀
      cases hk₀
      rfl
    · exact h.hintCopies he hid hk' hk₀ hle
  · intro id t ht hl
    obtain ⟨e, he, rfl⟩ := hhome ht
    obtain ⟨rfl, hnone⟩ := h.listedBy_eq_none he hl
    refine ⟨rfl, fun t' => ?_⟩
    rw [eq_none_iff_forall_not_mem]
    intro k hk
    rcases hi.extra hk with hold | ⟨hlt, -⟩
    · rw [hnone] at hold
      cases hold
    · exact absurd hlt (Nat.lt_irrefl _)
  · intro t i t' id ext ht hk hk'
    rw [hpack] at hk
    have hif := hfile ht hk
    have hnot : ¬ w.Settled i := fun hset => hset.notActive ea (hc.activeExtent_of hea) hif.symm
    cases ext with
    | pack =>
      rw [hpack] at hk'
      refine ⟨?_, rfl⟩
      by_contra hid
      obtain ⟨id', e', hname, he'⟩ := h.known hk' (globPack_packName id)
      have hidd : id = id' := (packName_inj.mp hname).1
      subst hidd
      exact hnot (hc.copies he' hid hk').1
    | hint =>
      rcases hi.extra hk' with hold | ⟨-, hset, -⟩
      · exact absurd (hc.hints hold) hnot
      · exact absurd hset hnot

/-! ## What is found again -/

theorem Shelved.value_of_index (h : w.Shelved a recs) {l : Loc}
    (hl : w.store.index.lookup key = some l) :
    w.value key = some (slice (packBytes (recs l.pack)) l.off l.len) := by
  obtain ⟨⟨e, he⟩, -⟩ := h.indexed hl
  obtain ⟨p, hp, rfl⟩ := Store.lookup_of_extent he
  obtain ⟨hbytes, -⟩ := h.written he
  rw [value, reader, hl, bind_some, hp, map_some, map_some, Reader.read]
  exact congrArg (fun bytes => some (slice bytes l.off l.len)) hbytes

theorem value_of_no_index {w : World} (hl : w.store.index.lookup key = none) :
    w.value key = none := by
  rw [value, reader, hl]
  rfl

def UpToDate (w : World) (a : Nat) (recs : Records) : Prop :=
  w.listedBy a = none ∨ w.HintAt recs 0 a

/-- What loading finds of a key in the index. -/
theorem Shelved.found_of_index (h : w.Shelved a recs) {l : Loc}
    (hl : w.store.index.lookup key = some l) (hfresh : l.pack = a → w.UpToDate a recs) :
    lastOf (foundIn recs w.listedBy l.pack) key = some l := by
  obtain ⟨⟨e, he⟩, -⟩ := h.indexed hl
  cases hlist : w.listedBy l.pack with
  | none =>
    obtain ⟨hpack, -⟩ := h.listedBy_eq_none he hlist
    rw [foundIn, hlist, getD_none, hpack]
    exact h.lastOf_active hl hpack
  | some es =>
    obtain ⟨e', k, he', hk, hdata, hlisted, hhinted⟩ := h.listed_of_listedBy hlist
    rw [foundIn, hlist, getD_some]
    by_cases hpack : l.pack = a
    · rcases hfresh hpack with hnone | ⟨k', es', hk', hdata', hh⟩
      · rw [hpack, hnone] at hlist
        cases hlist
      · rw [hpack] at he' hk hlisted
        rw [h.front he', hk'] at hk
        cases hk
        have hsame := h.entries_of_listed he' hlisted.mem
        rw [← hdata, hdata', h.entries_of_listed he' hh.mem] at hsame
        subst hsame
        exact lastOf_of_mem hh.nodup (hh.complete hl hpack)
    · exact lastOf_of_mem hlisted.nodup ((hhinted hpack).complete hl rfl)

/-- No pack holds a newer entry than the index does. -/
theorem Shelved.found_le (h : w.Shelved a recs) {l : Loc}
    (hl : w.store.index.lookup key = some l) (he : w.store.extent id = some e)
    (hfound : lastOf (foundIn recs w.listedBy id) key ≠ none) : id ≤ l.pack := by
  obtain ⟨l', hlast⟩ := ne_none_iff_exists'.mp hfound
  cases hlist : w.listedBy id with
  | none =>
    obtain ⟨rfl, -⟩ := h.listedBy_eq_none he hlist
    rw [foundIn, hlist, getD_none] at hlast
    have hl' := h.current hlast
    rw [hl] at hl'
    cases hl'
    exact (mem_recordLocs (mem_of_lastOf hlast)).1.ge
  | some es =>
    rw [foundIn, hlist, getD_some] at hlast
    obtain ⟨-, -, -, -, -, hlisted, -⟩ := h.listed_of_listedBy hlist
    exact hlisted.ahead _ (mem_of_lastOf hlast) l hl

structure Restored (w w' : World) (a : Nat) (recs : Records) : Prop where
  consistent : w'.Consistent (a + 1)
  shelved : w'.Shelved (a + 1) (Function.update recs (a + 1) [])
  tiers : w'.store.tiers.length = w.store.tiers.length
  loaded : ∀ {id e}, w.store.extent id = some e → ∃ e', w'.store.extent id = some e' ∧
    ∀ t, (∃ i, w'.fs.lookup (filePath t id .pack) = some i) ↔ t = e'.tier
  kept : ∀ {key l}, w.store.index.lookup key = some l → (l.pack = a → w.UpToDate a recs) →
    w'.store.index.lookup key = some l
  /-- A key that was not in the index comes from a hint that lists it. -/
  revived : ∀ {key l}, w.store.index.lookup key = none → w'.store.index.lookup key = some l →
    l.pack ≠ a ∧ ∃ es, w.listedBy l.pack = some es ∧ (key, l) ∈ es
  /-- Every such hint has an effect. -/
  revives : ∀ {key id es l}, w.store.index.lookup key = none → w.listedBy id = some es →
    (key, l) ∈ es → ∃ l', w'.store.index.lookup key = some l'

theorem restored_openStore (hc : w.Consistent a) (h : w.Shelved a recs) (hi : w.Image a fs)
    (ha : a < 1000000) {env : OpenEnv} {budgets : List Int}
    (hlen : budgets.length = w.store.tiers.length) (hfault : ∀ t id, env.fault t id = none)
    (hopen : env.openFails = false) :
    ∃ w', openStore env budgets fs = (w', true) ∧ Restored w w' a recs ∧
      ∀ {id e'}, w'.store.extent id = some e' → id = a + 1 ∨ ∃ e, w.store.extent id = some e := by
  have hd := onDisk_of_image hc h hi
  rw [← hlen] at hd
  obtain ⟨wl, hres, hloading, hall, honce⟩ := openStore_onDisk hd ha hfault hopen
  have htiers : 0 < budgets.length := by
    obtain ⟨e, he⟩ := hc.opened
    have ht := (h.home he).1
    omega
  have hhome : ∀ {id e}, w.store.extent id = some e → w.homeOf id = some e.tier := by
    intro id e he
    rw [homeOf, he]
    rfl
  have hback : ∀ {id e'}, wl.store.extent id = some e' → ∃ e, w.store.extent id = some e := by
    intro id e' he'
    obtain ⟨t, -, ht, -⟩ := hloading.packs he'
    rw [homeOf, map_eq_some_iff] at ht
    obtain ⟨e, he, -⟩ := ht
    exact ⟨e, he⟩
  have hext : ∀ {id e}, w.store.extent id = some e → ∀ e', wl.store.extent id = some e' →
      (wl.openActive env.now (a + 1)).store.extent id = some e' := by
    intro id e he e' he'
    refine (Store.extent_addPack _ _ id).trans ((if_neg ?_).trans he')
    exact ((hc.packs he).2.trans_lt (Nat.lt_succ_self a)).ne
  refine ⟨_, hres, ⟨hloading.consistent hd honce env.now,
    hloading.shelved hd htiers hall honce env.now, hloading.tiers.trans hlen, ?_, ?_, ?_, ?_⟩, ?_⟩
  · intro id e he
    obtain ⟨e', he'⟩ := hall (hhome he)
    refine ⟨e', hext he e' he', fun t => ?_⟩
    have hlook : (wl.openActive env.now (a + 1)).fs.lookup (filePath t id .pack) =
        wl.fs.lookup (filePath t id .pack) := by
      refine (FileSystem.lookup_place _ _ _ _).trans (if_neg ?_)
      intro hpath
      have hida := (hc.packs he).2
      rw [(filePath_inj.mp hpath).2.1] at hida
      exact absurd hida (Nat.not_succ_le_self a)
    rw [hlook]
    constructor
    · rintro ⟨i, hk⟩
      exact honce he' hk
    · rintro rfl
      exact ⟨_, (hloading.file he').1⟩
  · intro key l hl hfresh
    change wl.store.index.lookup key = some l
    obtain ⟨⟨e, he⟩, -⟩ := h.indexed hl
    obtain ⟨e', he'⟩ := hall (hhome he)
    have hfound := h.found_of_index hl hfresh
    cases hl' : wl.store.index.lookup key with
    | none =>
      have hmiss := hloading.best.missing hl' he'
      rw [hfound] at hmiss
      cases hmiss
    | some l' =>
      obtain ⟨⟨e'', he''⟩, hlast⟩ := hloading.best.found hl'
      obtain ⟨e₀, he₀⟩ := hback he''
      have hle : l'.pack ≤ l.pack := h.found_le hl he₀ (by rw [hlast]; simp)
      have hge : l.pack ≤ l'.pack := hloading.best.ahead hl' he' (by rw [hfound]; simp)
      rw [le_antisymm hle hge, hfound] at hlast
      exact hlast.symm
  · intro key l hl hl'
    obtain ⟨⟨e', he'⟩, hlast⟩ := hloading.best.found (s := wl.store) hl'
    obtain ⟨e, he⟩ := hback he'
    have hnot : l.pack ≠ a := by
      -- a key with a record in the active pack is in the index
      intro hpack
      have hmem := foundIn_pack hd (hhome he) (mem_of_lastOf hlast)
      rw [hpack] at hmem
      obtain ⟨l₀, hl₀, -⟩ := h.index_of_mem_active hmem
      rw [hl] at hl₀
      cases hl₀
    refine ⟨hnot, ?_⟩
    cases hlist : w.listedBy l.pack with
    | none => exact absurd (h.listedBy_eq_none he hlist).1 hnot
    | some es =>
      rw [foundIn, hlist, getD_some] at hlast
      exact ⟨es, rfl, mem_of_lastOf hlast⟩
  · intro key id es l hl hlist hmem
    change ∃ l', wl.store.index.lookup key = some l'
    obtain ⟨e, -, he, -⟩ := h.listed_of_listedBy hlist
    obtain ⟨e', he'⟩ := hall (hhome he)
    rw [← ne_none_iff_exists']
    intro hnone
    have hmiss := hloading.best.missing hnone he'
    rw [foundIn, hlist, getD_some, lastOf_eq_none] at hmiss
    exact hmiss _ hmem rfl
  · intro id e' he'
    have he := (Store.extent_addPack _ _ id).symm.trans he'
    split at he
    · rename_i hid
      exact .inl hid
    · exact .inr (hback he)

end

end World

end Corepkgs.Jigd
