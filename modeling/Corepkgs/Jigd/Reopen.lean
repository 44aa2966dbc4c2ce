import Corepkgs.Jigd.ShelvedRun
/-!
# Opening a store on its directories

`OnDisk` describes the directories a process leaves: each pack has a home tier,
perhaps a copy further down, and a hint unless it was active.  `OpenStore` loads
every pack once, from its home, and the index it builds is determined by what the
hints and records say, whatever the order of the directories.
-/

namespace Corepkgs.Jigd

open Lib FileSystem Store List Option Nat

namespace Store

/-- The index holds, of the packs in the table, the newest entry of each key. -/
structure Best (s : Store) (entries : Nat → List (Bytes × Loc)) : Prop where
  found : ∀ {key l}, s.index.lookup key = some l →
    (∃ e, s.extent l.pack = some e) ∧ lastOf (entries l.pack) key = some l
  ahead : ∀ {key l id e}, s.index.lookup key = some l → s.extent id = some e →
    lastOf (entries id) key ≠ none → id ≤ l.pack
  missing : ∀ {key id e}, s.index.lookup key = none → s.extent id = some e →
    lastOf (entries id) key = none

theorem newest_cases (id : Nat) (found old : Option Loc) :
    newest id found old = old ∧ (found = none ∨ ∃ l, old = some l ∧ id < l.pack) ∨
      newest id found old = found ∧ found ≠ none ∧ ∀ l, old = some l → l.pack ≤ id := by
  cases old with
  | none =>
    cases found with
    | none => exact .inl ⟨rfl, .inl rfl⟩
    | some l => exact .inr ⟨rfl, by simp, by simp⟩
  | some o =>
    by_cases hlt : id < o.pack
    · exact .inl ⟨by simp [newest, hlt], .inr ⟨o, rfl, hlt⟩⟩
    · cases found with
      | none => exact .inl ⟨by simp [newest], .inl rfl⟩
      | some l =>
        refine .inr ⟨by simp [newest, hlt], by simp, ?_⟩
        intro l' hl'
        cases hl'
        exact not_lt.mp hlt

theorem Best.add {s s' : Store} {entries : Nat → List (Bytes × Loc)} (h : s.Best entries) {id : Nat}
    {e : Extent} (hpack : ∀ x ∈ entries id, x.2.pack = id)
    (hext : ∀ q, s'.extent q = if q = id then some e else s.extent q)
    (hindex : ∀ key, s'.index.lookup key =
      newest id (lastOf (entries id) key) (s.index.lookup key)) :
    s'.Best entries := by
  have hback : ∀ {q e'}, s'.extent q = some e' → q = id ∨ s.extent q = some e' := by
    intro q e' he'
    rw [hext] at he'
    split at he'
    · exact .inl (by assumption)
    · exact .inr he'
  have hforth : ∀ {q e'}, s.extent q = some e' → ∃ e'', s'.extent q = some e'' := by
    intro q e' he'
    rw [hext]
    split
    · exact ⟨e, rfl⟩
    · exact ⟨e', he'⟩
  refine ⟨?_, ?_, ?_⟩
  · intro key l hl
    rw [hindex] at hl
    rcases newest_cases id (lastOf (entries id) key)
      (s.index.lookup key) with ⟨heq, -⟩ | ⟨heq, -, -⟩
    · rw [heq] at hl
      obtain ⟨⟨e', he'⟩, hlast⟩ := h.found hl
      exact ⟨hforth he', hlast⟩
    · rw [heq] at hl
      have hid : l.pack = id := hpack _ (mem_of_lastOf hl)
      rw [hid]
      exact ⟨⟨e, (hext id).trans (if_pos rfl)⟩, hl⟩
  · intro key l q e' hl he' hlast
    rw [hindex] at hl
    rcases newest_cases id (lastOf (entries id) key) (s.index.lookup key) with
      ⟨heq, hwhy⟩ | ⟨heq, -, hle⟩
    · rw [heq] at hl
      rcases hback he' with rfl | hold
      · rcases hwhy with hnone | ⟨l', hl', hlt⟩
        · exact absurd hnone hlast
        · rw [hl] at hl'
          cases hl'
          exact hlt.le
      · exact h.ahead hl hold hlast
    · rw [heq] at hl
      have hid : l.pack = id := hpack _ (mem_of_lastOf hl)
      rw [hid]
      rcases hback he' with rfl | hold
      · exact le_rfl
      · cases hi : s.index.lookup key with
        | none => exact absurd (h.missing hi hold) hlast
        | some o => exact (h.ahead hi hold hlast).trans (hle o hi)
  · intro key q e' hl he'
    rw [hindex] at hl
    rcases newest_cases id (lastOf (entries id) key) (s.index.lookup key) with
      ⟨heq, hwhy⟩ | ⟨heq, hsome, -⟩
    · rw [heq] at hl
      rcases hback he' with rfl | hold
      · rcases hwhy with hnone | ⟨l', hl', -⟩
        · exact hnone
        · rw [hl] at hl'
          cases hl'
      · exact h.missing hl hold
    · rw [heq] at hl
      exact absurd hl hsome

end Store

/-! ## What a process leaves -/

/-- Directories of `n` tiers with packs up to `a`.  `home` is the tier a pack is to be loaded from
and `listed` what its hint says; only the pack that was active may lack one. -/
structure OnDisk (fs : FileSystem) (n a : Nat) (home : Nat → Option Nat) (recs : Records)
    (listed : Nat → Option (List (Bytes × Loc))) : Prop where
  tier : ∀ {id t}, home id = some t → id ≤ a ∧ t < n
  newest : ∃ t, home a = some t
  file : ∀ {id t}, home id = some t → ∃ i, fs.lookup (filePath t id .pack) = some i
  lowest : ∀ {id t t' i}, home id = some t → fs.lookup (filePath t' id .pack) = some i →
    t ≤ t' ∧ t' < n
  known : ∀ {t name i}, fs.lookup (t, name) = some i → globPack name = true →
    ∃ id t', name = packName id packExt ∧ home id = some t'
  names : ∀ {t id ext i}, fs.lookup (filePath t id ext) = some i → id ≤ a
  tmps : TmpUnique fs
  appended : ∀ {id t}, home id = some t → Appended (recs id)
  whole : ∀ {id t i es}, home id = some t → listed id = some es →
    fs.lookup (filePath t id .pack) = some i → fs.data i = packBytes (recs id)
  torn : ∀ {id t i}, home id = some t → listed id = none →
    fs.lookup (filePath t id .pack) = some i → ∃ key value torn,
      fs.data i = packBytes (recs id) ++ torn ∧ Storable key value ∧ torn <+: record key value ∧
        torn ≠ record key value
  hint : ∀ {id t es}, home id = some t → listed id = some es →
    (∃ h, fs.lookup (filePath t id .hint) = some h) ∧ (es.map Prod.fst).Nodup ∧
      ∀ e ∈ es, e ∈ recordLocs id 0 (recs id)
  hintData : ∀ {id t t' h es}, home id = some t → listed id = some es → t ≤ t' →
    fs.lookup (filePath t' id .hint) = some h → fs.data h = hintBytes es
  bare : ∀ {id t}, home id = some t → listed id = none →
    id = a ∧ ∀ t', fs.lookup (filePath t' id .hint) = none
  /-- The file of the pack that was active is nothing else. -/
  alone : ∀ {t i t' id ext}, home a = some t → fs.lookup (filePath t a .pack) = some i →
    fs.lookup (filePath t' id ext) = some i → id = a ∧ ext = .pack

section

variable (fs₀ : FileSystem) (n a : Nat) (home : Nat → Option Nat) (recs : Records)
  (listed : Nat → Option (List (Bytes × Loc)))

def foundIn (id : Nat) : List (Bytes × Loc) := (listed id).getD (recordLocs id 0 (recs id))

/-- What the hint of a loaded pack lists: of its records those that are found, each key once. -/
structure Lists (id : Nat) (es : List (Bytes × Loc)) : Prop where
  nodup : (es.map Prod.fst).Nodup
  mem : ∀ x ∈ es, x ∈ recordLocs id 0 (recs id)
  complete : ∀ {key l}, lastOf (foundIn recs listed id) key = some l → (key, l) ∈ es
  found : ∀ x ∈ es, lastOf (foundIn recs listed id) x.1 ≠ none

namespace World

/-- `OpenStore` on its way: the packs of the table are loaded, the others untouched. -/
structure Loading (w : World) : Prop where
  fresh : w.store.active = none
  tiers : w.store.tiers.length = n
  best : w.store.Best (foundIn recs listed)
  packs : ∀ {id e}, w.store.extent id = some e → ∃ t i, home id = some t ∧
    fs₀.lookup (filePath t id .pack) = some i ∧ e = ⟨id, t, i, (packBytes (recs id)).length⟩
  file : ∀ {id e}, w.store.extent id = some e → w.fs.lookup (filePath e.tier id .pack) =
    some e.file ∧
    w.fs.data e.file = packBytes (recs id)
  hint : ∀ {id e}, w.store.extent id = some e → ∃ h es,
    w.fs.lookup (filePath e.tier id .hint) = some h ∧ w.fs.data h = hintBytes es ∧
      Lists recs listed id es
  hintCopies : ∀ {id e t h h'}, w.store.extent id = some e →
    w.fs.lookup (filePath e.tier id .hint) = some h → w.fs.lookup (filePath t id .hint) = some h' →
      e.tier ≤ t → w.fs.data h' = w.fs.data h
  untouched : ∀ {id t ext}, w.store.extent id = none →
    w.fs.lookup (filePath t id ext) = fs₀.lookup (filePath t id ext)
  same : ∀ {id t ext i}, w.store.extent id = none → fs₀.lookup (filePath t id ext) = some i →
    w.fs.data i = fs₀.data i
  shrunk : ∀ {t id i}, w.fs.lookup (filePath t id .pack) = some i →
    fs₀.lookup (filePath t id .pack) = some i
  pruned : ∀ {t name i}, w.fs.lookup (t, name) = some i → globPack name = true →
    fs₀.lookup (t, name) = some i
  names : ∀ {t id i}, w.fs.lookup (filePath t id .hint) = some i →
    fs₀.lookup (filePath t id .hint) = some i ∨
      (fs₀.inodes.length ≤ i ∧ ∃ e, w.store.extent id = some e)
  tmps : TmpUnique w.fs
  grown : fs₀.inodes.length ≤ w.fs.inodes.length

/-- `OpenStore` has come to tier `t`: the packs of the tiers above are loaded. -/
structure Upto (t : Nat) (acc : World × Nat) : Prop where
  loading : Loading fs₀ n home recs listed acc.1
  last : acc.2 ≤ a ∧ ∀ {id e}, acc.1.store.extent id = some e → id ≤ acc.2
  above : ∀ {id t'}, home id = some t' → t' < t → ∃ e, acc.1.store.extent id = some e

/-- In tier `t`, with `names` to go: those of its packs are loaded whose name has had its turn. -/
structure InTier (t : Nat) (names : List Bytes) (acc : World × Nat) : Prop
    extends Upto fs₀ n a home recs listed t acc where
  here : ∀ {id e}, acc.1.store.extent id = some e →
    e.tier ≤ t ∧ (e.tier = t → packName id packExt ∉ names)

/-- Before tier `t`: each pack is loaded from its home and from nowhere else. -/
structure BeforeTier (t : Nat) (acc : World × Nat) : Prop
    extends Upto fs₀ n a home recs listed t acc where
  here : ∀ {id e}, acc.1.store.extent id = some e → e.tier < t
  once : ∀ {id e t' i}, acc.1.store.extent id = some e → t' < t →
    acc.1.fs.lookup (filePath t' id .pack) = some i → t' = e.tier

end World

end

namespace World

section

variable {fs₀ : FileSystem} {n a : Nat} {home : Nat → Option Nat} {recs : Records}
  {listed : Nat → Option (List (Bytes × Loc))} {w w' : World} {t id i : Nat}

theorem foundIn_pack (hd : OnDisk fs₀ n a home recs listed) (hhome : home id = some t)
    {x : Bytes × Loc} (hx : x ∈ foundIn recs listed id) : x ∈ recordLocs id 0 (recs id) := by
  unfold foundIn at hx
  cases hl : listed id with
  | none =>
    rw [hl] at hx
    exact hx
  | some es =>
    rw [hl] at hx
    exact (hd.hint hhome hl).2.2 x hx

/-- One more pack in the table.  The files of the others stay as they are. -/
theorem Loading.enter (hd : OnDisk fs₀ n a home recs listed)
    (h : Loading fs₀ n home recs listed w) (hnew : w.store.extent id = none)
    (hhome : home id = some t) (hi : fs₀.lookup (filePath t id .pack) = some i)
    (hactive : w'.store.active = none) (htiers : w'.store.tiers.length = n)
    (hext : ∀ q, w'.store.extent q =
      if q = id then some ⟨id, t, i, (packBytes (recs id)).length⟩ else w.store.extent q)
    (hindex : ∀ key, w'.store.index.lookup key =
      newest id (lastOf (foundIn recs listed id) key) (w.store.index.lookup key))
    (hdata : w'.fs.data i = packBytes (recs id))
    (hothers : ∀ {t' id' ext j}, ¬ (id' = id ∧ ext = .pack) →
      w.fs.lookup (filePath t' id' ext) = some j → w'.fs.data j = w.fs.data j)
    (hlook : ∀ q, q ≠ filePath t id .hint → w'.fs.lookup q = w.fs.lookup q)
    (hhint : ∃ h es, w'.fs.lookup (filePath t id .hint) = some h ∧ w'.fs.data h = hintBytes es ∧
      (w.fs.lookup (filePath t id .hint) = some h ∨ fs₀.inodes.length ≤ h) ∧
      Lists recs listed id es)
    (hcopies : ∀ {t' h h'}, w'.fs.lookup (filePath t id .hint) = some h →
      w'.fs.lookup (filePath t' id .hint) = some h' → t ≤ t' → w'.fs.data h' = w'.fs.data h)
    (htmps : TmpUnique w'.fs) (hgrown : w.fs.inodes.length ≤ w'.fs.inodes.length) :
    Loading fs₀ n home recs listed w' := by
  have hid : ∀ {t' id' ext}, id' ≠ id → filePath t' id' ext ≠ filePath t id .hint := by
    intro t' id' ext hne hpath
    exact hne (filePath_inj.mp hpath).2.1
  have hpackName : ∀ {t' id'}, filePath t' id' .pack ≠ filePath t id .hint := by
    intro t' id' hpath
    exact absurd (filePath_inj.mp hpath).2.2 (by decide)
  have hold : ∀ {q e}, w'.store.extent q = some e →
      (q = id ∧ e = ⟨id, t, i, (packBytes (recs id)).length⟩) ∨
      (q ≠ id ∧ w.store.extent q = some e) := by
    intro q e he
    rw [hext] at he
    split at he
    · rename_i hq
      cases he
      exact .inl ⟨hq, rfl⟩
    · rename_i hq
      exact .inr ⟨hq, he⟩
  have hout : ∀ {q}, w'.store.extent q = none → q ≠ id ∧ w.store.extent q = none := by
    intro q hq
    rw [hext] at hq
    split at hq
    · cases hq
    · rename_i hne
      exact ⟨hne, hq⟩
  have hin : ∀ {q e}, w.store.extent q = some e → ∃ e', w'.store.extent q = some e' := by
    intro q e he
    rw [hext]
    split
    · exact ⟨_, rfl⟩
    · exact ⟨e, he⟩
  refine ⟨hactive, htiers, ?_, ?_, ?_, ?_, ?_, ?_, ?_, ?_, ?_, ?_, htmps, h.grown.trans hgrown⟩
  · exact h.best.add (fun x hx => (mem_recordLocs (foundIn_pack hd hhome hx)).1) hext hindex
  · intro q e he
    rcases hold he with ⟨rfl, rfl⟩ | ⟨-, he'⟩
    · exact ⟨t, i, hhome, hi, rfl⟩
    · exact h.packs he'
  · intro q e he
    rcases hold he with ⟨rfl, rfl⟩ | ⟨hne, he'⟩
    · exact ⟨(hlook _ hpackName).trans ((h.untouched hnew).trans hi), hdata⟩
    · obtain ⟨hfile, hbytes⟩ := h.file he'
      exact ⟨(hlook _ hpackName).trans hfile,
        (hothers (fun hq => hne hq.1) hfile).trans hbytes⟩
  · intro q e he
    rcases hold he with ⟨rfl, rfl⟩ | ⟨hne, he'⟩
    · obtain ⟨k, es, hk, hbytes, -, hrest⟩ := hhint
      exact ⟨k, es, hk, hbytes, hrest⟩
    · obtain ⟨k, es, hk, hbytes, hrest⟩ := h.hint he'
      exact ⟨k, es, (hlook _ (hid hne)).trans hk,
        (hothers (fun hq => hne hq.1) hk).trans hbytes, hrest⟩
  · intro q e t' k k' he hk hk' ht
    rcases hold he with ⟨rfl, rfl⟩ | ⟨hne, he'⟩
    · exact hcopies hk hk' ht
    · rw [hlook _ (hid hne)] at hk hk'
      rw [hothers (fun hq => hne hq.1) hk, hothers (fun hq => hne hq.1) hk']
      exact h.hintCopies he' hk hk' ht
  · intro q t' ext hq
    obtain ⟨hne, hq'⟩ := hout hq
    exact (hlook _ (hid hne)).trans (h.untouched hq')
  · intro q t' ext j hq hj
    obtain ⟨hne, hq'⟩ := hout hq
    exact (hothers (fun hqe => hne hqe.1) ((h.untouched hq').trans hj)).trans (h.same hq' hj)
  · intro t' q j hj
    rw [hlook _ hpackName] at hj
    exact h.shrunk hj
  · intro t' name j hj hglob
    rw [hlook] at hj
    · exact h.pruned hj hglob
    · intro hpath
      have hname : name = packName id hintExt := congrArg Prod.snd hpath
      rw [hname, globPack_hint] at hglob
      cases hglob
  · intro t' q j hj
    by_cases hpath : filePath t' q .hint = filePath t id .hint
    · obtain ⟨rfl, rfl, -⟩ := filePath_inj.mp hpath
      obtain ⟨k, es, hk, -, hwhere, -⟩ := hhint
      rw [hk] at hj
      cases hj
      rcases hwhere with hk' | hle
      · rcases h.names hk' with hold' | ⟨hle, e, he⟩
        · exact .inl hold'
        · exact .inr ⟨hle, hin he⟩
      · exact .inr ⟨hle, _, (hext q).trans (if_pos rfl)⟩
    · rw [hlook _ hpath] at hj
      rcases h.names hj with hold' | ⟨hle, e, he⟩
      · exact .inl hold'
      · exact .inr ⟨hle, hin he⟩

variable {env : OpenEnv} {acc : World × Nat}

theorem Loading.load_listed (hd : OnDisk fs₀ n a home recs listed)
    (h : Loading fs₀ n home recs listed w) (hnew : w.store.extent id = none)
    (hhome : home id = some t) {es : List (Bytes × Loc)} (hl : listed id = some es)
    (hfault : env.fault t id = none) :
    ∃ w', w.load env t id = (w', true) ∧ Loading fs₀ n home recs listed w' ∧
      ∃ e, ∀ q, w'.store.extent q = if q = id then some e else w.store.extent q := by
  obtain ⟨i, hi⟩ := hd.file hhome
  obtain ⟨⟨k, hk⟩, hnodup, hmem⟩ := hd.hint hhome hl
  have happ := hd.appended hhome
  have hfound : foundIn recs listed id = es := by rw [foundIn, hl, getD_some]
  have hbytes : w.fs.data i = packBytes (recs id) := (h.same hnew hi).trans (hd.whole hhome hl hi)
  have hlisted : w.fs.data k = hintBytes es :=
    (h.same hnew hk).trans (hd.hintData hhome hl le_rfl hk)
  have hentries : hintEntries id (w.fs.data i).length (w.fs.data k) = es := by
    rw [hlisted, hbytes]
    apply hintEntries_hintBytes happ.length_lt
    intro x hx
    have hin := inPack_of_mem_recordLocs happ.addressable (hmem x hx)
    rw [zero_add] at hin
    exact hin
  have hload : w.load env t id = (w.loadHint (openedPack env w.fs t id i) k, true) := by
    simp [load, (h.untouched hnew).trans hi, (h.untouched hnew).trans hk, hfault]
  have hpacks : ∀ x ∈ es, x.2.pack = id := fun x hx => (mem_recordLocs (hmem x hx)).1
  have hstore : (w.loadHint (openedPack env w.fs t id i) k).store =
      (es.foldl (add id) (w.store.addPack (openedPack env w.fs t id i))).addTotal t
        (w.fs.data i).length := by
    change addTotal ((hintEntries id (w.fs.data i).length (w.fs.data k)).foldl _ _) _ _ = _
    rw [hentries]
    rfl
  have hext : ∀ q, (w.loadHint (openedPack env w.fs t id i) k).store.extent q =
      if q = id then some ⟨id, t, i, (packBytes (recs id)).length⟩ else w.store.extent q := by
    intro q
    rw [hstore, extent_addTotal, extent_foldl_add, extent_addPack, ← hbytes]
    rfl
  have hrest := sameRest_foldl_add id (w.store.addPack (openedPack env w.fs t id i)) es
  refine ⟨_, hload, ?_, _, hext⟩
  refine h.enter hd hnew hhome hi ?_ ?_ hext ?_ hbytes (fun _ _ => rfl)
    (fun _ _ => rfl) ?_ ?_ h.tmps
    le_rfl
  · rw [hstore]
    exact hrest.active.trans h.fresh
  · rw [hstore, length_addTotal, hrest.tiers]
    exact h.tiers
  · intro key
    rw [hstore, addTotal_index, lookup_foldl_add _ hpacks, hfound]
    rfl
  · refine ⟨k, es, (h.untouched hnew).trans hk, hlisted, .inl ((h.untouched hnew).trans hk), hnodup,
      hmem, ?_, ?_⟩
    · intro key l hlast
      rw [hfound] at hlast
      exact mem_of_lastOf hlast
    · intro x hx
      rw [hfound, lastOf_of_mem hnodup hx]
      simp
  · intro t' k₁ k₂ hk₁ hk₂ ht
    have hk₁' : fs₀.lookup (filePath t id .hint) = some k₁ := (h.untouched hnew) ▸ hk₁
    have hk₂' : fs₀.lookup (filePath t' id .hint) = some k₂ := (h.untouched hnew) ▸ hk₂
    change w.fs.data k₂ = w.fs.data k₁
    rw [h.same hnew hk₁', h.same hnew hk₂', hd.hintData hhome hl le_rfl hk₁',
      hd.hintData hhome hl ht hk₂']

/-- Loading the pack that was active, without a hint: its complete records are found, the rest is
cut off, and the hint that is written now lists them all, since no pack is newer. -/
theorem Loading.load_bare (hd : OnDisk fs₀ n a home recs listed)
    (h : Loading fs₀ n home recs listed w) (hnew : w.store.extent id = none)
    (hhome : home id = some t) (hl : listed id = none) (hfault : env.fault t id = none) :
    ∃ w', w.load env t id = (w', true) ∧ Loading fs₀ n home recs listed w' ∧
      ∃ e, ∀ q, w'.store.extent q = if q = id then some e else w.store.extent q := by
  obtain ⟨i, hi⟩ := hd.file hhome
  obtain ⟨hida, hnohint⟩ := hd.bare hhome hl
  obtain ⟨key, value, torn, hdata, hr, hpre, hne⟩ := hd.torn hhome hl hi
  have happ := hd.appended hhome
  have hfound : foundIn recs listed id = recordLocs id 0 (recs id) := by
    rw [foundIn, hl, getD_none]
  have hbytes : w.fs.data i = packBytes (recs id) ++ torn := (h.same hnew hi).trans hdata
  have hlt : i < w.fs.inodes.length := (lookup_lt hi).trans_le h.grown
  have hpacks : ∀ x ∈ recordLocs id 0 (recs id), x.2.pack = id := fun x hx => (mem_recordLocs hx).1
  have hwpack : w.fs.lookup (filePath t id .pack) = some i := (h.untouched hnew).trans hi
  have hwhint : ∀ t', w.fs.lookup (filePath t' id .hint) = none := fun t' =>
    (h.untouched hnew).trans (hnohint t')
  have hscan : scan id (w.fs.data i) =
    (recordLocs id 0 (recs id), (packBytes (recs id)).length) := by
    rw [hbytes]
    exact scan_torn id happ hr hpre hne
  generalize hp : openedPack env w.fs t id i = p
  have hpf : p.file = i := by rw [← hp]; rfl
  have hpi : p.id = id := by rw [← hp]; rfl
  have hpt : p.tier = t := by rw [← hp]; rfl
  have hps : p.size = (w.fs.data p.file).length := by rw [hpf, ← hp]; rfl
  have hstop : (packBytes (recs id)).length ≤ p.size := by
    rw [hps, hpf, hbytes, length_append]
    exact le_add_right _ _
  set s := scanned w.store p (recordLocs id 0 (recs id), (packBytes (recs id)).length) with hs
  set fs := cutTail w.fs p (packBytes (recs id)).length with hfs
  set es := (env.order.visit s.index.pairs).filter (fun x => x.2.pack = id) with hes
  have hload : w.load env t id = (⟨s, fs.place (filePath t id .hint) (hintBytes es)⟩, true) := by
    rw [load_of_no_hint hwpack (hwhint t) hfault, hp,
      loadScan_eq (by rw [hpt, hpi]; exact hfault), hpf, hpi, hscan, sealPack,
      if_neg Bool.false_ne_true, hpt, hpi]
  have hindex : ∀ k, s.index.lookup k =
      newest id (lastOf (foundIn recs listed id) k) (w.store.index.lookup k) := by
    intro k
    rw [hs, lookup_scanned (by rwa [hpi]), hpi, hfound]
  have hext : ∀ q, s.extent q =
      if q = id then some ⟨id, t, i, (packBytes (recs id)).length⟩ else w.store.extent q := by
    intro q
    rw [hs, extent_scanned, hpi, Pack.extent, hpi, hpt, hpf]
  have hbest : s.Best (foundIn recs listed) :=
    h.best.add (fun x hx => (mem_recordLocs (foundIn_pack hd hhome hx)).1) hext hindex
  -- nothing in the table is newer than this pack
  have hnewest : ∀ {k l}, lastOf (foundIn recs listed id) k = some l →
    s.index.lookup k = some l := by
    intro k l hlast
    have hle : ∀ o, w.store.index.lookup k = some o → ¬ id < o.pack := by
      intro o ho
      obtain ⟨⟨e, he⟩, -⟩ := h.best.found ho
      obtain ⟨t', -, ht', -⟩ := h.packs he
      rw [hida]
      exact not_lt.mpr (hd.tier ht').1
    rw [hindex, hlast]
    cases ho : w.store.index.lookup k with
    | none => rfl
    | some o => simp [newest, hle o ho]
  have hmem : ∀ {x : Bytes × Loc}, x ∈ es ↔ s.index.lookup x.1 = some x.2 ∧ x.2.pack = id :=
    mem_listing
  have hlook : ∀ q, (fs.place (filePath t id .hint) (hintBytes es)).lookup q =
      if q = filePath t id .hint then some fs.inodes.length else w.fs.lookup q := by
    intro q
    rw [lookup_place, hfs, lookup_cutTail]
  have hlen : fs.inodes.length = w.fs.inodes.length := length_cutTail _ _ _
  refine ⟨_, hload, ?_, _, hext⟩
  refine h.enter hd hnew hhome hi ?_ ?_ hext hindex ?_ ?_ ?_ ?_ ?_ ?_ ?_
  · change s.active = none
    rw [hs, scanned, addTotal_active, modifyPack_active,
      (sameRest_foldl_add _ _ _).active]
    exact h.fresh
  · change s.tiers.length = n
    rw [hs, scanned, length_addTotal, modifyPack_tiers,
      (sameRest_foldl_add _ _ _).tiers]
    exact h.tiers
  · change (fs.place _ _).data i = _
    rw [data_place_old _ _ (by rw [hlen]; exact hlt), hfs, ← hpf,
      data_cutTail (by rw [hpf]; exact hlt) hps hstop, hpf, hbytes, take_left]
  · intro t' id' ext j hnot hj
    have hji : j ≠ i := by
      rintro rfl
      -- the file of the active pack has no other name
      have hfs₀ : fs₀.lookup (filePath t' id' ext) = some j ∨ fs₀.inodes.length ≤ j := by
        cases ext with
        | pack => exact .inl (h.shrunk hj)
        | hint => exact (h.names hj).imp_right And.left
      rcases hfs₀ with hold | hge
      · subst hida
        exact hnot (hd.alone hhome hi hold)
      · exact absurd (lookup_lt hi) (not_lt.mpr hge)
    change (fs.place _ _).data j = _
    rw [data_place_old _ _ (by rw [hlen]; exact lookup_lt hj), hfs,
      data_cutTail_ne _ (by rw [hpf]; exact hji)]
  · exact fun q hq => (hlook q).trans (if_neg hq)
  · refine ⟨fs.inodes.length, es, (hlook _).trans (if_pos rfl), data_place_new _ _ _,
      .inr (by rw [hlen]; exact h.grown), nodup_listing s env.order id,
      ?_, ?_, ?_⟩
    · intro x hx
      obtain ⟨hlx, hpx⟩ := hmem.mp hx
      have hlast := (hbest.found hlx).2
      rw [hpx, hfound] at hlast
      exact mem_of_lastOf hlast
    · intro k l hlast
      refine hmem.mpr ⟨hnewest hlast, ?_⟩
      rw [hfound] at hlast
      exact hpacks _ (mem_of_lastOf hlast)
    · intro x hx
      obtain ⟨hlx, hpx⟩ := hmem.mp hx
      have hlast := (hbest.found hlx).2
      rw [hpx] at hlast
      rw [hlast]
      simp
  · intro t' k k' hk hk' _
    change (fs.place _ _).lookup _ = _ at hk hk'
    rw [hlook, if_pos rfl] at hk
    rw [hlook] at hk'
    split at hk'
    · rw [some.inj (hk.symm.trans hk')]
    · rw [hwhint t'] at hk'
      cases hk'
  · have hcut : TmpUnique fs := by
      apply tmpUnique_of_subset h.tmps
      intro q j hj
      rwa [hfs, lookup_cutTail] at hj
    intro t' id' ext j q htmp hq
    exact tmpUnique_place hcut _ _ htmp hq
  · change _ ≤ (fs.place _ _).inodes.length
    rw [length_place, hlen]
    exact le_succ _

theorem Loading.prune (h : Loading fs₀ n home recs listed w) {e : Extent}
    (he : w.store.extent id = some e) (ht : t ≠ e.tier) :
    Loading fs₀ n home recs listed
      ⟨w.store, (w.fs.remove (filePath t id .pack)).remove (filePath t id .hint)⟩ := by
  have hlook : ∀ {q i}, ((w.fs.remove (filePath t id .pack)).remove
      (filePath t id .hint)).lookup q = some i → w.fs.lookup q = some i :=
    fun hq => (Shelved.lookup_of_removeBoth hq).1
  have hoff : ∀ {t' id' ext}, ¬ (t' = t ∧ id' = id) →
      ((w.fs.remove (filePath t id .pack)).remove (filePath t id .hint)).lookup
        (filePath t' id' ext) = w.fs.lookup (filePath t' id' ext) := by
    intro t' id' ext hne
    refine Shelved.lookup_removeBoth _ (fun hq => hne ?_) (fun hq => hne ?_)
    · exact ⟨(filePath_inj.mp hq).1, (filePath_inj.mp hq).2.1⟩
    · exact ⟨(filePath_inj.mp hq).1, (filePath_inj.mp hq).2.1⟩
  have hhome : ∀ {q e'}, w.store.extent q = some e' → ¬ (e'.tier = t ∧ q = id) := by
    rintro q e' he' ⟨ht', rfl⟩
    rw [he] at he'
    cases he'
    exact ht ht'.symm
  refine ⟨h.fresh, h.tiers, h.best, h.packs, ?_, ?_, ?_, ?_, h.same, ?_, ?_, ?_, ?_, h.grown⟩
  · intro q e' he'
    obtain ⟨hfile, hdata⟩ := h.file he'
    exact ⟨(hoff (hhome he')).trans hfile, hdata⟩
  · intro q e' he'
    obtain ⟨k, es, hk, hrest⟩ := h.hint he'
    exact ⟨k, es, (hoff (hhome he')).trans hk, hrest⟩
  · exact fun he' hk hk' hle => h.hintCopies he' (hlook hk) (hlook hk') hle
  · intro q t' ext hq
    refine (hoff ?_).trans (h.untouched hq)
    rintro ⟨-, rfl⟩
    change w.store.extent q = none at hq
    rw [he] at hq
    cases hq
  · exact fun hj => h.shrunk (hlook hj)
  · exact fun hj hglob => h.pruned (hlook hj) hglob
  · exact fun hj => h.names (hlook hj)
  · intro t' id' ext j q htmp hq
    exact h.tmps (hlook htmp) (hlook hq)

/-! ## The loops -/

/-- A pack stays in the table, and no pack file comes up anew. -/
structure Onward (w w' : World) : Prop where
  extent : ∀ {q e}, w.store.extent q = some e → w'.store.extent q = some e
  gone : ∀ {t q i}, w'.fs.lookup (filePath t q .pack) = some i →
    w.fs.lookup (filePath t q .pack) = some i

theorem Onward.refl (w : World) : Onward w w := ⟨fun he => he, fun hi => hi⟩

theorem Onward.trans {w w' w'' : World} (h : Onward w w') (h' : Onward w' w'') : Onward w w'' :=
  ⟨fun he => h'.extent (h.extent he), fun hi => h.gone (h'.gone hi)⟩

variable (hd : OnDisk fs₀ n a home recs listed) (ha : a < 1000000)
  (hfault : ∀ t id, env.fault t id = none)

include hd ha hfault

theorem InTier.openName {name : Bytes} {names : List Bytes}
    (h : InTier fs₀ n a home recs listed t (name :: names) acc) (hnodup : (name :: names).Nodup)
    (hname : ∃ i, fs₀.lookup (t, name) = some i) (hglob : globPack name = true) :
    InTier fs₀ n a home recs listed t names (openName env t acc name) ∧
      Onward acc.1 (openName env t acc name).1 ∧
      ∃ id e, name = packName id packExt ∧
        (openName env t acc name).1.store.extent id = some e ∧
        (e.tier ≠ t → (openName env t acc name).1.fs.lookup (filePath t id .pack) = none) := by
  obtain ⟨i, hi⟩ := hname
  obtain ⟨id, t', rfl, hhome⟩ := hd.known hi hglob
  obtain ⟨hle, -⟩ := hd.lowest hhome (show fs₀.lookup (filePath t id .pack) = some i from hi)
  have hid : id < 1000000 := (hd.tier hhome).1.trans_lt ha
  obtain ⟨w, last⟩ := acc
  have hrest : ∀ {q e}, w.store.extent q = some e → e.tier = t → packName q packExt ∉ names :=
    fun he ht hmem => (h.here he).2 ht (mem_cons_of_mem _ hmem)
  cases hext : w.store.extent id with
  | some e =>
    -- loaded already, from a tier above
    have htier : t ≠ e.tier := fun ht => (h.here hext).2 ht.symm (mem_cons_self ..)
    obtain ⟨p, hp, -⟩ := lookup_of_extent hext
    have hopen : World.openName env t (w, last) (packName id packExt) =
        (⟨w.store, (w.fs.remove (filePath t id .pack)).remove (filePath t id .hint)⟩, last) := by
      rw [World.openName, scanId_packName hid]
      simp only [hp, isSome_some, if_true]
      rfl
    rw [hopen]
    refine ⟨⟨⟨h.loading.prune hext htier, h.last, h.above⟩, fun he => ⟨(h.here he).1, hrest he⟩⟩,
      ⟨fun he => he, fun hj => (Shelved.lookup_of_removeBoth hj).1⟩, id, e, rfl, hext, ?_⟩
    intro _
    rw [lookup_remove, if_neg (by rw [filePath_inj]; simp), lookup_remove,
      if_pos rfl]
  | none =>
    have htt : t' = t := by
      rcases lt_or_ge t' t with hlt | hge
      · obtain ⟨e, he⟩ := h.above hhome hlt
        have he' : w.store.extent id = some e := he
        rw [hext] at he'
        cases he'
      · omega
    subst htt
    have hload : ∃ w', w.load env t' id = (w', true) ∧ Loading fs₀ n home recs listed w' ∧
        ∃ e, ∀ q, w'.store.extent q = if q = id then some e else w.store.extent q := by
      cases hl : listed id with
      | some es => exact h.loading.load_listed hd hext hhome hl (hfault t' id)
      | none => exact h.loading.load_bare hd hext hhome hl (hfault t' id)
    obtain ⟨w', hw', hloading, e, hw'ext⟩ := hload
    have hnone : w.store.packs.lookup id = none := by
      rw [extent, map_eq_none_iff] at hext
      exact hext
    have hopen : World.openName env t' (w, last) (packName id packExt) = (w', max last id) := by
      rw [World.openName, scanId_packName hid]
      simp [hnone, hw']
    have hwe : w'.store.extent id = some e := (hw'ext id).trans (if_pos rfl)
    have hetier : e.tier = t' := by
      obtain ⟨t'', i'', ht'', -, rfl⟩ := hloading.packs hwe
      rw [hhome] at ht''
      exact (some.inj ht'').symm
    have hcase : ∀ {q e'}, w'.store.extent q = some e' →
        (q = id ∧ e' = e) ∨ w.store.extent q = some e' := by
      intro q e' he'
      rw [hw'ext] at he'
      split at he'
      · rename_i hq
        exact .inl ⟨hq, (some.inj he').symm⟩
      · exact .inr he'
    have honward : ∀ {q e'}, w.store.extent q = some e' → w'.store.extent q = some e' := by
      intro q e' he'
      rw [hw'ext, if_neg]
      · exact he'
      · rintro rfl
        rw [hext] at he'
        cases he'
    have hgone : ∀ {t'' q j}, w'.fs.lookup (filePath t'' q .pack) = some j →
        w.fs.lookup (filePath t'' q .pack) = some j := by
      intro t'' q j hj
      -- loading leaves the names of pack files alone
      have hsame := (loadedFiles_load env w t' id).names (q := filePath t'' q .pack)
        fun hq => absurd (filePath_inj.mp hq).2.2 (by decide)
      rw [hw'] at hsame
      exact hsame ▸ hj
    rw [hopen]
    refine ⟨⟨⟨hloading, ⟨?_, ?_⟩, ?_⟩, ?_⟩, ⟨honward, hgone⟩, id, e, rfl, hwe,
      fun hne => absurd hetier hne⟩
    · exact max_le h.last.1 (hd.tier hhome).1
    · intro q e' he'
      rcases hcase he' with ⟨rfl, -⟩ | hold
      · exact le_max_right _ _
      · exact (h.last.2 hold).trans (le_max_left _ _)
    · intro q t'' hq hlt
      obtain ⟨e', he'⟩ := h.above hq hlt
      exact ⟨e', honward he'⟩
    · intro q e' he'
      rcases hcase he' with ⟨rfl, rfl⟩ | hold
      · exact ⟨hetier.le, fun _ => (nodup_cons.mp hnodup).1⟩
      · exact ⟨(h.here hold).1, hrest hold⟩

theorem InTier.openNames {names : List Bytes}
    (h : InTier fs₀ n a home recs listed t names acc) (hnodup : names.Nodup)
    (hnames : ∀ name ∈ names, globPack name = true ∧ ∃ i, fs₀.lookup (t, name) = some i) :
    InTier fs₀ n a home recs listed t [] (names.foldl (World.openName env t) acc) ∧
      Onward acc.1 (names.foldl (World.openName env t) acc).1 ∧
      ∀ id, packName id packExt ∈ names →
        ∃ e, (names.foldl (World.openName env t) acc).1.store.extent id = some e ∧
          (e.tier ≠ t →
            (names.foldl (World.openName env t) acc).1.fs.lookup (filePath t id .pack) = none) := by
  induction names generalizing acc with
  | nil => exact ⟨h, Onward.refl _, fun id hmem => by cases hmem⟩
  | cons name names ih =>
    obtain ⟨hglob, hname⟩ := hnames name (mem_cons_self ..)
    obtain ⟨h', honward, id, e, heq, he, hgone⟩ := h.openName hd ha hfault hnodup hname hglob
    obtain ⟨hend, honward', hall⟩ := ih h' (nodup_cons.mp hnodup).2
      (fun name' hmem => hnames name' (mem_cons_of_mem _ hmem))
    rw [foldl_cons]
    refine ⟨hend, honward.trans honward', ?_⟩
    intro q hq
    rcases mem_cons.mp hq with hhead | htail
    · have hqid : q = id := (packName_inj.mp (hhead.trans heq)).1
      subst hqid
      refine ⟨e, honward'.extent he, fun hne => ?_⟩
      rw [eq_none_iff_forall_not_mem]
      intro i hi
      have hback := honward'.gone hi
      rw [hgone hne] at hback
      cases hback
    · exact hall q htail

theorem BeforeTier.next (h : BeforeTier fs₀ n a home recs listed t acc) :
    BeforeTier fs₀ n a home recs listed (t + 1) (openTier env acc t) := by
  set names := ((acc.1.fs.names t).filter globPack).insertionSort (· ≤ ·) with hnames
  have hmem : ∀ {name}, name ∈ names ↔
      globPack name = true ∧ ∃ i, acc.1.fs.lookup (t, name) = some i := by
    intro name
    rw [hnames, mem_insertionSort, mem_filter, mem_names, and_comm]
  have hnodup : names.Nodup := by
    rw [hnames, (perm_insertionSort _ _).nodup_iff]
    exact (nodup_names _ _).filter _
  have hstart : InTier fs₀ n a home recs listed t names acc :=
    ⟨h.toUpto, fun he => ⟨(h.here he).le, fun ht => absurd ht (h.here he).ne⟩⟩
  obtain ⟨hend, honward, hall⟩ := hstart.openNames hd ha hfault hnodup (by
    intro name hname
    obtain ⟨hglob, i, hi⟩ := hmem.mp hname
    exact ⟨hglob, i, h.loading.pruned hi hglob⟩)
  have hopen : openTier env acc t = names.foldl (World.openName env t) acc := rfl
  rw [← hopen] at hend honward hall
  have hloaded : ∀ {id t'}, home id = some t' → t' < t + 1 →
      ∃ e, (openTier env acc t).1.store.extent id = some e := by
    intro id t' hhome hlt
    rcases Nat.lt_succ_iff_lt_or_eq.mp hlt with hlt | rfl
    · exact hend.above hhome hlt
    · cases hext : acc.1.store.extent id with
      | some e => exact ⟨e, honward.extent hext⟩
      | none =>
        obtain ⟨i, hi⟩ := hd.file hhome
        have hin : packName id packExt ∈ names :=
          hmem.mpr ⟨globPack_packName id, i, (h.loading.untouched hext).trans hi⟩
        obtain ⟨e, he, -⟩ := hall id hin
        exact ⟨e, he⟩
  refine ⟨⟨hend.loading, hend.last, hloaded⟩, fun he => lt_succ_of_le (hend.here he).1, ?_⟩
  intro id e t' i he ht' hi
  obtain ⟨t₀, i₀, hhome, -, hetier⟩ := hend.loading.packs he
  have het : e.tier = t₀ := by rw [hetier]
  obtain ⟨hle, -⟩ := hd.lowest hhome (hend.loading.shrunk hi)
  rcases Nat.lt_succ_iff_lt_or_eq.mp ht' with hlt | rfl
  · -- an earlier tier: pruned then, or the pack lies lower
    obtain ⟨e', he'⟩ := h.above hhome (by omega)
    have hee : e' = e := by
      have hkept := honward.extent he'
      rw [he] at hkept
      exact (some.inj hkept).symm
    subst hee
    exact h.once he' hlt (honward.gone hi)
  · by_contra hne
    have hin : packName id packExt ∈ names :=
      hmem.mpr ⟨globPack_packName id, i, honward.gone hi⟩
    obtain ⟨e', he', hgone⟩ := hall id hin
    rw [he] at he'
    cases he'
    rw [hgone (Ne.symm hne)] at hi
    cases hi

theorem BeforeTier.openTiers (h : BeforeTier fs₀ n a home recs listed 0 acc) (m : Nat) :
    BeforeTier fs₀ n a home recs listed m ((range m).foldl (openTier env) acc) := by
  induction m with
  | zero => exact h
  | succ m ih =>
    rw [range_succ, foldl_append]
    exact ih.next hd ha hfault

omit hd ha hfault

/-- Every pack of the table is loaded from the one tier that has its file. -/
def Once (w : World) : Prop :=
  ∀ {id e t i}, w.store.extent id = some e → w.fs.lookup (filePath t id .pack) = some i → t = e.tier

/-- What `OpenStore` makes of such directories: every pack loaded once, a new active pack. -/
theorem openStore_onDisk {budgets : List Int} (hd : OnDisk fs₀ budgets.length a home recs listed)
    (ha : a < 1000000) (hfault : ∀ t id, env.fault t id = none) (hopen : env.openFails = false) :
    ∃ w, openStore env budgets fs₀ = (w.openActive env.now (a + 1), true) ∧
      Loading fs₀ budgets.length home recs listed w ∧
      (∀ {id t}, home id = some t → ∃ e, w.store.extent id = some e) ∧ w.Once := by
  have hstart : BeforeTier fs₀ budgets.length a home recs listed 0
      (⟨emptyStore budgets, fs₀⟩, 0) := by
    refine ⟨⟨⟨rfl, by simp [emptyStore], ⟨nofun, nofun, nofun⟩, nofun, nofun, nofun, nofun,
      fun _ => rfl, fun _ _ => rfl, fun hi => hi, fun hi _ => hi, .inl, hd.tmps, le_rfl⟩,
      ⟨zero_le _, nofun⟩, nofun⟩, nofun, nofun⟩
  have hend := hstart.openTiers hd ha hfault budgets.length
  rw [openStore]
  generalize (range budgets.length).foldl (openTier env) (⟨emptyStore budgets, fs₀⟩, 0) =
    loaded at hend
  have hlast : loaded.2 = a := by
    obtain ⟨t, ht⟩ := hd.newest
    obtain ⟨e, he⟩ := hend.above ht (hd.tier ht).2
    exact le_antisymm hend.last.1 (hend.last.2 he)
  have hu : u32 (loaded.2 + 1) = a + 1 := by
    rw [hlast]
    exact u32_of_lt (by omega)
  have hseal : ∀ e, loaded.1.sealActive e = (loaded.1, true) := by
    intro e
    rw [sealActive, activePack, hend.loading.fresh]
    rfl
  have hfree : loaded.1.fs.lookup (filePath 0 (a + 1) .pack) = none := by
    rw [eq_none_iff_forall_not_mem]
    intro i hi
    exact absurd (hd.names (hend.loading.shrunk hi)) (not_succ_le_self a)
  refine ⟨loaded.1, ?_, hend.loading, fun hhome => hend.above hhome (hd.tier hhome).2, ?_⟩
  · simp only [rotate, hseal, hu, hopen, hfree]
    rfl
  · intro id e t i he hi
    obtain ⟨t₀, -, hhome, -⟩ := hend.loading.packs he
    exact hend.once he (hd.lowest hhome (hend.loading.shrunk hi)).2 hi

/-! ## The opened store -/

/-- A file under the name of a pack or hint is no temporary copy. -/
theorem proper_of_name {fs : FileSystem} (htmps : TmpUnique fs) {s : Store} {ext : Ext}
    (hi : fs.lookup (filePath t id ext) = some i) : Proper ⟨s, fs⟩ i := by
  refine ⟨lookup_lt hi, ?_⟩
  intro t' id' ext' htmp
  exact filePath_ne_tmpPath _ _ _ _ _ _ (htmps htmp hi)

theorem Loading.names_le (hd : OnDisk fs₀ n a home recs listed)
    (h : Loading fs₀ n home recs listed w) {ext : Ext}
    (hi : w.fs.lookup (filePath t id ext) = some i) : id ≤ a := by
  cases ext with
  | pack => exact hd.names (h.shrunk hi)
  | hint =>
    rcases h.names hi with hold | ⟨-, e, he⟩
    · exact hd.names hold
    · obtain ⟨t', -, ht', -⟩ := h.packs he
      exact (hd.tier ht').1

theorem Loading.consistent (hd : OnDisk fs₀ n a home recs listed)
    (h : Loading fs₀ n home recs listed w) (honce : w.Once) (now : Int) :
    (w.openActive now (a + 1)).Consistent (a + 1) := by
  have hproper : ∀ {t id ext i}, w.fs.lookup (filePath t id ext) = some i → w.Proper i :=
    fun hi => proper_of_name h.tmps hi
  apply consistent_openActive
  · intro q e he
    obtain ⟨hfile, hbytes⟩ := h.file he
    obtain ⟨t, i, hhome, -, hext⟩ := h.packs he
    refine ⟨by rw [hext], lt_succ_of_le (hd.tier hhome).1, hproper hfile, ?_⟩
    rw [hbytes, hext]
  · exact fun hi => lt_succ_of_le (h.names_le hd hi)
  · intro q e t i he hi
    obtain ⟨hfile, -⟩ := h.file he
    rw [honce he hi, hfile] at hi
    cases hi
    exact ⟨hproper hfile, rfl⟩
  · exact fun hi => hproper hi
  · exact h.tmps

theorem Loading.shelved (hd : OnDisk fs₀ n a home recs listed) (hn : 0 < n)
    (h : Loading fs₀ n home recs listed w) (hall : ∀ {id t}, home id = some t →
      ∃ e, w.store.extent id = some e) (honce : w.Once) (now : Int) :
    (w.openActive now (a + 1)).Shelved (a + 1) (Function.update recs (a + 1) []) := by
  have htier : ∀ {id e}, w.store.extent id = some e → home id = some e.tier ∧
      e.size = (packBytes (recs id)).length := by
    intro id e he
    obtain ⟨t, i, hhome, -, rfl⟩ := h.packs he
    exact ⟨hhome, rfl⟩
  refine shelved_openActive now (by rw [h.tiers]; exact hn) ?_ ?_ ⟨?_, ?_, ?_, ?_, ?_⟩ ?_ ?_
  · intro id e he
    exact ⟨lt_succ_of_le (hd.tier (htier he).1).1, lookup_lt (h.file he).1⟩
  · exact fun hi => lt_succ_of_le (h.names_le hd hi)
  · intro id e he
    exact ⟨(h.file he).2, (htier he).2, hd.appended (htier he).1⟩
  · intro key l hl
    obtain ⟨⟨e, he⟩, hlast⟩ := h.best.found hl
    exact ⟨⟨e, he⟩, foundIn_pack hd (htier he).1 (mem_of_lastOf hlast)⟩
  · intro id e he
    rw [h.tiers]
    exact ⟨(hd.tier (htier he).1).2, _, (h.file he).1⟩
  · intro id e t i he hi
    rw [h.tiers, honce he hi]
    exact ⟨le_rfl, (hd.tier (htier he).1).2⟩
  · intro t name i hi hglob
    obtain ⟨id, t', hname, hhome⟩ := hd.known (h.pruned hi hglob) hglob
    obtain ⟨e, he⟩ := hall hhome
    exact ⟨id, e, hname, he⟩
  · intro id e he
    obtain ⟨k, es, hk, hbytes, hnodup, hmem, hcomplete, hfound⟩ := h.hint he
    refine ⟨k, es, hk, hbytes, ⟨hnodup, hmem, ?_⟩, ?_⟩
    · exact fun x hx l hl => h.best.ahead hl he (hfound x hx)
    · intro key l hl hpack
      have hlast := (h.best.found hl).2
      rw [hpack] at hlast
      exact hcomplete hlast
  · exact fun he hi hi' ht => h.hintCopies he hi hi' ht

end

end World

end Corepkgs.Jigd
