import Corepkgs.Jigd.GetSound
import Corepkgs.Jigd.TornTail
/-!
# What the directories say about the store

A restart sees the tier directories and nothing else.  `Shelved` is what they say
at every moment of a run: which pack lies where, what is in it, and which of its
keys its hint lists.  The records of each pack are a ghost; `recs id` are those
of pack `id` from the first on.
-/

namespace Corepkgs.Jigd

open Lib FileSystem Store Nat List Prod Function

abbrev Records := Nat → List (Bytes × Bytes)

theorem globPack_hint (id : Nat) : globPack (packName id hintExt) = false := by
  rw [Bool.eq_false_iff]
  intro h
  exact absurd (globPack_packName_ext (by decide) h) (by decide)

theorem globPack_tmp (id : Nat) (ext : Ext) :
    globPack (packName id (ext.text ++ ascii ".tmp")) = false := by
  rw [Bool.eq_false_iff]
  intro h
  cases ext with
  | pack | hint => exact absurd (globPack_packName_ext (by decide) h) (by decide)

namespace World

/-- A hint of pack `id` that lists `listed`: records of the pack, none of them superseded by an
older one. -/
structure Listed (w : World) (recs : Records) (id : Nat) (listed : List (Bytes × Loc)) : Prop where
  nodup : (listed.map fst).Nodup
  mem : ∀ e ∈ listed, e ∈ recordLocs id 0 (recs id)
  ahead : ∀ e ∈ listed, ∀ l, w.store.index.lookup e.1 = some l → id ≤ l.pack

structure Hinted (w : World) (recs : Records) (id : Nat) (listed : List (Bytes × Loc)) : Prop
    extends w.Listed recs id listed where
  complete : ∀ {key l}, w.store.index.lookup key = some l → l.pack = id → (key, l) ∈ listed

/-- The hint of pack `id` in tier `t` lists what the index says of the pack. -/
def HintAt (w : World) (recs : Records) (t id : Nat) : Prop :=
  ∃ h listed, w.fs.lookup (filePath t id .hint) = some h ∧ w.fs.data h = hintBytes listed ∧
    w.Hinted recs id listed

/-- Which packs there are, where they lie and what is in them. -/
structure Archive (w : World) (recs : Records) : Prop where
  written : ∀ {id e}, w.store.extent id = some e → w.fs.data e.file = packBytes (recs id) ∧
    e.size = (packBytes (recs id)).length ∧ Appended (recs id)
  indexed : ∀ {key l}, w.store.index.lookup key = some l →
    (∃ e, w.store.extent l.pack = some e) ∧ (key, l) ∈ recordLocs l.pack 0 (recs l.pack)
  home : ∀ {id e}, w.store.extent id = some e → e.tier < w.store.tiers.length ∧
    ∃ i, w.fs.lookup (filePath e.tier id .pack) = some i
  /-- A second copy is a tier below. -/
  lowest : ∀ {id e t i}, w.store.extent id = some e →
    w.fs.lookup (filePath t id .pack) = some i → e.tier ≤ t ∧ t < w.store.tiers.length
  known : ∀ {t name i}, w.fs.lookup (t, name) = some i → globPack name = true →
    ∃ id e, name = packName id packExt ∧ w.store.extent id = some e

structure Shelved (w : World) (a : Nat) (recs : Records) : Prop extends w.Archive recs where
  /-- Nothing supersedes the active pack. -/
  current : ∀ {key l}, lastOf (recordLocs a 0 (recs a)) key = some l →
    w.store.index.lookup key = some l
  front : ∀ {e}, w.store.extent a = some e → e.tier = 0
  hints : ∀ {id e}, w.store.extent id = some e → id ≠ a → w.HintAt recs e.tier id
  hintCopies : ∀ {id e t h h'}, w.store.extent id = some e → id ≠ a →
    w.fs.lookup (filePath e.tier id .hint) = some h → w.fs.lookup (filePath t id .hint) = some h' →
      e.tier ≤ t → w.fs.data h' = w.fs.data h
  /-- A rotation that failed halfway leaves a hint for the pack that stays active. -/
  stale : ∀ {t h}, w.fs.lookup (filePath t a .hint) = some h →
    t = 0 ∧ ∃ listed, w.fs.data h = hintBytes listed ∧ w.Listed recs a listed

variable {id : Nat} {recs : Records} {w : World}

theorem Listed.of_index {w' : World} {recs' : Records}
    {listed : List (Bytes × Loc)} (h : w.Listed recs id listed)
    (hrecs : ∀ e, e ∈ recordLocs id 0 (recs id) → e ∈ recordLocs id 0 (recs' id))
    (hindex : ∀ key l, w'.store.index.lookup key = some l →
      w.store.index.lookup key = some l ∨ id ≤ l.pack) : w'.Listed recs' id listed where
  nodup := h.nodup
  mem e he := hrecs e (h.mem e he)
  ahead e he l hl := by
    rcases hindex e.1 l hl with hold | hle
    · exact h.ahead e he l hold
    · exact hle

/-- A step that only loses entries of pack `id`, and gains none of it. -/
theorem Hinted.of_index {w' : World} {recs' : Records}
    {listed : List (Bytes × Loc)} (h : w.Hinted recs id listed) (hrecs : recs' id = recs id)
    (hindex : ∀ key l, w'.store.index.lookup key = some l →
      w.store.index.lookup key = some l ∨ id < l.pack) : w'.Hinted recs' id listed where
  toListed := h.toListed.of_index (fun e he => hrecs ▸ he)
    (fun key l hl => (hindex key l hl).imp_right le_of_lt)
  complete hl hpack := by
    rcases hindex _ _ hl with hold | hlt
    · exact h.complete hold hpack
    · exact absurd hpack hlt.ne'

namespace Shelved

variable {w : World} {a : Nat} {recs : Records}

variable (h : w.Shelved a recs)

include h

/-- What the index says about the active pack is the last record of the key. -/
theorem lastOf_active {key : Bytes} {l : Loc}
    (hl : w.store.index.lookup key = some l) (hpack : l.pack = a) :
    lastOf (recordLocs a 0 (recs a)) key = some l := by
  obtain ⟨-, hmem⟩ := h.indexed hl
  rw [hpack] at hmem
  cases hlast : lastOf (recordLocs a 0 (recs a)) key with
  | none => exact absurd rfl (lastOf_eq_none.mp hlast _ hmem)
  | some l' =>
    have hl' := h.current hlast
    rw [hl] at hl'
    exact hl'.symm

/-- A key with a record in the active pack is indexed there. -/
theorem index_of_mem_active {e : Bytes × Loc} (he : e ∈ recordLocs a 0 (recs a)) :
    ∃ l, w.store.index.lookup e.1 = some l ∧ l.pack = a := by
  cases hlast : lastOf (recordLocs a 0 (recs a)) e.1 with
  | none => exact absurd rfl (lastOf_eq_none.mp hlast _ he)
  | some l => exact ⟨l, h.current hlast, (mem_recordLocs (mem_of_lastOf hlast)).1⟩

theorem of_store {s : Store} (hindex : s.index = w.store.index)
    (hext : ∀ id, s.extent id = w.store.extent id)
    (htiers : s.tiers.length = w.store.tiers.length) : Shelved ⟨s, w.fs⟩ a recs where
  written he := h.written ((hext _) ▸ he)
  indexed hl := by
    obtain ⟨⟨e, he⟩, hmem⟩ := h.indexed (hindex ▸ hl)
    exact ⟨⟨e, (hext _).trans he⟩, hmem⟩
  current hlast := by
    change s.index.lookup _ = _
    rw [hindex]
    exact h.current hlast
  front he := h.front ((hext _) ▸ he)
  home he := by
    change _ < s.tiers.length ∧ _
    rw [htiers]
    exact h.home ((hext _) ▸ he)
  lowest he hi := by
    change _ ∧ _ < s.tiers.length
    rw [htiers]
    exact h.lowest ((hext _) ▸ he) hi
  known hi hglob := by
    obtain ⟨id, e, hname, he⟩ := h.known hi hglob
    exact ⟨id, e, hname, (hext _).trans he⟩
  hints he hid := by
    obtain ⟨i, listed, hi, hdata, hh⟩ := h.hints ((hext _) ▸ he) hid
    exact ⟨i, listed, hi, hdata, hh.of_index rfl (fun key l hl => .inl (hindex ▸ hl))⟩
  hintCopies he hid := h.hintCopies ((hext _) ▸ he) hid
  stale hi := by
    obtain ⟨ht, listed, hdata, hh⟩ := h.stale hi
    exact ⟨ht, listed, hdata, hh.of_index (fun _ he => he) (fun key l hl => .inl (hindex ▸ hl))⟩

/-! ## The demoter's files -/

variable {fs : FileSystem}

variable (hc : w.Consistent a)

include hc

/-- Steps on files only.  A name of a pack may come back for other bytes that are the same, or come
up a tier below the pack for a copy of its file. -/
theorem of_fs (hdata : ∀ i, w.Proper i → fs.data i = w.fs.data i)
    (hold : ∀ t id ext i, w.fs.lookup (filePath t id ext) = some i →
      ∃ j, fs.lookup (filePath t id ext) = some j ∧ fs.data j = w.fs.data i)
    (hnew : ∀ t id ext j, fs.lookup (filePath t id ext) = some j →
      (∃ i, w.fs.lookup (filePath t id ext) = some i ∧ fs.data j = w.fs.data i) ∨
      (id ≠ a ∧ ∃ e i, w.store.extent id = some e ∧ e.tier ≤ t ∧ t < w.store.tiers.length ∧
        w.fs.lookup (filePath e.tier id ext) = some i ∧ fs.data j = w.fs.data i))
    (hglob : ∀ t name j, fs.lookup (t, name) = some j → globPack name = true →
      ∃ id e, name = packName id packExt ∧ w.store.extent id = some e) :
    Shelved ⟨w.store, fs⟩ a recs := by
  -- every hint at or below the pack has the bytes of the one beside the pack
  have hcopy : ∀ {id e t h₀ j}, w.store.extent id = some e → id ≠ a →
      w.fs.lookup (filePath e.tier id .hint) = some h₀ →
      fs.lookup (filePath t id .hint) = some j → e.tier ≤ t → fs.data j = w.fs.data h₀ := by
    intro id e t h₀ j he hid hh₀ hj ht
    rcases hnew t id .hint j hj with ⟨i, hi, hji⟩ | ⟨-, e', i, he', -, -, hi, hji⟩
    · rw [hji]
      exact h.hintCopies he hid hh₀ hi ht
    · rw [he] at he'
      cases he'
      rw [hji]
      exact h.hintCopies he hid hh₀ hi le_rfl
  refine ⟨⟨?_, h.indexed, ?_, ?_, ?_⟩, h.current, h.front, ?_, ?_, ?_⟩
  · intro id e he
    obtain ⟨hbytes, hrest⟩ := h.written he
    have hf := hc.frozen_pack he
    exact ⟨(hdata _ ⟨hf.lt, hf.noTmp⟩).trans hbytes, hrest⟩
  · intro id e he
    obtain ⟨ht, i, hi⟩ := h.home he
    obtain ⟨j, hj, -⟩ := hold _ _ _ _ hi
    exact ⟨ht, j, hj⟩
  · intro id e t j he hj
    rcases hnew t id .pack j hj with ⟨i, hi, -⟩ | ⟨-, e', i, he', hle, hlt, -⟩
    · exact h.lowest he hi
    · have hee : w.store.extent id = some e := he
      rw [hee] at he'
      cases he'
      exact ⟨hle, hlt⟩
  · exact fun hj hname => hglob _ _ _ hj hname
  · intro id e he hid
    obtain ⟨i, listed, hi, hbytes, hh⟩ := h.hints he hid
    obtain ⟨j, hj, hji⟩ := hold _ _ _ _ hi
    exact ⟨j, listed, hj, hji.trans hbytes, hh.of_index rfl (fun _ _ hl => .inl hl)⟩
  · intro id e t j j' he hid hj hj' ht
    obtain ⟨i, -, hi, -⟩ := h.hints he hid
    rw [hcopy he hid hi hj' ht, hcopy he hid hi hj le_rfl]
  · intro t j hj
    rcases hnew t a .hint j hj with ⟨i, hi, hji⟩ | ⟨hne, -⟩
    · obtain ⟨ht, listed, hbytes, hh⟩ := h.stale hi
      exact ⟨ht, listed, hji.trans hbytes, hh.of_index (fun _ he => he) (fun _ _ hl => .inl hl)⟩
    · exact absurd rfl hne

/-- A name that is not that of a pack file or hint. -/
theorem of_tmp (hdata : ∀ i, w.Proper i → fs.data i = w.fs.data i)
    (hlook : ∀ t id ext, fs.lookup (filePath t id ext) = w.fs.lookup (filePath t id ext))
    (hnames : ∀ q j, fs.lookup q = some j →
      (∃ i, w.fs.lookup q = some i) ∨ ∃ t id ext, q = tmpPath t id ext) :
    Shelved ⟨w.store, fs⟩ a recs := by
  -- the inodes behind such names are not temporary, so their bytes stay
  have hsame : ∀ {t id ext i}, w.fs.lookup (filePath t id ext) = some i →
      fs.data i = w.fs.data i := by
    intro t id ext i hi
    refine hdata i ⟨lookup_lt hi, ?_⟩
    intro t' id' ext' htmp
    exact filePath_ne_tmpPath _ _ _ _ _ _ (hc.tmps htmp hi)
  refine h.of_fs hc hdata ?_ ?_ ?_
  · exact fun t id ext i hi => ⟨i, (hlook t id ext).trans hi, hsame hi⟩
  · intro t id ext j hj
    rw [hlook] at hj
    exact .inl ⟨j, hj, hsame hj⟩
  · intro t name j hj hglob
    rcases hnames (t, name) j hj with ⟨i, hi⟩ | ⟨t', id, ext, hq⟩
    · exact h.known hi hglob
    · have hname : name = packName id (ext.text ++ ascii ".tmp") := congrArg snd hq
      rw [hname, globPack_tmp] at hglob
      cases hglob

theorem create (t id : Nat) (ext : Ext) :
    Shelved ⟨w.store, w.fs.create (tmpPath t id ext)⟩ a recs := by
  apply h.of_tmp hc
  · intro i hi
    unfold FileSystem.create
    split
    · rename_i j hj
      apply data_setData_ne
      rintro rfl
      exact hi.noTmp t id ext hj
    · exact data_place_old _ _ hi.lt
  · exact fun t' id' ext' => lookup_create_file _ _ _ _ _ _ _
  · intro q j hj
    unfold FileSystem.create at hj
    split at hj
    · exact .inl ⟨j, hj⟩
    · rw [lookup_place] at hj
      split at hj
      · rename_i hq
        exact .inr ⟨t, id, ext, hq⟩
      · exact .inl ⟨j, hj⟩

theorem copyBytes (src : Path) (t id : Nat) (ext : Ext)
    (n : Nat) : Shelved ⟨w.store, Sys.copyBytes w.fs src (tmpPath t id ext) n⟩ a recs := by
  apply h.of_tmp hc
  · intro i hi
    unfold Sys.copyBytes
    split
    · rename_i j hj
      apply data_setData_ne
      rintro rfl
      exact hi.noTmp t id ext hj
    · rfl
  · exact fun t' id' ext' => lookup_copyBytes _ _ _ _ _
  · intro q j hj
    rw [lookup_copyBytes] at hj
    exact .inl ⟨j, hj⟩

theorem removeTmp (t id : Nat) (ext : Ext) :
    Shelved ⟨w.store, w.fs.remove (tmpPath t id ext)⟩ a recs := by
  refine h.of_tmp hc (fun _ _ => rfl) ?_ ?_
  · intro t' id' ext'
    rw [lookup_remove, if_neg (filePath_ne_tmpPath _ _ _ _ _ _)]
  · intro q j hj
    rw [lookup_remove] at hj
    split at hj
    · cases hj
    · exact .inl ⟨j, hj⟩

variable {ext : Ext} {e : Extent}

/-- The file of a pack under a name a tier below it, whether linked there or renamed. -/
theorem copyDown {t i j : Nat} (hid : id < a) (he : w.store.extent id = some e)
    (hle : e.tier < t) (ht : t < w.store.tiers.length)
    (hi : w.fs.lookup (filePath e.tier id ext) = some i) (hcopy : fs.data j = w.fs.data i)
    (hdata : ∀ k, fs.data k = w.fs.data k) (hnew : fs.lookup (filePath t id ext) = some j)
    (hlook : ∀ q, q ≠ filePath t id ext → (∀ t id ext, q ≠ tmpPath t id ext) →
      fs.lookup q = w.fs.lookup q) :
    Shelved ⟨w.store, fs⟩ a recs := by
  have hother : ∀ {t' id' ext'}, filePath t' id' ext' ≠ filePath t id ext →
      fs.lookup (filePath t' id' ext') = w.fs.lookup (filePath t' id' ext') := fun hne =>
    hlook _ hne (fun _ _ _ => filePath_ne_tmpPath _ _ _ _ _ _)
  refine h.of_fs hc (fun k _ => hdata k) ?_ ?_ ?_
  · intro t' id' ext' k hk
    by_cases hpath : filePath t' id' ext' = filePath t id ext
    · -- an older copy under this name has the same bytes
      refine ⟨j, by rw [hpath]; exact hnew, ?_⟩
      obtain ⟨rfl, rfl, rfl⟩ := filePath_inj.mp hpath
      rw [hcopy]
      cases ext' with
      | pack => rw [(hc.copies he hid.ne hi).2, (hc.copies he hid.ne hk).2]
      | hint => exact (h.hintCopies he hid.ne hi hk hle.le).symm
    · exact ⟨k, (hother hpath).trans hk, hdata k⟩
  · intro t' id' ext' k hk
    by_cases hpath : filePath t' id' ext' = filePath t id ext
    · rw [hpath, hnew] at hk
      cases hk
      obtain ⟨rfl, rfl, rfl⟩ := filePath_inj.mp hpath
      exact .inr ⟨hid.ne, e, i, he, hle.le, ht, hi, hcopy⟩
    · rw [hother hpath] at hk
      exact .inl ⟨k, hk, hdata k⟩
  · intro t' name k hk hglob
    by_cases hpath : (t', name) = filePath t id ext
    · have hname : name = packName id ext.text := congrArg snd hpath
      cases ext with
      | pack => exact ⟨id, e, hname, he⟩
      | hint =>
        rw [hname] at hglob
        exact absurd (globPack_hint id) (by rw [Ext.text] at hglob; rw [hglob]; decide)
    · refine h.known (t := t') (i := k) ?_ hglob
      rw [← hlook _ hpath]
      · exact hk
      · intro t'' id'' ext'' hq
        have hname : name = packName id'' (ext''.text ++ ascii ".tmp") := congrArg snd hq
        rw [hname, globPack_tmp] at hglob
        cases hglob

theorem link {t i : Nat} (hid : id < a) (he : w.store.extent id = some e) (hle : e.tier < t)
    (ht : t < w.store.tiers.length) (hi : w.fs.lookup (filePath e.tier id ext) = some i) :
    Shelved ⟨w.store, w.fs.link (filePath e.tier id ext) (filePath t id ext)⟩ a recs := by
  have hlook := lookup_link hi (filePath t id ext)
  refine h.copyDown hc hid he hle ht hi (j := (w.fs.lookup (filePath t id ext)).getD i) ?_
    (fun k => data_link _ _ _ k) ((hlook _).trans (if_pos rfl))
    (fun q hq _ => (hlook q).trans (if_neg hq))
  rw [data_link]
  cases hold : w.fs.lookup (filePath t id ext) with
  | none => rfl
  | some k =>
    rw [Option.getD_some]
    cases ext with
    | pack => rw [(hc.copies he hid.ne hi).2, (hc.copies he hid.ne hold).2]
    | hint => exact h.hintCopies he hid.ne hi hold hle.le

theorem rename {t i j : Nat} (hid : id < a) (he : w.store.extent id = some e) (hle : e.tier < t)
    (ht : t < w.store.tiers.length) (hi : w.fs.lookup (filePath e.tier id ext) = some i)
    (hj : w.fs.lookup (tmpPath t id ext) = some j) (hcopy : w.fs.data j = w.fs.data i) :
    Shelved ⟨w.store, w.fs.rename (tmpPath t id ext) (filePath t id ext)⟩ a recs := by
  have hlook := lookup_rename hj (filePath t id ext)
  refine h.copyDown hc hid he hle ht hi (j := j) ((data_rename _ _ _ j).trans hcopy)
    (fun k => data_rename _ _ _ k) ((hlook _).trans (if_pos rfl)) ?_
  intro q hq htmp
  rw [hlook, if_neg hq, if_neg (htmp t id ext)]

/-! ## Sealing and rotating -/

omit hc in
/-- The hint that `seal` writes for the active pack. -/
theorem hinted_visit (order : RangeOrder) :
    w.Hinted recs a ((order.visit w.store.index.pairs).filter fun e => e.2.pack = a) := by
  refine ⟨⟨nodup_listing w.store order a, ?_, ?_⟩, ?_⟩
  · intro e he
    obtain ⟨hl, hpack⟩ := mem_listing.mp he
    have hrec := (h.indexed hl).2
    rw [hpack] at hrec
    exact hrec
  · intro e he l hl
    obtain ⟨hl', hpack⟩ := mem_listing.mp he
    rw [hl'] at hl
    cases hl
    exact hpack.ge
  · exact fun hl hpack => mem_listing.mpr ⟨hl, hpack⟩

theorem sealActive (env : SealEnv) :
    (w.sealActive env).1.Shelved a recs ∧
      ((w.sealActive env).2 = true → (w.sealActive env).1.HintAt recs 0 a) := by
  obtain ⟨p, hp, rfl, hext⟩ := hc.activePack
  have htier : p.tier = 0 := h.front hext
  rw [sealActive_of env hp]
  unfold World.sealPack
  split
  · refine ⟨h, ?_⟩
    intro hfalse
    cases hfalse
  · rw [htier]
    simp only
    have hlook := lookup_place w.fs (filePath 0 p.id .hint)
      (hintBytes ((env.order.visit w.store.index.pairs).filter fun e => e.2.pack = p.id))
    have hold : ∀ i, i < w.fs.inodes.length → (w.fs.place (filePath 0 p.id .hint)
        (hintBytes ((env.order.visit w.store.index.pairs).filter
          fun e => e.2.pack = p.id))).data i = w.fs.data i := fun i hi =>
      data_place_old _ _ hi
    have hhint := h.hinted_visit env.order
    have hnew := data_place_new w.fs (filePath 0 p.id .hint)
      (hintBytes ((env.order.visit w.store.index.pairs).filter fun e => e.2.pack = p.id))
    generalize (env.order.visit w.store.index.pairs).filter (fun e => e.2.pack = p.id) = listed
      at hlook hold hhint hnew ⊢
    generalize w.fs.place (filePath 0 p.id .hint) (hintBytes listed) = fs at hlook hold hnew ⊢
    -- names other than the new hint's
    have hother : ∀ {t id ext}, filePath t id ext ≠ filePath 0 p.id .hint →
        fs.lookup (filePath t id ext) = w.fs.lookup (filePath t id ext) := fun hne =>
      (hlook _).trans (if_neg hne)
    have hpackName : ∀ t id, filePath t id .pack ≠ filePath 0 p.id .hint := by
      intro t id hpath
      exact absurd (filePath_inj.mp hpath).2.2 (by decide)
    have hidName : ∀ {t id ext}, id ≠ p.id → filePath t id ext ≠ filePath 0 p.id .hint := by
      intro t id ext hid hpath
      exact hid (filePath_inj.mp hpath).2.1
    refine ⟨⟨⟨?_, h.indexed, ?_, ?_, ?_⟩, h.current, h.front, ?_, ?_, ?_⟩, ?_⟩
    · intro id e he
      obtain ⟨hbytes, hrest⟩ := h.written he
      exact ⟨(hold _ (hc.frozen_pack he).lt).trans hbytes, hrest⟩
    · intro id e he
      obtain ⟨ht, i, hi⟩ := h.home he
      exact ⟨ht, i, (hother (hpackName _ _)).trans hi⟩
    · intro id e t i he hi
      exact h.lowest he ((hother (hpackName _ _)) ▸ hi)
    · intro t name i hi hglob
      have hi' : fs.lookup (t, name) = some i := hi
      rw [hlook, if_neg] at hi'
      · exact h.known hi' hglob
      · intro hpath
        have hname : name = packName p.id hintExt := congrArg snd hpath
        rw [hname, globPack_hint] at hglob
        cases hglob
    · intro id e he hid
      obtain ⟨i, listed', hi, hbytes, hh⟩ := h.hints he hid
      exact ⟨i, listed', (hother (hidName hid)).trans hi,
        (hold _ (lookup_lt hi)).trans hbytes, hh.of_index rfl (fun _ _ hl => .inl hl)⟩
    · intro id e t i i' he hid hi hi' ht
      have hi₀ := (hother (hidName hid)) ▸ hi
      have hi₁ := (hother (hidName hid)) ▸ hi'
      change fs.data i' = fs.data i
      rw [hold _ (lookup_lt hi₀), hold _ (lookup_lt hi₁)]
      exact h.hintCopies he hid hi₀ hi₁ ht
    · intro t i hi
      have hi' : fs.lookup (filePath t p.id .hint) = some i := hi
      rw [hlook] at hi'
      split at hi'
      · rename_i hpath
        cases hi'
        exact ⟨(filePath_inj.mp hpath).1, listed, hnew,
          hhint.toListed.of_index (fun _ he => he) (fun _ _ hl => .inl hl)⟩
      · obtain ⟨ht, listed', hbytes, hh⟩ := h.stale hi'
        exact ⟨ht, listed', (hold _ (lookup_lt hi')).trans hbytes,
          hh.of_index (fun _ he => he) (fun _ _ hl => .inl hl)⟩
    · intro _
      exact ⟨_, listed, (hlook _).trans (if_pos rfl), hnew,
        hhint.of_index rfl (fun _ _ hl => .inl hl)⟩

end Shelved

/-- Opening an active pack over tables and directories in which every pack is older and sealed. -/
theorem shelved_openActive (now : Int) {b : Nat} (htiers : 0 < w.store.tiers.length)
    (hpacks : ∀ {id e}, w.store.extent id = some e → id < b ∧ e.file < w.fs.inodes.length)
    (hnames : ∀ {t id ext i}, w.fs.lookup (filePath t id ext) = some i → id < b)
    (h : w.Archive recs) (hhints : ∀ {id e}, w.store.extent id = some e → w.HintAt recs e.tier id)
    (hcopies : ∀ {id e t i i'}, w.store.extent id = some e →
      w.fs.lookup (filePath e.tier id .hint) = some i →
      w.fs.lookup (filePath t id .hint) = some i' → e.tier ≤ t → w.fs.data i' = w.fs.data i) :
    (w.openActive now b).Shelved b (update recs b []) := by
  have hext : ∀ q, (w.openActive now b).store.extent q =
      if q = b then some ⟨b, 0, w.fs.inodes.length, 0⟩ else w.store.extent q := fun q =>
    extent_addPack _ _ q
  have hlook : ∀ q, (w.openActive now b).fs.lookup q =
      if q = filePath 0 b .pack then some w.fs.inodes.length else w.fs.lookup q := fun q =>
    lookup_place _ _ _ q
  have hdata : ∀ i, i < w.fs.inodes.length → (w.openActive now b).fs.data i = w.fs.data i :=
    fun i hi => data_place_old _ _ hi
  have hne : ∀ {id e}, w.store.extent id = some e → id ≠ b := fun he => (hpacks he).1.ne
  have hold : ∀ {id e}, (w.openActive now b).store.extent id = some e → id ≠ b →
      w.store.extent id = some e := by
    intro id e he hid
    rwa [hext, if_neg hid] at he
  have hnew : ∀ {e}, (w.openActive now b).store.extent b = some e →
      e = ⟨b, 0, w.fs.inodes.length, 0⟩ := by
    intro e he
    rw [hext, if_pos rfl] at he
    exact (Option.some.inj he).symm
  have hoff : ∀ {t id ext}, id ≠ b →
      (w.openActive now b).fs.lookup (filePath t id ext) = w.fs.lookup (filePath t id ext) := by
    intro t id ext hid
    rw [hlook, if_neg (fun hp => hid (filePath_inj.mp hp).2.1)]
  have hrecs : ∀ {id}, id ≠ b → update recs b [] id = recs id := fun hid =>
    update_of_ne hid _ _
  refine ⟨⟨?_, ?_, ?_, ?_, ?_⟩, ?_, ?_, ?_, ?_, ?_⟩
  · intro id e he
    by_cases hid : id = b
    · subst hid
      rw [hnew he, update_self]
      exact ⟨data_place_new _ _ _, rfl, .nil⟩
    · rw [hrecs hid]
      obtain ⟨hbytes, hrest⟩ := h.written (hold he hid)
      exact ⟨(hdata _ (hpacks (hold he hid)).2).trans hbytes, hrest⟩
  · intro key l hl
    obtain ⟨⟨e, he⟩, hmem⟩ := h.indexed hl
    rw [hrecs (hne he)]
    exact ⟨⟨e, (hext _).trans ((if_neg (hne he)).trans he)⟩, hmem⟩
  · intro id e he
    by_cases hid : id = b
    · subst hid
      rw [hnew he]
      exact ⟨htiers, _, (hlook _).trans (if_pos rfl)⟩
    · obtain ⟨ht, i, hi⟩ := h.home (hold he hid)
      exact ⟨ht, i, (hoff hid).trans hi⟩
  · intro id e t i he hi
    by_cases hid : id = b
    · subst hid
      rw [hlook] at hi
      split at hi
      · rename_i hpath
        rw [hnew he, (filePath_inj.mp hpath).1]
        exact ⟨le_rfl, htiers⟩
      · exact absurd (hnames hi) (lt_irrefl _)
    · exact h.lowest (hold he hid) ((hoff hid) ▸ hi)
  · intro t name i hi hglob
    rw [hlook] at hi
    split at hi
    · rename_i hpath
      exact ⟨b, _, congrArg snd hpath, (hext b).trans (if_pos rfl)⟩
    · obtain ⟨id, e, hname, he⟩ := h.known hi hglob
      exact ⟨id, e, hname, (hext id).trans ((if_neg (hne he)).trans he)⟩
  · intro key l hlast
    rw [update_self] at hlast
    cases hlast
  · intro e he
    rw [hnew he]
  · intro id e he hid
    obtain ⟨i, listed, hi, hbytes, hh⟩ := hhints (hold he hid)
    exact ⟨i, listed, (hoff hid).trans hi, (hdata _ (lookup_lt hi)).trans hbytes,
      hh.of_index (hrecs hid) (fun _ _ hl => .inl hl)⟩
  · intro id e t i i' he hid hi hi' ht
    rw [hoff hid] at hi hi'
    rw [hdata _ (lookup_lt hi), hdata _ (lookup_lt hi')]
    exact hcopies (hold he hid) hi hi' ht
  · intro t i hi
    rw [hlook, if_neg (by rw [filePath_inj]; simp)] at hi
    exact absurd (hnames hi) (lt_irrefl _)

theorem Shelved.openActive {a : Nat} (h : w.Shelved a recs)
    (hc : w.Consistent a) (hs : w.HintAt recs 0 a) (now : Int) {b : Nat} (hb : a < b) :
    (w.openActive now b).Shelved b (update recs b []) := by
  refine shelved_openActive now ?_ ?_ (fun hi => (hc.names hi).trans_lt hb) h.toArchive ?_ ?_
  · obtain ⟨e, he⟩ := hc.opened
    have ht := (h.home he).1
    omega
  · exact fun he => ⟨(hc.packs he).2.trans_lt hb, (hc.frozen_pack he).lt⟩
  · intro id e he
    by_cases hid : id = a
    · subst hid
      rw [h.front he]
      exact hs
    · exact h.hints he hid
  · intro id e t i i' he hi hi' ht
    by_cases hid : id = a
    · -- the pack that was active has a hint in the first tier only
      subst hid
      rw [(h.stale hi).1] at hi
      rw [(h.stale hi').1, hi] at hi'
      cases hi'
      rfl
    · exact h.hintCopies he hid hi hi' ht

namespace Shelved

variable {w : World} {a : Nat} {recs : Records}

/-! ## One more record -/

theorem append (h : w.Shelved a recs) (hc : w.Consistent a) {p : Pack} (hid : p.id = a)
    (hp : w.store.extent a = some p.extent) {key body : Bytes} (hkey : Storable key body)
    (hfits : needsRotate p key body = false) :
    Shelved ⟨commit w.store p key body.length, ((w.writePack p p.size
      (recordHead key body.length)).writePack p (p.size + (recHeader + key.length)) body).fs⟩ a
        (update recs a (recs a ++ [(key, body)])) := by
  obtain ⟨hbytes, hsize, happ⟩ := h.written hp
  have hlt : p.file < w.fs.inodes.length := (hc.frozen hp).lt
  have hend : (w.fs.data p.file).length = p.size := by
    have hlen := congrArg length hbytes
    exact hlen.trans hsize.symm
  have hdata := data_append_of_end hlt hend key body
  have hext := extent_commit (s := w.store) (by rw [hid]; exact hp) key body.length
  obtain ⟨hloc, -⟩ := inPack_commit hkey hfits
  have hindex : ∀ k, (commit w.store p key body.length).index.lookup k =
      if k = key then some ⟨a, (packBytes (recs a)).length + recHeader + key.length, body.length⟩
      else w.store.index.lookup k := by
    intro k
    have hoff : p.size + (recHeader + key.length) =
        (packBytes (recs a)).length + recHeader + key.length := by
      rw [← add_assoc]
      exact congrArg (· + recHeader + key.length) hsize
    rw [commit_index, Table.lookup_insert, hloc, hid, hoff]
  have htiers : (commit w.store p key body.length).tiers.length = w.store.tiers.length := by
    rw [commit_tiers, length_modify]
  generalize hfs : ((w.writePack p p.size (recordHead key body.length)).writePack p
    (p.size + (recHeader + key.length)) body).fs = fs at hdata ⊢
  have hlook : ∀ q, fs.lookup q = w.fs.lookup q := by
    intro q
    rw [← hfs]
    rfl
  have hother : ∀ i, w.Settled i → fs.data i = w.fs.data i := by
    intro i hi
    have hne : i ≠ p.file := fun hf => hi.notActive _ (hc.activeExtent_of hp) hf.symm
    rw [← hfs]
    exact (data_setData_ne _ hne).trans (data_setData_ne _ hne)
  generalize commit w.store p key body.length = s at hext hindex htiers ⊢
  -- the location of the new record
  have hlocs : recordLocs a 0 (recs a ++ [(key, body)]) = recordLocs a 0 (recs a) ++
      [(key, ⟨a, (packBytes (recs a)).length + recHeader + key.length, body.length⟩)] := by
    rw [recordLocs_append, zero_add]
    rfl
  have hmem : ∀ {id e}, e ∈ recordLocs id 0 (recs id) →
      e ∈ recordLocs id 0 (update recs a (recs a ++ [(key, body)]) id) := by
    intro id e he
    by_cases hq : id = a
    · subst hq
      rw [update_self, hlocs]
      exact mem_append_left _ he
    · rw [update_of_ne hq]
      exact he
  have hback : ∀ {id e'}, s.extent id = some e' → ∃ e, w.store.extent id = some e ∧
      e'.tier = e.tier ∧ e'.file = e.file ∧ (id ≠ a → e' = e) := by
    intro id e' he'
    rw [hext] at he'
    split at he'
    · rename_i hq
      cases he'
      rw [hid] at hq
      subst hq
      exact ⟨_, hp, rfl, rfl, fun hne => absurd rfl hne⟩
    · exact ⟨e', he', rfl, rfl, fun _ => rfl⟩
  have hforth : ∀ {id e}, w.store.extent id = some e → ∃ e', s.extent id = some e' := by
    intro id e he
    rw [hext]
    split
    · exact ⟨_, rfl⟩
    · exact ⟨e, he⟩
  have hnewIndex : ∀ k l, s.index.lookup k = some l →
      w.store.index.lookup k = some l ∨ l.pack = a := by
    intro k l hl
    rw [hindex] at hl
    split at hl
    · cases hl
      exact .inr rfl
    · exact .inl hl
  refine ⟨⟨?_, ?_, ?_, ?_, ?_⟩, ?_, ?_, ?_, ?_, ?_⟩
  · intro id e' he'
    by_cases hq : id = a
    · subst hq
      change s.extent id = some e' at he'
      rw [hext, if_pos hid.symm] at he'
      cases he'
      rw [update_self, packBytes_concat]
      refine ⟨?_, ?_, ?_⟩
      · have hall := hdata
        rw [show w.fs.data p.file = packBytes (recs id) from hbytes] at hall
        exact hall
      · rw [length_append, length_record]
        exact congrArg (· + (recHeader + key.length + body.length)) hsize
      · exact appended_concat happ hsize hkey hfits
    · obtain ⟨e, he, -, -, heq⟩ := hback he'
      rw [heq hq, update_of_ne hq]
      obtain ⟨hold, hrest⟩ := h.written he
      exact ⟨(hother _ (hc.settled he hq).1).trans hold, hrest⟩
  · intro k l hl
    change s.index.lookup k = some l at hl
    rw [hindex] at hl
    split at hl
    · rename_i hk
      subst hk
      cases hl
      refine ⟨hforth hp, ?_⟩
      rw [update_self, hlocs]
      exact mem_append_right _ (mem_singleton_self _)
    · obtain ⟨⟨e, he⟩, hm⟩ := h.indexed hl
      exact ⟨hforth he, hmem hm⟩
  · intro id e' he'
    obtain ⟨e, he, ht, -⟩ := hback he'
    obtain ⟨hlen, i, hi⟩ := h.home he
    change e'.tier < s.tiers.length ∧ _
    rw [htiers, ht]
    exact ⟨hlen, i, (hlook _).trans hi⟩
  · intro id e' t i he' hi
    obtain ⟨e, he, ht, -⟩ := hback he'
    change e'.tier ≤ t ∧ t < s.tiers.length
    rw [htiers, ht]
    exact h.lowest he ((hlook _) ▸ hi)
  · intro t name i hi hglob
    obtain ⟨id, e, hname, he⟩ := h.known ((hlook _) ▸ hi) hglob
    obtain ⟨e', he'⟩ := hforth he
    exact ⟨id, e', hname, he'⟩
  · intro k l hlast
    rw [update_self, hlocs, lastOf_concat] at hlast
    change s.index.lookup k = some l
    rw [hindex]
    split at hlast
    · rename_i hk
      rw [if_pos hk.symm]
      exact hlast
    · rename_i hk
      rw [if_neg (Ne.symm hk)]
      exact h.current hlast
  · intro e' he'
    obtain ⟨e, he, ht, -⟩ := hback he'
    exact ht.trans (h.front he)
  · intro id e' he' hq
    obtain ⟨e, he, ht, -⟩ := hback he'
    obtain ⟨i, listed, hi, hlisted, hh⟩ := h.hints he hq
    rw [ht]
    refine ⟨i, listed, (hlook _).trans hi, (hother _ (hc.hints hi)).trans hlisted,
      hh.of_index (update_of_ne hq _ _) ?_⟩
    intro k l hl
    refine (hnewIndex k l hl).imp_right ?_
    intro hpack
    rw [hpack]
    exact lt_of_le_of_ne (hc.packs he).2 hq
  · intro id e' t i i' he' hq hi hi' hle
    obtain ⟨e, he, ht, -⟩ := hback he'
    have hi₀ := (hlook _) ▸ hi
    have hi₁ := (hlook _) ▸ hi'
    rw [ht] at hi₀ hle
    change fs.data i' = fs.data i
    rw [hother _ (hc.hints hi₀), hother _ (hc.hints hi₁)]
    exact h.hintCopies he hq hi₀ hi₁ hle
  · intro t i hi
    have hi₀ := (hlook _) ▸ hi
    obtain ⟨ht, listed, hlisted, hh⟩ := h.stale hi₀
    exact ⟨ht, listed, (hother _ (hc.hints hi₀)).trans hlisted,
      hh.of_index (fun _ he => hmem he)
        (fun k l hl => (hnewIndex k l hl).imp_right (fun hpack => hpack.ge))⟩

/-! ## Leaving a tier -/

/-- Both files of a pack removed from one tier, seen from every other name. -/
theorem lookup_removeBoth (fs : FileSystem) {t : Nat} {q : Path}
    (hpack : q ≠ filePath t id .pack) (hhint : q ≠ filePath t id .hint) :
    ((fs.remove (filePath t id .pack)).remove (filePath t id .hint)).lookup q = fs.lookup q := by
  rw [lookup_remove, if_neg hhint, lookup_remove, if_neg hpack]

theorem lookup_of_removeBoth {fs : FileSystem} {t i : Nat} {q : Path}
    (h : ((fs.remove (filePath t id .pack)).remove (filePath t id .hint)).lookup q = some i) :
    fs.lookup q = some i ∧ q ≠ filePath t id .pack ∧ q ≠ filePath t id .hint := by
  rw [lookup_remove] at h
  split at h
  · cases h
  · rename_i hhint
    rw [lookup_remove] at h
    split at h
    · cases h
    · rename_i hpack
      exact ⟨h, hpack, hhint⟩

/-- A pack deleted from the last tier leaves nothing that a restart would load. -/
theorem evict (h : w.Shelved a recs) {p : Pack} (hid : p.id ≠ a)
    (hp : w.store.packs.lookup p.id = some p) (ht : p.tier + 1 = w.store.tiers.length) :
    (w.evict p).Shelved a recs := by
  have hext := extent_evict w p
  have hpe : w.store.extent p.id = some p.extent := extent_of_lookup hp
  have hold : ∀ {id e}, (w.evict p).store.extent id = some e →
      id ≠ p.id ∧ w.store.extent id = some e := by
    intro id e he
    rw [hext] at he
    split at he
    · cases he
    · rename_i hne
      exact ⟨hne, he⟩
  have hlook : ∀ {q i}, (w.evict p).fs.lookup q = some i →
      w.fs.lookup q = some i ∧ q ≠ filePath p.tier p.id .pack ∧ q ≠ filePath p.tier p.id .hint :=
    fun hq => lookup_of_removeBoth hq
  have hoff : ∀ {t id ext}, id ≠ p.id →
      (w.evict p).fs.lookup (filePath t id ext) = w.fs.lookup (filePath t id ext) := by
    intro t id ext hne
    exact lookup_removeBoth _ (fun hq => hne (filePath_inj.mp hq).2.1)
      (fun hq => hne (filePath_inj.mp hq).2.1)
  have htiers : (w.evict p).store.tiers.length = w.store.tiers.length := length_addTotal _ _ _
  refine ⟨⟨?_, ?_, ?_, ?_, ?_⟩, ?_, ?_, ?_, ?_, ?_⟩
  · exact fun he => h.written (hold he).2
  · intro key l hl
    obtain ⟨hl', hne⟩ := lookup_evict_eq_some.mp hl
    obtain ⟨⟨e, he⟩, hmem⟩ := h.indexed hl'
    exact ⟨⟨e, (hext _).trans ((if_neg hne).trans he)⟩, hmem⟩
  · intro id e he
    obtain ⟨hne, he'⟩ := hold he
    obtain ⟨hlen, i, hi⟩ := h.home he'
    rw [htiers]
    exact ⟨hlen, i, (hoff hne).trans hi⟩
  · intro id e t i he hi
    rw [htiers]
    exact h.lowest (hold he).2 (hlook hi).1
  · intro t name i hi hglob
    obtain ⟨hi', hpack, -⟩ := hlook hi
    obtain ⟨id, e, hname, he⟩ := h.known hi' hglob
    refine ⟨id, e, hname, (hext id).trans ((if_neg ?_).trans he)⟩
    -- the pack had no other copy: there is no tier below the last
    rintro rfl
    have hpath : (t, name) = filePath t p.id .pack := by rw [hname]; rfl
    rw [hpath] at hi' hpack
    obtain ⟨hle, hlt⟩ := h.lowest hpe hi'
    have hle' : p.tier ≤ t := hle
    have hte : t = p.tier := by omega
    exact hpack (by rw [hte])
  · intro key l hlast
    have hpack : l.pack = a := (mem_recordLocs (mem_of_lastOf hlast)).1
    exact lookup_evict_eq_some.mpr ⟨h.current hlast, hpack ▸ Ne.symm hid⟩
  · exact fun he => h.front (hold he).2
  · intro id e he haid
    obtain ⟨hne, he'⟩ := hold he
    obtain ⟨i, listed, hi, hbytes, hh⟩ := h.hints he' haid
    exact ⟨i, listed, (hoff hne).trans hi, hbytes,
      hh.of_index rfl fun _ _ hl => .inl (lookup_evict_eq_some.mp hl).1⟩
  · intro id e t i i' he haid hi hi' hle
    exact h.hintCopies (hold he).2 haid (hlook hi).1 (hlook hi').1 hle
  · intro t i hi
    obtain ⟨ht', listed, hbytes, hh⟩ := h.stale (hlook hi).1
    exact ⟨ht', listed, hbytes,
      hh.of_index (fun _ he => he) fun _ _ hl => .inl (lookup_evict_eq_some.mp hl).1⟩

theorem switchDown (h : w.Shelved a recs) (hc : w.Consistent a) {p : Pack} (hid : p.id ≠ a)
    (hp : w.store.packs.lookup p.id = some p) (ht : p.tier + 1 < w.store.tiers.length)
    {file i : Nat} (hfile : w.fs.lookup (filePath (p.tier + 1) p.id .pack) = some file)
    (hhint : w.fs.lookup (filePath (p.tier + 1) p.id .hint) = some i) :
    (w.switchDown p file).Shelved a recs := by
  have hpe : w.store.extent p.id = some p.extent := extent_of_lookup hp
  have hext := extent_switchDown hp file
  have hindex : (w.switchDown p file).store.index = w.store.index := switchDown_index w p file
  have htiers := length_tiers_switchDown w p file
  have hlook : ∀ {q i}, (w.switchDown p file).fs.lookup q = some i →
      w.fs.lookup q = some i ∧ q ≠ filePath p.tier p.id .pack ∧ q ≠ filePath p.tier p.id .hint :=
    fun hq => lookup_of_removeBoth hq
  have hoff : ∀ {t id ext}, ¬ (t = p.tier ∧ id = p.id) →
      (w.switchDown p file).fs.lookup (filePath t id ext) = w.fs.lookup (filePath t id ext) := by
    intro t id ext hne
    refine lookup_removeBoth _ (fun hq => hne ?_) (fun hq => hne ?_)
    · exact ⟨(filePath_inj.mp hq).1, (filePath_inj.mp hq).2.1⟩
    · exact ⟨(filePath_inj.mp hq).1, (filePath_inj.mp hq).2.1⟩
  have hdata : w.fs.data file = w.fs.data p.file := (hc.copies hpe hid hfile).2
  -- the pack itself, and the others
  have hcase : ∀ {id e}, (w.switchDown p file).store.extent id = some e →
      (id = p.id ∧ e = ⟨p.id, p.tier + 1, file, p.size⟩) ∨
      (id ≠ p.id ∧ w.store.extent id = some e) := by
    intro id e he
    rw [hext] at he
    split at he
    · rename_i hq
      cases he
      exact .inl ⟨hq, rfl⟩
    · rename_i hq
      exact .inr ⟨hq, he⟩
  have hforth : ∀ {id e}, w.store.extent id = some e →
      ∃ e', (w.switchDown p file).store.extent id = some e' := by
    intro id e he
    rw [hext]
    split
    · exact ⟨_, rfl⟩
    · exact ⟨e, he⟩
  have hbelow : ¬ (p.tier + 1 = p.tier ∧ p.id = p.id) := by omega
  refine ⟨⟨?_, ?_, ?_, ?_, ?_⟩, ?_, ?_, ?_, ?_, ?_⟩
  · intro id e he
    rcases hcase he with ⟨rfl, rfl⟩ | ⟨-, he'⟩
    · obtain ⟨hbytes, hsize, happ⟩ := h.written hpe
      exact ⟨hdata.trans hbytes, hsize, happ⟩
    · exact h.written he'
  · intro key l hl
    rw [hindex] at hl
    obtain ⟨⟨e, he⟩, hmem⟩ := h.indexed hl
    exact ⟨hforth he, hmem⟩
  · intro id e he
    rw [htiers]
    rcases hcase he with ⟨rfl, rfl⟩ | ⟨hne, he'⟩
    · exact ⟨ht, file, (hoff hbelow).trans hfile⟩
    · obtain ⟨hlen, j, hj⟩ := h.home he'
      exact ⟨hlen, j, (hoff (fun hq => hne hq.2)).trans hj⟩
  · intro id e t j he hj
    obtain ⟨hj', hpack, -⟩ := hlook hj
    rw [htiers]
    rcases hcase he with ⟨rfl, rfl⟩ | ⟨-, he'⟩
    · obtain ⟨hle, hlt⟩ := h.lowest hpe hj'
      have hle' : p.tier ≤ t := hle
      have hne : t ≠ p.tier := by
        rintro rfl
        exact hpack rfl
      exact ⟨by change p.tier + 1 ≤ t; omega, hlt⟩
    · exact h.lowest he' hj'
  · intro t name j hj hglob
    obtain ⟨id, e, hname, he⟩ := h.known (hlook hj).1 hglob
    obtain ⟨e', he'⟩ := hforth he
    exact ⟨id, e', hname, he'⟩
  · intro key l hlast
    rw [hindex]
    exact h.current hlast
  · intro e he
    rcases hcase he with ⟨haid, -⟩ | ⟨-, he'⟩
    · exact absurd haid.symm hid
    · exact h.front he'
  · intro id e he haid
    rcases hcase he with ⟨rfl, rfl⟩ | ⟨hne, he'⟩
    · obtain ⟨j, listed, hj, hbytes, hh⟩ := h.hints hpe hid
      have hcopy : w.fs.data i = w.fs.data j := h.hintCopies hpe hid hj hhint (le_succ _)
      exact ⟨i, listed, (hoff hbelow).trans hhint, hcopy.trans hbytes,
        hh.of_index rfl (fun _ _ hl => .inl (hindex ▸ hl))⟩
    · obtain ⟨j, listed, hj, hbytes, hh⟩ := h.hints he' haid
      exact ⟨j, listed, (hoff (fun hq => hne hq.2)).trans hj, hbytes,
        hh.of_index rfl (fun _ _ hl => .inl (hindex ▸ hl))⟩
  · intro id e t j j' he haid hj hj' hle
    rcases hcase he with ⟨rfl, rfl⟩ | ⟨-, he'⟩
    · obtain ⟨k, -, hk, -⟩ := h.hints hpe hid
      have hle' : p.tier + 1 ≤ t := hle
      have hdown := h.hintCopies hpe hid hk (hlook hj).1 (le_succ _)
      have hcopy := h.hintCopies hpe hid hk (hlook hj').1 ((le_succ _).trans hle')
      exact hcopy.trans hdown.symm
    · exact h.hintCopies he' haid (hlook hj).1 (hlook hj').1 hle
  · intro t j hj
    obtain ⟨ht', listed, hbytes, hh⟩ := h.stale (hlook hj).1
    exact ⟨ht', listed, hbytes,
      hh.of_index (fun _ he => he) (fun _ _ hl => .inl (hindex ▸ hl))⟩

end Shelved

end World

end Corepkgs.Jigd
