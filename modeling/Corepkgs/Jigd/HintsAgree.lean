import Corepkgs.Jigd.Accounts
import Corepkgs.Jigd.Latest
/-!
# Hints and data agree

`OpenStore` takes what a pack holds from its hint, or from its records where there
is none.  On the directories of a store that was closed both ways end in the same
index and the same live bytes, in whatever order tiers and packs come.

* `openStoreIn` — `OpenStore` with its loop in another order;
* `Archived` — what the directories say, with hints or without;
* `Gathered` — the loop's invariant, over the names visited so far;
* `hints_agree_with_data` — for every life without evictions whose stops leave no hint
  behind its pack;
* `stale_hint_survives_close` — a hint that was behind at a crash is believed by the next
  start, and what `Close` then writes is no better.
-/

namespace Corepkgs.Jigd

open Lib List Store World FileSystem

/-! ## Without hints -/

def dropHints (fs : FileSystem) : FileSystem :=
  { fs with
    entries := fs.entries.keep fun q _ => !(ascii ".hint").isSuffixOf q.2
    named_lt := fun h => by
      rw [Table.lookup_keep, Option.filter_eq_some_iff] at h
      exact fs.named_lt h.1 }

variable (fs : FileSystem)

theorem lookup_dropHints (q : Path) :
    (dropHints fs).lookup q =
      if (ascii ".hint").isSuffixOf q.2 then none else fs.lookup q := by
  change (fs.entries.keep _).lookup q = _
  rw [Table.lookup_keep]
  rw [FileSystem.lookup]
  cases fs.entries.lookup q with
  | none => simp
  | some i => cases (ascii ".hint").isSuffixOf q.2 <;> rfl

theorem lookup_dropHints_hint (t id : Nat) :
    (dropHints fs).lookup (filePath t id .hint) = none := by
  rw [lookup_dropHints, if_pos]
  rw [isSuffixOf_iff_suffix]
  exact suffix_append (paddedId id) (ascii ".hint")

theorem lookup_dropHints_glob {q : Path} (hglob : globPack q.2 = true) :
    (dropHints fs).lookup q = fs.lookup q := by
  rw [lookup_dropHints, if_neg]
  intro hhint
  rw [globPack, isSuffixOf_iff_suffix] at hglob
  rw [isSuffixOf_iff_suffix] at hhint
  have heq := List.IsSuffix.eq_of_length (suffix_of_suffix_length_le hglob hhint (by decide))
    (by decide)
  exact absurd heq (by decide)

theorem lookup_dropHints_pack (t id : Nat) :
    (dropHints fs).lookup (filePath t id .pack) = fs.lookup (filePath t id .pack) :=
  lookup_dropHints_glob fs (globPack_packName id)

namespace World

theorem present_dropHints (n : Nat) (fs : FileSystem) (id : Nat) :
    Present n (dropHints fs) id ↔ Present n fs id := by
  simp only [Present, lookup_dropHints_pack]

/-! ## Another order -/

/-- The pack files of `n` tiers, each somewhere in the list. -/
def LoadOrder (n : Nat) (fs : FileSystem) (order : List Path) : Prop :=
  ∀ q, q ∈ order ↔ q.1 < n ∧ globPack q.2 = true ∧ ∃ i, fs.lookup q = some i

def loadIn (env : OpenEnv) (order : List Path) (acc : World × Nat) : World × Nat :=
  order.foldl (fun acc q => openName env q.1 acc q.2) acc

def openStoreIn (env : OpenEnv) (budgets : List Int) (order : List Path) (fs : FileSystem) :
    World × Bool :=
  let loaded := loadIn env order (⟨emptyStore budgets, fs⟩, 0)
  loaded.1.rotate ⟨⟨env.order, false⟩, env.openFails, env.now⟩ (u32 (loaded.2 + 1))

theorem loadIn_tier (env : OpenEnv) (t : Nat) (names : List Bytes) (acc : World × Nat) :
    loadIn env (names.map fun name => (t, name)) acc = names.foldl (openName env t) acc := by
  rw [loadIn, foldl_map]

/-- `OpenStore` goes through one of these orders: tier by tier, sorted by name. -/
theorem openStore_eq_openStoreIn (env : OpenEnv) (budgets : List Int) (fs : FileSystem) :
    ∃ order, LoadOrder budgets.length fs order ∧
      openStore env budgets fs = openStoreIn env budgets order fs := by
  have htiers : ∀ k, ∃ order, LoadOrder k fs order ∧
      (range k).foldl (openTier env) (⟨emptyStore budgets, fs⟩, 0) =
        loadIn env order (⟨emptyStore budgets, fs⟩, 0) ∧
      ∀ t ≥ k, ∀ name, (loadIn env order (⟨emptyStore budgets, fs⟩, 0)).1.fs.lookup (t, name) =
        fs.lookup (t, name) := by
    intro k
    induction k with
    | zero => exact ⟨[], by intro q; simp, rfl, fun _ _ _ => rfl⟩
    | succ k ih =>
      obtain ⟨order, horder, heq, hlater⟩ := ih
      set acc := loadIn env order (⟨emptyStore budgets, fs⟩, 0)
      set names := ((acc.1.fs.names k).filter globPack).insertionSort (· ≤ ·) with hnames
      have hmem : ∀ name, name ∈ names ↔ globPack name = true ∧
        ∃ i, fs.lookup (k, name) = some i := by
        intro name
        rw [hnames, mem_insertionSort, mem_filter, mem_names,
          hlater k le_rfl, and_comm]
      have hnext : loadIn env (order ++ names.map fun name => (k, name))
          (⟨emptyStore budgets, fs⟩, 0) = openTier env acc k := by
        rw [loadIn, foldl_append]
        exact loadIn_tier env k names acc
      refine ⟨order ++ names.map fun name => (k, name), ?_, ?_, ?_⟩
      · rintro ⟨t, name⟩
        have hcase := horder (t, name)
        simp only at hcase
        rw [mem_append, hcase, mem_map]
        constructor
        · rintro (⟨ht, hrest⟩ | ⟨name', hname', heq'⟩)
          · exact ⟨Nat.lt_succ_of_lt ht, hrest⟩
          · cases heq'
            exact ⟨Nat.lt_succ_self k, (hmem name).mp hname'⟩
        · rintro ⟨ht, hrest⟩
          rcases Nat.lt_succ_iff_lt_or_eq.mp ht with hlt | heq'
          · exact .inl ⟨hlt, hrest⟩
          · simp only at heq'
            subst heq'
            exact .inr ⟨name, (hmem name).mpr hrest, rfl⟩
      · rw [hnext, range_succ, foldl_concat, heq]
      · intro t ht name
        rw [hnext, lookup_openTier env (by omega)]
        exact hlater t (by omega) name
  obtain ⟨order, horder, heq, -⟩ := htiers budgets.length
  refine ⟨order, horder, ?_⟩
  rw [openStore, openStoreIn, heq]

/-! ## What the directories say -/

/-- Whole packs of `n` tiers, and an index that holds the last record of each key in the newest pack
that has one.  Where there is a hint, it lists all that the index says about its pack. -/
structure Archived (fs : FileSystem) (n : Nat) (recs : Records) (idx : Bytes → Option Loc) :
    Prop where
  named : ∀ {t name i}, fs.lookup (t, name) = some i → globPack name = true →
    t < n ∧ ∃ id < 1000000, name = packName id packExt
  whole : ∀ {t id i}, fs.lookup (filePath t id .pack) = some i →
    fs.data i = packBytes (recs id) ∧ Appended (recs id)
  hinted : ∀ {t id i h}, fs.lookup (filePath t id .pack) = some i →
    fs.lookup (filePath t id .hint) = some h → ∃ es, fs.data h = hintBytes es ∧
      (es.map Prod.fst).Nodup ∧ (∀ e ∈ es, e ∈ recordLocs id 0 (recs id)) ∧
      ∀ {key l}, idx key = some l → l.pack = id → (key, l) ∈ es
  found : ∀ {key l}, idx key = some l →
    Present n fs l.pack ∧ lastOf (recordLocs l.pack 0 (recs l.pack)) key = some l
  ahead : ∀ {key l id}, idx key = some l → Present n fs id →
    lastOf (recordLocs id 0 (recs id)) key ≠ none → id ≤ l.pack
  missing : ∀ {key id}, idx key = none → Present n fs id →
    lastOf (recordLocs id 0 (recs id)) key = none

theorem archived_of_sealed {w : World} {a : Nat} {recs : Records} (hc : w.Consistent a)
    (hsh : w.Shelved a recs) (hsealed : w.HintAt recs 0 a) (hlatest : w.Latest recs)
    (ha : a < 1000000) :
    Archived w.fs w.store.tiers.length recs fun key => w.store.index.lookup key := by
  have hpack : ∀ {t id i}, w.fs.lookup (filePath t id .pack) = some i →
      ∃ e, w.store.extent id = some e := by
    intro t id i hi
    obtain ⟨id', e, hname, he⟩ := hsh.known hi (globPack_packName id)
    have hid : id = id' := (packName_inj.mp hname).1
    exact ⟨e, hid ▸ he⟩
  have hpresent : ∀ {id}, Present w.store.tiers.length w.fs id → ∃ e, w.store.extent id = some e :=
    fun ⟨_, _, _, hi⟩ => hpack hi
  refine ⟨?_, ?_, ?_, ?_, ?_, ?_⟩
  · intro t name i hi hglob
    obtain ⟨id, e, rfl, he⟩ := hsh.known hi hglob
    have hfile : w.fs.lookup (filePath t id .pack) = some i := hi
    exact ⟨(hsh.lowest he hfile).2, id, (hc.packs he).2.trans_lt ha, rfl⟩
  · intro t id i hi
    obtain ⟨e, he⟩ := hpack hi
    obtain ⟨hdata, -, happ⟩ := hsh.written he
    refine ⟨?_, happ⟩
    by_cases hid : id = a
    · subst hid
      rw [hc.sole he hi, hdata]
    · rw [(hc.copies he hid hi).2, hdata]
  · intro t id i h hi hh
    obtain ⟨e, he⟩ := hpack hi
    by_cases hid : id = a
    · subst hid
      obtain ⟨h', es, hh', hdata, hes⟩ := hsealed
      rw [(hsh.stale hh).1, hh'] at hh
      cases hh
      exact ⟨es, hdata, hes.nodup, hes.mem, hes.complete⟩
    · obtain ⟨h', es, hh', hdata, hes⟩ := hsh.hints he hid
      have hcopy := hsh.hintCopies he hid hh' hh (hsh.lowest he hi).1
      exact ⟨es, hcopy.trans hdata, hes.nodup, hes.mem, hes.complete⟩
  · intro key l hl
    obtain ⟨⟨e, he⟩, hlast⟩ := hlatest.found hl
    obtain ⟨ht, i, hi⟩ := hsh.home he
    exact ⟨⟨e.tier, ht, i, hi⟩, hlast⟩
  · intro key l id hl hid hlast
    obtain ⟨e, he⟩ := hpresent hid
    exact hlatest.ahead hl he hlast
  · intro key id hl hid
    obtain ⟨e, he⟩ := hpresent hid
    exact hlatest.missing hl he

section

variable {env : OpenEnv} {fs : FileSystem} {n : Nat} {recs : Records} {idx : Bytes → Option Loc}
  {V : List (Nat × Nat)} {acc : World × Nat}

variable (hd : Archived fs n recs idx)

include hd

theorem Archived.dropHints : Archived (dropHints fs) n recs idx := by
  refine ⟨?_, ?_, ?_, ?_, ?_, ?_⟩
  · intro t name i hi hglob
    rw [lookup_dropHints_glob fs hglob] at hi
    exact hd.named hi hglob
  · intro t id i hi
    rw [lookup_dropHints_pack] at hi
    exact hd.whole hi
  · intro t id i h _ hh
    rw [lookup_dropHints_hint] at hh
    cases hh
  · intro key l hl
    rw [present_dropHints]
    exact hd.found hl
  · intro key l id hl hid
    exact hd.ahead hl ((present_dropHints n fs id).mp hid)
  · intro key id hl hid
    exact hd.missing hl ((present_dropHints n fs id).mp hid)

omit hd in
/-- A pack of complete records is scanned to its end. -/
theorem scan_packBytes (id : Nat) {rs : List (Bytes × Bytes)} (happ : Appended rs) :
    scan id (packBytes rs) = (recordLocs id 0 rs, (packBytes rs).length) := by
  have hkey : Storable [97] [] := by constructor <;> decide
  have hscan := scan_torn id happ hkey nil_prefix (by decide)
  rwa [append_nil] at hscan

/-- No pack is torn, so loading changes the bytes of no file. -/
theorem Archived.data (h : Visited env fs V acc) {i : Nat}
    (hi : i < fs.inodes.length) : acc.1.fs.data i = fs.data i := by
  rcases h.data hi with hsame | ⟨htorn, t, id, -, -, hfile⟩
  · exact hsame
  · obtain ⟨hdata, happ⟩ := hd.whole hfile
    rw [tornEnd_iff id, hdata, scan_packBytes id happ] at htorn
    exact absurd rfl htorn

/-- What loading a pack adds, from its hint or from its records. -/
theorem Archived.load (h : Visited env fs V acc) {t id i : Nat}
    (hnone : acc.1.store.packs.lookup id = none) (hi : fs.lookup (filePath t id .pack) = some i)
    (hfault : env.fault t id = none) :
    (acc.1.load env t id).2 = true ∧ ∃ es : List (Bytes × Loc),
      (∀ e ∈ es, e ∈ recordLocs id 0 (recs id)) ∧
      (∀ {key l}, idx key = some l → l.pack = id → lastOf es key = some l) ∧
      ∀ key, (acc.1.load env t id).1.store.index.lookup key =
        newest id (lastOf es key) (acc.1.store.index.lookup key) := by
  obtain ⟨hbytes, happ⟩ := hd.whole hi
  have hpacks : ∀ {es : List (Bytes × Loc)}, (∀ e ∈ es, e ∈ recordLocs id 0 (recs id)) →
      ∀ e ∈ es, e.2.pack = id := fun hmem e he => (mem_recordLocs (hmem e he)).1
  have hdata : acc.1.fs.data i = packBytes (recs id) :=
    (hd.data h (lookup_lt hi)).trans hbytes
  rcases load_cases env acc.1 t id with ⟨hno, -⟩ | ⟨file, hint, hfile, -, hhint, heq⟩ |
    ⟨file, hfile, -, -, heq⟩
  · rw [h.enters_iff hnone] at hno
    exact absurd ⟨⟨i, hi⟩, by rw [hfault]; exact fun hf => nomatch hf⟩ hno
  · rw [h.names hnone] at hfile hhint
    rw [hi] at hfile
    cases hfile
    obtain ⟨es, hes, hnodup, hmem, hcomplete⟩ := hd.hinted hi hhint
    have hentries : hintEntries id (acc.1.fs.data i).length (acc.1.fs.data hint) = es := by
      rw [hd.data h (lookup_lt hhint), hes, hdata]
      apply hintEntries_hintBytes happ.length_lt
      intro x hx
      have hin := inPack_of_mem_recordLocs happ.addressable (hmem x hx)
      rwa [Nat.zero_add] at hin
    rw [heq]
    refine ⟨rfl, es, hmem, fun hl hpack => lastOf_of_mem hnodup (hcomplete hl hpack), ?_⟩
    intro key
    change ((hintEntries id (acc.1.fs.data i).length (acc.1.fs.data hint)).foldl (add id)
      (acc.1.store.addPack (openedPack env acc.1.fs t id i))).index.lookup key = _
    rw [hentries, lookup_foldl_add _ (hpacks hmem)]
    rfl
  · rw [h.names hnone, hi] at hfile
    cases hfile
    have hscan : scan id (acc.1.fs.data i) =
        (recordLocs id 0 (recs id), (packBytes (recs id)).length) := by
      rw [hdata]
      exact scan_packBytes id happ
    rw [heq]
    rcases loadScan_cases env acc.1
      (openedPack env acc.1.fs t id i) with ⟨-, hcut, -⟩ | ⟨hseal, -⟩ |
      ⟨-, -, bytes, hres⟩
    · exact absurd (hfault.symm.trans hcut) (fun hf => nomatch hf)
    · exact absurd (hfault.symm.trans hseal) (fun hf => nomatch hf)
    · rw [hres]
      refine ⟨rfl, recordLocs id 0 (recs id), fun _ he => he, ?_, ?_⟩
      · intro key l hl hpack
        rw [← hpack]
        exact (hd.found hl).2
      · intro key
        change (scanned acc.1.store (openedPack env acc.1.fs t id i)
          (scan id (acc.1.fs.data i))).index.lookup key = _
        rw [hscan]
        exact lookup_scanned (hpacks fun _ he => he) key

/-! ## The loop -/

/-- After the names in `V`: the index holds records of the packs in the table, and of each key that
belongs to one of them the entry it is to end with. -/
structure Gathered (env : OpenEnv) (fs : FileSystem) (recs : Records) (idx : Bytes → Option Loc)
    (V : List (Nat × Nat)) (acc : World × Nat) : Prop extends Visited env fs V acc where
  books : acc.1.store.Balanced 0
  idle : acc.1.store.active = none
  found : ∀ {key l}, acc.1.store.index.lookup key = some l →
    (key, l) ∈ recordLocs l.pack 0 (recs l.pack)
  final : ∀ {key l}, idx key = some l → (acc.1.store.packs.lookup l.pack).isSome →
    acc.1.store.index.lookup key = some l
  below : ∀ {id}, (acc.1.store.packs.lookup id).isSome → id ≤ acc.2
  last : acc.2 = 0 ∨ (acc.1.store.packs.lookup acc.2).isSome

omit hd in
theorem gathered_nil (budgets : List Int) :
    Gathered env fs recs idx [] (⟨emptyStore budgets, fs⟩, 0) where
  toVisited := visited_nil budgets
  books := balanced_emptyStore budgets
  idle := rfl
  found hl := nomatch hl
  final _ hpack := nomatch hpack
  below hpack := nomatch hpack
  last := .inl rfl

theorem Gathered.present (h : Gathered env fs recs idx V acc) {id : Nat}
    (hpack : (acc.1.store.packs.lookup id).isSome) : Present n fs id := by
  obtain ⟨t, -, ⟨i, hi⟩, -⟩ := h.entered.mp hpack
  exact ⟨t, (hd.named hi (globPack_packName id)).1, i, hi⟩

/-- A pack that comes now is newer than what the index has of its keys, or the entry to end with is
there already. -/
theorem Gathered.load (h : Gathered env fs recs idx V acc)
    {t id i : Nat} (hid : id < 1000000) (hnone : acc.1.store.packs.lookup id = none)
    (hi : fs.lookup (filePath t id .pack) = some i) (hfault : env.fault t id = none) :
    Gathered env fs recs idx ((t, id) :: V) ((acc.1.load env t id).1, max acc.2 id) := by
  have hpresent : Present n fs id := ⟨t, (hd.named hi (globPack_packName id)).1, i, hi⟩
  have henters : Enters env acc.1.fs t id :=
    (h.enters_iff hnone).mpr ⟨⟨i, hi⟩, by rw [hfault]; exact fun hf => nomatch hf⟩
  have htable : ∀ {q}, ((acc.1.load env t id).1.store.packs.lookup q).isSome ↔
      (acc.1.store.packs.lookup q).isSome ∨ q = id := by
    intro q
    rw [isSome_packs_load]
    exact or_congr_right ⟨fun hq => hq.1, fun hq => ⟨hq, henters⟩⟩
  obtain ⟨-, es, hmem, hlast, hindex⟩ := hd.load h.toVisited hnone hi hfault
  refine ⟨h.toVisited.load hid hnone _, ?_, ?_, ?_, ?_, ?_, ?_⟩
  · apply balanced_load h.books hnone
    intro _ _ _ _
    rw [hfault]
    exact fun hf => nomatch hf
  · exact (active_load env acc.1 t id).trans h.idle
  · intro key l hl
    rw [hindex] at hl
    rcases newest_cases id (lastOf es key) (acc.1.store.index.lookup key) with
      ⟨heq, -⟩ | ⟨heq, -, -⟩
    · rw [heq] at hl
      exact h.found hl
    · rw [heq] at hl
      have hrec := hmem _ (mem_of_lastOf hl)
      have hpack : l.pack = id := (mem_recordLocs hrec).1
      rw [hpack]
      exact hrec
  · intro key l hl hpack
    rw [hindex]
    rcases newest_cases id (lastOf es key) (acc.1.store.index.lookup key) with
      ⟨heq, hwhy⟩ | ⟨heq, hsome, hle⟩
    · rw [heq]
      rcases htable.mp hpack with hold | hnew
      · exact h.final hl hold
      · -- an entry of a newer pack would be ahead of the one to end with
        rw [hlast hl hnew] at hwhy
        rcases hwhy with hno | ⟨o, ho, hlt⟩
        · cases hno
        · have hrec := h.found ho
          have hin : Present n fs o.pack := by
            obtain ⟨p, hp⟩ := h.books.known key o ho
            exact h.present hd (by rw [hp]; rfl)
          have hahead := hd.ahead hl hin fun hno => lastOf_eq_none.mp hno _ hrec rfl
          omega
    · rw [heq]
      rcases htable.mp hpack with hold | hnew
      · -- this pack has the key too, so it is not newer than the one to end with
        have hcur := h.final hl hold
        have hge := hle l hcur
        obtain ⟨l', hl'⟩ := Option.ne_none_iff_exists'.mp hsome
        have hrec := hmem _ (mem_of_lastOf hl')
        have hahead := hd.ahead hl hpresent fun hno => lastOf_eq_none.mp hno _ hrec rfl
        have hpid : l.pack = id := by omega
        rw [hlast hl hpid]
      · rw [hlast hl hnew]
  · intro q hq
    change q ≤ max acc.2 id
    rcases htable.mp hq with hold | rfl
    · exact (h.below hold).trans (le_max_left _ _)
    · exact le_max_right _ _
  · right
    change ((acc.1.load env t id).1.store.packs.lookup (max acc.2 id)).isSome
    rw [htable]
    rcases h.last with hzero | hlast
    · right
      omega
    · rcases max_choice acc.2 id with hmax | hmax
      · rw [hmax]
        exact .inl hlast
      · exact .inr hmax

theorem Gathered.openName (h : Gathered env fs recs idx V acc)
    {t id i : Nat} (hid : id < 1000000) (hi : fs.lookup (filePath t id .pack) = some i)
    (hfault : env.fault t id = none) :
    Gathered env fs recs idx ((t, id) :: V) (openName env t acc (packName id packExt)) := by
  have hscan := scanId_packName hid
  rcases openName_cases env t acc hscan with ⟨hsome, heq⟩ | ⟨hnone, heq⟩
  · rw [heq]
    exact ⟨h.toVisited.pruned (globPack_packName id) hscan hsome, h.books, h.idle, h.found, h.final,
      h.below, h.last⟩
  · rw [heq, if_pos (hd.load h.toVisited hnone hi hfault).1]
    exact h.load hd hid hnone hi hfault

theorem Gathered.loadIn (hfault : ∀ t id, env.fault t id = none)
    {order : List Path} (horder : ∀ q ∈ order, globPack q.2 = true ∧ ∃ i, fs.lookup q = some i)
    (h : Gathered env fs recs idx V acc) :
    ∃ V', Gathered env fs recs idx V' (loadIn env order acc) ∧ (∀ v ∈ V, v ∈ V') ∧
      ∀ t id, filePath t id .pack ∈ order → (t, id) ∈ V' := by
  induction order generalizing V acc with
  | nil => exact ⟨V, h, fun _ hv => hv, fun _ _ hmem => nomatch hmem⟩
  | cons q order ih =>
    obtain ⟨t, name⟩ := q
    obtain ⟨hglob, i, hi⟩ := horder (t, name) mem_cons_self
    obtain ⟨-, id, hid, rfl⟩ := hd.named hi hglob
    have hstep := h.openName hd hid hi (hfault t id)
    obtain ⟨V', hend, hsub, hall⟩ := ih (fun q hq => horder q (mem_cons_of_mem _ hq)) hstep
    refine ⟨V', hend, fun v hv => hsub v (mem_cons_of_mem _ hv), ?_⟩
    intro t' id' hmem
    rcases mem_cons.mp hmem with heq | hmem
    · have hpath : filePath t' id' .pack = filePath t id .pack := heq
      obtain ⟨rfl, rfl, -⟩ := filePath_inj.mp hpath
      exact hsub _ mem_cons_self
    · exact hall t' id' hmem

/-! ## The opened store -/

/-- The store opened on such directories: its index, its books, and a new pack beyond the others. -/
structure ReadsBack (n : Nat) (fs : FileSystem) (idx : Bytes → Option Loc) (v : World) : Prop where
  index : ∀ key, v.store.index.lookup key = idx key
  live : ∀ id, v.store.Counts id
  packs : ∃ m, (∀ id, Present n fs id → id ≤ m) ∧ (m = 0 ∨ Present n fs m) ∧
    ∀ id, (v.store.packs.lookup id).isSome ↔ Present n fs id ∨ id = m + 1

theorem Archived.openStoreIn (budgets : List Int) {order : List Path}
    (hfault : ∀ t id, env.fault t id = none) (hopen : env.openFails = false)
    (horder : LoadOrder n fs order) :
    ∃ v, openStoreIn env budgets order fs = (v, true) ∧ ReadsBack n fs idx v := by
  have hstart : Gathered env fs recs idx [] (⟨emptyStore budgets, fs⟩, 0) := gathered_nil budgets
  obtain ⟨V, hend, -, hall⟩ := hstart.loadIn hd hfault fun q hq => ((horder q).mp hq).2
  rw [World.openStoreIn]
  generalize World.loadIn env order (⟨emptyStore budgets, fs⟩, 0) = loaded at hend
  have htable : ∀ id, (loaded.1.store.packs.lookup id).isSome ↔ Present n fs id := by
    intro id
    refine ⟨hend.present hd, ?_⟩
    rintro ⟨t, ht, i, hi⟩
    refine hend.entered.mpr ⟨t, hall t id ?_, ⟨i, hi⟩, ?_⟩
    · exact (horder _).mpr ⟨ht, globPack_packName id, i, hi⟩
    · rw [hfault]
      exact fun hf => nomatch hf
  have hmillion : loaded.2 < 1000000 := by
    rcases hend.last with hzero | hlast
    · omega
    · obtain ⟨t, hmem, -⟩ := hend.entered.mp hlast
      exact hend.ids hmem
  have hnew : u32 (loaded.2 + 1) = loaded.2 + 1 := u32_of_lt (by omega)
  have hfree : loaded.1.fs.lookup (filePath 0 (loaded.2 + 1) .pack) = none := by
    have hout : loaded.1.store.packs.lookup (loaded.2 + 1) = none := by
      rw [← Option.not_isSome_iff_eq_none]
      intro hin
      have := hend.below hin
      omega
    rw [hend.names hout, Option.eq_none_iff_forall_not_mem]
    intro i hi
    have hin := (htable _).mpr ⟨0, (hd.named hi (globPack_packName _)).1, i, hi⟩
    rw [hout] at hin
    cases hin
  have hidle : loaded.1.sealActive ⟨env.order, false⟩ = (loaded.1, true) := by
    rw [sealActive, activePack, hend.idle]
    rfl
  refine ⟨loaded.1.openActive env.now (loaded.2 + 1), ?_, ?_, ?_, loaded.2, ?_, ?_, ?_⟩
  · simp only [rotate, hidle, hnew, hopen, hfree]
    rfl
  · intro key
    change loaded.1.store.index.lookup key = idx key
    cases hl : idx key with
    | some l => exact hend.final hl ((htable _).mpr (hd.found hl).1)
    | none =>
      rw [Option.eq_none_iff_forall_not_mem]
      intro l hl'
      obtain ⟨p, hp⟩ := hend.books.known key l hl'
      have hin := (htable l.pack).mp (by rw [hp]; rfl)
      exact lastOf_eq_none.mp (hd.missing hl hin) _ (hend.found hl') rfl
  · refine (accounted_openActive hend.books ?_ env.now).books.live
    intro q e he
    obtain ⟨p, hp, -⟩ := lookup_of_extent he
    have hin : (loaded.1.store.packs.lookup q).isSome := by rw [hp]; rfl
    have := hend.below hin
    omega
  · exact fun id hid => hend.below ((htable id).mpr hid)
  · exact hend.last.imp_right (htable _).mp
  · intro id
    change ((loaded.1.store.packs.insert (loaded.2 + 1) _).lookup id).isSome ↔ _
    rw [Table.lookup_insert, ← htable]
    split
    · rename_i hid
      exact iff_of_true rfl (.inr hid)
    · rename_i hid
      exact ⟨.inl, fun h => h.resolve_right hid⟩

end

/-- The same entry for every key, and the same packs with the same live bytes. -/
structure SameBooks (s s' : Store) : Prop where
  index : ∀ key, s.index.lookup key = s'.index.lookup key
  live : ∀ id, (s.packs.lookup id).map Pack.live = (s'.packs.lookup id).map Pack.live

theorem ReadsBack.sameBooks {n : Nat} {fs fs' : FileSystem} {idx : Bytes → Option Loc}
    {v v' : World} (hpresent : ∀ id, Present n fs id ↔ Present n fs' id) (h : ReadsBack n fs idx v)
    (h' : ReadsBack n fs' idx v') : SameBooks v.store v'.store := by
  have hindex : ∀ key, v.store.index.lookup key = v'.store.index.lookup key :=
    fun key => (h.index key).trans (h'.index key).symm
  refine ⟨hindex, fun id => ?_⟩
  obtain ⟨m, hbelow, hlast, htable⟩ := h.packs
  obtain ⟨m', hbelow', hlast', htable'⟩ := h'.packs
  have hm : m = m' := by
    have hle : m ≤ m' := by
      rcases hlast with hzero | hin
      · omega
      · exact hbelow' m ((hpresent m).mp hin)
    have hge : m' ≤ m := by
      rcases hlast' with hzero | hin
      · omega
      · exact hbelow m' ((hpresent m').mpr hin)
    omega
  have hsome : (v.store.packs.lookup id).isSome ↔ (v'.store.packs.lookup id).isSome := by
    rw [htable, htable', hpresent, hm]
  have hbytes : v.store.liveBytes id = v'.store.liveBytes id := by
    apply Table.total_congr
    intro key
    rw [hindex]
  cases hp : v.store.packs.lookup id with
  | none =>
    rw [hp] at hsome
    have hnone : v'.store.packs.lookup id = none := by
      rw [← Option.not_isSome_iff_eq_none, ← hsome]
      decide
    rw [hnone]
  | some p =>
    rw [hp] at hsome
    obtain ⟨p', hp'⟩ := Option.isSome_iff_exists.mp (hsome.mp rfl)
    rw [hp', Option.map_some, Option.map_some, h.live id p hp, h'.live id p' hp', hbytes]

end World

/-- A store that is closed after a life without evictions, none of whose stops left a hint that was
behind its pack, is opened to the same index and live bytes with all its hints and with none, in
whatever orders its packs are loaded. -/
theorem hints_agree_with_data {n : Nat} {s : Sys} (h : KeptLife n Sys.HintCurrent s)
    (hids : ∀ a, s.store.active = some a → a < 1000000) {senv : SealEnv} {w : World}
    (hclose : s.world.close senv = (w, true)) {env env' : OpenEnv} {budgets budgets' : List Int}
    (hfault : ∀ t id, env.fault t id = none) (hfault' : ∀ t id, env'.fault t id = none)
    (hopen : env.openFails = false) (hopen' : env'.openFails = false) {order order' : List Path}
    (horder : World.LoadOrder n w.fs order) (horder' : World.LoadOrder n (dropHints w.fs) order') :
    ∃ v v', openStoreIn env budgets order w.fs = (v, true) ∧
      openStoreIn env' budgets' order' (dropHints w.fs) = (v', true) ∧
      World.SameBooks v.store v'.store := by
  obtain ⟨a, recs, hs, hlatest⟩ := h.latest
  have hc := hs.ok.consistent
  obtain ⟨hsh, hsealed⟩ := hs.shelved.sealActive hc senv
  have hstore : (s.world.sealActive senv).1.store = s.world.store := sealActive_store senv _
  have hw : (s.world.sealActive senv).1 = w := congrArg Prod.fst hclose
  have htiers : w.store.tiers.length = n := by
    rw [← hw, hstore]
    exact hs.tiers
  have hlatest' : (s.world.sealActive senv).1.Latest recs := by
    rw [World.Latest, hstore]
    exact hlatest
  have hd := archived_of_sealed (hc.sealActive senv) hsh (hsealed (congrArg Prod.snd hclose))
    hlatest' (hids a hc.active)
  rw [hw, htiers] at hd
  obtain ⟨v, hv, hread⟩ := hd.openStoreIn budgets hfault hopen horder
  obtain ⟨v', hv', hread'⟩ := hd.dropHints.openStoreIn budgets' hfault' hopen' horder'
  exact ⟨v, v', hv, hv', hread.sameBooks (fun id => (present_dropHints n w.fs id).symm) hread'⟩

/-! ## One pack -/

theorem KeptLife.life {n : Nat} {Stop : Sys → FileSystem → Prop} {s : Sys} (h : KeptLife n Stop s) :
    Life n s := by
  induction h with
  | opened hpos hlen hopen => exact .opened hpos hlen hopen
  | step _ hstep _ ih => exact ih.step hstep
  | reopened _ hids hleft _ _ hlen hfault hopen ih => exact ih.reopened hids hleft hlen hfault hopen

theorem Life.only_pack {n : Nat} {s : Sys} (h : Life n s) (hactive : s.store.active = some 1)
    (hzero : s.store.extent 0 = none) {id : Nat} {e : Extent} (he : s.store.extent id = some e) :
    id = 1 := by
  obtain ⟨a, recs, hs⟩ := h.sound
  have ha : a = 1 := Option.some.inj (hs.ok.consistent.active.symm.trans hactive)
  have hle := (hs.ok.consistent.packs he).2
  have hne : id ≠ 0 := by
    rintro rfl
    rw [hzero] at he
    cases he
  omega

theorem keptLife_oneKey (Stop : Sys → FileSystem → Prop) : KeptLife 1 Stop oneKey := by
  have hopen : openStore plainOpen [0] empty = (_, true) := rfl
  have hstart : KeptLife 1 Stop (Sys.fresh (openStore plainOpen [0] empty).1) :=
    .opened (by decide) rfl hopen
  refine hstart.step (l := .put plainPut [97] 1 [111])
    ⟨rfl, rfl, not_wraps_put (p := ⟨1, 0, 0, 0, 0, 0, 0⟩) rfl (by decide)⟩ ?_
  intro id e he
  rw [hstart.life.only_pack rfl rfl he]
  exact ⟨⟨1, 0, 0, 10⟩, rfl⟩

theorem hints_agree_with_data_oneKey : ∃ v v',
    openStore plainOpen [0] (oneKey.world.close plainPut.rotate.sealing).1.fs = (v, true) ∧
    openStore plainOpen [0]
      (dropHints (oneKey.world.close plainPut.rotate.sealing).1.fs) = (v', true) ∧
    World.SameBooks v.store v'.store := by
  obtain ⟨order, horder, heq⟩ := openStore_eq_openStoreIn plainOpen [0]
    (oneKey.world.close plainPut.rotate.sealing).1.fs
  obtain ⟨order', horder', heq'⟩ := openStore_eq_openStoreIn plainOpen [0]
    (dropHints (oneKey.world.close plainPut.rotate.sealing).1.fs)
  have hclose : oneKey.world.close plainPut.rotate.sealing =
      ((oneKey.world.close plainPut.rotate.sealing).1, true) := rfl
  rw [heq, heq']
  refine hints_agree_with_data (keptLife_oneKey _) ?_ hclose (fun _ _ => rfl)
    (fun _ _ => rfl) rfl rfl
    horder horder'
  intro a ha
  have hactive : oneKey.store.active = some 1 := rfl
  rw [hactive] at ha
  cases ha
  decide

def behindHint : Sys := sealedOneKey.stepPut plainPut [97] 1 [110]

def believed : World := (openStore plainOpen [0] behindHint.fs).1

theorem keptLife_behindHint : KeptLife 1 (fun _ _ => True) behindHint := by
  obtain ⟨big, hbig⟩ : ∃ big : Bytes, big.length = packLimit :=
    ⟨replicate packLimit 0, length_replicate⟩
  have hone := keptLife_oneKey fun _ _ => True
  have hsealed : KeptLife 1 (fun _ _ => True) sealedOneKey := by
    refine hone.step (l := .put createFails [98] big.length big)
      ⟨congrArg some (stepPut_createFails hbig), rfl,
        not_wraps_put (p := ⟨1, 0, 0, 10, 1, 0, 0⟩) rfl (by decide)⟩ ?_
    intro id e he
    rw [hone.life.only_pack rfl rfl he]
    exact ⟨⟨1, 0, 0, 10⟩, rfl⟩
  refine hsealed.step (l := .put plainPut [97] 1 [110])
    ⟨rfl, rfl, not_wraps_put (p := ⟨1, 0, 0, 10, 1, 0, 0⟩) rfl (by decide)⟩ ?_
  intro id e he
  rw [hsealed.life.only_pack rfl rfl he]
  exact ⟨⟨1, 0, 0, 20⟩, rfl⟩

/-- The crash behind a failed rotation: the next process takes the hint at its word and goes back to
the old value of `a`.  When it is closed, the pack and its hint still disagree. -/
theorem stale_hint_survives_close : ∃ s w v v',
    KeptLife 1 (fun _ _ => True) s ∧ s.world.close plainPut.rotate.sealing = (w, true) ∧
    openStore plainOpen [0] w.fs = (v, true) ∧
    openStore plainOpen [0] (dropHints w.fs) = (v', true) ∧
    v.store.index.lookup [97] = some ⟨1, 9, 1⟩ ∧ v'.store.index.lookup [97] = some ⟨1, 19, 1⟩ := by
  have hlife := keptLife_behindHint
  have hbelieved : KeptLife 1 (fun _ _ => True) (Sys.fresh believed) := by
    have hdone : (openStore plainOpen [0] behindHint.fs).2 = true := by decide +kernel
    have hopen : openStore plainOpen [0] behindHint.fs = (believed, true) :=
      Prod.ext rfl hdone
    refine hlife.reopened ?_ .now ?_ trivial rfl (fun _ _ => rfl) hopen
    · intro a ha
      have hactive : behindHint.store.active = some 1 := rfl
      rw [hactive] at ha
      cases ha
      decide
    · intro id e he
      rw [hlife.life.only_pack rfl rfl he]
      exact ⟨0, 0, rfl⟩
  refine ⟨Sys.fresh believed, _, _, _, hbelieved, rfl, rfl, rfl, ?_, ?_⟩
  · decide +kernel
  · decide +kernel

end Corepkgs.Jigd
