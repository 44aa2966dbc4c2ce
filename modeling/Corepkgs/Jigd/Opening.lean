import Corepkgs.Jigd.Crash
/-!
# Which packs `OpenStore` counts

`OpenStore` goes through the names of every tier and derives the id of the new
active pack from the packs whose `load` succeeded.  On arbitrary directories this
module says which packs reach the table, which of them count for the next id, and
when that id is new.

* `load_ok_iff`, `isSome_packs_load` — when one `load` succeeds and when it enters its pack;
* `Visited`, `Opened` — the loop's invariant, over the names visited so far;
* `new_id_fresh_iff` — the next id is beyond every pack file just when the largest
  one is read back from its name and loads.
-/

namespace Corepkgs.Jigd

open Lib List FileSystem Store Option Nat

section Loads

variable (env : OpenEnv) (fs : FileSystem) (t id : Nat)

/-- No call of `load` fails: the pack has a hint, or its tail is whole or is cut off, and then a
hint is written. -/
def Loads : Prop :=
  Enters env fs t id ∧ ((∃ h, fs.lookup (filePath t id .hint) = some h) ∨
    (env.fault t id ≠ some .sealing ∧ ∀ i, fs.lookup (filePath t id .pack) = some i →
      TornEnd (fs.data i) → env.fault t id ≠ some .truncating))

end Loads

namespace World

/-! ## One load -/

theorem load_ok_iff (env : OpenEnv) (w : World) (t id : Nat) :
    (w.load env t id).2 = true ↔ Loads env w.fs t id := by
  rcases load_cases env w t id with ⟨hno, heq⟩ | ⟨file, hint, hfile, hopen, hhint, heq⟩ |
    ⟨file, hfile, hopen, hhint, heq⟩
  · rw [heq]
    exact ⟨fun h => absurd h Bool.false_ne_true, fun h => absurd h.1 hno⟩
  · rw [heq]
    exact ⟨fun _ => ⟨⟨⟨file, hfile⟩, hopen⟩, .inl ⟨hint, hhint⟩⟩, fun _ => rfl⟩
  · have htorn : (scan id (w.fs.data file)).2 ≠ (w.fs.data file).length ↔
        TornEnd (w.fs.data file) := (tornEnd_iff id _).symm
    have hno : ¬ ∃ h, w.fs.lookup (filePath t id .hint) = some h := by
      rintro ⟨h, hh⟩
      rw [hhint] at hh
      cases hh
    rw [heq]
    rcases loadScan_cases env w (openedPack env w.fs t id file) with ⟨hcut, hfault, hres⟩ |
      ⟨hfault, hres⟩ | ⟨hcut, hseal, bytes, hres⟩
    · rw [hres]
      refine ⟨fun h => absurd h Bool.false_ne_true, fun h => ?_⟩
      rcases h.2 with hh | ⟨-, htrunc⟩
      · exact absurd hh hno
      · exact absurd hfault (htrunc file hfile (htorn.mp hcut))
    · rw [hres]
      refine ⟨fun h => absurd h Bool.false_ne_true, fun h => ?_⟩
      rcases h.2 with hh | ⟨hseal, -⟩
      · exact absurd hh hno
      · exact absurd hfault hseal
    · rw [hres]
      refine ⟨fun _ => ⟨⟨⟨file, hfile⟩, hopen⟩, .inr ⟨hseal, ?_⟩⟩, fun _ => rfl⟩
      intro i hi htorn'
      rw [hfile] at hi
      cases hi
      exact hcut (htorn.mpr htorn')

/-- A pack reaches the table when its file opens, whatever fails after that. -/
theorem isSome_packs_load (env : OpenEnv) (w : World) (t id q : Nat) :
    ((w.load env t id).1.store.packs.lookup q).isSome ↔
      (w.store.packs.lookup q).isSome ∨ (q = id ∧ Enters env w.fs t id) := by
  have hext : ∀ s : Store, (s.packs.lookup q).isSome ↔ (s.extent q).isSome := by
    intro s
    rw [extent, isSome_map]
  rw [hext, hext]
  rcases extent_load env w t id with ⟨hno, heq⟩ | ⟨hin, i, n, -, -, heq⟩
  · rw [heq]
    simp [hno]
  · rw [heq]
    by_cases hq : q = id <;> simp [hq, hin]

/-! ## The loop -/

/-- No file of two packs: only then does cutting one leave the others as they are. -/
def OwnFiles (fs : FileSystem) : Prop :=
  ∀ {t id t' id' i}, fs.lookup (filePath t id .pack) = some i →
    fs.lookup (filePath t' id' .pack) = some i → id = id'

/-- `OpenStore` after the names in `V` were visited, in whatever order, as pairs of tier and id
read. A pack is in the table if its file opened somewhere; the others are on disk as they were. -/
structure Visited (env : OpenEnv) (fs : FileSystem) (V : List (Nat × Nat)) (acc : World × Nat) :
    Prop where
  entered : ∀ {id}, (acc.1.store.packs.lookup id).isSome ↔ ∃ t, (t, id) ∈ V ∧ Enters env fs t id
  names : ∀ {t id ext}, acc.1.store.packs.lookup id = none →
    acc.1.fs.lookup (filePath t id ext) = fs.lookup (filePath t id ext)
  data : ∀ {i}, i < fs.inodes.length → acc.1.fs.data i = fs.data i ∨
    (TornEnd (fs.data i) ∧ ∃ t id, (t, id) ∈ V ∧ Enters env fs t id ∧
      fs.lookup (filePath t id .pack) = some i)
  grown : fs.inodes.length ≤ acc.1.fs.inodes.length
  ids : ∀ {t id}, (t, id) ∈ V → id < 1000000

/-- Tier by tier, the first place where a pack opened decides whether it counts for `last`. -/
structure Opened (env : OpenEnv) (fs : FileSystem) (V : List (Nat × Nat)) (acc : World × Nat) : Prop
    extends Visited env fs V acc where
  counted : ∀ {t id}, (t, id) ∈ V → Loads env fs t id → (∀ t' < t, ¬ Enters env fs t' id) →
    id ≤ acc.2
  last : OwnFiles fs → acc.2 = 0 ∨ ∃ t, (t, acc.2) ∈ V ∧ Loads env fs t acc.2 ∧
    ∀ t' < t, (t', acc.2) ∈ V → ¬ Enters env fs t' acc.2

section Loop

variable {env : OpenEnv} {fs : FileSystem} {V : List (Nat × Nat)} {acc : World × Nat}

theorem visited_nil (budgets : List Int) : Visited env fs [] (⟨emptyStore budgets, fs⟩, 0) := by
  refine ⟨?_, fun _ => rfl, fun _ => .inl rfl, le_rfl, by simp⟩
  intro id
  have hnone : (emptyStore budgets).packs.lookup id = none := rfl
  simp [hnone]

theorem opened_nil (budgets : List Int) : Opened env fs [] (⟨emptyStore budgets, fs⟩, 0) :=
  ⟨visited_nil budgets, by simp, fun _ => .inl rfl⟩

variable {t id : Nat} {name : Bytes}

theorem Visited.enters_iff (h : Visited env fs V acc) (hnew : acc.1.store.packs.lookup id = none) :
    Enters env acc.1.fs t id ↔ Enters env fs t id := by
  rw [Enters, Enters, h.names hnew]

/-- What was whole is whole. -/
theorem Visited.tornEnd (h : Visited env fs V acc) {i : Nat} (hi : i < fs.inodes.length)
    (htorn : TornEnd (acc.1.fs.data i)) : TornEnd (fs.data i) := by
  rcases h.data hi with hdata | ⟨htorn', -⟩
  · rwa [hdata] at htorn
  · exact htorn'

theorem Visited.loads_of (h : Visited env fs V acc) (hnew : acc.1.store.packs.lookup id = none)
    (hloads : Loads env fs t id) :
    Loads env acc.1.fs t id := by
  rw [Loads, h.enters_iff hnew, h.names hnew, h.names hnew]
  refine ⟨hloads.1, hloads.2.imp_right fun hscan => ⟨hscan.1, ?_⟩⟩
  intro i hi htorn
  exact hscan.2 i hi (h.tornEnd (lookup_lt hi) htorn)

/-- A pack that is not in the table yet is on disk as it was. -/
theorem Visited.loads_iff (h : Visited env fs V acc) (hown : OwnFiles fs)
    (hnew : acc.1.store.packs.lookup id = none) :
    Loads env acc.1.fs t id ↔ Loads env fs t id := by
  refine ⟨?_, h.loads_of hnew⟩
  rw [Loads, h.enters_iff hnew, h.names hnew, h.names hnew]
  rintro ⟨henter, hscan⟩
  refine ⟨henter, hscan.imp_right fun hscan => ⟨hscan.1, ?_⟩⟩
  intro i hi htorn
  refine hscan.2 i hi ?_
  rcases h.data (lookup_lt hi) with hdata | ⟨-, t', id', hmem, henter', hi'⟩
  · rwa [hdata]
  · rw [hown hi' hi] at hmem henter'
    have hsome := h.entered.mpr ⟨t', hmem, henter'⟩
    rw [hnew] at hsome
    cases hsome

/-- A name that is read as another pack's id is the name of no file of this pack. -/
theorem filePath_ne_of_scanId {t' id' : Nat} {ext : Ext} (hid : scanId name = some id)
    (hglob : globPack name = true) (hne : id' ≠ id) :
    filePath t' id' ext ≠ (t, name) := by
  intro hpath
  have hname : packName id' ext.text = name := congrArg Prod.snd hpath
  cases ext with
  | pack =>
    rcases lt_or_ge id' 1000000 with hlt | hge
    · have hscan : scanId name = some id' := hname ▸ scanId_packName hlt
      rw [hid] at hscan
      exact hne (some.inj hscan).symm
    · have hscan : scanId name = none := hname ▸ scanId_packName_of_le hge
      rw [hid] at hscan
      cases hscan
  | hint =>
    have hno : globPack name = false := hname ▸ globPack_hint id'
    rw [hglob] at hno
    cases hno

/-- The name of a pack that is in the table goes, and so does a hint beside it. -/
theorem Visited.pruned (h : Visited env fs V acc) (hglob : globPack name = true)
    (hid : scanId name = some id) (hsome : (acc.1.store.packs.lookup id).isSome) :
    Visited env fs ((t, id) :: V)
      (⟨acc.1.store, (acc.1.fs.remove (t, name)).remove (filePath t id .hint)⟩, acc.2) := by
  refine ⟨?_, ?_, ?_, h.grown, ?_⟩
  · intro q
    rw [h.entered]
    constructor
    · rintro ⟨t', hmem, henter⟩
      exact ⟨t', mem_cons_of_mem _ hmem, henter⟩
    · rintro ⟨t', hmem, henter⟩
      rcases mem_cons.mp hmem with heq | hmem
      · cases heq
        exact h.entered.mp hsome
      · exact ⟨t', hmem, henter⟩
  · intro t' id' ext hnone
    have hne : id' ≠ id := by
      rintro rfl
      change acc.1.store.packs.lookup id' = none at hnone
      rw [hnone] at hsome
      cases hsome
    rw [lookup_remove, if_neg (fun hpath => hne (filePath_inj.mp hpath).2.1),
      lookup_remove, if_neg (filePath_ne_of_scanId hid hglob hne)]
    exact h.names hnone
  · intro i hi
    rcases h.data hi with hdata | ⟨htorn, t', id', hmem, hrest⟩
    · exact .inl hdata
    · exact .inr ⟨htorn, t', id', mem_cons_of_mem _ hmem, hrest⟩
  · intro t' id' hmem
    rcases mem_cons.mp hmem with heq | hmem
    · cases heq
      exact scanId_lt hid
    · exact h.ids hmem

theorem Visited.load (h : Visited env fs V acc) (hmillion : id < 1000000)
    (hnone : acc.1.store.packs.lookup id = none) (last : Nat) :
    Visited env fs ((t, id) :: V) ((acc.1.load env t id).1, last) := by
  have hfiles := loadedFiles_load env acc.1 t id
  refine ⟨?_, ?_, ?_, h.grown.trans hfiles.grown, ?_⟩
  · intro q
    rw [isSome_packs_load, h.entered, h.enters_iff hnone]
    constructor
    · rintro (⟨t', hmem, henter⟩ | ⟨rfl, henter⟩)
      · exact ⟨t', mem_cons_of_mem _ hmem, henter⟩
      · exact ⟨t, mem_cons_self, henter⟩
    · rintro ⟨t', hmem, henter⟩
      rcases mem_cons.mp hmem with heq | hmem
      · cases heq
        exact .inr ⟨rfl, henter⟩
      · exact .inl ⟨t', hmem, henter⟩
  · intro t' id' ext hno
    have hboth : acc.1.store.packs.lookup id' = none ∧ ¬ (id' = id ∧ Enters env acc.1.fs t id) := by
      have hiff := isSome_packs_load env acc.1 t id id'
      simp only at hno
      rw [hno] at hiff
      simp only [isSome_none, Bool.false_eq_true, false_iff, not_or] at hiff
      exact ⟨not_isSome_iff_eq_none.mp hiff.1, hiff.2⟩
    rw [← h.names hboth.1]
    by_cases hid' : id' = id
    · -- then its file did not open, and nothing was done
      subst hid'
      have hout : ¬ Enters env acc.1.fs t id' := fun henter => hboth.2 ⟨rfl, henter⟩
      rcases load_cases env acc.1 t id' with ⟨-, heq⟩ | ⟨file, hint, hfile, hopen, -⟩ |
        ⟨file, hfile, hopen, -⟩
      · rw [heq]
      · exact absurd ⟨⟨file, hfile⟩, hopen⟩ hout
      · exact absurd ⟨⟨file, hfile⟩, hopen⟩ hout
    · exact hfiles.names (fun hpath => hid' (filePath_inj.mp hpath).2.1)
  · intro i hi
    rcases h.data hi with hold | ⟨htorn, t', id', hmem, hrest⟩
    · rcases hfiles.data (hi.trans_le h.grown) with hnew | ⟨htorn, henter, hlook⟩
      · exact .inl (hnew.trans hold)
      · rw [hold] at htorn
        rw [h.names hnone] at hlook
        exact .inr ⟨htorn, t, id, mem_cons_self, (h.enters_iff hnone).mp henter, hlook⟩
    · exact .inr ⟨htorn, t', id', mem_cons_of_mem _ hmem, hrest⟩
  · intro t' id' hmem
    rcases mem_cons.mp hmem with heq | hmem
    · cases heq
      exact hmillion
    · exact h.ids hmem

theorem openName_cases (env : OpenEnv) (t : Nat) (acc : World × Nat) (hid : scanId name = some id) :
    ((acc.1.store.packs.lookup id).isSome ∧ World.openName env t acc name =
        (⟨acc.1.store, (acc.1.fs.remove (t, name)).remove (filePath t id .hint)⟩, acc.2)) ∨
      (acc.1.store.packs.lookup id = none ∧ World.openName env t acc name =
        ((acc.1.load env t id).1,
          if (acc.1.load env t id).2 = true then max acc.2 id else acc.2)) := by
  rw [World.openName, hid]
  simp only
  split
  · rename_i hsome
    exact .inl ⟨hsome, rfl⟩
  · rename_i hnone
    rw [Bool.not_eq_true, isSome_eq_false_iff, isNone_iff_eq_none] at hnone
    refine .inr ⟨hnone, ?_⟩
    split
    · rename_i hw
      rw [hw, if_pos rfl]
    · rename_i hw
      rw [hw, if_neg Bool.false_ne_true]

theorem Visited.openName (h : Visited env fs V acc) (hglob : globPack name = true)
    (hid : scanId name = some id) :
    Visited env fs ((t, id) :: V) (openName env t acc name) := by
  rcases openName_cases env t acc hid with ⟨hsome, heq⟩ | ⟨hnone, heq⟩
  · rw [heq]
    exact h.pruned hglob hid hsome
  · rw [heq]
    exact h.load (scanId_lt hid) hnone _

theorem Opened.openName (h : Opened env fs V acc) (hle : ∀ v ∈ V, v.1 ≤ t)
    (hglob : globPack name = true) (hid : scanId name = some id) :
    Opened env fs ((t, id) :: V) (openName env t acc name) := by
  have hvisited := h.toVisited.openName (t := t) hglob hid
  -- a pack that has a place already keeps it
  have hkept : ∀ m, (m = 0 ∨ ∃ t, (t, m) ∈ V ∧ Loads env fs t m ∧
      ∀ t' < t, (t', m) ∈ V → ¬ Enters env fs t' m) →
      (m = 0 ∨ ∃ t₀, (t₀, m) ∈ (t, id) :: V ∧ Loads env fs t₀ m ∧
        ∀ t' < t₀, (t', m) ∈ (t, id) :: V → ¬ Enters env fs t' m) := by
    rintro m (hzero | ⟨t₀, hmem, hloads, hfirst⟩)
    · exact .inl hzero
    · refine .inr ⟨t₀, mem_cons_of_mem _ hmem, hloads, ?_⟩
      intro t' hlt hmem'
      rcases mem_cons.mp hmem' with heq | hmem'
      · have ht : t' = t := congrArg Prod.fst heq
        have hbound := hle _ hmem
        simp only at hbound
        omega
      · exact hfirst t' hlt hmem'
  rcases openName_cases env t acc hid with ⟨hsome, heq⟩ | ⟨hnone, heq⟩
  · rw [heq] at hvisited ⊢
    refine ⟨hvisited, ?_, fun hown => hkept _ (h.last hown)⟩
    intro t' id' hmem hloads hfirst
    rcases mem_cons.mp hmem with heq | hmem
    · cases heq
      obtain ⟨t', hmem', henter⟩ := h.entered.mp hsome
      have hbound := hle _ hmem'
      simp only at hbound
      rcases lt_or_ge t' t with hlt | hge
      · exact absurd henter (hfirst t' hlt)
      · have ht : t' = t := by omega
        subst ht
        exact h.counted hmem' hloads hfirst
    · exact h.counted hmem hloads hfirst
  · rw [heq] at hvisited ⊢
    have hok := load_ok_iff env acc.1 t id
    have hfresh : ∀ t', (t', id) ∈ V → ¬ Enters env fs t' id := by
      intro t' hmem henter
      have hsome := h.entered.mpr ⟨t', hmem, henter⟩
      rw [hnone] at hsome
      cases hsome
    by_cases hload : (acc.1.load env t id).2 = true
    · rw [if_pos hload] at hvisited ⊢
      refine ⟨hvisited, ?_, ?_⟩
      · intro t' id' hmem hl hfirst
        rcases mem_cons.mp hmem with heq | hmem
        · cases heq
          exact le_max_right _ _
        · exact (h.counted hmem hl hfirst).trans (le_max_left _ _)
      · intro hown
        rcases max_choice acc.2 id with hmax | hmax
        · rw [hmax]
          exact hkept _ (h.last hown)
        · right
          rw [hmax]
          refine ⟨t, mem_cons_self, (h.loads_iff hown hnone).mp (hok.mp hload), ?_⟩
          intro t' hlt hmem
          rcases mem_cons.mp hmem with heq | hmem
          · have ht : t' = t := congrArg Prod.fst heq
            omega
          · exact hfresh t' hmem
    · rw [if_neg hload] at hvisited ⊢
      refine ⟨hvisited, ?_, fun hown => hkept _ (h.last hown)⟩
      intro t' id' hmem hl hfirst
      rcases mem_cons.mp hmem with heq | hmem
      · cases heq
        exact absurd (hok.mpr (h.loads_of hnone hl)) hload
      · exact h.counted hmem hl hfirst

/-- The names of another tier stay as they are. -/
theorem lookup_openName (env : OpenEnv) {t' : Nat} (ht : t' ≠ t) (acc : World × Nat)
    (name other : Bytes) :
    (World.openName env t acc name).1.fs.lookup (t', other) = acc.1.fs.lookup (t', other) := by
  have hne : ∀ n : Bytes, (t', other) ≠ (t, n) := fun n h => ht (congrArg Prod.fst h)
  cases hid : scanId name with
  | none => rw [World.openName, hid]
  | some id =>
    have hhint : (t', other) ≠ filePath t id .hint := hne _
    rcases openName_cases env t acc hid with ⟨-, heq⟩ | ⟨-, heq⟩
    · rw [heq]
      change ((acc.1.fs.remove _).remove _).lookup _ = _
      rw [lookup_remove, if_neg hhint, lookup_remove, if_neg (hne _)]
    · rw [heq]
      exact (loadedFiles_load env acc.1 t id).names hhint

theorem lookup_openTier (env : OpenEnv) {t' : Nat} (ht : t' ≠ t) (acc : World × Nat) (other : Bytes)
    :
    (openTier env acc t).1.fs.lookup (t', other) = acc.1.fs.lookup (t', other) := by
  have hnames : ∀ (names : List Bytes) (acc : World × Nat),
      (names.foldl (World.openName env t) acc).1.fs.lookup (t', other) =
        acc.1.fs.lookup (t', other) := by
    intro names
    induction names with
    | nil => exact fun acc => rfl
    | cons name names ih =>
      intro acc
      rw [foldl_cons, ih, lookup_openName env ht]
  exact hnames _ acc

structure OpenedTiers (env : OpenEnv) (fs : FileSystem) (Q : World × Nat → Prop) (k : Nat)
    (acc : World × Nat) : Prop where
  kept : Q acc
  visited : ∃ V, Opened env fs V acc ∧ (∀ v ∈ V, v.1 < k) ∧
    ∀ t < k, ∀ id < 1000000, (∃ i, fs.lookup (filePath t id .pack) = some i) → (t, id) ∈ V
  later : ∀ t ≥ k, ∀ name, acc.1.fs.lookup (t, name) = fs.lookup (t, name)

/-- A property that each name of the first `n` tiers preserves, given which names came before. -/
def KeptBy (env : OpenEnv) (fs : FileSystem) (n : Nat) (Q : World × Nat → Prop) : Prop :=
  ∀ {V acc t} {name : Bytes}, t < n → Opened env fs V acc → Q acc →
    Q (World.openName env t acc name)

theorem Opened.openNames {Q : World × Nat → Prop} {n : Nat} (hQ : KeptBy env fs n Q) (ht : t < n)
    {names : List Bytes} (hglob : ∀ name ∈ names, globPack name = true) (h : Opened env fs V acc)
    (hle : ∀ v ∈ V, v.1 ≤ t) (hq : Q acc) :
    Q (names.foldl (World.openName env t) acc) ∧
      ∃ V', Opened env fs V' (names.foldl (World.openName env t) acc) ∧ (∀ v ∈ V', v.1 ≤ t) ∧
        (∀ v ∈ V, v ∈ V') ∧ ∀ name ∈ names, ∀ id, scanId name = some id → (t, id) ∈ V' := by
  induction names generalizing V acc with
  | nil => exact ⟨hq, V, h, hle, fun _ hv => hv, by simp⟩
  | cons name names ih =>
    have hglob' : ∀ n ∈ names, globPack n = true := fun n hn => hglob n (by simp [hn])
    cases hid : scanId name with
    | none =>
      have hskip : World.openName env t acc name = acc := by
        rw [World.openName, hid]
      obtain ⟨hend, V', hopened, hbound, hsub, hnew⟩ := ih hglob' h hle hq
      rw [foldl_cons, hskip]
      refine ⟨hend, V', hopened, hbound, hsub, ?_⟩
      intro n hn id' hid'
      rcases mem_cons.mp hn with rfl | hn
      · rw [hid] at hid'
        cases hid'
      · exact hnew n hn id' hid'
    | some id =>
      have hstep := h.openName hle (hglob name (by simp)) hid
      have hle' : ∀ v ∈ (t, id) :: V, v.1 ≤ t := by
        intro v hv
        rcases mem_cons.mp hv with rfl | hv
        · exact le_rfl
        · exact hle v hv
      obtain ⟨hend, V', hopened, hbound, hsub, hnew⟩ := ih hglob' hstep hle' (hQ ht h hq)
      refine ⟨hend, V', hopened, hbound, fun v hv => hsub v (mem_cons_of_mem _ hv), ?_⟩
      intro n hn id' hid'
      rcases mem_cons.mp hn with rfl | hn
      · rw [hid] at hid'
        cases hid'
        exact hsub _ mem_cons_self
      · exact hnew n hn id' hid'

theorem OpenedTiers.openTier {Q : World × Nat → Prop} {n : Nat} (hQ : KeptBy env fs n Q) {k : Nat}
    (hk : k < n) (h : OpenedTiers env fs Q k acc) :
    OpenedTiers env fs Q (k + 1) (openTier env acc k) := by
  obtain ⟨V, hopened, hbound, hall⟩ := h.visited
  have hmem : ∀ name, name ∈ ((acc.1.fs.names k).filter globPack).insertionSort (· ≤ ·) ↔
      (∃ i, fs.lookup (k, name) = some i) ∧ globPack name = true := by
    intro name
    rw [mem_insertionSort, mem_filter, mem_names, h.later k le_rfl]
  obtain ⟨hend, V', hopened', hbound', hsub, hnew⟩ := hopened.openNames hQ hk
    (fun name hname => ((hmem name).mp hname).2) (fun v hv => (hbound v hv).le) h.kept
  refine ⟨hend, ⟨V', hopened', fun v hv => lt_succ_of_le (hbound' v hv), ?_⟩, ?_⟩
  · intro t ht id hid hfile
    rcases Nat.lt_succ_iff_lt_or_eq.mp ht with hlt | rfl
    · exact hsub _ (hall t hlt id hid hfile)
    · exact hnew _ ((hmem _).mpr ⟨hfile, globPack_packName id⟩) id (scanId_packName hid)
  · intro t ht name
    rw [lookup_openTier env (by omega)]
    exact h.later t (by omega) name

def loadTiers (env : OpenEnv) (budgets : List Int) (fs : FileSystem) : World × Nat :=
  (range budgets.length).foldl (World.openTier env) (⟨emptyStore budgets, fs⟩, 0)

theorem openedTiers_of {Q : World × Nat → Prop} {budgets : List Int}
    (hQ : KeptBy env fs budgets.length Q) (hq : Q (⟨emptyStore budgets, fs⟩, 0)) :
    OpenedTiers env fs Q budgets.length (loadTiers env budgets fs) := by
  have hrange : ∀ k ≤ budgets.length, OpenedTiers env fs Q k
      ((range k).foldl (World.openTier env) (⟨emptyStore budgets, fs⟩, 0)) := by
    intro k
    induction k with
    | zero => exact fun _ => ⟨hq, ⟨[], opened_nil budgets, by simp, by simp⟩, fun _ _ _ => rfl⟩
    | succ k ih =>
      intro hk
      rw [range_succ, foldl_concat]
      exact (ih (by omega)).openTier hQ hk
  exact hrange _ le_rfl

theorem openedTiers_loadTiers (env : OpenEnv) (fs : FileSystem) (budgets : List Int) :
    OpenedTiers env fs (fun _ => True) budgets.length (loadTiers env budgets fs) :=
  openedTiers_of (fun _ _ _ => trivial) trivial

end Loop

/-! ## The next id -/

theorem active_load (env : OpenEnv) (w : World) (t id : Nat) :
    (w.load env t id).1.store.active = w.store.active := by
  have hfold : ∀ (p : Pack) (es : List (Bytes × Loc)),
      (es.foldl (add p.id) (w.store.addPack p)).active = w.store.active :=
    fun p es => (sameRest_foldl_add p.id _ es).active
  rcases load_cases env w t id with ⟨-, heq⟩ | ⟨file, hint, -, -, -, heq⟩ | ⟨file, -, -, -, heq⟩
  · rw [heq]
  · rw [heq]
    exact hfold _ _
  · rw [heq]
    rcases loadScan_cases env w (openedPack env w.fs t id file) with ⟨-, -, hres⟩ | ⟨-, hres⟩ |
      ⟨-, -, bytes, hres⟩
    · rw [hres]
      exact hfold _ _
    · rw [hres]
      exact (modifyPack_active _ _ _).trans (hfold _ _)
    · rw [hres]
      exact (modifyPack_active _ _ _).trans (hfold _ _)

theorem active_openName (env : OpenEnv) (t : Nat) (acc : World × Nat) (name : Bytes) :
    (openName env t acc name).1.store.active = acc.1.store.active := by
  cases hid : scanId name with
  | none => rw [openName, hid]
  | some id =>
    rcases openName_cases env t acc hid with ⟨-, heq⟩ | ⟨-, heq⟩
    · rw [heq]
    · rw [heq]
      exact active_load env acc.1 t id

theorem active_loadTiers (env : OpenEnv) (budgets : List Int) (fs : FileSystem) :
    (loadTiers env budgets fs).1.store.active = none := by
  refine foldl_openTier_of (P := fun acc => acc.1.store.active = none) ?_ _ rfl
  intro t acc name h
  rw [active_openName, h]

def newId (env : OpenEnv) (budgets : List Int) (fs : FileSystem) : Nat :=
  u32 ((loadTiers env budgets fs).2 + 1)

def Present (n : Nat) (fs : FileSystem) (id : Nat) : Prop :=
  ∃ t < n, ∃ i, fs.lookup (filePath t id .pack) = some i

/-- The first tier in which the pack's file opens also loads it. -/
def Counted (env : OpenEnv) (n : Nat) (fs : FileSystem) (id : Nat) : Prop :=
  ∃ t < n, Loads env fs t id ∧ ∀ t' < t, ¬ Enters env fs t' id

/-- Every pack file's name is read back, the new id is beyond all of them, and no file is in the
way of the new pack. -/
structure NewIdFresh (env : OpenEnv) (budgets : List Int) (fs : FileSystem) : Prop where
  considered : ∀ id, Present budgets.length fs id → scanId (packName id packExt) = some id
  beyond : ∀ id, Present budgets.length fs id → id < newId env budgets fs
  created : env.openFails = false → (openStore env budgets fs).2 = true ∧
    (openStore env budgets fs).1.store.active = some (newId env budgets fs)

section NewId

variable {env : OpenEnv} {budgets : List Int} {fs : FileSystem}

theorem le_last_of_counted (env : OpenEnv) (budgets : List Int) {id : Nat} (hid : id < 1000000)
    (h : Counted env budgets.length fs id) : id ≤ (loadTiers env budgets fs).2 := by
  obtain ⟨V, hopened, -, hall⟩ := (openedTiers_loadTiers env fs budgets).visited
  obtain ⟨t, ht, hloads, hfirst⟩ := h
  exact hopened.counted (hall t ht id hid hloads.1.1) hloads hfirst

theorem last_loadTiers_lt (env : OpenEnv) (budgets : List Int) (fs : FileSystem) :
    (loadTiers env budgets fs).2 < 1000000 := by
  refine foldl_openTier_of (P := fun acc => acc.2 < 1000000) ?_ _ (zero_lt_succ _)
  intro t acc name h
  cases hid : scanId name with
  | none => rwa [openName, hid]
  | some id =>
    rcases openName_cases env t acc hid with ⟨-, heq⟩ | ⟨-, heq⟩
    · rwa [heq]
    · have hlt := scanId_lt hid
      rw [heq]
      simp only
      split <;> omega

theorem newId_eq (env : OpenEnv) (budgets : List Int) (fs : FileSystem) :
    newId env budgets fs = (loadTiers env budgets fs).2 + 1 := by
  have hlt := last_loadTiers_lt env budgets fs
  exact u32_of_lt (by omega)

theorem counted_last (env : OpenEnv) (budgets : List Int) (hown : OwnFiles fs) :
    (loadTiers env budgets fs).2 = 0 ∨
      Counted env budgets.length fs (loadTiers env budgets fs).2 := by
  obtain ⟨V, hopened, hbound, hall⟩ := (openedTiers_loadTiers env fs budgets).visited
  rcases hopened.last hown with hzero | ⟨t, hmem, hloads, hfirst⟩
  · exact .inl hzero
  · refine .inr ⟨t, hbound _ hmem, hloads, ?_⟩
    intro t' ht' henter
    have hlt : t < budgets.length := hbound _ hmem
    exact hfirst t' ht' (hall t' (by omega) _ (hopened.ids hmem) henter.1) henter

/-- Loading takes pack names away and adds none. -/
theorem present_of_loadTiers (hn : budgets ≠ []) {id i : Nat}
    (hi : (loadTiers env budgets fs).1.fs.lookup (filePath 0 id .pack) = some i) :
    Present budgets.length fs id := by
  obtain ⟨V, hopened, hbound, -⟩ := (openedTiers_loadTiers env fs budgets).visited
  cases hpack : (loadTiers env budgets fs).1.store.packs.lookup id with
  | none =>
    rw [hopened.names hpack] at hi
    exact ⟨0, length_pos_iff.mpr hn, i, hi⟩
  | some p =>
    obtain ⟨t, hmem, henter⟩ := hopened.entered.mp (by rw [hpack]; rfl)
    exact ⟨t, hbound _ hmem, henter.1⟩

theorem openStore_eq (env : OpenEnv) (budgets : List Int) (fs : FileSystem) :
    openStore env budgets fs =
      if env.openFails || ((loadTiers env budgets fs).1.fs.lookup
          (filePath 0 (newId env budgets fs) .pack)).isSome
      then ((loadTiers env budgets fs).1, false)
      else ((loadTiers env budgets fs).1.openActive env.now (newId env budgets fs), true) := by
  have hidle : (loadTiers env budgets fs).1.store.activePack = none := by
    rw [activePack, active_loadTiers, bind_none]
  change World.rotate _ (loadTiers env budgets fs).1 (newId env budgets fs) = _
  rw [rotate, sealActive, hidle]

/-- `OpenStore`'s new id is fresh just when every pack file's id has at most six digits and is not
beyond the packs that load. -/
theorem new_id_fresh_iff (hown : OwnFiles fs) (hn : budgets ≠ []) :
    NewIdFresh env budgets fs ↔ ∀ id, Present budgets.length fs id →
      id < 1000000 ∧ (id = 0 ∨ ∃ id' ≥ id, id' < 1000000 ∧ Counted env budgets.length fs id') := by
  have hmillion := last_loadTiers_lt env budgets fs
  have hnew := newId_eq env budgets fs
  constructor
  · intro h id hid
    refine ⟨scanId_lt (h.considered id hid), ?_⟩
    have hlt := h.beyond id hid
    rw [hnew] at hlt
    rcases counted_last env budgets hown with hzero | hlast
    · exact .inl (by omega)
    · exact .inr ⟨_, by omega, hmillion, hlast⟩
  · intro h
    have hbeyond : ∀ id, Present budgets.length fs id → id < newId env budgets fs := by
      intro id hid
      rw [hnew]
      rcases (h id hid).2 with hzero | ⟨id', hge, hlt, hid'⟩
      · omega
      · have := le_last_of_counted env budgets hlt hid'
        omega
    refine ⟨fun id hid => scanId_packName (h id hid).1, hbeyond, ?_⟩
    intro hopens
    have hfree : (loadTiers env budgets fs).1.fs.lookup
        (filePath 0 (newId env budgets fs) .pack) = none := by
      cases hi : (loadTiers env budgets fs).1.fs.lookup
        (filePath 0 (newId env budgets fs) .pack) with
      | none => rfl
      | some i => exact absurd (hbeyond _ (present_of_loadTiers hn hi)) (lt_irrefl _)
    rw [openStore_eq, hopens, hfree]
    exact ⟨rfl, rfl⟩

end NewId

def onePackFile (bytes : Bytes) : FileSystem := empty.place (filePath 0 1 .pack) bytes

theorem lookup_onePackFile {bytes : Bytes} {t id i : Nat}
    (h : (onePackFile bytes).lookup (filePath t id .pack) = some i) : id = 1 ∧ i = 0 := by
  rw [onePackFile, lookup_place] at h
  split at h
  · rename_i hpath
    cases h
    exact ⟨(filePath_inj.mp hpath).2.1, rfl⟩
  · cases h

theorem ownFiles_onePackFile (bytes : Bytes) : OwnFiles (onePackFile bytes) := by
  intro t id t' id' i h h'
  rw [(lookup_onePackFile h).1, (lookup_onePackFile h').1]

theorem counted_onePackFile {t i : Nat} (ht : t < 1)
    (hi : (onePackFile []).lookup (filePath t 1 .pack) = some i) :
    Counted plainOpen 1 (onePackFile []) 1 := by
  have hplain : ∀ f, plainOpen.fault t 1 ≠ some f := fun f hfault => nomatch hfault
  refine ⟨t, ht, ?_, by omega⟩
  exact ⟨⟨⟨i, hi⟩, hplain _⟩, .inr ⟨hplain _, fun _ _ _ => hplain _⟩⟩

theorem new_id_fresh_iff_onePackFile : NewIdFresh plainOpen [0] (onePackFile []) := by
  refine (new_id_fresh_iff (ownFiles_onePackFile []) (by decide)).mpr ?_
  rintro id ⟨t, ht, i, hi⟩
  obtain ⟨rfl, rfl⟩ := lookup_onePackFile hi
  exact ⟨by decide, .inr ⟨1, le_rfl, by decide, counted_onePackFile ht hi⟩⟩

def truncateFails : OpenEnv := { plainOpen with fault := fun _ _ => some .truncating }

/-- A pack whose torn tail cannot be cut off stays, and the new pack is to get its name. -/
theorem torn_pack_blocks_new_id :
    OwnFiles (onePackFile [0]) ∧ Present 1 (onePackFile [0]) 1 ∧
      newId truncateFails [0] (onePackFile [0]) = 1 ∧
      (openStore truncateFails [0] (onePackFile [0])).2 = false :=
  ⟨ownFiles_onePackFile [0], ⟨0, by decide, 0, rfl⟩, rfl, rfl⟩

end World

end Corepkgs.Jigd
