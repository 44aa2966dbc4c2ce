import Corepkgs.Jigd.Index
/-!
# Recovering a torn pack

A daemon that dies while appending leaves the complete records of its active
pack followed by part of one more.  `load` without a hint keeps exactly the
complete ones.  `extent_load` says what any `load` does to the table.
-/

namespace Corepkgs.Jigd

open Lib List Store FileSystem Nat

/-- The records `Put` can have appended to one pack: all but the first fit below `packLimit`. -/
inductive Appended : List (Bytes × Bytes) → Prop where
  | nil : Appended []
  | snoc {recs : List (Bytes × Bytes)} {key value : Bytes} (front : Appended recs)
      (storable : Storable key value)
      (fits : recs = [] ∨ (packBytes recs).length + (record key value).length ≤ packLimit) :
      Appended (recs ++ [(key, value)])

variable {recs : List (Bytes × Bytes)} {key value : Bytes} {off : Nat}

theorem addressable_concat (hrecs : Addressable off recs) (h : Storable key value)
    (hoff : off + (packBytes recs).length + recHeader + key.length < 2 ^ 32) :
    Addressable off (recs ++ [(key, value)]) := by
  induction recs generalizing off with
  | nil =>
    simp only [packBytes_nil, length_nil, add_zero] at hoff
    exact ⟨h.key_lt, h.value_lt, hoff, trivial⟩
  | cons r recs ih =>
    obtain ⟨hk, hv, hr, hrest⟩ := hrecs
    refine ⟨hk, hv, hr, ih hrest ?_⟩
    rw [packBytes_cons, length_append] at hoff
    omega

theorem Appended.addressable (h : Appended recs) :
    Addressable 0 recs := by
  induction h with
  | nil => trivial
  | @snoc recs key value _ hstorable hfits ih =>
    apply addressable_concat ih hstorable
    have hk := hstorable.key_le
    rcases hfits with rfl | hfits
    · simp only [packBytes_nil, length_nil, recHeader]
      omega
    · rw [length_record] at hfits
      simp only [packLimit] at hfits
      omega

theorem Appended.of_concat {r : Bytes × Bytes} (h : Appended (recs ++ [r])) :
    Appended recs ∧ Storable r.1 r.2 := by
  generalize hall : recs ++ [r] = all at h
  cases h with
  | nil => simp at hall
  | snoc front storable _ =>
    obtain ⟨rfl, hr⟩ := append_inj' hall rfl
    cases hr
    exact ⟨front, storable⟩

variable {p : Pack}

/-- A pack only ever grows by what `Put` admits. -/
theorem appended_concat (happ : Appended recs)
    (hsize : p.size = (packBytes recs).length) (hkey : Storable key value)
    (hfits : World.needsRotate p key value = false) : Appended (recs ++ [(key, value)]) := by
  refine .snoc happ hkey ?_
  simp only [World.needsRotate, Bool.and_eq_false_iff, decide_eq_false_iff_not, not_lt, gt_iff_lt,
    le_zero] at hfits
  rcases hfits with hfits | hzero
  · right
    rw [length_record, ← hsize]
    exact hfits
  · left
    cases recs with
    | nil => rfl
    | cons r recs =>
      rw [hsize, packBytes_cons, length_append, length_record, recHeader] at hzero
      omega

theorem recordLocs_append (id off : Nat) (front back : List (Bytes × Bytes)) :
    recordLocs id off (front ++ back) =
      recordLocs id off front ++ recordLocs id (off + (packBytes front).length) back := by
  induction front generalizing off with
  | nil => rfl
  | cons r front ih =>
    rw [cons_append, recordLocs, recordLocs, ih, packBytes_cons, length_append,
      cons_append, add_assoc off (record r.1 r.2).length]

variable {id : Nat}

theorem mem_recordLocs {e : Bytes × Loc} (h : e ∈ recordLocs id off recs) :
    e.2.pack = id ∧ ∃ r ∈ recs, r.1 = e.1 := by
  induction recs generalizing off with
  | nil => cases h
  | cons r recs ih =>
    rcases mem_cons.mp h with rfl | h
    · exact ⟨rfl, r, by simp, rfl⟩
    · obtain ⟨hid, r', hr', hkey⟩ := ih h
      exact ⟨hid, r', by simp [hr'], hkey⟩

theorem inPack_of_mem_recordLocs {e : Bytes × Loc} (haddr : Addressable off recs)
    (h : e ∈ recordLocs id off recs) :
    InPack id (off + (packBytes recs).length) e.1 e.2 := by
  induction recs generalizing off with
  | nil => cases h
  | cons r recs ih =>
    obtain ⟨-, hv, hoff, hrest⟩ := haddr
    rw [packBytes_cons, length_append, ← add_assoc]
    rcases mem_cons.mp h with rfl | h
    · refine ⟨rfl, ?_, ?_, hoff, hv⟩
      · change recHeader + r.1.length ≤ off + recHeader + r.1.length
        omega
      · change off + recHeader + r.1.length + r.2.length ≤ _
        rw [length_record]
        omega
    · exact ih hrest h

/-- A pack ends below the limit, or after its only record. -/
theorem Appended.length_lt (h : Appended recs) :
    (packBytes recs).length < 2 ^ 63 := by
  cases h with
  | nil => decide
  | @snoc recs key value _ hstorable hfits =>
    have hk := hstorable.key_le
    have hv := hstorable.value_lt
    rw [packBytes_concat, length_append]
    rcases hfits with rfl | hfits
    · rw [length_record]
      simp only [packBytes_nil, length_nil, recHeader]
      omega
    · simp only [packLimit] at hfits
      omega

/-- The last record of a key says where its value is. -/
theorem lastOf_recordLocs (id : Nat) {front back : List (Bytes × Bytes)} (key value : Bytes)
    (hback : ∀ r ∈ back, r.1 ≠ key) :
    lastOf (recordLocs id 0 (front ++ (key, value) :: back)) key =
      some ⟨id, (packBytes front).length + recHeader + key.length, value.length⟩ := by
  have hnone : ∀ off, lastOf (recordLocs id off back) key = none := by
    intro off
    rw [lastOf_eq_none]
    intro e he hkey
    obtain ⟨-, r, hr, hre⟩ := mem_recordLocs he
    exact hback r hr (hre.trans hkey)
  rw [recordLocs_append, zero_add, recordLocs, lastOf_append, ← singleton_append,
    lastOf_append, hnone, ← nil_append [_], lastOf_concat]
  simp

/-- What the scan of a torn pack finds, and where it stops. -/
theorem scan_torn (id : Nat) {torn : Bytes} (happ : Appended recs)
    (hr : Storable key value) (hpre : torn <+: record key value) (hne : torn ≠ record key value) :
    scan id (packBytes recs ++ torn) = (recordLocs id 0 recs, (packBytes recs).length) := by
  rw [scan, scanLoop_records id le_rfl happ.addressable hr.key_lt hr.value_lt hpre hne,
    zero_add]

/-! ## The ends of a scan -/

def TornEnd (data : Bytes) : Prop := (scan 0 data).2 ≠ data.length

instance (data : Bytes) : Decidable (TornEnd data) := inferInstanceAs (Decidable (_ ≠ _))

/-- Where the scan stops does not depend on the pack it is for. -/
theorem scanLoop_end (id id' fuel : Nat) (r : Bytes) (off : Nat) :
    (scanLoop id fuel r off).2 = (scanLoop id' fuel r off).2 := by
  induction fuel generalizing r off with
  | zero => rfl
  | succ fuel ih =>
    rw [scanLoop, scanLoop]
    split
    · rfl
    · exact ih _ _

theorem tornEnd_iff (id : Nat) (data : Bytes) :
    TornEnd data ↔ (scan id data).2 ≠ data.length := by
  rw [TornEnd, scan, scan, scanLoop_end 0 id]

theorem scanLoop_le (id fuel : Nat) (r : Bytes) (off : Nat) :
    (scanLoop id fuel r off).2 ≤ off + r.length := by
  induction fuel generalizing r off with
  | zero => exact le_add_right _ _
  | succ fuel ih =>
    rw [scanLoop]
    simp only
    split
    · exact le_add_right _ _
    · rename_i hlong
      simp only [length_drop] at hlong
      apply (ih _ _).trans
      simp only [length_drop]
      omega

/-- The pack file is there and opens: `load` enters it into the table. -/
def Enters (env : OpenEnv) (fs : FileSystem) (t id : Nat) : Prop :=
  (∃ i, fs.lookup (filePath t id .pack) = some i) ∧ env.fault t id ≠ some .opening

namespace World

variable {env : OpenEnv} {w : World}

theorem load_of_no_hint {t file : Nat} (hfile : w.fs.lookup (filePath t id .pack) = some file)
    (hhint : w.fs.lookup (filePath t id .hint) = none) (hfault : env.fault t id = none) :
    w.load env t id = w.loadScan env (openedPack env w.fs t id file) := by
  simp [load, hfile, hhint, hfault]

/-- What a scan makes of the store: the entries, and the pack cut to its complete records. -/
def scanned (s : Store) (p : Pack) (found : List (Bytes × Loc) × Nat) : Store :=
  ((found.1.foldl (add p.id) (s.addPack p)).modifyPack p.id
    fun q => { q with size := found.2 }).addTotal p.tier found.2

def cutTail (fs : FileSystem) (p : Pack) (stop : Nat) : FileSystem :=
  if stop ≠ p.size then fs.setData p.file (truncateTo (fs.data p.file) stop) else fs

theorem loadScan_eq (hfault : env.fault p.tier p.id = none) :
    w.loadScan env p = sealPack ⟨env.order, false⟩
      ⟨scanned w.store p (scan p.id (w.fs.data p.file)),
        cutTail w.fs p (scan p.id (w.fs.data p.file)).2⟩ p := by
  simp only [loadScan, scanned, cutTail, hfault, reduceCtorEq, and_false, if_false, decide_false]

theorem lookup_cutTail (fs : FileSystem) (p : Pack) (stop : Nat) (q : Path) :
    (cutTail fs p stop).lookup q = fs.lookup q := by
  unfold cutTail
  split <;> rfl

theorem length_cutTail (fs : FileSystem) (p : Pack) (stop : Nat) :
    (cutTail fs p stop).inodes.length = fs.inodes.length := by
  unfold cutTail
  split
  · exact length_setData _ _ _
  · rfl

theorem data_cutTail_ne {fs : FileSystem} {i : Nat} (stop : Nat) (h : i ≠ p.file) :
    (cutTail fs p stop).data i = fs.data i := by
  unfold cutTail
  split
  · exact data_setData_ne _ h
  · rfl

theorem data_cutTail {fs : FileSystem} {stop : Nat} (hlt : p.file < fs.inodes.length)
    (hsize : p.size = (fs.data p.file).length) (hstop : stop ≤ p.size) :
    (cutTail fs p stop).data p.file = (fs.data p.file).take stop := by
  unfold cutTail
  split
  · rw [FileSystem.data_setData_same _ hlt, truncateTo, ← hsize, Nat.sub_eq_zero_of_le hstop,
      replicate_zero, append_nil]
  · rename_i hfull
    rw [not_not.mp hfull, hsize, take_length]

theorem loadScan_ok (hfault : env.fault p.tier p.id = none) (hlt : p.file < w.fs.inodes.length)
    {es : List (Bytes × Loc)} {stop : Nat} (hscan : scan p.id (w.fs.data p.file) = (es, stop))
    (hsize : p.size = (w.fs.data p.file).length) (hstop : stop ≤ p.size) :
    (w.loadScan env p).2 = true ∧ (w.loadScan env p).1.store = scanned w.store p (es, stop) ∧
      (w.loadScan env p).1.fs.data p.file = (w.fs.data p.file).take stop := by
  have hlen : p.file < (cutTail w.fs p stop).inodes.length := by
    rw [length_cutTail]
    exact hlt
  rw [loadScan_eq hfault, hscan]
  simp only [sealPack, Bool.false_eq_true, if_false, true_and]
  rw [data_place_old _ _ hlen]
  exact data_cutTail hlt hsize hstop

theorem extent_scanned (s : Store) (p : Pack) (found : List (Bytes × Loc) × Nat) (q : Nat) :
    (scanned s p found).extent q =
      if q = p.id then some { p.extent with size := found.2 } else s.extent q := by
  rw [scanned, extent_addTotal, extent_modifyPack (g := fun e => { e with size := found.2 }),
    extent_foldl_add, extent_addPack]
  · split <;> rfl
  · exact fun _ => rfl

theorem lookup_scanned {s : Store} {found : List (Bytes × Loc) × Nat}
    (hid : ∀ e ∈ found.1, e.2.pack = p.id) (key : Bytes) :
    (scanned s p found).index.lookup key =
      newest p.id (lastOf found.1 key) (s.index.lookup key) := by
  rw [scanned, addTotal_index, modifyPack_index, lookup_foldl_add _ hid]
  rfl

theorem loadScan_cases (env : OpenEnv) (w : World) (p : Pack) :
    ((scan p.id (w.fs.data p.file)).2 ≠ p.size ∧ env.fault p.tier p.id = some .truncating ∧
        w.loadScan env p = (⟨(scan p.id (w.fs.data p.file)).1.foldl (add p.id)
          (w.store.addPack p), w.fs⟩, false)) ∨
      (env.fault p.tier p.id = some .sealing ∧
        w.loadScan env p = (⟨scanned w.store p (scan p.id (w.fs.data p.file)),
          cutTail w.fs p (scan p.id (w.fs.data p.file)).2⟩, false)) ∨
      (((scan p.id (w.fs.data p.file)).2 ≠ p.size → env.fault p.tier p.id ≠ some .truncating) ∧
        env.fault p.tier p.id ≠ some .sealing ∧
        ∃ bytes, w.loadScan env p = (⟨scanned w.store p (scan p.id (w.fs.data p.file)),
          (cutTail w.fs p (scan p.id (w.fs.data p.file)).2).place
            (filePath p.tier p.id .hint) bytes⟩, true)) := by
  unfold loadScan
  simp only
  split
  · rename_i hfail
    exact .inl ⟨hfail.1, hfail.2, rfl⟩
  · rename_i hno
    right
    rw [sealPack]
    split
    · rename_i hseal
      exact .inl ⟨by simpa using hseal, rfl⟩
    · rename_i hseal
      exact .inr ⟨fun htorn hfault => hno ⟨htorn, hfault⟩, by simpa using hseal, _, rfl⟩

/-- The ways `load` can go, up to the scan. -/
theorem load_cases (env : OpenEnv) (w : World) (t id : Nat) :
    (¬ Enters env w.fs t id ∧ w.load env t id = (w, false)) ∨
      (∃ file hint, w.fs.lookup (filePath t id .pack) = some file ∧
        env.fault t id ≠ some .opening ∧ w.fs.lookup (filePath t id .hint) = some hint ∧
        w.load env t id = (w.loadHint (openedPack env w.fs t id file) hint, true)) ∨
      ∃ file, w.fs.lookup (filePath t id .pack) = some file ∧
        env.fault t id ≠ some .opening ∧ w.fs.lookup (filePath t id .hint) = none ∧
        w.load env t id = w.loadScan env (openedPack env w.fs t id file) := by
  unfold load
  split
  · rename_i hno
    refine .inl ⟨?_, rfl⟩
    rintro ⟨⟨i, hi⟩, -⟩
    rw [hno] at hi
    cases hi
  · rename_i file hfile
    split
    · rename_i hfault
      exact .inl ⟨fun h => h.2 hfault, rfl⟩
    · rename_i hfault
      split
      · rename_i hint hhint
        exact .inr (.inl ⟨file, hint, hfile, hfault, hhint, rfl⟩)
      · rename_i hhint
        exact .inr (.inr ⟨file, hfile, hfault, hhint, rfl⟩)

/-- A pack that opens is in the table, with no more than its file holds, whatever fails after
that. -/
theorem extent_load (env : OpenEnv) (w : World) (t id : Nat) :
    (¬Enters env w.fs t id ∧ (w.load env t id).1 = w) ∨
      Enters env w.fs t id ∧ ∃ i n, w.fs.lookup (filePath t id .pack) = some i ∧
        n ≤ (w.fs.data i).length ∧ ∀ q, (w.load env t id).1.store.extent q =
          if q = id then some ⟨id, t, i, n⟩ else w.store.extent q := by
  have hadded : ∀ (i : Nat) (es : List (Bytes × Loc)) (q : Nat), (es.foldl (add id)
      (w.store.addPack (openedPack env w.fs t id i))).extent q =
      if q = id then some ⟨id, t, i, (w.fs.data i).length⟩ else w.store.extent q := by
    intro i es q
    rw [extent_foldl_add, extent_addPack]
    rfl
  rcases load_cases env w t id with ⟨hno, heq⟩ | ⟨i, hint, hi, hopen, -, heq⟩ |
    ⟨i, hi, hopen, -, heq⟩
  · exact .inl ⟨hno, congrArg Prod.fst heq⟩
  · rw [heq]
    exact .inr ⟨⟨⟨i, hi⟩, hopen⟩, i, _, hi, le_rfl, hadded i _⟩
  · have hstop := scanLoop_le id (w.fs.data i).length (w.fs.data i) 0
    rw [Nat.zero_add] at hstop
    rw [heq]
    rcases loadScan_cases env w (openedPack env w.fs t id i) with ⟨-, -, hres⟩ | ⟨-, hres⟩ |
      ⟨-, -, bytes, hres⟩
    · rw [hres]
      exact .inr ⟨⟨⟨i, hi⟩, hopen⟩, i, _, hi, le_rfl, hadded i _⟩
    all_goals
      rw [hres]
      exact .inr ⟨⟨⟨i, hi⟩, hopen⟩, i, _, hi, hstop, extent_scanned _ _ _⟩

/-- What one load does to the files: it may name a hint, and cut off the torn tail of its pack. -/
structure LoadedFiles (env : OpenEnv) (w w' : World) (t id : Nat) : Prop where
  names : ∀ {q}, q ≠ filePath t id .hint → w'.fs.lookup q = w.fs.lookup q
  data : ∀ {i}, i < w.fs.inodes.length → w'.fs.data i = w.fs.data i ∨
    (TornEnd (w.fs.data i) ∧ Enters env w.fs t id ∧ w.fs.lookup (filePath t id .pack) = some i)
  grown : w.fs.inodes.length ≤ w'.fs.inodes.length

theorem loadedFiles_load (env : OpenEnv) (w : World) (t id : Nat) :
    LoadedFiles env w (w.load env t id).1 t id := by
  have hsame : ∀ w' : World, w'.fs = w.fs → LoadedFiles env w w' t id := by
    intro w' hfs
    refine ⟨?_, ?_, ?_⟩
    · intro q _
      rw [hfs]
    · intro i _
      rw [hfs]
      exact .inl rfl
    · rw [hfs]
  rcases load_cases env w t id with ⟨-, heq⟩ | ⟨file, hint, -, -, -, heq⟩ |
    ⟨file, hfile, hopen, -, heq⟩
  · rw [heq]
    exact hsame w rfl
  · rw [heq]
    exact hsame _ rfl
  · rw [heq]
    set p := openedPack env w.fs t id file with hp
    have hcut : ∀ {i}, (cutTail w.fs p (scan p.id (w.fs.data p.file)).2).data i = w.fs.data i ∨
        (TornEnd (w.fs.data i) ∧ Enters env w.fs t id ∧
          w.fs.lookup (filePath t id .pack) = some i) := by
      intro i
      by_cases hi : i = file
      · subst hi
        by_cases htorn : TornEnd (w.fs.data i)
        · exact .inr ⟨htorn, ⟨⟨i, hfile⟩, hopen⟩, hfile⟩
        · have hwhole : (scan p.id (w.fs.data p.file)).2 = p.size :=
            not_not.mp fun h => htorn ((tornEnd_iff id _).mpr h)
          left
          rw [cutTail, if_neg (not_not.mpr hwhole)]
      · exact .inl (data_cutTail_ne _ hi)
    rcases loadScan_cases env w p with ⟨-, -, hres⟩ | ⟨-, hres⟩ | ⟨-, -, bytes, hres⟩
    · rw [hres]
      exact hsame _ rfl
    · rw [hres]
      refine ⟨?_, fun _ => hcut, ?_⟩
      · exact fun _ => lookup_cutTail _ _ _ _
      · exact (length_cutTail _ _ _).ge
    · rw [hres]
      refine ⟨?_, ?_, ?_⟩
      · intro q hq
        have hq' : q ≠ filePath p.tier p.id .hint := hq
        rw [lookup_place, if_neg hq', lookup_cutTail]
      · intro i hi
        rw [data_place_old _ _ (by rw [length_cutTail]; exact hi)]
        exact hcut
      · change _ ≤ (place _ _ _).inodes.length
        rw [length_place, length_cutTail]
        exact le_succ _

/-- Pack `id` of tier `t` was loaded into `w`, giving `w'`, as the records `recs` and no more. -/
structure Recovered (w w' : World) (t id file : Nat) (recs : List (Bytes × Bytes)) : Prop where
  /-- The last record of a key is indexed at its value, unless a newer pack has the key. -/
  indexed : ∀ front key value back, recs = front ++ (key, value) :: back →
    (∀ r ∈ back, r.1 ≠ key) → ¬ w.store.Newer key id →
      w'.store.index.lookup key =
        some ⟨id, (packBytes front).length + recHeader + key.length, value.length⟩ ∧
      w'.value key = some value
  others : ∀ key, (∀ r ∈ recs, r.1 ≠ key) ∨ w.store.Newer key id →
    w'.store.index.lookup key = w.store.index.lookup key
  pack : ∃ p, w'.store.packs.lookup id = some p ∧
    p.extent = ⟨id, t, file, (packBytes recs).length⟩ ∧ p.live = w'.store.liveBytes id
  contents : w'.fs.data file = packBytes recs

theorem lastOf_eq_none_of_keys {recs : List (Bytes × Bytes)}
    (h : ∀ r ∈ recs, r.1 ≠ key) : lastOf (recordLocs id 0 recs) key = none := by
  rw [lastOf_eq_none]
  intro e he hkey
  obtain ⟨-, r, hr, hre⟩ := mem_recordLocs he
  exact h r hr (hre.trans hkey)

variable {s : Store}

theorem newest_of_not_newer (h : ¬ s.Newer key id) (l : Loc) :
    newest id (some l) (s.index.lookup key) = some l := by
  cases hold : s.index.lookup key with
  | none => rfl
  | some old =>
    have hle : ¬ id < old.pack := fun hlt => h ⟨old, hold, hlt⟩
    simp [newest, hle]

theorem newest_of_newer (h : s.Newer key id)
    (found : Option Loc) : newest id found (s.index.lookup key) = s.index.lookup key := by
  obtain ⟨old, hold, hlt⟩ := h
  rw [hold, newest, if_pos hlt]

/-- No value of a pack that is not in the table yet is counted. -/
theorem counts_addPack (hknown : s.Known) (hnew : s.packs.lookup p.id = none)
    (hlive : p.live = 0) : (s.addPack p).Counts p.id := by
  intro q hq
  rw [addPack, Table.lookup_insert, if_pos rfl] at hq
  cases hq
  have hzero : s.liveBytes p.id = 0 := by
    apply sum_eq_zero
    intro n hn
    obtain ⟨e, he, rfl⟩ := mem_map.mp hn
    have hlook : s.index.lookup e.1 = some e.2 := AList.mem_lookup_iff.mpr he
    apply if_neg
    intro hpack
    obtain ⟨q, hq⟩ := hknown e.1 e.2 hlook
    rw [hpack, hnew] at hq
    cases hq
  exact hlive.trans hzero.symm

/-- The value of a record lies behind its header and key. -/
theorem slice_packBytes (front back : List (Bytes × Bytes)) (key value : Bytes) :
    slice (packBytes (front ++ (key, value) :: back))
      ((packBytes front).length + recHeader + key.length) value.length = value := by
  have hall : packBytes (front ++ (key, value) :: back) =
      (packBytes front ++ recordHead key value.length) ++ value ++ packBytes back := by
    simp [packBytes, record, append_assoc]
  have hoff : (packBytes front).length + recHeader + key.length =
      (packBytes front ++ recordHead key value.length).length := by
    rw [length_append, length_recordHead]
    omega
  rw [hall, hoff, slice_append_mid]

/-- Loading an unsealed pack whose last record was cut short, at any byte, recovers the complete
records and truncates the rest. -/
theorem load_torn_tail {env : OpenEnv} {w : World} {t id file : Nat}
    {recs : List (Bytes × Bytes)} {r : Bytes × Bytes} {torn : Bytes}
    (happ : Appended (recs ++ [r])) (hpre : torn <+: record r.1 r.2) (hne : torn ≠ record r.1 r.2)
    (hfile : w.fs.lookup (filePath t id .pack) = some file)
    (hdata : w.fs.data file = packBytes recs ++ torn)
    (hhint : w.fs.lookup (filePath t id .hint) = none) (hfault : env.fault t id = none)
    (hnew : w.store.packs.lookup id = none) (hknown : w.store.Known) :
    (w.load env t id).2 = true ∧ Recovered w (w.load env t id).1 t id file recs := by
  rw [load_of_no_hint hfile hhint hfault]
  set p := openedPack env w.fs t id file with hp
  have hscan : scan p.id (w.fs.data p.file) = (recordLocs id 0 recs, (packBytes recs).length) := by
    change scan id (w.fs.data file) = _
    rw [hdata]
    exact scan_torn id happ.of_concat.1 happ.of_concat.2 hpre hne
  have hstop : (packBytes recs).length ≤ p.size := by
    change _ ≤ (w.fs.data file).length
    rw [hdata, length_append]
    omega
  obtain ⟨hok, hstore, hcontents⟩ :=
    loadScan_ok (p := p) hfault (lookup_lt hfile) hscan rfl hstop
  have htake : (w.loadScan env p).1.fs.data file = packBytes recs := by
    refine hcontents.trans ?_
    change (w.fs.data file).take _ = _
    rw [hdata, take_left]
  -- the store after the scan: the table entry, the index and the live bytes
  have hid : ∀ e ∈ recordLocs id 0 recs, e.2.pack = id := fun e he => (mem_recordLocs he).1
  set s := (recordLocs id 0 recs).foldl (add id) (w.store.addPack p) with hs
  have hext : s.extent id = some p.extent := by
    rw [hs, extent_foldl_add, extent_addPack]
    exact if_pos rfl
  obtain ⟨q, hq, hqext⟩ := lookup_of_extent hext
  have hcounts : s.Counts id := counts_foldl_add (counts_addPack hknown hnew rfl) hid
  have hpacks : (w.loadScan env p).1.store.packs.lookup id =
      some { q with size := (packBytes recs).length } := by
    rw [hstore, scanned, addTotal_packs, lookup_modifyPack]
    change (if id = id then Option.map _ (s.packs.lookup id) else _) = _
    rw [if_pos rfl, hq]
    rfl
  have hindex : ∀ key, (w.loadScan env p).1.store.index.lookup key =
      newest id (lastOf (recordLocs id 0 recs) key) (w.store.index.lookup key) := by
    intro key
    rw [hstore]
    exact lookup_scanned hid key
  have hplace : q.id = id ∧ q.tier = t ∧ q.file = file ∧ q.size = p.size := by
    have hmk : (⟨q.id, q.tier, q.file, q.size⟩ : Extent) = ⟨id, t, file, p.size⟩ := hqext
    simpa only [Extent.mk.injEq] using hmk
  refine ⟨hok, ?_, ?_, ?_, htake⟩
  · rintro front key value back rfl hback hkey
    have hlook := hindex key
    rw [lastOf_recordLocs id key value hback, newest_of_not_newer hkey] at hlook
    refine ⟨hlook, ?_⟩
    rw [World.value, World.reader, hlook, Option.bind_some, hpacks, Option.map_some,
      Option.map_some, Reader.read]
    change some (slice ((w.loadScan env p).1.fs.data q.file) _ _) = _
    rw [hplace.2.2.1, htake, slice_packBytes]
  · intro key hkey
    rw [hindex key]
    rcases hkey with hkey | hkey
    · rw [lastOf_eq_none_of_keys hkey, newest_none]
    · exact newest_of_newer hkey _
  · refine ⟨_, hpacks, ?_, ?_⟩
    · rw [Pack.extent, hplace.1, hplace.2.1, hplace.2.2.1]
    · have hlive : (w.loadScan env p).1.store.liveBytes id = s.liveBytes id := by
        rw [hstore, liveBytes, scanned, addTotal_index, modifyPack_index]
        rfl
      rw [hlive]
      exact hcounts q hq

/-- A pack with the record `a ↦ 12` and the first ten of the twelve bytes of `b ↦ 345`. -/
def tornWorld : World :=
  ⟨emptyStore [0], empty.place (filePath 0 7 .pack)
    (packBytes [([97], [1, 2])] ++ (record [98] [3, 4, 5]).take 10)⟩

theorem load_torn_tail_of_tornWorld :
    (tornWorld.load plainOpen 0 7).2 = true ∧
      Recovered tornWorld (tornWorld.load plainOpen 0 7).1 0 7 0 [([97], [1, 2])] := by
  have hone : Appended ([] ++ [([97], [1, 2])]) := .snoc .nil (by constructor <;> decide) (.inl rfl)
  have happ : Appended ([([97], [1, 2])] ++ [([98], [3, 4, 5])]) :=
    .snoc hone (by constructor <;> decide) (.inr (by decide))
  have hpre : (record [98] [3, 4, 5]).take 10 <+: record [98] [3, 4, 5] := take_prefix 10 _
  have hknown : tornWorld.store.Known := by
    intro key l hl
    cases hl
  exact load_torn_tail happ hpre (by decide) (by decide) (by decide) (by decide) rfl rfl hknown

end World

end Corepkgs.Jigd
