import Corepkgs.Jigd.Accounts
/-!
# Offsets and lengths fit 32 bits

A pack is sealed at `packLimit`, but its first record may be as long as a record
can be, so `maxPack` bounds every pack file.  All `uint32` conversions of `Put`,
of `seal` and of the scan in `load` follow from that bound.

* `Bounded` — no pack file is longer than `maxPack`, whatever fails and whoever copies it;
* `Small` — an index entry that lies inside such a file, behind its own header;
* `offsets_exact` — in every state of every session that follows sessions on
  directories that were empty once.
-/

namespace Corepkgs.Jigd

open Lib FileSystem Store World List Option Nat Sys

/-- The longest record: a pack that is longer has at least two. -/
def maxPack : Nat := recHeader + 4096 + 2 ^ 31

theorem packLimit_le_maxPack : packLimit ≤ maxPack := by decide

theorem maxPack_lt : maxPack < 2 ^ 32 := by decide

/-! ## What is exact -/

/-- An index entry inside a pack, behind its own header. -/
structure Small (key : Bytes) (l : Loc) : Prop where
  head : recHeader + key.length ≤ l.off
  bound : l.off + l.len ≤ maxPack

/-- The conversions of `Put` for a record at the end of `p`, and where that is. -/
structure Placed (p : Pack) (key body : Bytes) : Prop where
  fits : p.size = 0 ∨ p.size + (recHeader + key.length + body.length) ≤ packLimit
  keyLen : u32 key.length = key.length
  valueLen : u32 body.length = body.length
  recordOff : u32 p.size = p.size
  valueOff : u32 (u32 p.size + recHeader + u32 key.length) = p.size + recHeader + key.length

/-- The conversions of `seal` for one entry. -/
structure SealExact (key : Bytes) (l : Loc) : Prop where
  keyLen : u32 key.length = key.length
  valueLen : u32 l.len = l.len
  recordOff : recHeader + key.length ≤ l.off ∧
    u32 (l.off + (2 ^ 32 - recHeader) + (2 ^ 32 - u32 key.length)) = l.off - recHeader - key.length

variable {key bytes : Bytes} {id : Nat} {w : World} {fs : FileSystem} {l : Loc}

theorem Small.sealExact (h : Small key l) : SealExact key l := by
  have hhead := h.head
  have hbound := h.bound
  have hmax := maxPack_lt
  refine ⟨u32_of_lt (by omega), u32_of_lt (by omega), hhead, ?_⟩
  exact u32_recordStart hhead (by omega)

/-- The scan of `load` over integers. -/
def exactLoop (id : Nat) : Nat → Bytes → Nat → List (Bytes × Loc) × Nat
  | 0, _, off => ([], off)
  | fuel + 1, r, off =>
    let klen := leNat (r.take 4)
    let vlen := leNat ((r.drop 4).take 4)
    let body := r.drop recHeader
    if r.length < recHeader ∨ body.length < klen ∨ (body.drop klen).length < vlen then ([], off)
    else
      let more := exactLoop id fuel ((body.drop klen).drop vlen) (off + (recHeader + klen + vlen))
      ((body.take klen, ⟨id, off + recHeader + klen, vlen⟩) :: more.1, more.2)

theorem scanLoop_eq_exactLoop {fuel : Nat} {r : Bytes} {off : Nat} (h : off + r.length ≤ maxPack) :
    scanLoop id fuel r off = exactLoop id fuel r off := by
  induction fuel generalizing r off with
  | zero => rfl
  | succ fuel ih =>
    have hmax := maxPack_lt
    rw [scanLoop, exactLoop]
    simp only
    split
    · rfl
    · rename_i hlong
      simp only [length_drop] at hlong
      have hoff : u32 off = off := u32_of_lt (by omega)
      have hvalue : u32 (off + recHeader + leNat (r.take 4)) =
          off + recHeader + leNat (r.take 4) := u32_of_lt (by omega)
      rw [hoff, hvalue, ih]
      simp only [length_drop]
      omega

theorem small_of_mem_exactLoop {fuel : Nat} {r : Bytes} {off : Nat} (h : off + r.length ≤ maxPack)
    {e : Bytes × Loc} (he : e ∈ (exactLoop id fuel r off).1) :
    Small e.1 e.2 := by
  induction fuel generalizing r off with
  | zero => cases he
  | succ fuel ih =>
    rw [exactLoop] at he
    split at he
    · cases he
    · rename_i hlong
      simp only [length_drop] at hlong
      rcases mem_cons.mp he with rfl | he
      · refine ⟨?_, ?_⟩
        · simp only [length_take, length_drop]
          omega
        · simp only
          omega
      · refine ih ?_ he
        simp only [length_drop]
        omega

/-- The scan of a pack file is exact, and so is the `seal` that follows it in `load`. -/
structure ScanExact (id : Nat) (data : Bytes) : Prop where
  scan : scan id data = exactLoop id data.length data 0
  sealed : ∀ {s : Store} {p : Pack}, s.Known → s.packs.lookup id = none → p.id = id →
    ∀ {key l}, (((Jigd.scan id data).1.foldl (add id) (s.addPack p)).index.lookup key) = some l →
      l.pack = id → SealExact key l

theorem small_of_mem_scan {data : Bytes} (h : data.length ≤ maxPack) {e : Bytes × Loc}
    (he : e ∈ (scan id data).1) : Small e.1 e.2 := by
  have hlen : 0 + data.length ≤ maxPack := by omega
  rw [scan, scanLoop_eq_exactLoop hlen] at he
  exact small_of_mem_exactLoop hlen he

/-- An entry after the entries of one pack were added: an old one, or one of them. -/
theorem lookup_of_foldl_add {s : Store} {es : List (Bytes × Loc)} (hid : ∀ e ∈ es, e.2.pack = id)
    (h : (es.foldl (add id) s).index.lookup key = some l) :
    s.index.lookup key = some l ∨ (key, l) ∈ es := by
  rw [lookup_foldl_add s hid] at h
  cases hold : s.index.lookup key with
  | none =>
    rw [hold] at h
    exact .inr (mem_of_lastOf h)
  | some old =>
    rw [hold, newest] at h
    split at h
    · exact .inl h
    · cases hlast : lastOf es key with
      | none =>
        rw [hlast, none_or] at h
        exact .inl h
      | some l' =>
        rw [hlast, some_or] at h
        cases h
        exact .inr (mem_of_lastOf hlast)

theorem scanExact_of_le {data : Bytes} (h : data.length ≤ maxPack) :
    ScanExact id data := by
  refine ⟨scanLoop_eq_exactLoop (by omega), ?_⟩
  intro s p hknown hnone hp key l hl hpack
  rcases lookup_of_foldl_add (fun e he => pack_of_mem_scan he) hl with hold | hmem
  · -- an entry from before would name a pack of the table
    obtain ⟨q, hq⟩ := hknown key l hold
    rw [hpack, hnone] at hq
    cases hq
  · exact (small_of_mem_scan h hmem).sealExact

/-! ## Pack files -/

def PackPath (q : Path) : Prop := ∃ t id, q = filePath t id .pack ∨ q = tmpPath t id .pack

def HintTmp (q : Path) : Prop := ∃ t id, q = tmpPath t id .hint

structure Fine (fs : FileSystem) (i : Nat) : Prop where
  lt : i < fs.inodes.length
  len : (fs.data i).length ≤ maxPack
  noHint : ∀ q, HintTmp q → fs.lookup q ≠ some i

def BoundedFiles (fs : FileSystem) : Prop :=
  ∀ q i, PackPath q → fs.lookup q = some i → Fine fs i

theorem not_hintTmp_filePath (t id : Nat) (ext : Ext) : ¬ HintTmp (filePath t id ext) := by
  rintro ⟨t', id', h⟩
  exact filePath_ne_tmpPath _ _ _ _ _ _ h

theorem not_packPath_hint (t id : Nat) : ¬ PackPath (filePath t id .hint) := by
  rintro ⟨t', id', h | h⟩
  · exact absurd (filePath_inj.mp h).2.2 (by decide)
  · exact filePath_ne_tmpPath _ _ _ _ _ _ h

theorem not_packPath_of_hintTmp {q : Path} (h : HintTmp q) : ¬ PackPath q := by
  obtain ⟨t, id, rfl⟩ := h
  rintro ⟨t', id', h | h⟩
  · exact filePath_ne_tmpPath _ _ _ _ _ _ h.symm
  · exact absurd (tmpPath_inj.mp h).2.2 (by decide)

namespace Fine

variable {fs : FileSystem} {i : Nat} {bytes : Bytes}

theorem setData (h : Fine fs i) {j : Nat}
    (hj : bytes.length ≤ maxPack ∨ ∃ q, HintTmp q ∧ fs.lookup q = some j) :
    Fine (fs.setData j bytes) i := by
  refine ⟨by rw [length_setData]; exact h.lt, ?_, h.noHint⟩
  by_cases hij : i = j
  · subst hij
    rcases hj with hlen | ⟨q, hq, hlook⟩
    · rw [data_setData_same _ h.lt]
      exact hlen
    · exact absurd hlook (h.noHint q hq)
  · rw [data_setData_ne _ hij]
    exact h.len

theorem place (h : Fine fs i) (path : Path) (bytes : Bytes) : Fine (fs.place path bytes) i := by
  have hlt := h.lt
  refine ⟨?_, ?_, ?_⟩
  · rw [length_place]
    omega
  · rw [data_place_old _ _ hlt]
    exact h.len
  · intro q hq hlook
    rw [lookup_place] at hlook
    split at hlook
    · have := some.inj hlook
      omega
    · exact h.noHint q hq hlook

theorem place_new (fs : FileSystem) {path : Path} (hpath : ¬ HintTmp path) :
    Fine (fs.place path []) fs.inodes.length := by
  refine ⟨?_, ?_, ?_⟩
  · rw [length_place]
    omega
  · rw [data_place_new]
    exact zero_le _
  · intro q hq hlook
    rw [lookup_place] at hlook
    split at hlook
    · rename_i heq
      exact hpath (heq ▸ hq)
    · exact lt_irrefl _ (lookup_lt hlook)

theorem remove (h : Fine fs i) (path : Path) : Fine (fs.remove path) i := by
  refine ⟨h.lt, h.len, ?_⟩
  intro q hq hlook
  rw [lookup_remove] at hlook
  split at hlook
  · cases hlook
  · exact h.noHint q hq hlook

theorem link (h : Fine fs i) {src dst : Path} {j : Nat} (hsrc : fs.lookup src = some j)
    (hdst : ¬ HintTmp dst) : Fine (fs.link src dst) i := by
  refine ⟨by rw [length_link]; exact h.lt, ?_, ?_⟩
  · rw [data_link]
    exact h.len
  · intro q hq hlook
    have hne : q ≠ dst := fun heq => hdst (heq ▸ hq)
    rw [lookup_link hsrc, if_neg hne] at hlook
    exact h.noHint q hq hlook

theorem rename (h : Fine fs i) {src dst : Path} (hdst : ¬ HintTmp dst) :
    Fine (fs.rename src dst) i := by
  refine ⟨by rw [length_rename]; exact h.lt, ?_, ?_⟩
  · rw [data_rename]
    exact h.len
  · intro q hq hlook
    cases hsrc : fs.lookup src with
    | none =>
      have hsame : fs.rename src dst = fs := by
        unfold FileSystem.rename
        split
        · rename_i j hj
          rw [hsrc] at hj
          cases hj
        · rfl
      rw [hsame] at hlook
      exact h.noHint q hq hlook
    | some j =>
      have hne : q ≠ dst := fun heq => hdst (heq ▸ hq)
      rw [lookup_rename hsrc, if_neg hne] at hlook
      split at hlook
      · cases hlook
      · exact h.noHint q hq hlook

theorem create (h : Fine fs i) (path : Path) : Fine (fs.create path) i := by
  unfold FileSystem.create
  split
  · exact h.setData (.inl (zero_le _))
  · exact h.place path []

end Fine

structure Bounded (w : World) : Prop where
  named : BoundedFiles w.fs
  opened : ∀ id e, w.store.extent id = some e → e.size ≤ maxPack ∧ Fine w.fs e.file

/-- A change of the files: what was fine stays so, and a pack's new name is for a fine file. -/
theorem Bounded.of_fs (h : Bounded w) (hfine : ∀ i, Fine w.fs i → Fine fs i)
    (hnames : ∀ q i, PackPath q → fs.lookup q = some i → w.fs.lookup q = some i ∨ Fine fs i) :
    Bounded ⟨w.store, fs⟩ := by
  refine ⟨?_, ?_⟩
  · intro q i hq hi
    rcases hnames q i hq hi with hold | hnew
    · exact hfine i (h.named q i hq hold)
    · exact hnew
  · intro id e he
    exact ⟨(h.opened id e he).1, hfine _ (h.opened id e he).2⟩

theorem Bounded.of_store (h : Bounded w) {s : Store}
    (hext : ∀ id e, s.extent id = some e → e.size ≤ maxPack ∧ Fine w.fs e.file) :
    Bounded ⟨s, w.fs⟩ := ⟨h.named, hext⟩

theorem Bounded.setData (h : Bounded w) {j : Nat}
    (hj : bytes.length ≤ maxPack ∨ ∃ q, HintTmp q ∧ w.fs.lookup q = some j) :
    Bounded ⟨w.store, w.fs.setData j bytes⟩ :=
  h.of_fs (fun _ hi => hi.setData hj) fun _ _ _ hi => .inl hi

theorem Bounded.place_hint (h : Bounded w) (t id : Nat) (bytes : Bytes) :
    Bounded ⟨w.store, w.fs.place (filePath t id .hint) bytes⟩ := by
  refine h.of_fs (fun _ hi => hi.place _ _) ?_
  intro q i hq hi
  have hne : q ≠ filePath t id .hint := fun heq => not_packPath_hint t id (heq ▸ hq)
  rw [lookup_place, if_neg hne] at hi
  exact .inl hi

theorem Bounded.remove (h : Bounded w) (path : Path) :
    Bounded ⟨w.store, w.fs.remove path⟩ := by
  refine h.of_fs (fun _ hi => hi.remove path) ?_
  intro q i hq hi
  rw [lookup_remove] at hi
  split at hi
  · cases hi
  · exact .inl hi

theorem Bounded.sealActive (h : Bounded w) (env : SealEnv) :
    Bounded (w.sealActive env).1 := by
  unfold World.sealActive
  split
  · unfold sealPack
    split
    · exact h
    · exact h.place_hint _ _ _
  · exact h

theorem Bounded.openActive (h : Bounded w) (now : Int) (id : Nat) :
    Bounded (w.openActive now id) := by
  have hnew := Fine.place_new w.fs (not_hintTmp_filePath 0 id .pack)
  have hfs : Bounded ⟨w.store, w.fs.place (filePath 0 id .pack) []⟩ := by
    refine h.of_fs (fun _ hi => hi.place _ _) ?_
    intro q i _ hi
    rw [lookup_place] at hi
    split at hi
    · cases hi
      exact .inr hnew
    · exact .inl hi
  refine hfs.of_store ?_
  intro q e he
  have he' := (extent_addPack _ _ q).symm.trans he
  split at he'
  · cases he'
    exact ⟨zero_le _, hnew⟩
  · exact hfs.opened q e he'

/-! ## Appending -/

variable {p : Pack} {body : Bytes}

theorem placed_of_not_needsRotate (hsize : p.size ≤ maxPack)
    (hkey : Storable key body) (h : needsRotate p key body = false) : Placed p key body := by
  have hmax := maxPack_lt
  have hlim := packLimit_le_maxPack
  have hk := hkey.key_le
  have hv := hkey.value_le
  simp only [maxValue] at hv
  have hfits : p.size = 0 ∨ p.size + (recHeader + key.length + body.length) ≤ packLimit := by
    simp only [needsRotate, Bool.and_eq_false_iff, decide_eq_false_iff_not] at h
    omega
  have hoff : p.size + recHeader + key.length ≤ maxPack := by
    have hlong : recHeader + 4096 ≤ maxPack := le_add_right _ _
    omega
  have hkeyLen : u32 key.length = key.length := u32_of_lt (by omega)
  have hrecord : u32 p.size = p.size := u32_of_lt (by omega)
  refine ⟨hfits, hkeyLen, u32_of_lt (by omega), hrecord, ?_⟩
  rw [hrecord, hkeyLen]
  exact u32_of_lt (by omega)

theorem Placed.end_le (h : Placed p key body) (hkey : Storable key body) :
    p.size + (recHeader + key.length + body.length) ≤ maxPack := by
  have hlim := packLimit_le_maxPack
  have hk := hkey.key_le
  have hv := hkey.value_le
  simp only [maxValue] at hv
  have hfits := h.fits
  have hlong : maxPack = recHeader + 4096 + 2 ^ 31 := rfl
  omega

section Append

variable {w : World} {p : Pack} {key body : Bytes}

theorem Bounded.writePack (h : Bounded w) (hp : Fine w.fs p.file) {off : Nat}
    (hlen : off + bytes.length ≤ maxPack) : Bounded (w.writePack p off bytes) := by
  refine h.setData (.inl ?_)
  rw [length_writeAt]
  exact max_le hp.len hlen

theorem Bounded.undoWrite (h : Bounded w) (hsize : p.size ≤ maxPack) (env : PutEnv) :
    Bounded (w.undoWrite env p) := by
  unfold World.undoWrite
  split
  · exact h
  · refine h.setData (.inl ?_)
    rw [length_truncateTo]
    exact hsize

theorem bounded_append (h : Bounded w) (hp : w.store.extent p.id = some p.extent)
    (hkey : Storable key body) (hplaced : Placed p key body) (env : PutEnv) :
    Bounded (w.append env p key body).1 := by
  have hend := hplaced.end_le hkey
  have hfine := h.opened p.id _ hp
  have hhead : (recordHead key body.length).length = recHeader + key.length := length_recordHead _ _
  have hone : ∀ n, Bounded (w.writePack p p.size ((recordHead key body.length).take n)) := by
    intro n
    apply h.writePack hfine.2
    rw [length_take, hhead]
    omega
  have hwhole : Bounded (w.writePack p p.size (recordHead key body.length)) := by
    apply h.writePack hfine.2
    rw [hhead]
    omega
  have htwo : ∀ n, Bounded ((w.writePack p p.size (recordHead key body.length)).writePack p
      (p.size + (recHeader + key.length)) (body.take n)) := by
    intro n
    apply hwhole.writePack (hwhole.opened p.id _ hp).2
    rw [length_take]
    omega
  rcases append_cases env w p key body with ⟨e, heq⟩ | ⟨n, e, heq⟩ | ⟨n, e, heq⟩ | heq
  · rw [heq]
    exact h
  · rw [heq]
    exact (hone n).undoWrite hfine.1 env
  · rw [heq]
    exact (htwo n).undoWrite hfine.1 env
  · rw [heq]
    have hfs := htwo body.length
    rw [take_length] at hfs
    refine hfs.of_store ?_
    intro q e he
    rw [extent_commit hp] at he
    split at he
    · cases he
      exact ⟨hend, (hfs.opened p.id _ hp).2⟩
    · exact hfs.opened q e he

end Append

/-! ## Between the calls of a session -/

/-- What holds between calls.  `G` are the packs whose entries a hint stated: of these entries
nothing is known, and no record goes behind them as long as the active pack is ahead. -/
structure Measured (G : Nat → Prop) (w : World) : Prop where
  files : Bounded w
  filed : ∀ id e, w.store.extent id = some e → e.id = id
  entries : ∀ key l, w.store.index.lookup key = some l → G l.pack ∨ Small key l
  ahead : (∀ g, ¬ G g) ∨ ∀ a g, w.store.active = some a → G g → g < a

namespace Measured

variable {G : Nat → Prop} {w : World}

theorem extent_activePack (h : Measured G w) (hp : w.store.activePack = some p) :
    w.store.active = some p.id ∧ w.store.extent p.id = some p.extent := by
  rw [activePack, bind_eq_some_iff] at hp
  obtain ⟨a, ha, hp⟩ := hp
  have hid : p.id = a := h.filed a _ (extent_of_lookup hp)
  rw [hid]
  exact ⟨ha, extent_of_lookup hp⟩

variable {key : Bytes}

/-- The active pack takes none of the entries a hint stated. -/
theorem small_of_active (h : Measured G w) (hp : w.store.activePack = some p)
    (hl : w.store.index.lookup key = some l) (hpack : l.pack = p.id) :
    Small key l := by
  have hactive := (h.extent_activePack hp).1
  rcases h.entries key l hl with hg | hsmall
  · rcases h.ahead with hnone | hahead
    · exact absurd hg (hnone _)
    · have := hahead _ _ hactive hg
      omega
  · exact hsmall

theorem sealActive (h : Measured G w) (env : SealEnv) : Measured G (w.sealActive env).1 := by
  have hstore := sealActive_store env w
  refine ⟨h.files.sealActive env, ?_, ?_, ?_⟩
  · rw [hstore]
    exact h.filed
  · rw [hstore]
    exact h.entries
  · rw [hstore]
    exact h.ahead

theorem openActive (h : Measured G w) (now : Int) {id : Nat}
    (hahead : (∀ g, ¬ G g) ∨ ∀ g, G g → g < id) : Measured G (w.openActive now id) := by
  refine ⟨h.files.openActive now id, ?_, h.entries, ?_⟩
  · intro q e he
    have he' := (extent_addPack _ _ q).symm.trans he
    split at he'
    · rename_i hq
      cases he'
      exact hq.symm
    · exact h.filed q e he'
  · refine hahead.imp_right fun hlt a g ha hg => ?_
    cases ha
    exact hlt g hg

theorem append (h : Measured G w) (hp : w.store.activePack = some p) (hkey : Storable key body)
    (hplaced : Placed p key body) (env : PutEnv) :
    Measured G (w.append env p key body).1 := by
  obtain ⟨hactive, hext⟩ := h.extent_activePack hp
  have hfiles := bounded_append h.files hext hkey hplaced env
  have hend := hplaced.end_le hkey
  rcases store_append env w p key body with ⟨hstore, -⟩ | heq
  · refine ⟨hfiles, ?_, ?_, ?_⟩
    · rw [hstore]
      exact h.filed
    · rw [hstore]
      exact h.entries
    · rw [hstore]
      exact h.ahead
  · have hstore : (w.append env p key body).1.store =
        commit w.store p key body.length := by rw [heq]
    refine ⟨hfiles, ?_, ?_, ?_⟩
    · intro q e he
      rw [hstore, extent_commit hext] at he
      split at he
      · rename_i hq
        cases he
        exact hq.symm
      · exact h.filed q e he
    · intro k l hl
      rw [hstore, commit_index, Table.lookup_insert] at hl
      split at hl
      · rename_i hk
        cases hl
        right
        rw [hk, hplaced.valueOff, hplaced.valueLen]
        refine ⟨?_, ?_⟩
        · simp only
          omega
        · simp only
          omega
      · exact h.entries k l hl
    · rw [hstore, commit_active]
      exact h.ahead

end Measured

/-- What a `Put` begins with: it is refused, or cannot rotate, or appends a record to the pack that
is then active. -/
theorem put_begins {G : Nat → Prop} (h : Measured G w) (env : PutEnv) (key : Bytes) (size : Int)
    (r : Bytes) :
    (∃ e, w.put env key size r = (w, .error e)) ∨
      w.put env key size r = ((w.sealActive env.rotate.sealing).1, .error .rotate) ∨
      ∃ w' p body, w.put env key size r = w'.append env p key body ∧
        w'.store.activePack = some p ∧ Storable key body ∧ Placed p key body ∧
        ∀ d k, (∀ g, ¬ G g) ∨ ¬ Sys.Wraps ⟨w, d, k⟩ (.put env key size r) → Measured G w' := by
  cases hp : w.store.activePack with
  | none =>
    left
    cases hbody : readBody env key size r with
    | error e => exact ⟨e, by rw [put, hbody]⟩
    | ok body =>
      refine ⟨.closed, ?_⟩
      rw [put, hbody]
      simp only [putLocked, hp, ite_self]
  | some p =>
    obtain ⟨hactive, hext⟩ := h.extent_activePack hp
    cases put_path env key size r hp with
    | refused e result => exact .inl ⟨e, result⟩
    | direct body hbody _ fits result =>
      have hkey := (storable_of_readBody hbody).2
      refine .inr (.inr ⟨w, p, body, result, hp, hkey, ?_, fun _ _ _ => h⟩)
      exact placed_of_not_needsRotate (h.files.opened _ _ hext).1 hkey fits
    | stuck body _ _ _ _ result => exact .inr (.inl result)
    | rotated body q hbody hclosed full _ hq result =>
      have hkey := (storable_of_readBody hbody).2
      have hzero : q.size = 0 := by rw [hq]
      refine .inr (.inr ⟨_, q, body, result, ?_, hkey, ?_, ?_⟩)
      · rw [activePack_openActive, hq]
      · apply placed_of_not_needsRotate (by rw [hzero]; exact zero_le _) hkey
        rw [needsRotate, hzero]
        simp
      · intro d k hwrap
        refine (h.sealActive env.rotate.sealing).openActive _ ?_
        rcases h.ahead with hnone | hahead
        · exact .inl hnone
        rcases hwrap with hnone | hwrap
        · exact .inl hnone
        rw [u32_of_not_wraps hwrap hp hbody hclosed full]
        exact .inr fun g hg => lt_succ_of_lt (hahead _ _ hactive hg)

theorem Measured.put {G : Nat → Prop} (h : Measured G w) {env : PutEnv} {size : Int} {r : Bytes}
    {d : Demoter} {k : Bool} (hwrap : (∀ g, ¬ G g) ∨ ¬ Sys.Wraps ⟨w, d, k⟩ (.put env key size r)) :
    Measured G (w.put env key size r).1 := by
  rcases put_begins h env key size r with ⟨e, heq⟩ | heq | ⟨w', p, body, heq, hp, hkey,
    hplaced, hw'⟩
  · rw [heq]
    exact h
  · rw [heq]
    exact h.sealActive env.rotate.sealing
  · rw [heq]
    exact (hw' d k hwrap).append hp hkey hplaced env

/-! ## The demoter -/

namespace Bounded

variable {w : World}

theorem link (h : Bounded w) {src id i : Nat} {ext : Ext}
    (hi : w.fs.lookup (filePath src id ext) = some i) (dst : Nat) :
    Bounded ⟨w.store, w.fs.link (filePath src id ext) (filePath dst id ext)⟩ := by
  have hfine : ∀ j, Fine w.fs j →
      Fine (w.fs.link (filePath src id ext) (filePath dst id ext)) j :=
    fun j hj => hj.link hi (not_hintTmp_filePath _ _ _)
  refine h.of_fs hfine ?_
  intro q j hq hj
  rw [lookup_link hi] at hj
  split at hj
  · rename_i hpath
    cases ext with
    | pack =>
      cases hdst : w.fs.lookup (filePath dst id .pack) with
      | none =>
        rw [hdst] at hj
        cases hj
        exact .inr (hfine _ (h.named _ _ ⟨src, id, .inl rfl⟩ hi))
      | some k =>
        rw [hdst] at hj
        cases hj
        rw [hpath]
        exact .inl hdst
    | hint => exact absurd (hpath ▸ hq) (not_packPath_hint dst id)
  · exact .inl hj

theorem create (h : Bounded w) (t id : Nat) (ext : Ext) :
    Bounded ⟨w.store, w.fs.create (tmpPath t id ext)⟩ := by
  refine h.of_fs (fun _ hi => hi.create _) ?_
  intro q j hq hj
  unfold FileSystem.create at hj ⊢
  split
  · rename_i k hk
    rw [hk] at hj
    exact .inl hj
  · rename_i hnone
    rw [hnone] at hj
    rw [lookup_place] at hj
    split at hj
    · rename_i hpath
      cases hj
      right
      apply Fine.place_new
      intro hhint
      exact not_packPath_of_hintTmp hhint (hpath ▸ hq)
    · exact .inl hj

theorem copyBytes (h : Bounded w) (src t id : Nat) (ext : Ext) (n : Nat) :
    Bounded ⟨w.store, copyBytes w.fs (filePath src id ext) (tmpPath t id ext) n⟩ := by
  unfold Sys.copyBytes
  split
  · rename_i i j hi hj
    apply h.setData
    cases ext with
    | pack =>
      left
      have hsrc := (h.named _ _ ⟨src, id, .inl rfl⟩ hi).len
      have hdst := (h.named _ _ ⟨t, id, .inr rfl⟩ hj).len
      rw [length_append, length_take, length_drop]
      omega
    | hint => exact .inr ⟨_, ⟨t, id, rfl⟩, hj⟩
  · exact h

theorem rename (h : Bounded w) (t id : Nat) (ext : Ext) :
    Bounded ⟨w.store, w.fs.rename (tmpPath t id ext) (filePath t id ext)⟩ := by
  have hfine : ∀ j, Fine w.fs j → Fine (w.fs.rename (tmpPath t id ext) (filePath t id ext)) j :=
    fun j hj => hj.rename (not_hintTmp_filePath _ _ _)
  refine h.of_fs hfine ?_
  intro q j hq hj
  cases hsrc : w.fs.lookup (tmpPath t id ext) with
  | none =>
    have hsame : w.fs.rename (tmpPath t id ext) (filePath t id ext) = w.fs := by
      unfold FileSystem.rename
      split
      · rename_i k hk
        rw [hsrc] at hk
        cases hk
      · rfl
    rw [hsame] at hj
    exact .inl hj
  | some k =>
    rw [lookup_rename hsrc] at hj
    split at hj
    · rename_i hpath
      cases hj
      cases ext with
      | pack => exact .inr (hfine _ (h.named _ _ ⟨t, id, .inr rfl⟩ hsrc))
      | hint => exact absurd (hpath ▸ hq) (not_packPath_hint t id)
    · split at hj
      · cases hj
      · exact .inl hj

end Bounded

namespace Measured

variable {G : Nat → Prop} {w : World}

theorem withFs (h : Measured G w) {fs : FileSystem} (hfs : Bounded ⟨w.store, fs⟩) :
    Measured G ⟨w.store, fs⟩ := ⟨hfs, h.filed, h.entries, h.ahead⟩

theorem get (h : Measured G w) (key : Bytes) (now : Int) : Measured G (w.get key now).1 := by
  refine ⟨⟨?_, ?_⟩, ?_, ?_, ?_⟩
  · rw [get_fs]
    exact h.files.named
  · intro id e he
    rw [extent_get] at he
    rw [get_fs]
    exact h.files.opened id e he
  · intro id e he
    rw [extent_get] at he
    exact h.filed id e he
  · rw [get_index]
    exact h.entries
  · rw [get_active]
    exact h.ahead

theorem evict (h : Measured G w) (p : Pack) : Measured G (w.evict p) := by
  have hext : ∀ q e, (w.evict p).store.extent q = some e → w.store.extent q = some e := by
    intro q e he
    rw [extent_evict] at he
    split at he
    · cases he
    · exact he
  have hfs := (h.files.remove (filePath p.tier p.id .pack)).remove (filePath p.tier p.id .hint)
  refine ⟨hfs.of_store fun q e he => hfs.opened q e (hext q e he), ?_, ?_, h.ahead⟩
  · exact fun q e he => h.filed q e (hext q e he)
  · intro key l hl
    exact h.entries key l (lookup_evict_eq_some.mp hl).1

theorem switchDown (h : Measured G w) (hp : w.store.packs.lookup p.id = some p)
    {t file : Nat} (hfile : w.fs.lookup (filePath t p.id .pack) = some file) :
    Measured G (w.switchDown p file) := by
  have hfs := (h.files.remove (filePath p.tier p.id .pack)).remove (filePath p.tier p.id .hint)
  have hfine := h.files.named _ _ ⟨t, p.id, .inl rfl⟩ hfile
  have hsize := (h.files.opened p.id _ (extent_of_lookup hp)).1
  refine ⟨hfs.of_store ?_, ?_, ?_, ?_⟩
  · intro q e he
    have he' := (extent_switchDown hp file q).symm.trans he
    split at he'
    · cases he'
      exact ⟨hsize, (hfine.remove _).remove _⟩
    · exact hfs.opened q e he'
  · intro q e he
    rw [extent_switchDown hp] at he
    split at he
    · rename_i hq
      cases he
      exact hq.symm
    · exact h.filed q e he
  · rw [switchDown_index]
    exact h.entries
  · rw [switchDown_active]
    exact h.ahead

theorem demoterStep {s s' : Sys} {l : Label} (h : Measured G s.world) (hstep : DemoterStep s l s') :
    Measured G s'.world := by
  cases hstep with
  | recv _ _ | rest _ | pick _ _ _ | startMove _ _ _ | giveUp _ => exact h
  | evict _ _ _ => exact h.evict _
  | linked _ hi => exact h.withFs (h.files.link hi _)
  | linkFails _ _ => exact h.withFs (h.files.create _ _ _)
  | copySome _ _ | copyRest _ _ _ => exact h.withFs (h.files.copyBytes _ _ _ _ _)
  | renamed _ => exact h.withFs (h.files.rename _ _ _)
  | dropTmp _ => exact h.withFs (h.files.remove _)
  | switch hdone hp hfile =>
    rename_i id src file p
    have hid : p.id = id := h.filed id _ (extent_of_lookup hp)
    subst hid
    exact h.switchDown hp hfile

theorem step {s s' : Sys} {l : Label} (h : Measured G s.world) (hstep : s.step l = some s')
    (hwrap : (∀ g, ¬ G g) ∨ ¬ s.Wraps l) : Measured G s'.world := by
  rcases step_inv hstep with ⟨env, key, size, r, rfl, rfl⟩ | ⟨key, now, rfl, rfl⟩ |
    ⟨rfl, rfl⟩ | ⟨-, hdem⟩
  · rw [(stepPut_world s env key size r).1]
    exact h.put hwrap
  · exact h.get key now
  · exact ⟨⟨h.files.named, h.files.opened⟩, h.filed, h.entries, h.ahead⟩
  · exact h.demoterStep hdem

end Measured

/-! ## Opening -/

namespace World

variable {env : OpenEnv}

theorem extent_of_load {w : World} {t id q : Nat} {e : Extent}
    (h : (w.load env t id).1.store.extent q = some e) :
    w.store.extent q = some e ∨ (q = id ∧ e.id = id ∧
      w.fs.lookup (filePath t id .pack) = some e.file ∧ e.size ≤ (w.fs.data e.file).length) := by
  rcases extent_load env w t id with ⟨-, heq⟩ | ⟨-, i, n, hi, hn, hext⟩
  · rw [heq] at h
    exact .inl h
  · rw [hext] at h
    split at h
    · rename_i hq
      cases h
      exact .inr ⟨hq, rfl, hi, hn⟩
    · exact .inl h

/-- The index after a load: a hint's entries count only if there is one, and then the load
succeeds. -/
theorem lookup_of_load {w : World} {t id : Nat}
    (h : (w.load env t id).1.store.index.lookup key = some l) :
    w.store.index.lookup key = some l ∨
      (l.pack = id ∧ (w.load env t id).2 = true ∧
        ∃ hint, w.fs.lookup (filePath t id .hint) = some hint) ∨
      ∃ i, w.fs.lookup (filePath t id .pack) = some i ∧ (key, l) ∈ (scan id (w.fs.data i)).1 := by
  rcases load_cases env w t id with ⟨-, heq⟩ | ⟨file, hint, -, -, hhint, heq⟩ |
    ⟨file, hfile, -, -, heq⟩
  · rw [heq] at h
    exact .inl h
  · rw [heq] at h ⊢
    rcases lookup_of_foldl_add (fun e he => pack_of_mem_hintEntries he) h with hold | hmem
    · exact .inl hold
    · exact .inr (.inl ⟨pack_of_mem_hintEntries hmem, rfl, hint, hhint⟩)
  · have hfold : ((scan id (w.fs.data file)).1.foldl (add id)
        (w.store.addPack (openedPack env w.fs t id file))).index.lookup key = some l →
        w.store.index.lookup key = some l ∨ (key, l) ∈ (scan id (w.fs.data file)).1 :=
      lookup_of_foldl_add (s := w.store.addPack (openedPack env w.fs t id file))
        fun e he => pack_of_mem_scan he
    have hfound : w.store.index.lookup key = some l ∨ (key, l) ∈ (scan id (w.fs.data file)).1 := by
      rw [heq] at h
      rcases loadScan_cases env w (openedPack env w.fs t id file) with ⟨-, -, hres⟩ | ⟨-, hres⟩ |
        ⟨-, -, bytes, hres⟩
      · rw [hres] at h
        exact hfold h
      · rw [hres, scanned, addTotal_index, modifyPack_index] at h
        exact hfold h
      · rw [hres, scanned, addTotal_index, modifyPack_index] at h
        exact hfold h
    exact hfound.imp_right fun hmem => .inr ⟨file, hfile, hmem⟩

end World

theorem bounded_load (h : Bounded w) (env : OpenEnv) (t id : Nat) :
    Bounded (w.load env t id).1 := by
  have hfs : Bounded ⟨w.store, (w.load env t id).1.fs⟩ := by
    rcases load_cases env w t id with ⟨-, heq⟩ | ⟨file, hint, -, -, -, heq⟩ |
      ⟨file, hfile, -, -, heq⟩
    · rw [heq]
      exact h
    · rw [heq]
      exact h
    · have hlen := (h.named _ _ ⟨t, id, .inl rfl⟩ hfile).len
      have hstop := scanLoop_le id (w.fs.data file).length (w.fs.data file) 0
      have hcut : Bounded ⟨w.store, cutTail w.fs (openedPack env w.fs t id file)
          (scan id (w.fs.data file)).2⟩ := by
        unfold cutTail
        split
        · refine h.setData (.inl ?_)
          rw [length_truncateTo, scan]
          omega
        · exact h
      rw [heq]
      rcases loadScan_cases env w (openedPack env w.fs t id file) with
        ⟨-, -, hres⟩ | ⟨-, hres⟩ | ⟨-, -, bytes, hres⟩
      · rw [hres]
        exact h
      · rw [hres]
        exact hcut
      · rw [hres]
        exact hcut.place_hint _ _ _
  refine hfs.of_store ?_
  intro q e he
  rcases extent_of_load he with hold | ⟨-, -, hfile, hsize⟩
  · exact hfs.opened q e hold
  · have hlen := (h.named _ _ ⟨t, id, .inl rfl⟩ hfile).len
    have hne : filePath t id .pack ≠ filePath t id .hint :=
      fun heq => absurd (filePath_inj.mp heq).2.2 (by decide)
    refine ⟨hsize.trans hlen, hfs.named _ _ ⟨t, id, .inl rfl⟩ ?_⟩
    exact ((loadedFiles_load env w t id).names hne).trans hfile

def Hintless (fs : FileSystem) : Prop := ∀ t id, fs.lookup (filePath t id .hint) = none

/-- The loop of `OpenStore`: an entry is small unless a hint stated it, and then its pack counts. -/
structure MeasuredOpen (fs : FileSystem) (acc : World × Nat) : Prop where
  files : Bounded acc.1
  filed : ∀ id e, acc.1.store.extent id = some e → e.id = id
  entries : ∀ key l, acc.1.store.index.lookup key = some l →
    (¬ Hintless fs ∧ l.pack ≤ acc.2) ∨ Small key l

theorem keptBy_measuredOpen (env : OpenEnv) (fs : FileSystem) (n : Nat) :
    World.KeptBy env fs n (MeasuredOpen fs) := by
  intro V acc t name _ hopened h
  rw [openName]
  split
  · exact h
  · rename_i id hid
    split
    · exact ⟨(h.files.remove _).remove _, h.filed, h.entries⟩
    · rename_i hnone
      rw [Bool.not_eq_true, isSome_eq_false_iff, isNone_iff_eq_none] at hnone
      have hfiles := bounded_load h.files env t id
      have hfiled : ∀ q e, (acc.1.load env t id).1.store.extent q = some e → e.id = q := by
        intro q e he
        rcases extent_of_load he with hold | ⟨hq, he, -⟩
        · exact h.filed q e hold
        · rw [he, hq]
      have hentries : ∀ key l, (acc.1.load env t id).1.store.index.lookup key = some l →
          (¬ Hintless fs ∧ (l.pack ≤ acc.2 ∨ ((acc.1.load env t id).2 = true ∧ l.pack = id))) ∨
            Small key l := by
        intro key l hl
        rcases lookup_of_load hl with hold | ⟨hpack, hok, hint, hhint⟩ | ⟨i, hi, hmem⟩
        · exact (h.entries key l hold).imp_left fun hold => ⟨hold.1, .inl hold.2⟩
        · rw [hopened.names hnone] at hhint
          refine .inl ⟨fun hless => ?_, .inr ⟨hok, hpack⟩⟩
          rw [hless t id] at hhint
          cases hhint
        · exact .inr (small_of_mem_scan (h.files.named _ _ ⟨t, id, .inl rfl⟩ hi).len hmem)
      split
      · rename_i w hw
        rw [hw] at hfiles hfiled hentries
        refine ⟨hfiles, hfiled, ?_⟩
        intro key l hl
        refine (hentries key l hl).imp_left fun hold => ⟨hold.1, ?_⟩
        rcases hold.2 with hle | ⟨-, rfl⟩
        · exact hle.trans (le_max_left _ _)
        · exact le_max_right _ _
      · rename_i w hw
        rw [hw] at hfiles hfiled hentries
        refine ⟨hfiles, hfiled, ?_⟩
        intro key l hl
        refine (hentries key l hl).imp_left fun hold => ⟨hold.1, ?_⟩
        rcases hold.2 with hle | ⟨hok, -⟩
        · exact hle
        · cases hok

theorem measuredOpen_loadTiers (h : BoundedFiles fs) (env : OpenEnv) (budgets : List Int) :
    MeasuredOpen fs (loadTiers env budgets fs) := by
  refine (openedTiers_of (keptBy_measuredOpen env fs budgets.length) ?_).kept
  refine ⟨⟨h, ?_⟩, ?_, ?_⟩
  · intro id e he
    cases he
  · intro id e he
    cases he
  · intro key l hl
    cases hl

/-- The packs that a session on `fs` may have loaded from a hint. -/
def Stated (env : OpenEnv) (budgets : List Int) (fs : FileSystem) (g : Nat) : Prop :=
  ¬ Hintless fs ∧ g ≤ (loadTiers env budgets fs).2

theorem measured_openStore {env : OpenEnv} (h : BoundedFiles fs) {budgets : List Int}
    (hopen : openStore env budgets fs = (w, true)) :
    Measured (Stated env budgets fs) w := by
  have hloaded := measuredOpen_loadTiers h env budgets
  have hidle := active_loadTiers env budgets fs
  have hbefore : Measured (Stated env budgets fs) (loadTiers env budgets fs).1 := by
    refine ⟨hloaded.files, hloaded.filed, hloaded.entries, .inr ?_⟩
    intro a g ha
    rw [hidle] at ha
    cases ha
  rw [openStore_eq] at hopen
  split at hopen
  · cases hopen
  · cases hopen
    apply hbefore.openActive
    right
    intro g hg
    rw [newId_eq]
    exact lt_succ_of_le hg.2

/-! ## Sessions -/

/-- A step of a session on `fs`: the ids may run out only if no hint was there at its start. -/
def SessionStep (fs : FileSystem) (s : Sys) (l : Label) (s' : Sys) : Prop :=
  s.step l = some s' ∧ (Hintless fs ∨ ¬ s.Wraps l)

/-- Directories after any number of sessions, ended by `Close` or not at all, and of calls of
`OpenStore` that may have failed. -/
inductive Sessions : FileSystem → Prop where
  | empty : Sessions empty
  | opened {fs : FileSystem} (h : Sessions fs) (env : OpenEnv) (budgets : List Int) :
      Sessions (openStore env budgets fs).1.fs
  | left {fs : FileSystem} {env : OpenEnv} {budgets : List Int} {w : World} {labels : List Label}
      {s : Sys} (h : Sessions fs) (hopen : openStore env budgets fs = (w, true))
      (hrun : Steps (SessionStep fs) (fresh w) labels s) : Sessions s.fs
  | closed {fs : FileSystem} {env : OpenEnv} {budgets : List Int} {w : World}
      {labels : List Label} {s : Sys} (h : Sessions fs)
      (hopen : openStore env budgets fs = (w, true))
      (hrun : Steps (SessionStep fs) (fresh w) labels s) (senv : SealEnv) :
      Sessions (s.world.close senv).1.fs

theorem measured_of_run {env : OpenEnv} (h : BoundedFiles fs) {budgets : List Int}
    (hopen : openStore env budgets fs = (w, true)) {labels : List Label} {s : Sys}
    (hrun : Steps (SessionStep fs) (fresh w) labels s) :
    Measured (Stated env budgets fs) s.world := by
  refine hrun.invariant (P := fun s => Measured (Stated env budgets fs) s.world) ?_
    (measured_openStore h hopen)
  intro s l s' hs hstep
  refine hs.step hstep.1 (hstep.2.imp_left ?_)
  intro hless g hg
  exact hg.1 hless

theorem Sessions.boundedFiles (h : Sessions fs) : BoundedFiles fs := by
  induction h with
  | empty =>
    intro q i _ hi
    cases hi
  | opened _ env budgets ih =>
    have hloaded := (measuredOpen_loadTiers ih env budgets).files
    rw [openStore_eq]
    split
    · exact hloaded.named
    · exact (hloaded.openActive _ _).named
  | left _ hopen hrun ih => exact (measured_of_run ih hopen hrun).files.named
  | closed _ hopen hrun senv ih =>
      exact ((measured_of_run ih hopen hrun).files.sealActive senv).named

/-- Every record of a `Put` begins where it should, and every conversion to `uint32` in `Put`, in
the `seal` of the active pack and in a scan of any pack file is exact. -/
structure OffsetsExact (w : World) : Prop where
  puts : ∀ (env : PutEnv) (key : Bytes) (size : Int) (r : Bytes),
    (∃ e, w.put env key size r = (w, .error e)) ∨
      w.put env key size r = ((w.sealActive env.rotate.sealing).1, .error .rotate) ∨
      ∃ (w' : World) (p : Pack) (body : Bytes), w.put env key size r = w'.append env p key body ∧
        w'.store.activePack = some p ∧ Storable key body ∧ Placed p key body
  seals : ∀ {p : Pack} {key : Bytes} {l : Loc}, w.store.activePack = some p →
    w.store.index.lookup key = some l →
    l.pack = p.id → SealExact key l
  scans : ∀ {t id i : Nat}, w.fs.lookup (filePath t id .pack) = some i → ScanExact id (w.fs.data i)

theorem offsets_exact {fs : FileSystem} (hfs : Sessions fs) {env : OpenEnv} {budgets : List Int}
    {w : World} (hopen : openStore env budgets fs = (w, true)) {labels : List Label} {s : Sys}
    (hrun : Steps (SessionStep fs) (fresh w) labels s) : OffsetsExact s.world := by
  have h := measured_of_run hfs.boundedFiles hopen hrun
  refine ⟨?_, ?_, ?_⟩
  · intro env key size r
    rcases put_begins h env key size r with hno | hno | ⟨w', p, body, heq, hp, hkey, hplaced, -⟩
    · exact .inl hno
    · exact .inr (.inl hno)
    · exact .inr (.inr ⟨w', p, body, heq, hp, hkey, hplaced⟩)
  · intro p key l hp hl hpack
    exact (h.small_of_active hp hl hpack).sealExact
  · intro t id i hi
    exact scanExact_of_le (h.files.named _ _ ⟨t, id, .inl rfl⟩ hi).len

theorem offsets_exact_oneKey :
    OffsetsExact ((fresh (openStore plainOpen [0] empty).1).stepPut
      plainPut [97] 1 [7]).world := by
  have hopen : openStore plainOpen [0] empty = (_, true) := rfl
  exact offsets_exact .empty hopen
    (.one (a := .put plainPut [97] 1 [7]) ⟨rfl, .inl fun _ _ => rfl⟩)

end Corepkgs.Jigd
