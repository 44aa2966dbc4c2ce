import Corepkgs.Jigd.Frozen
import Corepkgs.Jigd.System
/-!
# What every reachable store state looks like

`Consistent w a` relates the tables of a running store with active pack `a` to
the directories below it.  It holds whatever fails, as long as pack ids are not
used twice.
-/

namespace Corepkgs.Jigd

open Lib FileSystem Nat Option Store

def TmpUnique (fs : FileSystem) : Prop :=
  ∀ {t id ext i q}, fs.lookup (tmpPath t id ext) = some i → fs.lookup q = some i →
    q = tmpPath t id ext

variable {fs : FileSystem}

theorem tmpUnique_of_subset {fs' : FileSystem} (h : TmpUnique fs)
    (hsub : ∀ q i, fs'.lookup q = some i → fs.lookup q = some i) : TmpUnique fs' :=
  fun htmp hq => h (hsub _ _ htmp) (hsub _ _ hq)

theorem tmpUnique_place (h : TmpUnique fs) (path : Path) (bytes : Bytes) :
    TmpUnique (fs.place path bytes) := by
  intro t id ext i q htmp hq
  rw [lookup_place] at htmp hq
  split at htmp <;> split at hq
  · rename_i h1 h2
    exact h2.trans h1.symm
  · cases htmp
    exact absurd (lookup_lt hq) (lt_irrefl _)
  · cases hq
    exact absurd (lookup_lt htmp) (lt_irrefl _)
  · exact h htmp hq

theorem tmpUnique_remove (h : TmpUnique fs) (path : Path) :
    TmpUnique (fs.remove path) := by
  apply tmpUnique_of_subset h
  intro q i hq
  rw [lookup_remove] at hq
  split at hq
  · cases hq
  · exact hq

variable {i : Nat}

theorem tmpUnique_link (h : TmpUnique fs) {src dst : Path}
    (hsrc : fs.lookup src = some i) (hnot : ∀ t id ext, fs.lookup (tmpPath t id ext) ≠ some i)
    (hdst : ∀ t id ext, dst ≠ tmpPath t id ext) : TmpUnique (fs.link src dst) := by
  intro t id ext j q htmp hq
  rw [lookup_link hsrc, if_neg (Ne.symm (hdst t id ext))] at htmp
  rw [lookup_link hsrc] at hq
  split at hq
  · rename_i hqd
    cases hold : fs.lookup dst with
    | none =>
      rw [hold, getD_none] at hq
      cases hq
      exact absurd htmp (hnot t id ext)
    | some k =>
      rw [hold, getD_some] at hq
      cases hq
      exact hqd.trans (h htmp hold)
  · exact h htmp hq

variable {id : Nat}

theorem tmpUnique_rename (h : TmpUnique fs) {t : Nat} {ext : Ext} {dst : Path}
    (hsrc : fs.lookup (tmpPath t id ext) = some i)
    (hdst : ∀ t id ext, dst ≠ tmpPath t id ext) : TmpUnique (fs.rename (tmpPath t id ext) dst) := by
  intro t' id' ext' j q htmp hq
  rw [lookup_rename hsrc, if_neg (Ne.symm (hdst t' id' ext'))] at htmp
  rw [lookup_rename hsrc] at hq
  split at htmp
  · cases htmp
  · rename_i hne
    split at hq
    · cases hq
      exact absurd (h hsrc htmp) hne
    · split at hq
      · cases hq
      · exact h htmp hq

namespace World

structure Consistent (w : World) (a : Nat) : Prop where
  active : w.store.active = some a
  opened : ∃ e, w.store.extent a = some e
  packs : ∀ {id e}, w.store.extent id = some e → e.id = id ∧ id ≤ a
  frozen : ∀ {e}, w.store.extent a = some e → w.Frozen e.file e.size
  settled : ∀ {id e}, w.store.extent id = some e → id ≠ a →
    w.Settled e.file ∧ e.size ≤ (w.fs.data e.file).length
  names : ∀ {t id ext i}, w.fs.lookup (filePath t id ext) = some i → id ≤ a
  sole : ∀ {e t i}, w.store.extent a = some e → w.fs.lookup (filePath t a .pack) = some i →
    i = e.file
  /-- A pack that is on its way down has a file in two tiers. -/
  copies : ∀ {id e t i}, w.store.extent id = some e → id ≠ a →
    w.fs.lookup (filePath t id .pack) = some i → w.Settled i ∧ w.fs.data i = w.fs.data e.file
  hints : ∀ {t id i}, w.fs.lookup (filePath t id .hint) = some i → w.Settled i
  tmps : TmpUnique w.fs

/-- An inode that is not a temporary copy. -/
structure Proper (w : World) (i : Nat) : Prop where
  lt : i < w.fs.inodes.length
  noTmp : ∀ t id ext, w.fs.lookup (tmpPath t id ext) ≠ some i

variable {w : World}

theorem Proper.settled_openActive (h : w.Proper i) (now : Int) (id : Nat) :
    (w.openActive now id).Settled i ∧ (w.openActive now id).fs.data i = w.fs.data i := by
  refine ⟨⟨?_, ?_, ?_⟩, data_place_old _ _ h.lt⟩
  · change i < (w.fs.place _ _).inodes.length
    rw [length_place]
    exact lt_succ_of_lt h.lt
  · intro t id' ext hlook
    change (w.fs.place _ _).lookup _ = _ at hlook
    rw [lookup_place, if_neg (Ne.symm (filePath_ne_tmpPath _ _ _ _ _ _))] at hlook
    exact h.noTmp t id' ext hlook
  · intro e he hfile
    have hae : (w.openActive now id).activeExtent = some ⟨id, 0, w.fs.inodes.length, 0⟩ :=
      (extent_addPack _ _ id).trans (if_pos rfl)
    rw [hae] at he
    cases he
    exact absurd h.lt (by rw [← hfile]; exact lt_irrefl _)

/-- Opening an active pack makes a consistent store of tables and directories in which every
pack, with all files of its name, is older. -/
theorem consistent_openActive (now : Int) (hpacks : ∀ {q e}, w.store.extent q = some e →
      e.id = q ∧ q < id ∧ w.Proper e.file ∧ e.size ≤ (w.fs.data e.file).length)
    (hnames : ∀ {t q ext i}, w.fs.lookup (filePath t q ext) = some i → q < id)
    (hcopies : ∀ {q e t i}, w.store.extent q = some e →
      w.fs.lookup (filePath t q .pack) = some i →
        w.Proper i ∧ w.fs.data i = w.fs.data e.file)
    (hhints : ∀ {t q i}, w.fs.lookup (filePath t q .hint) = some i → w.Proper i)
    (htmps : TmpUnique w.fs) : (w.openActive now id).Consistent id := by
  have hext : ∀ q, (w.openActive now id).store.extent q =
      if q = id then some ⟨id, 0, w.fs.inodes.length, 0⟩ else w.store.extent q := fun q =>
    extent_addPack _ _ q
  have hlook : ∀ q, (w.openActive now id).fs.lookup q =
      if q = filePath 0 id .pack then some w.fs.inodes.length else w.fs.lookup q := fun q =>
    lookup_place _ _ _ q
  have hae : (w.openActive now id).activeExtent = some ⟨id, 0, w.fs.inodes.length, 0⟩ :=
    (hext id).trans (if_pos rfl)
  have hold : ∀ {q e}, (w.openActive now id).store.extent q = some e → q ≠ id →
      w.store.extent q = some e := by
    intro q e he hq
    rwa [hext, if_neg hq] at he
  have hoff : ∀ {t q ext i}, (w.openActive now id).fs.lookup (filePath t q ext) = some i →
      q ≠ id → w.fs.lookup (filePath t q ext) = some i := by
    intro t q ext i hn hq
    rw [hlook, if_neg (fun hp => hq (filePath_inj.mp hp).2.1)] at hn
    exact hn
  refine ⟨rfl, ⟨_, hae⟩, ?_, ?_, ?_, ?_, ?_, ?_, ?_, tmpUnique_place htmps _ _⟩
  · intro q e he
    by_cases hq : q = id
    · subst hq
      rw [hext, if_pos rfl] at he
      cases he
      exact ⟨rfl, le_rfl⟩
    · obtain ⟨heid, hlt, -⟩ := hpacks (hold he hq)
      exact ⟨heid, hlt.le⟩
  · intro e he
    rw [hext, if_pos rfl] at he
    cases he
    refine ⟨?_, zero_le _, ?_, fun _ _ _ => zero_le _⟩
    · change _ < (w.fs.place _ _).inodes.length
      rw [length_place]
      exact lt_succ_self _
    · intro t q ext hn
      rw [hlook, if_neg (Ne.symm (filePath_ne_tmpPath _ _ _ _ _ _))] at hn
      exact absurd (lookup_lt hn) (lt_irrefl _)
  · intro q e he hq
    obtain ⟨-, -, hproper, hsize⟩ := hpacks (hold he hq)
    obtain ⟨hset, hdata⟩ := hproper.settled_openActive now id
    refine ⟨hset, ?_⟩
    rw [hdata]
    exact hsize
  · intro t q ext i hn
    by_cases hq : q = id
    · exact hq.le
    · exact (hnames (hoff hn hq)).le
  · intro e t i he hn
    rw [hext, if_pos rfl] at he
    cases he
    rw [hlook] at hn
    split at hn
    · cases hn
      rfl
    · exact absurd (hnames hn) (lt_irrefl _)
  · intro q e t i he hq hn
    obtain ⟨hproper, hdata⟩ := hcopies (hold he hq) (hoff hn hq)
    obtain ⟨hset, hdata'⟩ := hproper.settled_openActive now id
    obtain ⟨-, -, hfile, -⟩ := hpacks (hold he hq)
    refine ⟨hset, ?_⟩
    rw [hdata', hdata, (hfile.settled_openActive now id).2]
  · intro t q i hn
    rw [hlook, if_neg (by rw [filePath_inj]; simp)] at hn
    exact ((hhints hn).settled_openActive now id).1

namespace Consistent

variable {w : World} {a : Nat}

variable (h : w.Consistent a)

include h

theorem activeExtent_eq : w.activeExtent = w.store.extent a := by
  rw [activeExtent, h.active, bind_some]

variable {e : Extent}

theorem activeExtent_of (he : w.store.extent a = some e) :
    w.activeExtent = some e := h.activeExtent_eq.trans he

/-- The recorded size of any pack is final. -/
theorem frozen_pack (he : w.store.extent id = some e) : w.Frozen e.file e.size := by
  by_cases hid : id = a
  · subst hid
    exact h.frozen he
  · obtain ⟨hs, hle⟩ := h.settled he hid
    exact ⟨hs.lt, hle, hs.noTmp, fun e' he' hfile => absurd hfile (hs.notActive e' he')⟩

theorem activePack : ∃ p, w.store.activePack = some p ∧ p.id = a ∧
    w.store.extent a = some p.extent := by
  obtain ⟨e, he⟩ := h.opened
  obtain ⟨p, hp, hpe⟩ := lookup_of_extent he
  refine ⟨p, ?_, ?_, he.trans (congrArg some hpe.symm)⟩
  · rw [Store.activePack, h.active, bind_some, hp]
  · have hid := (h.packs he).1
    rw [← hpe] at hid
    exact hid

/-- A step that leaves the active pack in place, gives no pack a wrong file and loses at most
packs that are not active. -/
theorem of_steady {w' : World} (hs : Steady w w')
    (hactive : w'.store.active = some a) (hopened : w'.store.extent a = w.store.extent a)
    (hext : ∀ id e, w'.store.extent id = some e → w.store.extent id = some e)
    (hpack : ∀ t id i, w'.fs.lookup (filePath t id .pack) = some i →
      w.fs.lookup (filePath t id .pack) = some i ∨ (id < a ∧ ∀ e, w.store.extent id = some e →
        w'.Settled i ∧ w'.fs.data i = w'.fs.data e.file))
    (hhint : ∀ t id i, w'.fs.lookup (filePath t id .hint) = some i →
      w.fs.lookup (filePath t id .hint) = some i ∨ (id ≤ a ∧ w'.Settled i))
    (htmp : TmpUnique w'.fs) : w'.Consistent a where
  active := hactive
  opened := hopened ▸ h.opened
  packs he := h.packs (hext _ _ he)
  frozen he := (hs.frozen (h.frozen (hext _ _ he))).1
  settled he hid := by
    obtain ⟨hset, hle⟩ := h.settled (hext _ _ he) hid
    obtain ⟨hset', hdata⟩ := hs.settled hset
    exact ⟨hset', by rw [hdata]; exact hle⟩
  names {t id ext i} hname := by
    cases ext with
    | pack =>
      rcases hpack _ _ _ hname with hold | ⟨hlt, -⟩
      · exact h.names hold
      · exact hlt.le
    | hint =>
      rcases hhint _ _ _ hname with hold | ⟨hle, -⟩
      · exact h.names hold
      · exact hle
  sole he hname := by
    rcases hpack _ _ _ hname with hold | ⟨hlt, -⟩
    · exact h.sole (hext _ _ he) hold
    · exact absurd hlt (lt_irrefl _)
  copies he hid hname := by
    rcases hpack _ _ _ hname with hold | ⟨-, hnew⟩
    · obtain ⟨hset, hdata⟩ := h.copies (hext _ _ he) hid hold
      obtain ⟨hset', hdata'⟩ := hs.settled hset
      obtain ⟨-, hfile⟩ := hs.settled (h.settled (hext _ _ he) hid).1
      exact ⟨hset', hdata'.trans (hdata.trans hfile.symm)⟩
    · exact hnew _ (hext _ _ he)
  hints hname := by
    rcases hhint _ _ _ hname with hold | ⟨-, hnew⟩
    · exact (hs.settled (h.hints hold)).1
    · exact hnew
  tmps := htmp

theorem setData {j : Nat} {bytes : Bytes} (hs : Steady w ⟨w.store, w.fs.setData j bytes⟩) :
    Consistent ⟨w.store, w.fs.setData j bytes⟩ a :=
  h.of_steady hs h.active rfl (fun _ _ he => he) (fun _ _ _ hn => .inl hn)
    (fun _ _ _ hn => .inl hn) h.tmps

variable {s : Store}

theorem sameExtents (hactive : s.active = w.store.active)
    (hext : ∀ id, s.extent id = w.store.extent id) :
    Steady w ⟨s, w.fs⟩ ∧ Consistent ⟨s, w.fs⟩ a := by
  have hae : activeExtent ⟨s, w.fs⟩ = w.activeExtent := by
    rw [activeExtent, activeExtent, hactive]
    cases w.store.active with
    | none => rfl
    | some id => exact hext id
  have hs : Steady w ⟨s, w.fs⟩ := steady_store fun e' he' => ⟨e', hae ▸ he', rfl, le_rfl⟩
  refine ⟨hs, h.of_steady hs (hactive.trans h.active) (hext a) ?_ ?_ ?_ h.tmps⟩
  · exact fun id e he => (hext id) ▸ he
  · exact fun _ _ _ hn => .inl hn
  · exact fun _ _ _ hn => .inl hn

/-- A file placed under a name that is not temporary is final at once. -/
theorem settled_place (t id : Nat) (ext : Ext) (bytes : Bytes) :
    Settled ⟨w.store, w.fs.place (filePath t id ext) bytes⟩ w.fs.inodes.length := by
  refine ⟨by simp, ?_, ?_⟩
  · intro t' id' ext' hlook
    change (w.fs.place _ _).lookup _ = _ at hlook
    rw [lookup_place, if_neg (Ne.symm (filePath_ne_tmpPath _ _ _ _ _ _))] at hlook
    exact absurd (lookup_lt hlook) (lt_irrefl _)
  · intro e he hfile
    have hlt := (h.frozen (h.activeExtent_eq ▸ he)).lt
    rw [hfile] at hlt
    exact absurd hlt (lt_irrefl _)

variable {p : Pack}

theorem sealPack (env : SealEnv) (hp : p.id ≤ a) :
    (w.sealPack env p).1.Consistent a := by
  have hs := steady_sealPack env w p
  revert hs
  unfold World.sealPack
  split
  · exact fun _ => h
  · intro hs
    refine h.of_steady hs h.active rfl (fun _ _ he => he) ?_ ?_ (tmpUnique_place h.tmps _ _)
    · intro t id i hlook
      change (w.fs.place _ _).lookup _ = _ at hlook
      rw [lookup_place, if_neg (by rw [filePath_inj]; simp)] at hlook
      exact .inl hlook
    · intro t id i hlook
      change (w.fs.place _ _).lookup _ = _ at hlook
      rw [lookup_place] at hlook
      split at hlook
      · rename_i hpath
        cases hlook
        exact .inr ⟨(filePath_inj.mp hpath).2.1 ▸ hp, h.settled_place _ _ _ _⟩
      · exact .inl hlook

theorem sealActive (env : SealEnv) : (w.sealActive env).1.Consistent a := by
  obtain ⟨p, hp, hid, -⟩ := h.activePack
  rw [sealActive_of env hp]
  exact h.sealPack env hid.le

theorem openActive (now : Int) (hid : a < id) :
    (w.openActive now id).Consistent id := by
  apply consistent_openActive
  · intro q e he
    obtain ⟨heid, hle⟩ := h.packs he
    have hf := h.frozen_pack he
    exact ⟨heid, hle.trans_lt hid, ⟨hf.lt, hf.noTmp⟩, hf.le⟩
  · exact fun hn => (h.names hn).trans_lt hid
  · intro q e t i he hn
    by_cases hq : q = a
    · subst hq
      have hf := h.frozen he
      rw [h.sole he hn]
      exact ⟨⟨hf.lt, hf.noTmp⟩, rfl⟩
    · obtain ⟨hset, hdata⟩ := h.copies he hq hn
      exact ⟨⟨hset.lt, hset.noTmp⟩, hdata⟩
  · intro t q i hn
    have hset := h.hints hn
    exact ⟨hset.lt, hset.noTmp⟩
  · exact h.tmps

theorem grow (he : w.store.extent a = some e)
    {n : Nat} (hn : e.size ≤ n) (hle : n ≤ (w.fs.data e.file).length) (hactive : s.active = some a)
    (hext : ∀ id, s.extent id = if id = a then some { e with size := n } else w.store.extent id) :
    Steady w ⟨s, w.fs⟩ ∧ Consistent ⟨s, w.fs⟩ a := by
  have hae : activeExtent ⟨s, w.fs⟩ = some { e with size := n } := by
    rw [activeExtent, hactive]
    exact (hext a).trans (if_pos rfl)
  have hs : Steady w ⟨s, w.fs⟩ := by
    apply steady_store
    intro e' he'
    rw [hae] at he'
    cases he'
    exact ⟨e, h.activeExtent_of he, rfl, hn⟩
  have hold : ∀ {q e'}, s.extent q = some e' → q ≠ a → w.store.extent q = some e' := by
    intro q e' he' hq
    rwa [hext, if_neg hq] at he'
  have hnew : ∀ {e'}, s.extent a = some e' → e' = { e with size := n } := by
    intro e' he'
    rw [hext, if_pos rfl] at he'
    exact (some.inj he').symm
  refine ⟨hs, hactive, ⟨_, (hext a).trans (if_pos rfl)⟩, ?_, ?_, ?_, h.names, ?_, ?_, ?_, h.tmps⟩
  · intro q e' he'
    by_cases hq : q = a
    · subst hq
      rw [hnew he']
      have hpack := h.packs he
      exact hpack
    · exact h.packs (hold he' hq)
  · intro e' he'
    have hf := h.frozen he
    rw [hnew he']
    refine ⟨hf.lt, hle, hf.noTmp, ?_⟩
    intro e'' he'' _
    rw [hae] at he''
    cases he''
    exact le_rfl
  · intro q e' he' hq
    obtain ⟨hset, hsize⟩ := h.settled (hold he' hq) hq
    exact ⟨(hs.settled hset).1, hsize⟩
  · intro e' t i he' hname
    rw [hnew he']
    have hfile := h.sole he hname
    exact hfile
  · intro q e' t i he' hq hname
    obtain ⟨hset, hdata⟩ := h.copies (hold he' hq) hq hname
    exact ⟨(hs.settled hset).1, hdata⟩
  · exact fun hname => (hs.settled (h.hints hname)).1

theorem writePack (hp : w.store.extent a = some p.extent)
    {off : Nat} (hoff : p.size ≤ off) (bytes : Bytes) : (w.writePack p off bytes).Consistent a :=
  h.setData (steady_writePack (h.activeExtent_of hp) hoff bytes)

theorem undoWrite (hp : w.store.extent a = some p.extent)
    (env : PutEnv) : (w.undoWrite env p).Consistent a := by
  have hs := steady_undoWrite (h.activeExtent_of hp) env
  revert hs
  unfold World.undoWrite
  split
  · exact fun _ => h
  · exact fun hs => h.setData hs

end Consistent

variable (env : PutEnv) {p : Pack}

/-- What `append` can do to the active pack `p`: nothing, a write that is given up, or one more
record and its bookkeeping. -/
theorem append_cases (w : World) (p : Pack) (key body : Bytes) :
    (∃ e, w.append env p key body = (w, .error e)) ∨
    (∃ n e, w.append env p key body =
      ((w.writePack p p.size ((recordHead key body.length).take n)).undoWrite env p, .error e)) ∨
    (∃ n e, w.append env p key body =
      (((w.writePack p p.size (recordHead key body.length)).writePack p
        (p.size + (recHeader + key.length)) (body.take n)).undoWrite env p, .error e)) ∨
    w.append env p key body =
      (⟨commit w.store p key body.length, ((w.writePack p p.size
        (recordHead key body.length)).writePack p (p.size + (recHeader + key.length)) body).fs⟩,
        .ok ()) := by
  unfold append
  simp only [length_recordHead]
  split
  · exact .inl ⟨_, rfl⟩
  · split
    · exact .inr (.inl ⟨_, _, rfl⟩)
    · split
      · exact .inr (.inr (.inl ⟨_, _, rfl⟩))
      · exact .inr (.inr (.inr rfl))

theorem undoWrite_store (w : World) (p : Pack) :
    (w.undoWrite env p).store = w.store := by
  unfold undoWrite
  split <;> rfl

/-- To the tables an append is its bookkeeping or nothing. -/
theorem store_append (w : World) (p : Pack) (key body : Bytes) :
    ((w.append env p key body).1.store = w.store ∧ ∃ e, (w.append env p key body).2 = .error e) ∨
    w.append env p key body =
      (⟨commit w.store p key body.length, ((w.writePack p p.size
        (recordHead key body.length)).writePack p (p.size + (recHeader + key.length)) body).fs⟩,
        .ok ()) := by
  rcases append_cases env w p key body with ⟨e, heq⟩ | ⟨n, e, heq⟩ | ⟨n, e, heq⟩ | heq
  · exact .inl (by rw [heq]; exact ⟨rfl, e, rfl⟩)
  · exact .inl (by rw [heq]; exact ⟨undoWrite_store _ _ _, e, rfl⟩)
  · exact .inl (by rw [heq]; exact ⟨undoWrite_store _ _ _, e, rfl⟩)
  · exact .inr heq

/-- The bytes of a record after both writes. -/
theorem data_append (hlt : p.file < w.fs.inodes.length) (key body : Bytes) :
    let fs := ((w.writePack p p.size (recordHead key body.length)).writePack p
      (p.size + (recHeader + key.length)) body).fs
    p.size + (recHeader + key.length + body.length) ≤ (fs.data p.file).length ∧
      slice (fs.data p.file) (p.size + (recHeader + key.length)) body.length = body := by
  intro fs
  have hdata : fs.data p.file = writeAt ((w.writePack p p.size
      (recordHead key body.length)).fs.data p.file) (p.size + (recHeader + key.length)) body :=
    data_setData_same _ (by simpa [writePack] using hlt)
  rw [hdata]
  constructor
  · rw [length_writeAt]
    omega
  · exact slice_writeAt _ _ _

theorem data_append_of_end (hlt : p.file < w.fs.inodes.length)
    (hend : (w.fs.data p.file).length = p.size) (key body : Bytes) :
    ((w.writePack p p.size (recordHead key body.length)).writePack p
      (p.size + (recHeader + key.length)) body).fs.data p.file =
        w.fs.data p.file ++ record key body := by
  have hhead : (w.writePack p p.size (recordHead key body.length)).fs.data p.file =
      w.fs.data p.file ++ recordHead key body.length := by
    rw [writePack, data_setData_same _ hlt, ← hend, writeAt_length]
  have hlen : p.size + (recHeader + key.length) =
      (w.fs.data p.file ++ recordHead key body.length).length := by
    rw [List.length_append, hend, length_recordHead]
  rw [record, ← List.append_assoc]
  rw [writePack, hhead, hlen, writeAt_length]
  exact data_setData_same _ (by simpa [writePack] using hlt)

namespace Consistent

variable {w : World} {a : Nat} {p : Pack} {s : Store} {e : Extent}

variable (h : w.Consistent a)

include h

theorem append (hid : p.id = a)
    (hp : w.store.extent a = some p.extent) (env : PutEnv) (key body : Bytes) :
    Steady w (w.append env p key body).1 ∧ (w.append env p key body).1.Consistent a := by
  have hwrite : ∀ bytes, Steady w (w.writePack p p.size bytes) ∧
      (w.writePack p p.size bytes).Consistent a := fun bytes =>
    ⟨steady_writePack (h.activeExtent_of hp) le_rfl bytes, h.writePack hp le_rfl bytes⟩
  have hwrite2 : ∀ head bytes, Steady w ((w.writePack p p.size head).writePack p
      (p.size + (recHeader + key.length)) bytes) ∧
      ((w.writePack p p.size head).writePack p
        (p.size + (recHeader + key.length)) bytes).Consistent a := by
    intro head bytes
    obtain ⟨hs, hc⟩ := hwrite head
    have hoff : p.size ≤ p.size + (recHeader + key.length) := le_add_right _ _
    exact ⟨hs.trans (steady_writePack (hc.activeExtent_of hp) hoff bytes),
      hc.writePack hp hoff bytes⟩
  rcases append_cases env w p key body with ⟨e, heq⟩ | ⟨n, e, heq⟩ | ⟨n, e, heq⟩ | heq
  · rw [heq]
    exact ⟨Steady.refl w, h⟩
  · rw [heq]
    obtain ⟨hs, hc⟩ := hwrite ((recordHead key body.length).take n)
    exact ⟨hs.trans (steady_undoWrite (hc.activeExtent_of hp) env), hc.undoWrite hp env⟩
  · rw [heq]
    obtain ⟨hs, hc⟩ := hwrite2 (recordHead key body.length) (body.take n)
    exact ⟨hs.trans (steady_undoWrite (hc.activeExtent_of hp) env), hc.undoWrite hp env⟩
  · rw [heq]
    obtain ⟨hs, hc⟩ := hwrite2 (recordHead key body.length) body
    have hf := h.frozen hp
    obtain ⟨hlen, -⟩ := data_append hf.lt key body
    obtain ⟨hs', hc'⟩ := hc.grow (s := commit w.store p key body.length) hp
      (le_add_right p.size (recHeader + key.length + body.length)) hlen
      ((commit_active _ _ _ _).trans h.active) (by
        intro q
        rw [extent_commit (by rw [hid]; exact hp), hid]
        rfl)
    exact ⟨hs.trans hs', hc'⟩

/-! ## Demotion and eviction -/

theorem removeFile (path : Path) :
    Consistent ⟨w.store, w.fs.remove path⟩ a := by
  have hsub : ∀ q i, (w.fs.remove path).lookup q = some i → w.fs.lookup q = some i := by
    intro q i hq
    rw [lookup_remove] at hq
    split at hq
    · cases hq
    · exact hq
  exact h.of_steady (steady_remove w path) h.active rfl (fun _ _ he => he)
    (fun _ _ _ hn => .inl (hsub _ _ hn)) (fun _ _ _ hn => .inl (hsub _ _ hn))
    (tmpUnique_remove h.tmps path)

theorem removeBoth (p q : Path) :
    Steady w ⟨w.store, (w.fs.remove p).remove q⟩ ∧
      Consistent ⟨w.store, (w.fs.remove p).remove q⟩ a :=
  ⟨(steady_remove w p).trans (steady_remove ⟨w.store, w.fs.remove p⟩ q),
    (h.removeFile p).removeFile q⟩

theorem evict (hp : p.id ≠ a) :
    Steady w (w.evict p) ∧ (w.evict p).Consistent a := by
  have hopened : (w.evict p).store.extent a = w.store.extent a :=
    (extent_evict w p a).trans (if_neg (Ne.symm hp))
  have hstore : Steady w ⟨(w.evict p).store, w.fs⟩ := by
    apply steady_store
    intro e he
    have hae : activeExtent ⟨(w.evict p).store, w.fs⟩ = (w.evict p).store.extent a := by
      rw [activeExtent]
      change Option.bind w.store.active _ = _
      rw [h.active, Option.bind_some]
    rw [hae, hopened] at he
    exact ⟨e, h.activeExtent_of he, rfl, le_rfl⟩
  have hc : Consistent ⟨(w.evict p).store, w.fs⟩ a := by
    refine h.of_steady hstore h.active hopened ?_ (fun _ _ _ hn => .inl hn)
      (fun _ _ _ hn => .inl hn) h.tmps
    intro q e he
    change (w.evict p).store.extent q = some e at he
    rw [extent_evict] at he
    split at he
    · cases he
    · exact he
  obtain ⟨hs, hc'⟩ := hc.removeBoth (filePath p.tier p.id .pack) (filePath p.tier p.id .hint)
  exact ⟨hstore.trans hs, hc'⟩

theorem relocate (hid : id ≠ a) (he : w.store.extent id = some e) {t t' : Nat}
    (hname : w.fs.lookup (filePath t id .pack) = some i) (hactive : s.active = some a)
    (hext : ∀ q, s.extent q =
      if q = id then some { e with file := i, tier := t' } else w.store.extent q) :
    Steady w ⟨s, w.fs⟩ ∧ Consistent ⟨s, w.fs⟩ a := by
  obtain ⟨hset, hdata⟩ := h.copies he hid hname
  have ha : s.extent a = w.store.extent a := (hext a).trans (if_neg (Ne.symm hid))
  have hs : Steady w ⟨s, w.fs⟩ := by
    apply steady_store
    intro e' he'
    rw [activeExtent, hactive] at he'
    exact ⟨e', h.activeExtent_of (ha ▸ he'), rfl, le_rfl⟩
  have hold : ∀ {q e'}, s.extent q = some e' → q ≠ id → w.store.extent q = some e' := by
    intro q e' he' hq
    rwa [hext, if_neg hq] at he'
  have hnew : ∀ {e'}, s.extent id = some e' → e' = { e with file := i, tier := t' } := by
    intro e' he'
    rw [hext, if_pos rfl] at he'
    exact (some.inj he').symm
  refine ⟨hs, hactive, ha ▸ h.opened, ?_, ?_, ?_, h.names, ?_, ?_, ?_, h.tmps⟩
  · intro q e' he'
    by_cases hq : q = id
    · subst hq
      rw [hnew he']
      have hpack := h.packs he
      exact hpack
    · exact h.packs (hold he' hq)
  · exact fun he' => (hs.frozen (h.frozen (ha ▸ he'))).1
  · intro q e' he' hq
    by_cases hqi : q = id
    · subst hqi
      rw [hnew he']
      refine ⟨(hs.settled hset).1, ?_⟩
      change e.size ≤ (w.fs.data i).length
      rw [hdata]
      exact (h.settled he hid).2
    · obtain ⟨hset', hsize⟩ := h.settled (hold he' hqi) hq
      exact ⟨(hs.settled hset').1, hsize⟩
  · exact fun he' hn => h.sole (ha ▸ he') hn
  · intro q e' t' j he' hq hn
    by_cases hqi : q = id
    · subst hqi
      rw [hnew he']
      obtain ⟨hset', hdata'⟩ := h.copies he hid hn
      exact ⟨(hs.settled hset').1, hdata'.trans hdata.symm⟩
    · obtain ⟨hset', hdata'⟩ := h.copies (hold he' hqi) hq hn
      exact ⟨(hs.settled hset').1, hdata'⟩
  · exact fun hn => (hs.settled (h.hints hn)).1

theorem switchDown (hid : p.id ≠ a) (hp : w.store.packs.lookup p.id = some p) {t file : Nat}
    (hname : w.fs.lookup (filePath t p.id .pack) = some file) :
    Steady w (w.switchDown p file) ∧ (w.switchDown p file).Consistent a := by
  have hactive : (w.switchDown p file).store.active = some a :=
    (switchDown_active w p file).trans h.active
  obtain ⟨hs, hc⟩ := h.relocate hid (extent_of_lookup hp) hname hactive
    (extent_switchDown hp file)
  obtain ⟨hs', hc'⟩ := hc.removeBoth (filePath p.tier p.id .pack) (filePath p.tier p.id .hint)
  exact ⟨hs.trans hs', hc'⟩

end Consistent

end World

end Corepkgs.Jigd
