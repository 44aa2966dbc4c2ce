import Corepkgs.Jigd.Demotion
import Corepkgs.Jigd.TornTail
/-!
# A `Put` that fails

An error of `Put` promises that nothing happened.  It keeps the promise where it
undoes its own writes in the active pack, because the file ends where the pack
ends; it breaks it where `rotate` has sealed the active pack and then cannot open
the next one, since the hint stays behind while the pack goes on growing.
-/

namespace Corepkgs.Jigd

open Lib FileSystem Store World Option

/-! ## Crashes and reopening -/

inductive Daemon where
  | up (s : Sys)
  | down (fs : FileSystem)

inductive Event where
  | act (a : Label)
  /-- The process is gone, the files stay.  A `Put` cut short is one whose writes stop and whose
  `Truncate` does not come to pass, followed by this. -/
  | crash
  | reopen (env : OpenEnv) (budgets : List Int)

namespace Daemon

/-- What happens next; an event that cannot happen now passes unnoticed. -/
def step : Daemon → Event → Daemon
  | .up s, .act a => .up ((s.step a).getD s)
  | .up s, .crash => .down s.fs
  | .up s, .reopen _ _ => .up s
  | .down fs, .reopen env budgets =>
    match openStore env budgets fs with
    | (w, true) => .up (Sys.fresh w)
    | (w, false) => .down w.fs
  | .down fs, _ => .down fs

def answers : Daemon → List Event → List (Option Bytes)
  | _, [] => []
  | .up s, .act (.get key now) :: es =>
    s.world.value key :: answers (step (.up s) (.act (.get key now))) es
  | d, e :: es => answers (step d e) es

end Daemon

/-! ## Where the active pack ends -/

namespace World

structure Flush (w : World) (a : Nat) : Prop where
  active : w.store.active = some a
  ids : ∀ {id e}, w.store.extent id = some e → e.id = id
  opened : ∃ e, w.store.extent a = some e ∧ w.Proper e.file ∧
    (w.fs.data e.file).length = e.size

variable {w : World} {a : Nat} {p : Pack}

variable (h : w.Flush a)

include h

theorem Flush.activePack :
    ∃ p, w.store.activePack = some p ∧ p.id = a ∧ w.store.extent a = some p.extent ∧
      w.Proper p.file ∧ (w.fs.data p.file).length = p.size := by
  obtain ⟨e, he, hproper, hend⟩ := h.opened
  obtain ⟨p, hp, rfl⟩ := lookup_of_extent he
  refine ⟨p, ?_, h.ids he, he, hproper, hend⟩
  rw [Store.activePack, h.active, bind_some, hp]

/-- Steps that leave the active pack and its file alone. -/
theorem Flush.of_files {w' : World} (hactive : w'.store.active = some a)
    (hids : ∀ id e, w'.store.extent id = some e → e.id = id)
    (hext : w'.store.extent a = w.store.extent a) (hlen : w.fs.inodes.length ≤ w'.fs.inodes.length)
    (hdata : ∀ i, w.Proper i → w'.fs.data i = w.fs.data i)
    (htmp : ∀ t id ext i, i < w.fs.inodes.length →
      w'.fs.lookup (tmpPath t id ext) = some i → w.fs.lookup (tmpPath t id ext) = some i) :
    w'.Flush a := by
  obtain ⟨e, he, hproper, hend⟩ := h.opened
  refine ⟨hactive, fun hid => hids _ _ hid, e, hext.trans he, ⟨?_, ?_⟩, ?_⟩
  · exact hproper.lt.trans_le hlen
  · exact fun t id ext hlook => hproper.noTmp t id ext (htmp t id ext _ hproper.lt hlook)
  · rw [hdata _ hproper, hend]

theorem Flush.of_fs {fs : FileSystem} (hlen : w.fs.inodes.length ≤ fs.inodes.length)
    (hdata : ∀ i, w.Proper i → fs.data i = w.fs.data i)
    (htmp : ∀ t id ext i, i < w.fs.inodes.length →
      fs.lookup (tmpPath t id ext) = some i → w.fs.lookup (tmpPath t id ext) = some i) :
    Flush ⟨w.store, fs⟩ a :=
  h.of_files h.active (fun _ _ he => h.ids he) rfl hlen hdata htmp

theorem Flush.place (path : Path) (bytes : Bytes) :
    Flush ⟨w.store, w.fs.place path bytes⟩ a := by
  apply h.of_fs
  · rw [length_place]
    exact Nat.le_succ _
  · exact fun i hi => data_place_old _ _ hi.lt
  · intro t id ext i hi hlook
    rw [lookup_place] at hlook
    split at hlook
    · cases hlook
      exact absurd hi (Nat.lt_irrefl _)
    · exact hlook

theorem Flush.remove (path : Path) :
    Flush ⟨w.store, w.fs.remove path⟩ a := by
  refine h.of_fs le_rfl (fun _ _ => rfl) ?_
  intro t id ext i _ hlook
  rw [lookup_remove] at hlook
  split at hlook
  · cases hlook
  · exact hlook

theorem Flush.setData_tmp {t id j : Nat} {ext : Ext}
    (hj : w.fs.lookup (tmpPath t id ext) = some j) (bytes : Bytes) :
    Flush ⟨w.store, w.fs.setData j bytes⟩ a := by
  refine h.of_fs (by simp) ?_ (fun _ _ _ _ _ hlook => hlook)
  intro i hi
  apply data_setData_ne
  rintro rfl
  exact hi.noTmp t id ext hj

theorem Flush.create (t id : Nat) (ext : Ext) :
    Flush ⟨w.store, w.fs.create (tmpPath t id ext)⟩ a := by
  unfold FileSystem.create
  split
  · rename_i hj
    exact h.setData_tmp hj _
  · exact h.place _ _

theorem Flush.copyBytes (src : Path) (t id : Nat) (ext : Ext) (n : Nat) :
    Flush ⟨w.store, Sys.copyBytes w.fs src (tmpPath t id ext) n⟩ a := by
  unfold Sys.copyBytes
  split
  · rename_i hj
    exact h.setData_tmp hj _
  · exact h

theorem Flush.link {src : Path} {i : Nat} (hi : w.fs.lookup src = some i) (t id : Nat) (ext : Ext) :
    Flush ⟨w.store, w.fs.link src (filePath t id ext)⟩ a := by
  apply h.of_fs
  · rw [length_link]
  · exact fun i _ => data_link _ _ _ i
  · intro t' id' ext' j _ hlook
    rwa [lookup_link hi, if_neg (Ne.symm (filePath_ne_tmpPath _ _ _ _ _ _))] at hlook

theorem Flush.rename (src : Path) (t id : Nat) (ext : Ext) :
    Flush ⟨w.store, w.fs.rename src (filePath t id ext)⟩ a := by
  cases hsrc : w.fs.lookup src with
  | none =>
    have hsame : w.fs.rename src (filePath t id ext) = w.fs := by
      unfold FileSystem.rename
      split
      · rename_i hi
        rw [hsrc] at hi
        cases hi
      · rfl
    rw [hsame]
    exact h
  | some j =>
    apply h.of_fs
    · rw [length_rename]
    · exact fun i _ => data_rename _ _ _ i
    · intro t' id' ext' i _ hlook
      rw [lookup_rename hsrc,
        if_neg (Ne.symm (filePath_ne_tmpPath _ _ _ _ _ _))] at hlook
      split at hlook
      · cases hlook
      · exact hlook

theorem Flush.evict (hp : p.id ≠ a) :
    (w.evict p).Flush a := by
  have hstore : Flush ⟨(w.evict p).store, w.fs⟩ a := by
    refine h.of_files h.active ?_ ?_ le_rfl (fun _ _ => rfl) (fun _ _ _ _ _ hlook => hlook)
    · intro q e he
      change (w.evict p).store.extent q = some e at he
      rw [extent_evict] at he
      split at he
      · cases he
      · exact h.ids he
    · exact (extent_evict w p a).trans (if_neg hp.symm)
  exact (hstore.remove _).remove _

theorem Flush.switchDown (hid : p.id ≠ a) (hp : w.store.packs.lookup p.id = some p)
    (file : Nat) : (w.switchDown p file).Flush a := by
  have hext := extent_switchDown hp file
  have hstore : Flush ⟨(w.switchDown p file).store, w.fs⟩ a := by
    refine h.of_files ((switchDown_active w p file).trans h.active) ?_ ?_ le_rfl (fun _ _ => rfl)
      (fun _ _ _ _ _ hlook => hlook)
    · intro q e he
      change (w.switchDown p file).store.extent q = some e at he
      rw [hext] at he
      split at he
      · rename_i hq
        cases he
        exact hq.symm
      · exact h.ids he
    · exact (hext a).trans (if_neg hid.symm)
  exact (hstore.remove _).remove _

theorem Flush.sealActive (env : SealEnv) :
    (w.sealActive env).1.Flush a := by
  obtain ⟨p, hp, -⟩ := h.activePack
  rw [sealActive_of env hp]
  unfold sealPack
  split
  · exact h
  · exact h.place _ _

omit h in
theorem flush_openActive (now : Int) (id : Nat) (hids : ∀ q e, w.store.extent q = some e → e.id = q)
    : (w.openActive now id).Flush id := by
  have hext : ∀ q, (w.openActive now id).store.extent q =
      if q = id then some ⟨id, 0, w.fs.inodes.length, 0⟩ else w.store.extent q := fun q =>
    extent_addPack _ _ q
  refine ⟨rfl, ?_, _, (hext id).trans (if_pos rfl), ⟨?_, ?_⟩, ?_⟩
  · intro q e he
    rw [hext] at he
    split at he
    · rename_i hq
      cases he
      exact hq.symm
    · exact hids q e he
  · change w.fs.inodes.length < (w.fs.place _ _).inodes.length
    rw [length_place]
    exact Nat.lt_succ_self _
  · intro t q ext hlook
    change (w.fs.place _ _).lookup _ = _ at hlook
    rw [lookup_place, if_neg (Ne.symm (filePath_ne_tmpPath _ _ _ _ _ _))] at hlook
    exact absurd (lookup_lt hlook) (Nat.lt_irrefl _)
  · change ((w.fs.place _ _).data w.fs.inodes.length).length = 0
    rw [data_place_new]
    rfl

/-! ## Undoing -/

variable {env : PutEnv}

omit h in
/-- Whatever was written behind the end of the file, truncating gives the old file back. -/
theorem undoWrite_writePack (henv : env.truncateFails = false)
    (hlt : p.file < w.fs.inodes.length) (hend : (w.fs.data p.file).length = p.size) (bytes : Bytes)
    : (w.writePack p p.size bytes).undoWrite env p = w := by
  have hdata : (w.writePack p p.size bytes).fs.data p.file = w.fs.data p.file ++ bytes := by
    rw [writePack, data_setData_same _ hlt, ← hend, writeAt_length]
  have hback : truncateTo ((w.writePack p p.size bytes).fs.data p.file) p.size =
      w.fs.data p.file := by
    rw [hdata, ← hend, truncateTo_append]
  rw [undoWrite, if_neg (by rw [henv]; decide), hback]
  change (⟨w.store, (w.fs.setData p.file _).setData p.file (w.fs.data p.file)⟩ : World) = w
  rw [setData_setData_data]

omit h in
theorem writePack_writePack (hlt : p.file < w.fs.inodes.length)
    (hend : (w.fs.data p.file).length = p.size) {off : Nat} (head bytes : Bytes)
    (hoff : off = p.size + head.length) :
    (w.writePack p p.size head).writePack p off bytes = w.writePack p p.size (head ++ bytes) := by
  have hdata : (w.writePack p p.size head).fs.data p.file = w.fs.data p.file ++ head := by
    rw [writePack, data_setData_same _ hlt, ← hend, writeAt_length]
  have hlen : off = (w.fs.data p.file ++ head).length := by
    rw [hoff, List.length_append, hend]
  have hset : ∀ a b : Bytes, (w.fs.setData p.file a).setData p.file b = w.fs.setData p.file b := by
    intro a b
    apply FileSystem.ext
    · exact List.set_set ..
    · rfl
  rw [writePack, hdata, hlen, writeAt_length, writePack, writePack, hset, ← hend, writeAt_length,
    writeAt_length, List.append_assoc]

omit h in
/-- An append that fails and undoes its writes changes nothing. -/
theorem append_error (henv : env.truncateFails = false)
    (hlt : p.file < w.fs.inodes.length) (hend : (w.fs.data p.file).length = p.size)
    {key body : Bytes} {e : PutError} (herr : (w.append env p key body).2 = .error e) :
    (w.append env p key body).1 = w := by
  rcases append_cases env w p key body with ⟨_, heq⟩ | ⟨n, _, heq⟩ | ⟨n, _, heq⟩ | heq
  · rw [heq]
  · rw [heq]
    exact undoWrite_writePack henv hlt hend _
  · rw [heq, writePack_writePack hlt hend _ _ (by rw [length_recordHead])]
    exact undoWrite_writePack henv hlt hend _
  · rw [heq] at herr
    cases herr

omit h in
theorem Flush.append (henv : env.truncateFails = false) (h : w.Flush a)
    (hid : p.id = a) (hp : w.store.extent a = some p.extent) (hproper : w.Proper p.file)
    (hend : (w.fs.data p.file).length = p.size) (key body : Bytes) :
    (w.append env p key body).1.Flush a := by
  cases hres : (w.append env p key body).2 with
  | error e =>
    rw [append_error henv hproper.lt hend hres]
    exact h
  | ok u =>
    rcases append_cases env w p key body with ⟨_, heq⟩ | ⟨n, _, heq⟩ | ⟨n, _, heq⟩ | heq
    · rw [heq] at hres
      cases hres
    · rw [heq] at hres
      cases hres
    · rw [heq] at hres
      cases hres
    · rw [heq]
      have hext := extent_commit (s := w.store) (by rw [hid]; exact hp) key body.length
      refine ⟨(commit_active _ _ _ _).trans h.active, ?_, _,
        (hext a).trans (if_pos hid.symm), ⟨?_, hproper.noTmp⟩, ?_⟩
      · intro q e he
        change (commit w.store p key body.length).extent q = some e at he
        rw [hext] at he
        split at he
        · rename_i hq
          cases he
          exact hq.symm
        · exact h.ids he
      · change p.file < _
        simpa [writePack] using hproper.lt
      · change (((w.writePack p p.size (recordHead key body.length)).writePack p
          (p.size + (recHeader + key.length)) body).fs.data p.file).length = _
        rw [data_append_of_end hproper.lt hend, List.length_append, length_record, hend]

end World

/-! ## Runs in which writes are undone -/

namespace Sys

def Reuses (s : Sys) : Label → Prop
  | .put env key size r => ∃ p body, readBody env key size r = .ok body ∧
      s.store.closed = false ∧ s.store.activePack = some p ∧
      needsRotate p key body = true ∧ ∃ q, s.store.packs.lookup (u32 (p.id + 1)) = some q
  | _ => False

/-- If this is a `Put` that has to undo a write, its `Truncate` works. -/
def Undoes : Label → Prop
  | .put env _ _ _ => env.truncateFails = false
  | _ => True

def CleanStep (s : Sys) (a : Label) (s' : Sys) : Prop :=
  s.step a = some s' ∧ Undoes a ∧ ¬ s.Reuses a

/-- The file of the active pack ends with it, and the demoter is busy with another pack. -/
structure Tidy (s : Sys) (a : Nat) : Prop where
  flush : s.world.Flush a
  demoter : ∀ id, (s.demoter = .picked id ∨ ∃ src stage, s.demoter = .moving id src stage) →
    id ≠ a ∧ ∃ e, s.store.extent id = some e

end Sys

namespace World

variable {a : Nat} {env : PutEnv}

theorem flush_put (henv : env.truncateFails = false) {w : World}
    (h : w.Flush a) {key : Bytes} {size : Int} {r : Bytes} {d : Demoter} {k : Bool}
    (hnew : ¬ Sys.Reuses ⟨w, d, k⟩ (.put env key size r)) :
    ∃ b, (w.put env key size r).1.Flush b ∧
      ∀ id e, id ≠ a → w.store.extent id = some e →
        id ≠ b ∧ (w.put env key size r).1.store.extent id = some e := by
  obtain ⟨p, hp, hid, hext, hproper, hend⟩ := h.activePack
  have hsame : ∀ id e, id ≠ a → w.store.extent id = some e →
      id ≠ a ∧ w.store.extent id = some e := fun _ _ hne he => ⟨hne, he⟩
  have hkeep : ∀ {w₁ : World} {q : Pack}, w₁.store.extent q.id = some q.extent → ∀ body id e,
      id ≠ q.id → w₁.store.extent id = some e →
        (w₁.append env q key body).1.store.extent id = some e := by
    intro w₁ q hq body id e hne he
    rcases store_append env w₁ q key body with ⟨hstore, -⟩ | heq
    · rw [hstore]
      exact he
    · rw [heq]
      exact (extent_commit hq key body.length id).trans ((if_neg hne).trans he)
  cases put_path env key size r hp with
  | refused e result =>
    rw [result]
    exact ⟨a, h, hsame⟩
  | direct body _ _ _ result =>
    rw [result]
    refine ⟨a, h.append henv hid hext hproper hend key body, ?_⟩
    exact fun id e hne he => ⟨hne, hkeep (by rw [hid]; exact hext) body id e (hid ▸ hne) he⟩
  | stuck body _ _ _ _ result =>
    rw [result]
    refine ⟨a, h.sealActive _, fun id e hne he => ⟨hne, ?_⟩⟩
    rw [sealActive_store]
    exact he
  | rotated body q hbody hclosed full _ hq result =>
    have hseal := h.sealActive env.rotate.sealing
    have hfree : w.store.extent (u32 (p.id + 1)) = none := by
      rw [extent, map_eq_none_iff, eq_none_iff_forall_not_mem]
      exact fun q hq => hnew ⟨p, body, hbody, hclosed, hp, full, q, hq⟩
    have hopen := flush_openActive env.rotate.now (w := (w.sealActive env.rotate.sealing).1)
      (u32 (p.id + 1)) (fun _ _ he => hseal.ids he)
    obtain ⟨q', hq', hqid, hqext, hqproper, hqend⟩ := hopen.activePack
    rw [activePack_openActive] at hq'
    have hqq : q' = q := by
      rw [hq]
      exact (some.inj hq').symm
    subst hqq
    rw [result]
    refine ⟨_, hopen.append henv hqid hqext hqproper hqend key body, fun id e _ he => ?_⟩
    have hne : id ≠ u32 (p.id + 1) := by
      rintro rfl
      rw [hfree] at he
      cases he
    refine ⟨hne, hkeep (by rw [hqid]; exact hqext) body id e (hqid ▸ hne) ?_⟩
    refine (extent_addPack _ _ id).trans ((if_neg hne).trans ?_)
    change (w.sealActive env.rotate.sealing).1.store.extent id = some e
    rw [sealActive_store]
    exact he

end World

variable {a : Nat} {env : PutEnv}

theorem DemoterStep.tidy {s s' : Sys} {l : Label} (h : DemoterStep s l s') (hs : s.Tidy a) :
    s'.Tidy a := by
  obtain ⟨hf, hd⟩ := hs
  have hidle : ∀ s'' : Sys, s''.world.Flush a → (s''.demoter = .waiting ∨ s''.demoter = .looping) →
      s''.Tidy a := by
    intro s'' hflush hdem
    refine ⟨hflush, ?_⟩
    rintro id (hbusy | ⟨_, _, hbusy⟩) <;> rcases hdem with hdem | hdem <;> rw [hbusy] at hdem <;>
      cases hdem
  -- a step on files while the pack `id` is being moved
  have hmove : ∀ {id src stage} (fs : FileSystem) (d : Demoter),
      s.demoter = .moving id src stage → World.Flush ⟨s.store, fs⟩ a →
      (∃ stage', d = .moving id src stage') → Sys.Tidy { s.withFs fs with demoter := d } a := by
    rintro id src stage fs d hdem hflush ⟨stage', rfl⟩
    refine ⟨hflush, ?_⟩
    rintro id' (hbusy | ⟨_, _, hbusy⟩)
    · cases hbusy
    · cases hbusy
      exact hd id (.inr ⟨src, stage, hdem⟩)
  cases h with
  | recv _ _ => exact hidle _ hf (.inr rfl)
  | rest _ | giveUp _ => exact hidle _ hf (.inl rfl)
  | @pick id p _ hp ha =>
    refine ⟨hf, ?_⟩
    rintro id' (hbusy | ⟨_, _, hbusy⟩)
    · cases hbusy
      refine ⟨?_, _, extent_of_lookup hp⟩
      rintro rfl
      exact ha hf.active
    · cases hbusy
  | @evict id p hdem hp ht =>
    have hpid : p.id = id := hf.ids (extent_of_lookup hp)
    subst hpid
    exact hidle _ (hf.evict (hd p.id (.inl hdem)).1) (.inr rfl)
  | @startMove id p hdem hp ht =>
    refine ⟨hf, ?_⟩
    rintro id' (hbusy | ⟨_, _, hbusy⟩)
    · cases hbusy
    · cases hbusy
      exact hd id (.inl hdem)
  | linked hdem hi => exact hmove _ _ hdem (hf.link hi _ _ _) ⟨_, rfl⟩
  | linkFails hdem _ => exact hmove _ _ hdem (hf.create _ _ _) ⟨_, rfl⟩
  | copySome n hdem => exact ⟨hf.copyBytes _ _ _ _ n, fun id' hbusy => hd id' hbusy⟩
  | copyRest hdem n _ => exact hmove _ _ hdem (hf.copyBytes _ _ _ _ n) ⟨_, rfl⟩
  | renamed hdem => exact hmove _ _ hdem (hf.rename _ _ _ _) ⟨_, rfl⟩
  | dropTmp hdem => exact hidle _ (hf.remove _) (.inl rfl)
  | @switch id src file p hdem hp hfile =>
    have hpid : p.id = id := hf.ids (extent_of_lookup hp)
    subst hpid
    exact hidle _ (hf.switchDown (hd p.id (.inr ⟨src, .done, hdem⟩)).1 hp file) (.inr rfl)

theorem Sys.CleanStep.tidy {s s' : Sys} {l : Label} (h : s.CleanStep l s')
    (hs : s.Tidy a) : ∃ b, s'.Tidy b := by
  obtain ⟨hstep, hundo, hnew⟩ := h
  rcases Sys.step_inv hstep with ⟨env, key, size, r, rfl, rfl⟩ | ⟨key, now, rfl, rfl⟩ |
    ⟨rfl, rfl⟩ | ⟨-, hdem⟩
  · obtain ⟨b, hflush, hkeep⟩ := flush_put (d := s.demoter) (k := s.kicked) hundo hs.flush hnew
    obtain ⟨hworld, hdemoter⟩ := stepPut_world s env key size r
    refine ⟨b, hworld ▸ hflush, ?_⟩
    intro id hbusy
    rw [hdemoter] at hbusy
    obtain ⟨hne, e, he⟩ := hs.demoter id hbusy
    obtain ⟨hneb, he'⟩ := hkeep id e hne he
    exact ⟨hneb, e, by rw [Sys.store, hworld]; exact he'⟩
  · refine ⟨a, ?_, fun id hbusy => ?_⟩
    · refine hs.flush.of_files ((get_active _ _ _).trans hs.flush.active) ?_
        (extent_get _ _ _ a) ?_ ?_ ?_
      · exact fun id e he => hs.flush.ids ((extent_get _ _ _ id) ▸ he)
      · rw [get_fs]
      · exact fun i _ => by rw [get_fs]
      · exact fun t id ext i _ hlook => by rwa [get_fs] at hlook
    · obtain ⟨hne, e, he⟩ := hs.demoter id hbusy
      exact ⟨hne, e, (extent_get _ _ _ id).trans he⟩
  · exact ⟨a, hs.flush.of_files hs.flush.active (fun _ _ he => hs.flush.ids he) rfl le_rfl
      (fun _ _ => rfl) (fun _ _ _ _ _ hlook => hlook), hs.demoter⟩
  · exact ⟨a, hdem.tidy hs⟩

/-! ## Opening -/

namespace World

def Filed (s : Store) : Prop := ∀ id e, s.extent id = some e → e.id = id

theorem filed_load (env : OpenEnv) {w : World} (h : Filed w.store) (t id : Nat) :
    Filed (w.load env t id).1.store := by
  intro q e he
  rcases extent_load env w t id with ⟨-, heq⟩ | ⟨-, i, n, -, -, hext⟩
  · rw [heq] at he
    exact h q e he
  · rw [hext] at he
    split at he
    · rename_i hq
      cases he
      exact hq.symm
    · exact h q e he

theorem filed_openName {env : OpenEnv} {t : Nat} {acc : World × Nat} (h : Filed acc.1.store)
    (name : Bytes) : Filed (openName env t acc name).1.store := by
  unfold openName
  split
  · exact h
  · rename_i id _
    split
    · exact h
    · have hload := filed_load env h t id
      split
      · rename_i hw
        rw [hw] at hload
        exact hload
      · rename_i hw
        rw [hw] at hload
        exact hload

/-- Whatever the directories hold and whatever fails, an opened store has a fresh active pack. -/
theorem flush_openStore {env : OpenEnv} {budgets : List Int} {fs : FileSystem} {w : World}
    (h : openStore env budgets fs = (w, true)) : ∃ a, w.Flush a := by
  have hfiled : Filed ((List.range budgets.length).foldl (openTier env)
      (⟨emptyStore budgets, fs⟩, 0)).1.store := by
    refine foldl_openTier_of (P := fun acc => Filed acc.1.store) ?_ _ ?_
    · exact fun _ _ name h => filed_openName h name
    · intro id e he
      cases he
  rw [openStore] at h
  generalize (List.range budgets.length).foldl (openTier env) (⟨emptyStore budgets, fs⟩, 0) =
    loaded at h hfiled
  rcases rotate_cases ⟨⟨env.order, false⟩, env.openFails, env.now⟩ loaded.1
    (u32 (loaded.2 + 1)) with
    heq | ⟨-, -, heq⟩
  · rw [heq] at h
    cases h
  · rw [heq] at h
    cases h
    refine ⟨_, flush_openActive _ _ ?_⟩
    rw [sealActive_store]
    exact hfiled

end World

/-! ## The two sides of the promise -/

namespace Sys

/-- A `Put` that does not get past sealing the active pack, and undoes what it wrote. -/
def Contained (s : Sys) (env : PutEnv) (key : Bytes) (size : Int) (r : Bytes) : Prop :=
  ∀ p body, readBody env key size r = .ok body → s.store.closed = false →
    s.store.activePack = some p →
      if needsRotate p key body then env.rotate.sealing.fails = true
      else env.truncateFails = false

end Sys

theorem stepPut_error {s : Sys} (hs : s.Tidy a) {key : Bytes} {size : Int}
    {r : Bytes} {e : PutError} (herr : (s.world.put env key size r).2 = .error e)
    (hcontained : s.Contained env key size r) : s.stepPut env key size r = s := by
  obtain ⟨p, hp, hid, hext, hproper, hend⟩ := hs.flush.activePack
  have hworld : (s.world.put env key size r).1 = s.world := by
    cases put_path env key size r hp with
    | refused e result => rw [result]
    | direct body hbody hclosed fits result =>
      have htrunc := hcontained p body hbody hclosed hp
      rw [fits, if_neg (by decide)] at htrunc
      rw [result] at herr ⊢
      exact append_error htrunc hproper.lt hend herr
    | stuck body hbody hclosed full _ result =>
      have hfails := hcontained p body hbody hclosed hp
      rw [full, if_pos rfl] at hfails
      rw [result, sealActive_of _ hp, sealPack, if_pos hfails]
    | rotated body q hbody hclosed full sealed _ _ =>
      have hfails := hcontained p body hbody hclosed hp
      rw [full, if_pos rfl] at hfails
      rw [sealActive_of _ hp, sealPack, if_pos hfails] at sealed
      cases sealed
  unfold Sys.stepPut
  split
  · rename_i hput
    rw [hput] at herr
    cases herr
  · rename_i hput
    rw [hput] at hworld
    subst hworld
    rfl

/-- In every run of a store opened on any directories, as long as undone writes stay undone and no
id is used twice, a `Put` that fails without having sealed the active pack is as good as never
issued: whatever happens afterwards, crashes and restarts included, every `Get` answers the same. -/
theorem failed_put_changes_nothing {env : OpenEnv} {budgets : List Int} {fs : FileSystem}
    {w : World} (hopen : openStore env budgets fs = (w, true)) {as : List Label} {s : Sys}
    (hrun : Steps Sys.CleanStep (Sys.fresh w) as s) {penv : PutEnv} {key : Bytes} {size : Int}
    {r : Bytes} {e : PutError} (herr : (s.world.put penv key size r).2 = .error e)
    (hcontained : s.Contained penv key size r) (events : List Event) :
    Daemon.answers (.up s) (.act (.put penv key size r) :: events) =
      Daemon.answers (.up s) events := by
  obtain ⟨a, hflush⟩ := flush_openStore hopen
  have hfresh : ∃ a, (Sys.fresh w).Tidy a := by
    refine ⟨a, hflush, ?_⟩
    rintro id (hbusy | ⟨_, _, hbusy⟩) <;> cases hbusy
  obtain ⟨b, hs⟩ := Steps.invariant (P := fun s => ∃ a, s.Tidy a)
    (fun s l t ⟨a, ha⟩ hstep => hstep.tidy ha) hrun hfresh
  have hsame := stepPut_error hs herr hcontained
  change Daemon.answers (.up (s.stepPut penv key size r)) events = _
  rw [hsame]

def oneKey : Sys :=
  (Sys.fresh (openStore plainOpen [0] empty).1).stepPut plainPut [97] 1 [111]

def headerFails : PutEnv := { plainPut with headerStops := some 3 }

def writeCrashAsk : List Event :=
  [.act (.put plainPut [97] 1 [110]), .crash, .reopen plainOpen [0], .act (.get [97] 0)]

theorem cleanStep_oneKey :
    Steps Sys.CleanStep (Sys.fresh (openStore plainOpen [0] empty).1)
      [.put plainPut [97] 1 [111]] oneKey := by
  refine .one ⟨rfl, rfl, ?_⟩
  rintro ⟨p, body, -, -, hp, hfull, -⟩
  have hact : (Sys.fresh (openStore plainOpen [0] empty).1).store.activePack =
      some ⟨1, 0, 0, 0, 0, 0, 0⟩ := rfl
  rw [hact] at hp
  cases hp
  simp [needsRotate] at hfull

theorem failed_put_changes_nothing_oneKey :
    Daemon.answers (.up oneKey) (.act (.put headerFails [98] 2 [1, 2]) :: writeCrashAsk) =
      Daemon.answers (.up oneKey) writeCrashAsk := by
  have hopen : openStore plainOpen [0] empty = (_, true) := rfl
  have herr : (oneKey.world.put headerFails [98] 2 [1, 2]).2 = .error .header := rfl
  refine failed_put_changes_nothing hopen cleanStep_oneKey herr ?_ _
  intro p body hbody _ hp
  have hact : oneKey.store.activePack = some ⟨1, 0, 0, 10, 1, 0, 0⟩ := rfl
  rw [hact] at hp
  cases hp
  cases hbody
  decide

def createFails : PutEnv :=
  { plainPut with rotate := { plainPut.rotate with openFails := true } }

def sealedOneKey : Sys :=
  { oneKey with world := (oneKey.world.sealActive plainPut.rotate.sealing).1 }

theorem put_createFails {big : Bytes} (hbig : big.length = packLimit) :
    oneKey.world.put createFails [98] big.length big = (sealedOneKey.world, .error .rotate) := by
  have hkey : Storable [98] big := by
    refine ⟨by decide, by decide, by decide, ?_⟩
    rw [hbig]
    decide
  have hact : oneKey.world.store.activePack = some ⟨1, 0, 0, 10, 1, 0, 0⟩ := rfl
  have hclosed : oneKey.world.store.closed = false := rfl
  have hfull : needsRotate ⟨1, 0, 0, 10, 1, 0, 0⟩ [98] big = true := by
    rw [needsRotate, hbig]
    decide
  have hsealed : oneKey.world.sealActive createFails.rotate.sealing = (sealedOneKey.world, true) :=
    rfl
  have hfails : createFails.rotate.openFails = true := rfl
  rw [put, readBody_of_storable rfl hkey]
  simp only [putLocked, hclosed, hact, hfull, rotate, hsealed, hfails]
  simp

/-- A `Put` that fails in `rotate` leaves a hint for a pack that keeps growing.  The next value of
`a` goes into that pack, behind the hint's back, and is lost with the daemon: `Get` answers the
value before it. -/
theorem stepPut_createFails {big : Bytes} (hbig : big.length = packLimit) :
    oneKey.stepPut createFails [98] big.length big = sealedOneKey := by
  rw [Sys.stepPut, put_createFails hbig]
  rfl

theorem failed_rotation_loses_value :
    ∃ (w : World) (as : List Label) (s : Sys) (penv : PutEnv) (key : Bytes) (size : Int) (r : Bytes)
      (e : PutError) (events : List Event),
      openStore plainOpen [0] empty = (w, true) ∧
      Steps Sys.CleanStep (Sys.fresh w) as s ∧ (s.world.put penv key size r).2 = .error e ∧
      Daemon.answers (.up s) (.act (.put penv key size r) :: events) = [some [111]] ∧
      Daemon.answers (.up s) events = [some [110]] := by
  obtain ⟨big, hbig⟩ : ∃ big : Bytes, big.length = packLimit :=
    ⟨List.replicate packLimit 0, List.length_replicate⟩
  refine ⟨_, _, oneKey, createFails, [98], big.length, big, .rotate, writeCrashAsk, rfl,
    cleanStep_oneKey, congrArg Prod.snd (put_createFails hbig), ?_, ?_⟩
  · change Daemon.answers (.up (oneKey.stepPut createFails [98] big.length big)) writeCrashAsk = _
    rw [stepPut_createFails hbig]
    decide +kernel
  · decide +kernel

end Corepkgs.Jigd
