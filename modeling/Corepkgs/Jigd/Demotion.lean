import Corepkgs.Jigd.PutStep
/-!
# The demoter between its system calls

`DemoterStep` lists what the demoter can do next; `DemoterOk` is what it relies
on while other goroutines run.  The files of the pack it moves are final, so a
copy of them stays a copy.
-/

namespace Corepkgs.Jigd

open Lib FileSystem World Store List

/-- The steps of the demoter goroutine, with their guards. -/
inductive DemoterStep (s : Sys) : Label → Sys → Prop where
  | recv (h : s.demoter = .waiting) (hk : s.kicked = true) :
      DemoterStep s .recv { s with demoter := .looping, kicked := false }
  | rest (h : s.demoter = .looping) : DemoterStep s .rest { s with demoter := .waiting }
  | pick {id : Nat} {p : Pack} (h : s.demoter = .looping) (hp : s.store.packs.lookup id = some p)
      (ha : s.store.active ≠ some id) : DemoterStep s (.pick id) { s with demoter := .picked id }
  | evict {id : Nat} {p : Pack} (h : s.demoter = .picked id)
      (hp : s.store.packs.lookup id = some p) (ht : p.tier + 1 = s.store.tiers.length) :
      DemoterStep s .evict { s with world := s.world.evict p, demoter := .looping }
  | startMove {id : Nat} {p : Pack} (h : s.demoter = .picked id)
      (hp : s.store.packs.lookup id = some p) (ht : p.tier + 1 < s.store.tiers.length) :
      DemoterStep s .startMove { s with demoter := .moving id p.tier (.link .pack) }
  | linked {id src i : Nat} {ext : Ext} (h : s.demoter = .moving id src (.link ext))
      (hi : s.fs.lookup (filePath src id ext) = some i) :
      DemoterStep s .linked
        { s.withFs (s.fs.link (filePath src id ext) (filePath (src + 1) id ext)) with
          demoter := .moving id src (MoveStage.after ext) }
  | linkFails {id src i : Nat} {ext : Ext} (h : s.demoter = .moving id src (.link ext))
      (hi : s.fs.lookup (filePath src id ext) = some i) :
      DemoterStep s .linkFails { s.withFs (s.fs.create (tmpPath (src + 1) id ext)) with
        demoter := .moving id src (.copying ext) }
  | copySome {id src : Nat} {ext : Ext} (n : Nat) (h : s.demoter = .moving id src (.copying ext)) :
      DemoterStep s (.copySome n) (s.withFs
        (Sys.copyBytes s.fs (filePath src id ext) (tmpPath (src + 1) id ext) n))
  | copyRest {id src : Nat} {ext : Ext} (h : s.demoter = .moving id src (.copying ext)) (n : Nat)
      (hn : ∀ i, s.fs.lookup (filePath src id ext) = some i → n = (s.fs.data i).length) :
      DemoterStep s .copyRest { s.withFs
          (Sys.copyBytes s.fs (filePath src id ext) (tmpPath (src + 1) id ext) n) with
        demoter := .moving id src (.rename ext) }
  | renamed {id src : Nat} {ext : Ext} (h : s.demoter = .moving id src (.rename ext)) :
      DemoterStep s .renamed
        { s.withFs (s.fs.rename (tmpPath (src + 1) id ext) (filePath (src + 1) id ext)) with
          demoter := .moving id src (MoveStage.after ext) }
  | dropTmp {id src : Nat} {ext : Ext} (h : s.demoter = .moving id src (.copying ext)) :
      DemoterStep s (.giveUp true)
        { s.withFs (s.fs.remove (tmpPath (src + 1) id ext)) with demoter := .waiting }
  | giveUp {id src : Nat} {stage : MoveStage} (h : s.demoter = .moving id src stage) :
      DemoterStep s (.giveUp false) { s with demoter := .waiting }
  | switch {id src file : Nat} {p : Pack} (h : s.demoter = .moving id src .done)
      (hp : s.store.packs.lookup id = some p)
      (hfile : s.fs.lookup (filePath (src + 1) id .pack) = some file) :
      DemoterStep s .switch { s with world := s.world.switchDown p file, demoter := .looping }

namespace Sys

variable {a : Label}

theorem stepMove_inv {s s' : Sys} {id src : Nat} {stage : MoveStage}
    (hd : s.demoter = .moving id src stage) (h : s.stepMove id src stage a = some s') :
    DemoterStep s a s' := by
  unfold stepMove at h
  split at h
  · split at h
    · rename_i hi
      cases h
      obtain ⟨i, hi⟩ := Option.isSome_iff_exists.mp hi
      exact .linked hd hi
    · cases h
  · split at h
    · rename_i hi
      cases h
      obtain ⟨i, hi⟩ := Option.isSome_iff_exists.mp hi
      exact .linkFails hd hi
    · cases h
  · cases h
    exact .copySome _ hd
  · cases h
    refine .copyRest hd _ ?_
    intro i hi
    rw [hi]
  · cases h
    exact .renamed hd
  · cases h
    exact .dropTmp hd
  · cases h
    exact .giveUp hd
  · split at h
    · rename_i p file hp hfile
      cases h
      exact .switch hd hp hfile
    · cases h
  · cases h

theorem stepDemoter_inv {s s' : Sys}
    (h : s.stepDemoter s.demoter a = some s') : DemoterStep s a s' := by
  unfold stepDemoter at h
  split at h
  · rename_i hd
    split at h
    · rename_i hk
      cases h
      exact .recv hd hk
    · cases h
  · rename_i hd
    cases h
    exact .rest hd
  · rename_i id hd
    split at h
    · rename_i hp
      cases h
      obtain ⟨p, hlook⟩ := Option.isSome_iff_exists.mp hp.1
      exact .pick hd hlook hp.2
    · cases h
  · rename_i id hd
    split at h
    · rename_i p hp
      split at h
      · rename_i ht
        cases h
        exact .evict hd hp ht
      · cases h
    · cases h
  · rename_i id hd
    split at h
    · rename_i p hp
      split at h
      · rename_i ht
        cases h
        exact .startMove hd hp ht
      · cases h
    · cases h
  · rename_i hd
    exact stepMove_inv hd h
  · cases h

theorem step_inv {s s' : Sys} (h : s.step a = some s') :
    (∃ env key size r, a = .put env key size r ∧ s' = s.stepPut env key size r) ∨
    (∃ key now, a = .get key now ∧ s' = { s with world := (s.world.get key now).1 }) ∨
    (a = .beginClose ∧
      s' = { s with world := ⟨{ s.world.store with closed := true }, s.world.fs⟩ }) ∨
    ((∀ env key size r, a ≠ .put env key size r) ∧ DemoterStep s a s') := by
  cases a with
  | put env key size r => exact .inl ⟨env, key, size, r, rfl, (Option.some.inj h).symm⟩
  | get key now => exact .inr (.inl ⟨key, now, rfl, (Option.some.inj h).symm⟩)
  | beginClose => exact .inr (.inr (.inl ⟨rfl, (Option.some.inj h).symm⟩))
  | _ =>
    refine .inr (.inr (.inr ⟨?_, stepDemoter_inv h⟩))
    intro env key size r heq
    cases heq

end Sys

namespace World

/-! ## File operations of a move -/

namespace Consistent

variable {w : World} {a i t id : Nat} {e : Extent} {ext : Ext}

variable (h : w.Consistent a)

include h

/-- Both files of a pack below the active one are final, in every tier. -/
theorem settled_file (hid : id < a)
    (he : w.store.extent id = some e) (hi : w.fs.lookup (filePath t id ext) = some i) :
    w.Settled i := by
  cases ext with
  | pack => exact (h.copies he hid.ne hi).1
  | hint => exact h.hints hi

theorem link {src : Nat} (hid : id < a)
    (he : w.store.extent id = some e) (hi : w.fs.lookup (filePath src id ext) = some i)
    (dst : Nat) :
    Steady w ⟨w.store, w.fs.link (filePath src id ext) (filePath dst id ext)⟩ ∧
      Consistent ⟨w.store, w.fs.link (filePath src id ext) (filePath dst id ext)⟩ a := by
  have hset := h.settled_file hid he hi
  have hs : Steady w ⟨w.store, w.fs.link (filePath src id ext) (filePath dst id ext)⟩ := by
    apply steady_entries
    · rw [length_link]
    · exact fun j _ => data_link _ _ _ j
    · intro t' id' ext' j _ hj
      rwa [lookup_link hi, if_neg (Ne.symm (filePath_ne_tmpPath _ _ _ _ _ _))] at hj
  -- the only new name is for the linked inode
  have hname : ∀ t' id' ext' j,
      (w.fs.link (filePath src id ext) (filePath dst id ext)).lookup (filePath t' id' ext') =
        some j →
      w.fs.lookup (filePath t' id' ext') = some j ∨ (id' = id ∧ ext' = ext ∧ j = i) := by
    intro t' id' ext' j hj
    rw [lookup_link hi] at hj
    split at hj
    · rename_i hpath
      obtain ⟨rfl, rfl, rfl⟩ := filePath_inj.mp hpath
      cases hold : w.fs.lookup (filePath t' id' ext') with
      | none =>
        rw [hold] at hj
        exact .inr ⟨rfl, rfl, (Option.some.inj hj).symm⟩
      | some k =>
        rw [hold] at hj
        exact .inl hj
    · exact .inl hj
  refine ⟨hs, h.of_steady hs h.active rfl (fun _ _ he => he) ?_ ?_ ?_⟩
  · intro t' id' j hj
    rcases hname t' id' .pack j hj with hold | ⟨rfl, rfl, rfl⟩
    · exact .inl hold
    · refine .inr ⟨hid, fun e' he' => ⟨(hs.settled hset).1, ?_⟩⟩
      obtain ⟨-, hdata⟩ := h.copies he' hid.ne hi
      change (w.fs.link _ _).data j = (w.fs.link _ _).data e'.file
      rw [data_link, data_link, hdata]
  · intro t' id' j hj
    rcases hname t' id' .hint j hj with hold | ⟨rfl, rfl, rfl⟩
    · exact .inl hold
    · exact .inr ⟨hid.le, (hs.settled hset).1⟩
  · exact tmpUnique_link h.tmps hi hset.noTmp (fun _ _ _ => filePath_ne_tmpPath _ _ _ _ _ _)

theorem create (t id : Nat) (ext : Ext) :
    Steady w ⟨w.store, w.fs.create (tmpPath t id ext)⟩ ∧
      Consistent ⟨w.store, w.fs.create (tmpPath t id ext)⟩ a := by
  unfold FileSystem.create
  split
  · rename_i j hj
    have hs := steady_setData_tmp hj []
    exact ⟨hs, h.setData hs⟩
  · have hs := steady_place w (tmpPath t id ext) []
    have hold : ∀ t' id' ext' j,
        (w.fs.place (tmpPath t id ext) []).lookup (filePath t' id' ext') = some j →
        w.fs.lookup (filePath t' id' ext') = some j := by
      intro t' id' ext' j hj
      rwa [lookup_place, if_neg (filePath_ne_tmpPath _ _ _ _ _ _)] at hj
    exact ⟨hs, h.of_steady hs h.active rfl (fun _ _ he => he)
      (fun _ _ _ hn => .inl (hold _ _ _ _ hn)) (fun _ _ _ hn => .inl (hold _ _ _ _ hn))
      (tmpUnique_place h.tmps _ _)⟩

theorem copyBytes (src : Path) (t id : Nat) (ext : Ext) (n : Nat) :
    Steady w ⟨w.store, Sys.copyBytes w.fs src (tmpPath t id ext) n⟩ ∧
      Consistent ⟨w.store, Sys.copyBytes w.fs src (tmpPath t id ext) n⟩ a := by
  unfold Sys.copyBytes
  split
  · rename_i i j _ hj
    have hs := steady_setData_tmp hj
      (w.fs.data j ++ ((w.fs.data i).drop (w.fs.data j).length).take n)
    exact ⟨hs, h.setData hs⟩
  · exact ⟨Steady.refl w, h⟩

theorem rename {src j : Nat} (hid : id < a)
    (he : w.store.extent id = some e) (hi : w.fs.lookup (filePath src id ext) = some i)
    (hj : w.fs.lookup (tmpPath t id ext) = some j) (hcopy : w.fs.data j = w.fs.data i) :
    Steady w ⟨w.store, w.fs.rename (tmpPath t id ext) (filePath t id ext)⟩ ∧
      Consistent ⟨w.store, w.fs.rename (tmpPath t id ext) (filePath t id ext)⟩ a := by
  have htmp : ∀ t' id' ext' k,
      (w.fs.rename (tmpPath t id ext) (filePath t id ext)).lookup (tmpPath t' id' ext') = some k →
      tmpPath t' id' ext' ≠ tmpPath t id ext ∧ w.fs.lookup (tmpPath t' id' ext') = some k := by
    intro t' id' ext' k hk
    rw [lookup_rename hj, if_neg (Ne.symm (filePath_ne_tmpPath _ _ _ _ _ _))] at hk
    split at hk
    · cases hk
    · rename_i hne
      exact ⟨hne, hk⟩
  have hs : Steady w ⟨w.store, w.fs.rename (tmpPath t id ext) (filePath t id ext)⟩ := by
    apply steady_entries
    · rw [length_rename]
    · exact fun k _ => data_rename _ _ _ k
    · exact fun t' id' ext' k _ hk => (htmp t' id' ext' k hk).2
  have hset : Settled ⟨w.store, w.fs.rename (tmpPath t id ext) (filePath t id ext)⟩ j := by
    refine ⟨?_, ?_, ?_⟩
    · change j < (w.fs.rename _ _).inodes.length
      rw [length_rename]
      exact lookup_lt hj
    · intro t' id' ext' hk
      obtain ⟨hne, hk'⟩ := htmp t' id' ext' j hk
      exact hne (h.tmps hj hk')
    · rintro e' he' rfl
      have hae : w.activeExtent = some e' := he'
      exact (h.frozen (h.activeExtent_eq ▸ hae)).noTmp t id ext hj
  have hname : ∀ t' id' ext' k,
      (w.fs.rename (tmpPath t id ext) (filePath t id ext)).lookup (filePath t' id' ext') = some k →
      w.fs.lookup (filePath t' id' ext') = some k ∨ (id' = id ∧ ext' = ext ∧ k = j) := by
    intro t' id' ext' k hk
    rw [lookup_rename hj] at hk
    split at hk
    · rename_i hpath
      obtain ⟨-, hid', hext'⟩ := filePath_inj.mp hpath
      exact .inr ⟨hid', hext', (Option.some.inj hk).symm⟩
    · rw [if_neg (filePath_ne_tmpPath _ _ _ _ _ _)] at hk
      exact .inl hk
  refine ⟨hs, h.of_steady hs h.active rfl (fun _ _ he => he) ?_ ?_ ?_⟩
  · intro t' id' k hk
    rcases hname t' id' .pack k hk with hold | ⟨rfl, rfl, rfl⟩
    · exact .inl hold
    · refine .inr ⟨hid, fun e' he' => ⟨hset, ?_⟩⟩
      obtain ⟨-, hdata⟩ := h.copies he' hid.ne hi
      change (w.fs.rename _ _).data k = (w.fs.rename _ _).data e'.file
      rw [data_rename, data_rename, hcopy, hdata]
  · intro t' id' k hk
    rcases hname t' id' .hint k hk with hold | ⟨rfl, rfl, rfl⟩
    · exact .inl hold
    · exact .inr ⟨hid.le, hset⟩
  · exact tmpUnique_rename h.tmps hj (fun _ _ _ => filePath_ne_tmpPath _ _ _ _ _ _)

end Consistent

/-! ## What the demoter relies on -/

variable (w : World)

def Arrived (t id : Nat) (ext : Ext) : Prop :=
  ∃ i, w.fs.lookup (filePath t id ext) = some i

/-- The temporary copy of a file, in relation `part` to the file. -/
def Copied (id src : Nat) (ext : Ext) (part : Bytes → Bytes → Prop) : Prop :=
  ∃ i j, w.fs.lookup (filePath src id ext) = some i ∧
    w.fs.lookup (tmpPath (src + 1) id ext) = some j ∧ part (w.fs.data j) (w.fs.data i)

def StageOk (id src : Nat) : MoveStage → Prop
  | .link .pack => True
  | .link .hint => w.Arrived (src + 1) id .pack
  | .copying ext => (ext = .hint → w.Arrived (src + 1) id .pack) ∧ w.Copied id src ext (· <+: ·)
  | .rename ext => (ext = .hint → w.Arrived (src + 1) id .pack) ∧ w.Copied id src ext (· = ·)
  | .done => w.Arrived (src + 1) id .pack ∧ w.Arrived (src + 1) id .hint

def DemoterOk (a : Nat) : Demoter → Prop
  | .waiting => True
  | .looping => True
  | .picked id => (∃ e, w.store.extent id = some e) ∧ id < a
  | .moving id src stage =>
    (∃ e, w.store.extent id = some e ∧ e.tier = src) ∧ id < a ∧ w.StageOk id src stage

variable {w w' : World} {a a' i t id src : Nat} {e : Extent} {ext : Ext}

theorem Arrived.of_after (h : w.Arrived t id ext) (hw : After w w' a a') (hid : id < a) :
    w'.Arrived t id ext := by
  obtain ⟨i, hi⟩ := h
  exact ⟨i, (hw.undisturbed.names hid).trans hi⟩

theorem Copied.of_after {part : Bytes → Bytes → Prop} (h : w.Copied id src ext part)
    (hw : After w w' a a') (hc : w.Consistent a) (hid : id < a) (he : w.store.extent id = some e) :
    w'.Copied id src ext part := by
  obtain ⟨i, j, hi, hj, hpart⟩ := h
  refine ⟨i, j, (hw.undisturbed.names hid).trans hi, hw.undisturbed.tmps.trans hj, ?_⟩
  rw [hw.undisturbed.tmpData hj, (hw.steady.settled (hc.settled_file hid he hi)).2]
  exact hpart

theorem StageOk.of_after {stage : MoveStage} (h : w.StageOk id src stage) (hw : After w w' a a')
    (hc : w.Consistent a) (hid : id < a) (he : w.store.extent id = some e) :
    w'.StageOk id src stage := by
  cases stage with
  | link ext =>
    cases ext with
    | pack => trivial
    | hint => exact Arrived.of_after h hw hid
  | copying _ | rename _ => exact ⟨fun hx => (h.1 hx).of_after hw hid, h.2.of_after hw hc hid he⟩
  | done => exact ⟨h.1.of_after hw hid, h.2.of_after hw hid⟩

/-- Whatever happens to the active pack, the demoter can go on. -/
theorem DemoterOk.of_after {d : Demoter} (h : w.DemoterOk a d) (hw : After w w' a a')
    (hc : w.Consistent a) : w'.DemoterOk a' d := by
  cases d with
  | waiting | looping => trivial
  | picked id =>
    obtain ⟨⟨e, he⟩, hid⟩ := h
    exact ⟨⟨e, (hw.undisturbed.extent hid).trans he⟩, hid.trans_le hw.le⟩
  | moving id src stage =>
    obtain ⟨⟨e, he, ht⟩, hid, hstage⟩ := h
    exact ⟨⟨e, (hw.undisturbed.extent hid).trans he, ht⟩, hid.trans_le hw.le,
      hstage.of_after hw hc hid he⟩

/-! ## The demoter's own steps -/

theorem arrived_link {dst : Nat} (hi : w.fs.lookup (filePath src id ext) = some i) :
    Arrived ⟨w.store, w.fs.link (filePath src id ext) (filePath dst id ext)⟩ dst id ext :=
  ⟨_, (lookup_link hi _ _).trans (if_pos rfl)⟩

theorem Arrived.of_link {dst q : Nat} {ext' : Ext}
    (hi : w.fs.lookup (filePath src id ext) = some i) (h : w.Arrived t q ext') :
    Arrived ⟨w.store, w.fs.link (filePath src id ext) (filePath dst id ext)⟩ t q ext' := by
  obtain ⟨j, hj⟩ := h
  by_cases hpath : filePath t q ext' = filePath dst id ext
  · exact ⟨_, (lookup_link hi _ _).trans (if_pos hpath)⟩
  · exact ⟨j, ((lookup_link hi _ _).trans (if_neg hpath)).trans hj⟩

theorem Arrived.of_rename {t' j q : Nat} {ext' : Ext}
    (hj : w.fs.lookup (tmpPath t' id ext) = some j) (h : w.Arrived t q ext') :
    Arrived ⟨w.store, w.fs.rename (tmpPath t' id ext) (filePath t' id ext)⟩ t q ext' := by
  obtain ⟨k, hk⟩ := h
  by_cases hpath : filePath t q ext' = filePath t' id ext
  · exact ⟨j, (lookup_rename hj _ _).trans (if_pos hpath)⟩
  · refine ⟨k, ((lookup_rename hj _ _).trans (if_neg hpath)).trans ?_⟩
    rw [if_neg (filePath_ne_tmpPath _ _ _ _ _ _)]
    exact hk

theorem lookup_create_file (fs : FileSystem) (t id t' id' : Nat) (ext ext' : Ext) :
    (fs.create (tmpPath t id ext)).lookup (filePath t' id' ext') =
      fs.lookup (filePath t' id' ext') := by
  unfold create
  split
  · rfl
  · rw [lookup_place, if_neg (filePath_ne_tmpPath _ _ _ _ _ _)]

theorem copied_create (hi : w.fs.lookup (filePath src id ext) = some i) :
    Copied ⟨w.store, w.fs.create (tmpPath (src + 1) id ext)⟩ id src ext (· <+: ·) := by
  have hfile := (lookup_create_file w.fs (src + 1) id src id ext ext).trans hi
  unfold Copied
  cases hj : w.fs.lookup (tmpPath (src + 1) id ext) with
  | some j =>
    have hcreate : w.fs.create (tmpPath (src + 1) id ext) = w.fs.setData j [] := by
      rw [create, hj]
    refine ⟨i, j, hfile, ?_, ?_⟩
    · change (w.fs.create _).lookup _ = _
      rw [hcreate]
      exact hj
    · change (w.fs.create _).data j <+: (w.fs.create _).data i
      rw [hcreate, data_setData_same _ (lookup_lt hj)]
      exact nil_prefix
  | none =>
    have hcreate : w.fs.create (tmpPath (src + 1) id ext) =
        w.fs.place (tmpPath (src + 1) id ext) [] := by
      rw [create, hj]
    refine ⟨i, w.fs.inodes.length, hfile, ?_, ?_⟩
    · change (w.fs.create _).lookup _ = _
      rw [hcreate, lookup_place, if_pos rfl]
    · change (w.fs.create _).data _ <+: (w.fs.create _).data i
      rw [hcreate, data_place_new]
      exact nil_prefix

theorem lookup_copyBytes (fs : FileSystem) (src dst q : Path) (n : Nat) :
    (Sys.copyBytes fs src dst n).lookup q = fs.lookup q := by
  unfold Sys.copyBytes
  split <;> rfl

/-- The copy after some more bytes, and after the last. -/
theorem copied_copyBytes (hc : w.Consistent a) (hid : id < a)
    (he : w.store.extent id = some e) (n : Nat) (h : w.Copied id src ext (· <+: ·)) :
    Copied ⟨w.store, Sys.copyBytes w.fs (filePath src id ext) (tmpPath (src + 1) id ext) n⟩
        id src ext (· <+: ·) ∧
      ((∀ i, w.fs.lookup (filePath src id ext) = some i → n = (w.fs.data i).length) →
        Copied ⟨w.store, Sys.copyBytes w.fs (filePath src id ext) (tmpPath (src + 1) id ext) n⟩
          id src ext (· = ·)) := by
  obtain ⟨i, j, hi, hj, hpre⟩ := h
  have hfs : Sys.copyBytes w.fs (filePath src id ext) (tmpPath (src + 1) id ext) n =
      w.fs.setData j (w.fs.data j ++ ((w.fs.data i).drop (w.fs.data j).length).take n) := by
    rw [Sys.copyBytes, hi, hj]
  have hij : i ≠ j := by
    rintro rfl
    exact (hc.settled_file hid he hi).noTmp _ _ _ hj
  obtain ⟨rest, hrest⟩ := hpre
  have hdrop : (w.fs.data i).drop (w.fs.data j).length = rest := by
    rw [← hrest, drop_left]
  have hdst : (Sys.copyBytes w.fs (filePath src id ext) (tmpPath (src + 1) id ext) n).data j =
      w.fs.data j ++ rest.take n := by
    rw [hfs, data_setData_same _ (lookup_lt hj), hdrop]
  have hsrc : (Sys.copyBytes w.fs (filePath src id ext) (tmpPath (src + 1) id ext) n).data i =
      w.fs.data j ++ rest := by
    rw [hfs, data_setData_ne _ hij, hrest]
  constructor
  · refine ⟨i, j, (lookup_copyBytes _ _ _ _ _).trans hi, (lookup_copyBytes _ _ _ _ _).trans hj, ?_⟩
    change (Sys.copyBytes _ _ _ _).data j <+: (Sys.copyBytes _ _ _ _).data i
    rw [hdst, hsrc]
    exact (prefix_append_right_inj _).mpr ( take_prefix n rest)
  · intro hn
    refine ⟨i, j, (lookup_copyBytes _ _ _ _ _).trans hi, (lookup_copyBytes _ _ _ _ _).trans hj, ?_⟩
    change (Sys.copyBytes _ _ _ _).data j = (Sys.copyBytes _ _ _ _).data i
    rw [hdst, hsrc, take_of_length_le]
    rw [hn i hi, ← hrest, length_append]
    exact Nat.le_add_left _ _

end World

theorem stepPut_world (s : Sys) (env : PutEnv) (key : Bytes) (size : Int) (r : Bytes) :
    (s.stepPut env key size r).world = (s.world.put env key size r).1 ∧
      (s.stepPut env key size r).demoter = s.demoter := by
  unfold Sys.stepPut
  split <;> rename_i h <;> rw [h] <;> exact ⟨rfl, rfl⟩

/-! ## The invariant of the whole system -/

namespace World

/-- What the index still says in `w'` it said in `w`, and of the same bytes. -/
structure Carried (w w' : World) : Prop where
  index : ∀ {key l}, w'.store.index.lookup key = some l → w.store.index.lookup key = some l
  place : ∀ {key l e}, w'.store.index.lookup key = some l → w.store.extent l.pack = some e →
    ∃ e', w'.store.extent l.pack = some e' ∧ e.size ≤ e'.size ∧
      (w'.fs.data e'.file).take e.size = (w.fs.data e.file).take e.size

variable {a t : Nat} {w : World}

theorem carried_of_store {w' : World} (h : w.Consistent a) (hs : Steady w w')
    (hindex : w'.store.index = w.store.index) (hext : ∀ id e, w.store.extent id = some e →
      ∃ e', w'.store.extent id = some e' ∧ e'.file = e.file ∧ e.size ≤ e'.size) :
    Carried w w' := by
  refine ⟨fun hl => hindex ▸ hl, ?_⟩
  intro key l e _ he
  obtain ⟨e', he', hfile, hsize⟩ := hext l.pack e he
  refine ⟨e', he', hsize, ?_⟩
  rw [hfile]
  exact (hs.frozen (h.frozen_pack he)).2

theorem carried_of_fs (h : w.Consistent a) {fs : FileSystem}
    (hs : Steady w ⟨w.store, fs⟩) : Carried w ⟨w.store, fs⟩ :=
  carried_of_store h hs rfl (fun _ e he => ⟨e, he, rfl, le_rfl⟩)

theorem carried_evict (h : w.Consistent a) {p : Pack} (hp : p.id ≠ a) :
    Carried w (w.evict p) := by
  refine ⟨fun hl => (lookup_evict_eq_some.mp hl).1, ?_⟩
  intro key l e hl he
  refine ⟨e, ?_, le_rfl, ((h.evict hp).1.frozen (h.frozen_pack he)).2⟩
  rw [extent_evict, if_neg (lookup_evict_eq_some.mp hl).2]
  exact he

theorem carried_switchDown (h : w.Consistent a) {p : Pack} (hid : p.id ≠ a)
    (hp : w.store.packs.lookup p.id = some p) {file : Nat}
    (hname : w.fs.lookup (filePath t p.id .pack) = some file) :
    Carried w (w.switchDown p file) := by
  have hs := (h.switchDown hid hp hname).1
  obtain ⟨hset, hdata⟩ := h.copies (extent_of_lookup hp) hid hname
  refine ⟨fun hl => by rwa [switchDown_index] at hl, ?_⟩
  intro key l e _ he
  have hext := extent_switchDown hp file l.pack
  by_cases hl : l.pack = p.id
  · rw [if_pos hl] at hext
    have hep : e = p.extent := by
      rw [hl, extent_of_lookup hp] at he
      exact (Option.some.inj he).symm
    have hsize : e.size = p.size := congrArg Extent.size hep
    refine ⟨_, hext, hsize.le, ?_⟩
    change ((w.switchDown p file).fs.data file).take e.size = _
    rw [(hs.settled hset).2, hdata, hep]
  · rw [if_neg hl] at hext
    exact ⟨e, hext.trans he, le_rfl, (hs.frozen (h.frozen_pack he)).2⟩

end World

/-- The invariant: tables and directories agree, and the demoter may go on. -/
structure Sys.Ok (s : Sys) (a : Nat) : Prop where
  consistent : s.world.Consistent a
  demoter : s.world.DemoterOk a s.demoter

variable {a : Nat} {e : Extent} {ext : Ext}

theorem demoterOk_after {s : Store} {fs : FileSystem} {id src : Nat}
    (he : s.extent id = some e) (ht : e.tier = src) (hid : id < a)
    (hprev : ext = .hint → World.Arrived ⟨s, fs⟩ (src + 1) id .pack)
    (hhere : World.Arrived ⟨s, fs⟩ (src + 1) id ext) :
    World.DemoterOk ⟨s, fs⟩ a (.moving id src (MoveStage.after ext)) := by
  refine ⟨⟨e, he, ht⟩, hid, ?_⟩
  cases ext with
  | pack => exact hhere
  | hint => exact ⟨hprev rfl, hhere⟩

/-- Every step of the demoter keeps the invariant and what the index says. -/
theorem DemoterStep.ok {s s' : Sys} {l : Label} (h : DemoterStep s l s') (hok : s.Ok a) :
    s'.Ok a ∧ World.Steady s.world s'.world ∧ World.Carried s.world s'.world := by
  obtain ⟨hc, hd⟩ := hok
  have hsame : ∀ s'' : Sys, s''.world = s.world → s''.world.DemoterOk a s''.demoter →
      s''.Ok a ∧ World.Steady s.world s''.world ∧ World.Carried s.world s''.world := by
    intro s'' hw hdem
    refine ⟨⟨hw ▸ hc, hdem⟩, ?_⟩
    rw [hw]
    exact ⟨World.Steady.refl _, carried_of_fs hc (World.Steady.refl _)⟩
  have hfiles : ∀ (fs : FileSystem) (d : Demoter),
      World.Steady s.world ⟨s.store, fs⟩ ∧ World.Consistent ⟨s.store, fs⟩ a →
      World.DemoterOk ⟨s.store, fs⟩ a d →
      Sys.Ok { s.withFs fs with demoter := d } a ∧ World.Steady s.world (s.withFs fs).world ∧
        World.Carried s.world (s.withFs fs).world := fun fs d hw hdem =>
    ⟨⟨hw.2, hdem⟩, hw.1, carried_of_fs hc hw.1⟩
  cases h with
  | recv _ _ | rest _ | giveUp _ => exact hsame _ rfl trivial
  | @pick id p _ hp ha =>
    have hext := extent_of_lookup hp
    have hne : id ≠ a := by
      rintro rfl
      exact ha hc.active
    exact hsame _ rfl ⟨⟨_, hext⟩, lt_of_le_of_ne (hc.packs hext).2 hne⟩
  | @evict id p hdem hp ht =>
    rw [hdem] at hd
    have hpid : p.id = id := (hc.packs (extent_of_lookup hp)).1
    have hne : p.id ≠ a := by
      rw [hpid]
      exact hd.2.ne
    obtain ⟨hs, hc'⟩ := hc.evict hne
    exact ⟨⟨hc', trivial⟩, hs, carried_evict hc hne⟩
  | @startMove id p hdem hp ht =>
    rw [hdem] at hd
    exact hsame _ rfl ⟨⟨_, extent_of_lookup hp, rfl⟩, hd.2, trivial⟩
  | @linked id src i ext hdem hi =>
    rw [hdem] at hd
    obtain ⟨⟨e, he, ht⟩, hid, hstage⟩ := hd
    refine hfiles _ _ (hc.link hid he hi (src + 1)) (demoterOk_after he ht hid ?_ ?_)
    · rintro rfl
      exact World.Arrived.of_link hi hstage
    · exact arrived_link hi
  | @linkFails id src i ext hdem hi =>
    rw [hdem] at hd
    obtain ⟨⟨e, he, ht⟩, hid, hstage⟩ := hd
    refine hfiles _ _ (hc.create (src + 1) id ext) ⟨⟨e, he, ht⟩, hid, ?_, copied_create hi⟩
    rintro rfl
    obtain ⟨k, hk⟩ := hstage
    exact ⟨k, (lookup_create_file _ _ _ _ _ _ _).trans hk⟩
  | @copySome id src ext n hdem =>
    rw [hdem] at hd
    obtain ⟨⟨e, he, ht⟩, hid, hprev, hcopy⟩ := hd
    have hcopy' := (copied_copyBytes hc hid he n hcopy).1
    have hall := hfiles _ (.moving id src (.copying ext))
      (hc.copyBytes (filePath src id ext) (src + 1) id ext n)
      ⟨⟨e, he, ht⟩, hid, fun hx => ?_, hcopy'⟩
    · obtain ⟨hok', hrest⟩ := hall
      refine ⟨⟨hok'.consistent, ?_⟩, hrest⟩
      change World.DemoterOk _ a s.demoter
      rw [hdem]
      exact hok'.demoter
    · obtain ⟨k, hk⟩ := hprev hx
      exact ⟨k, (lookup_copyBytes _ _ _ _ _).trans hk⟩
  | @copyRest id src ext hdem n hn =>
    rw [hdem] at hd
    obtain ⟨⟨e, he, ht⟩, hid, hprev, hcopy⟩ := hd
    refine hfiles _ _ (hc.copyBytes (filePath src id ext) (src + 1) id ext n)
      ⟨⟨e, he, ht⟩, hid, fun hx => ?_, (copied_copyBytes hc hid he n hcopy).2 hn⟩
    obtain ⟨k, hk⟩ := hprev hx
    exact ⟨k, (lookup_copyBytes _ _ _ _ _).trans hk⟩
  | @renamed id src ext hdem =>
    rw [hdem] at hd
    obtain ⟨⟨e, he, ht⟩, hid, hprev, i, j, hi, hj, hcopy⟩ := hd
    refine hfiles _ _ (hc.rename hid he hi hj hcopy) (demoterOk_after he ht hid ?_ ?_)
    · exact fun hx => (hprev hx).of_rename hj
    · exact ⟨j, (lookup_rename hj _ _).trans (if_pos rfl)⟩
  | @dropTmp id src ext hdem =>
    exact hfiles _ _ ⟨steady_remove s.world _, hc.removeFile _⟩ trivial
  | @switch id src file p hdem hp hfile =>
    rw [hdem] at hd
    obtain ⟨-, hid, -⟩ := hd
    have hpid : p.id = id := (hc.packs (extent_of_lookup hp)).1
    subst hpid
    obtain ⟨hs, hc'⟩ := hc.switchDown hid.ne hp hfile
    exact ⟨⟨hc', trivial⟩, hs, carried_switchDown hc hid.ne hp hfile⟩

end Corepkgs.Jigd
