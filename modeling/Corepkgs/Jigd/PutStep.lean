import Corepkgs.Jigd.Consistent
/-!
# One `Put` seen from outside

`Put` touches the active pack and the one it may open after it, and nothing of
the older packs: not their place, not their files, not the copy of one that the
demoter may be making meanwhile.
-/

namespace Corepkgs.Jigd

open Lib FileSystem

namespace World

/-- Every pack below `a` and every temporary copy is where it was. -/
structure Undisturbed (w w' : World) (a : Nat) : Prop where
  extent : ∀ {id}, id < a → w'.store.extent id = w.store.extent id
  names : ∀ {t id ext}, id < a → w'.fs.lookup (filePath t id ext) = w.fs.lookup (filePath t id ext)
  tmps : ∀ {t id ext}, w'.fs.lookup (tmpPath t id ext) = w.fs.lookup (tmpPath t id ext)
  tmpData : ∀ {t id ext j}, w.fs.lookup (tmpPath t id ext) = some j → w'.fs.data j = w.fs.data j

namespace Undisturbed

theorem refl (w : World) (a : Nat) : Undisturbed w w a :=
  ⟨fun _ => rfl, fun _ => rfl, rfl, fun _ => rfl⟩

variable {w : World} {a : Nat}

theorem trans {w' w'' : World} {a' : Nat} (h : Undisturbed w w' a)
    (h' : Undisturbed w' w'' a') (hle : a ≤ a') : Undisturbed w w'' a where
  extent hid := (h'.extent (hid.trans_le hle)).trans (h.extent hid)
  names hid := (h'.names (hid.trans_le hle)).trans (h.names hid)
  tmps := h'.tmps.trans h.tmps
  tmpData hj := (h'.tmpData (h.tmps.trans hj)).trans (h.tmpData hj)

theorem store {s : Store}
    (hext : ∀ id, id < a → s.extent id = w.store.extent id) : Undisturbed w ⟨s, w.fs⟩ a :=
  ⟨fun hid => hext _ hid, fun _ => rfl, rfl, fun _ => rfl⟩

theorem place (w : World) {t id : Nat} (ext : Ext) (bytes : Bytes) (hid : a ≤ id) :
    Undisturbed w ⟨w.store, w.fs.place (filePath t id ext) bytes⟩ a where
  extent _ := rfl
  names hlt := by
    change (w.fs.place _ _).lookup _ = _
    rw [lookup_place, if_neg]
    intro hpath
    rw [(filePath_inj.mp hpath).2.1] at hlt
    exact absurd hlt (Nat.not_lt.mpr hid)
  tmps {t' id' ext'} := by
    change (w.fs.place _ _).lookup _ = _
    rw [lookup_place, if_neg (Ne.symm (filePath_ne_tmpPath _ _ _ _ _ _))]
  tmpData hj := data_place_old _ _ (lookup_lt hj)

theorem setData (h : w.Consistent a) {e : Extent} (he : w.store.extent a = some e) (bytes : Bytes) :
    Undisturbed w ⟨w.store, w.fs.setData e.file bytes⟩ a where
  extent _ := rfl
  names _ := rfl
  tmps := rfl
  tmpData {t id ext j} hj := by
    apply data_setData_ne
    rintro rfl
    exact (h.frozen he).noTmp t id ext hj

end Undisturbed

variable {w : World} {a : Nat} {p : Pack}

theorem undisturbed_sealActive (h : w.Consistent a) (env : SealEnv) :
    Undisturbed w (w.sealActive env).1 a := by
  obtain ⟨p, hp, hid, -⟩ := h.activePack
  rw [sealActive_of env hp]
  unfold sealPack
  split
  · exact Undisturbed.refl w a
  · exact Undisturbed.place w _ _ hid.ge

theorem undisturbed_openActive {id : Nat} (now : Int) (hid : a ≤ id) :
    Undisturbed w (w.openActive now id) a := by
  have hstore : Undisturbed w ⟨(w.openActive now id).store, w.fs⟩ a := by
    apply Undisturbed.store
    intro q hq
    refine (Store.extent_addPack _ _ q).trans (if_neg ?_)
    rintro rfl
    exact absurd hq (Nat.not_lt.mpr hid)
  exact hstore.trans (Undisturbed.place ⟨(w.openActive now id).store, w.fs⟩ .pack [] hid) le_rfl

theorem undisturbed_writePack (h : w.Consistent a) (hp : w.store.extent a = some p.extent)
    (off : Nat) (bytes : Bytes) :
    Undisturbed w (w.writePack p off bytes) a :=
  Undisturbed.setData h hp _

theorem undisturbed_undoWrite (h : w.Consistent a) (hp : w.store.extent a = some p.extent)
    (env : PutEnv) :
    Undisturbed w (w.undoWrite env p) a := by
  unfold undoWrite
  split
  · exact Undisturbed.refl w a
  · exact Undisturbed.setData h hp _

theorem undisturbed_append (h : w.Consistent a) (hid : p.id = a)
    (hp : w.store.extent a = some p.extent) (env : PutEnv) (key body : Bytes) :
    Undisturbed w (w.append env p key body).1 a := by
  have hoff : p.size ≤ p.size + (recHeader + key.length) := Nat.le_add_right _ _
  have hone := fun bytes => undisturbed_writePack h hp p.size bytes
  have htwo : ∀ head bytes, Undisturbed w ((w.writePack p p.size head).writePack p
      (p.size + (recHeader + key.length)) bytes) a := fun head bytes =>
    (hone head).trans (undisturbed_writePack (h.writePack hp le_rfl head) hp _ bytes) le_rfl
  rcases append_cases env w p key body with ⟨e, heq⟩ | ⟨n, e, heq⟩ | ⟨n, e, heq⟩ | heq
  · rw [heq]
    exact Undisturbed.refl w a
  · rw [heq]
    exact (hone _).trans (undisturbed_undoWrite (h.writePack hp le_rfl _) hp env) le_rfl
  · rw [heq]
    exact (htwo _ _).trans
      (undisturbed_undoWrite ((h.writePack hp le_rfl _).writePack hp hoff _) hp env) le_rfl
  · rw [heq]
    refine (htwo _ _).trans (Undisturbed.store ?_) le_rfl
    intro q hq
    rw [extent_commit (by rw [hid]; exact hp), if_neg (by rw [hid]; exact hq.ne)]
    rfl

/-! ## The paths through `Put` -/

inductive PutPath (env : PutEnv) (w : World) (key : Bytes) (size : Int) (r : Bytes) (p : Pack) :
    Prop where
  /-- Refused before anything was touched. -/
  | refused (e : PutError) (result : w.put env key size r = (w, .error e))
  | direct (body : Bytes) (hbody : readBody env key size r = .ok body)
      (hclosed : w.store.closed = false) (fits : needsRotate p key body = false)
      (result : w.put env key size r = w.append env p key body)
  /-- Sealed, perhaps, but not rotated. -/
  | stuck (body : Bytes) (hbody : readBody env key size r = .ok body)
      (hclosed : w.store.closed = false) (full : needsRotate p key body = true)
      (failed : w.rotate env.rotate (u32 (p.id + 1)) =
        ((w.sealActive env.rotate.sealing).1, false))
      (result : w.put env key size r = ((w.sealActive env.rotate.sealing).1, .error .rotate))
  | rotated (body : Bytes) (q : Pack) (hbody : readBody env key size r = .ok body)
      (hclosed : w.store.closed = false) (full : needsRotate p key body = true)
      (sealed : (w.sealActive env.rotate.sealing).2 = true)
      (hq : q = ⟨u32 (p.id + 1), 0, (w.sealActive env.rotate.sealing).1.fs.inodes.length, 0, 0,
        env.rotate.now, env.rotate.now⟩)
      (result : w.put env key size r = ((w.sealActive env.rotate.sealing).1.openActive
        env.rotate.now (u32 (p.id + 1))).append env q key body)

theorem activePack_openActive (now : Int) (w : World) (id : Nat) :
    (w.openActive now id).store.activePack =
      some ⟨id, 0, w.fs.inodes.length, 0, 0, now, now⟩ := by
  change (w.store.packs.insert id _).lookup id = _
  rw [Table.lookup_insert, if_pos rfl]

theorem put_path (env : PutEnv) (key : Bytes) (size : Int) (r : Bytes)
    (hp : w.store.activePack = some p) : PutPath env w key size r p := by
  cases hbody : readBody env key size r with
  | error e => exact .refused e (by rw [put, hbody])
  | ok body =>
    have hput : w.put env key size r = w.putLocked env key body := by rw [put, hbody]
    cases hclosed : w.store.closed with
    | true => exact .refused .closed (by rw [hput, putLocked, hclosed, if_pos rfl])
    | false =>
      cases hfull : needsRotate p key body with
      | false =>
        refine .direct body hbody hclosed hfull ?_
        rw [hput, putLocked, hclosed, hp]
        simp only [hfull]
        rfl
      | true =>
        rcases rotate_cases env.rotate w (u32 (p.id + 1)) with heq | ⟨hs, -, heq⟩
        · refine .stuck body hbody hclosed hfull heq ?_
          rw [hput, putLocked, hclosed, hp]
          simp only [hfull, heq]
          rfl
        · refine .rotated body _ hbody hclosed hfull hs rfl ?_
          rw [hput, putLocked, hclosed, hp]
          simp only [hfull, heq, activePack_openActive]
          rfl

end World

/-! ## The step -/

namespace Sys

def Wraps (s : Sys) : Label → Prop
  | .put env key size r => ∃ p body, readBody env key size r = .ok body ∧
      s.store.closed = false ∧ s.store.activePack = some p ∧
      World.needsRotate p key body = true ∧ 2 ^ 32 ≤ p.id + 1
  | _ => False

end Sys

namespace World

theorem u32_of_not_wraps {w : World} {env : PutEnv} {key body r : Bytes} {size : Int} {p : Pack}
    {d : Demoter} {k : Bool} (hwrap : ¬ Sys.Wraps ⟨w, d, k⟩ (.put env key size r))
    (hp : w.store.activePack = some p) (hbody : readBody env key size r = .ok body)
    (hclosed : w.store.closed = false) (full : needsRotate p key body = true) :
    u32 (p.id + 1) = p.id + 1 := by
  apply u32_of_lt
  by_contra hge
  exact hwrap ⟨p, body, hbody, hclosed, hp, full, Nat.not_lt.mp hge⟩

structure After (w w' : World) (a a' : Nat) : Prop where
  le : a ≤ a'
  steady : Steady w w'
  consistent : w'.Consistent a'
  undisturbed : Undisturbed w w' a

variable {w : World} {a : Nat}

theorem after_refl (h : w.Consistent a) : After w w a a :=
  ⟨le_rfl, Steady.refl w, h, Undisturbed.refl w a⟩

theorem after_append (h : w.Consistent a) {p : Pack} (hid : p.id = a)
    (hp : w.store.extent a = some p.extent) (env : PutEnv) (key body : Bytes) :
    After w (w.append env p key body).1 a a := by
  obtain ⟨hs, hc⟩ := h.append hid hp env key body
  exact ⟨le_rfl, hs, hc, undisturbed_append h hid hp env key body⟩

theorem After.trans {w' w'' : World} {a' a'' : Nat} (h : After w w' a a') (h' : After w' w'' a' a'')
    : After w w'' a a'' :=
  ⟨h.le.trans h'.le, h.steady.trans h'.steady, h'.consistent,
    h.undisturbed.trans h'.undisturbed h.le⟩

theorem after_sealActive (h : w.Consistent a) (env : SealEnv) :
    After w (w.sealActive env).1 a a :=
  ⟨le_rfl, steady_sealActive env w, h.sealActive env, undisturbed_sealActive h env⟩

theorem after_openActive {id : Nat} (h : w.Consistent a) (now : Int) (hid : a < id) :
    After w (w.openActive now id) a id :=
  ⟨hid.le, steady_openActive now w id, h.openActive now hid, undisturbed_openActive now hid.le⟩

theorem after_put {env : PutEnv} (h : w.Consistent a) {key : Bytes} {size : Int} {r : Bytes}
    {d : Demoter} {k : Bool} (hwrap : ¬ Sys.Wraps ⟨w, d, k⟩ (.put env key size r)) :
    ∃ a', After w (w.put env key size r).1 a a' := by
  obtain ⟨p, hp, hid, hext⟩ := h.activePack
  cases put_path env key size r hp with
  | refused e result =>
    rw [result]
    exact ⟨a, after_refl h⟩
  | direct body _ _ _ result =>
    rw [result]
    exact ⟨a, after_append h hid hext env key body⟩
  | stuck body _ _ _ _ result =>
    rw [result]
    exact ⟨a, after_sealActive h env.rotate.sealing⟩
  | rotated body q hbody hclosed full _ hq result =>
    rw [u32_of_not_wraps hwrap hp hbody hclosed full, hid] at result hq
    rw [result]
    have hseal := after_sealActive h env.rotate.sealing
    have hopen := after_openActive hseal.consistent env.rotate.now (Nat.lt_succ_self a)
    refine ⟨a + 1, hseal.trans (hopen.trans (after_append hopen.consistent ?_ ?_ env key body))⟩
    · rw [hq]
    · rw [hq]
      exact (Store.extent_addPack _ _ _).trans (if_pos rfl)

end World

end Corepkgs.Jigd
