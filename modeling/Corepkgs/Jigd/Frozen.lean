import Corepkgs.Jigd.Index
/-!
# Bytes that never change again

A reader handed out by `Get` outlives the lock, and the index keeps pointing into
files that go on growing and moving.  Both are sound for one reason: the first
`size` bytes of a pack file are never written again.  Only two kinds of inode
are ever written in place, the active pack beyond its size and the temporary
copies of `moveFile`; every other change makes a new inode or renames one.
-/

namespace Corepkgs.Jigd

open Lib FileSystem

/-! ## Paths -/

theorem Ext.text_inj {a b : Ext} (h : a.text = b.text) : a = b := by
  cases a <;> cases b <;> first | rfl | (exact absurd h (by decide))

theorem filePath_inj {t t' id id' : Nat} {e e' : Ext} :
    filePath t id e = filePath t' id' e' ↔ t = t' ∧ id = id' ∧ e = e' := by
  rw [filePath, filePath, Prod.mk.injEq, packName_inj]
  constructor
  · rintro ⟨ht, hid, he⟩
    exact ⟨ht, hid, Ext.text_inj he⟩
  · rintro ⟨rfl, rfl, rfl⟩
    exact ⟨rfl, rfl, rfl⟩

theorem tmpPath_inj {t t' id id' : Nat} {e e' : Ext} :
    tmpPath t id e = tmpPath t' id' e' ↔ t = t' ∧ id = id' ∧ e = e' := by
  rw [tmpPath, tmpPath, Prod.mk.injEq, packName_inj]
  constructor
  · rintro ⟨ht, hid, he⟩
    exact ⟨ht, hid, Ext.text_inj (List.append_cancel_right he)⟩
  · rintro ⟨rfl, rfl, rfl⟩
    exact ⟨rfl, rfl, rfl⟩

theorem filePath_ne_tmpPath (t t' id id' : Nat) (e e' : Ext) :
    filePath t id e ≠ tmpPath t' id' e' := by
  intro h
  rw [filePath, tmpPath, Prod.mk.injEq, packName_inj] at h
  have hlen := congrArg List.length h.2.2
  revert hlen
  cases e <;> cases e' <;> decide

namespace World

def activeExtent (w : World) : Option Extent := w.store.active.bind w.store.extent

/-- The first `n` bytes of inode `i` are final: it has no temporary name, and if it is the active
pack they lie before its end. -/
structure Frozen (w : World) (i n : Nat) : Prop where
  lt : i < w.fs.inodes.length
  le : n ≤ (w.fs.data i).length
  noTmp : ∀ t id ext, w.fs.lookup (tmpPath t id ext) ≠ some i
  tail : ∀ e, w.activeExtent = some e → e.file = i → n ≤ e.size

/-- All of inode `i` is final. -/
structure Settled (w : World) (i : Nat) : Prop where
  lt : i < w.fs.inodes.length
  noTmp : ∀ t id ext, w.fs.lookup (tmpPath t id ext) ≠ some i
  notActive : ∀ e, w.activeExtent = some e → e.file ≠ i

/-- What was final in `w` is final in `w'`, with the same bytes. -/
structure Steady (w w' : World) : Prop where
  frozen : ∀ {i n}, w.Frozen i n → w'.Frozen i n ∧ (w'.fs.data i).take n = (w.fs.data i).take n
  settled : ∀ {i}, w.Settled i → w'.Settled i ∧ w'.fs.data i = w.fs.data i

theorem Steady.refl (w : World) : Steady w w := ⟨fun h => ⟨h, rfl⟩, fun h => ⟨h, rfl⟩⟩

theorem Steady.trans {a b c : World} (h : Steady a b) (h' : Steady b c) : Steady a c := by
  constructor
  · intro i n hf
    obtain ⟨hb, hab⟩ := h.frozen hf
    obtain ⟨hc, hbc⟩ := h'.frozen hb
    exact ⟨hc, hbc.trans hab⟩
  · intro i hs
    obtain ⟨hb, hab⟩ := h.settled hs
    obtain ⟨hc, hbc⟩ := h'.settled hb
    exact ⟨hc, hbc.trans hab⟩

variable {w : World}

/-- A section of frozen bytes reads the same ever after. -/
theorem Steady.read {w' : World} (h : Steady w w') {r : Reader}
    (hr : w.Frozen r.file (r.off + r.len)) : r.read w'.fs = r.read w.fs :=
  slice_congr le_rfl (h.frozen hr).2

/-- How a step may treat an inode: leave it, write a temporary copy, or write the active pack
without touching what it holds already. -/
def Leaves (w : World) (fs : FileSystem) (i : Nat) : Prop :=
  fs.data i = w.fs.data i ∨ (∃ t id ext, w.fs.lookup (tmpPath t id ext) = some i) ∨
    ∃ e, w.activeExtent = some e ∧ e.file = i ∧ ∀ n, n ≤ e.size → n ≤ (w.fs.data i).length →
      n ≤ (fs.data i).length ∧ (fs.data i).take n = (w.fs.data i).take n

theorem steady_of {w' : World} (hlen : w.fs.inodes.length ≤ w'.fs.inodes.length)
    (hdata : ∀ i, i < w.fs.inodes.length → w.Leaves w'.fs i)
    (htmp : ∀ t id ext i, i < w.fs.inodes.length →
      w'.fs.lookup (tmpPath t id ext) = some i → w.fs.lookup (tmpPath t id ext) = some i)
    (hactive : ∀ e', w'.activeExtent = some e' → e'.file < w.fs.inodes.length →
      ∃ e, w.activeExtent = some e ∧ e.file = e'.file ∧ e.size ≤ e'.size) :
    Steady w w' := by
  constructor
  · intro i n hf
    have hkept : n ≤ (w'.fs.data i).length ∧ (w'.fs.data i).take n = (w.fs.data i).take n := by
      rcases hdata i hf.lt with hsame | ⟨t, id, ext, htmp⟩ | ⟨e, he, hfile, hkept⟩
      · rw [hsame]
        exact ⟨hf.le, rfl⟩
      · exact absurd htmp (hf.noTmp t id ext)
      · exact hkept n (hf.tail e he hfile) hf.le
    refine ⟨⟨hf.lt.trans_le hlen, hkept.1, ?_, ?_⟩, hkept.2⟩
    · exact fun t id ext h => hf.noTmp t id ext (htmp t id ext i hf.lt h)
    · intro e' he' hfile
      obtain ⟨e, he, hef, hsize⟩ := hactive e' he' (hfile ▸ hf.lt)
      exact (hf.tail e he (hef.trans hfile)).trans hsize
  · intro i hs
    refine ⟨⟨hs.lt.trans_le hlen, ?_, ?_⟩, ?_⟩
    · exact fun t id ext h => hs.noTmp t id ext (htmp t id ext i hs.lt h)
    · intro e' he' hfile
      obtain ⟨e, he, hef, -⟩ := hactive e' he' (hfile ▸ hs.lt)
      exact hs.notActive e he (hef.trans hfile)
    · rcases hdata i hs.lt with hsame | ⟨t, id, ext, htmp⟩ | ⟨e, he, hfile, -⟩
      · exact hsame
      · exact absurd htmp (hs.noTmp t id ext)
      · exact absurd hfile (hs.notActive e he)

/-- Bookkeeping: the files stay, the active pack does not shrink. -/
theorem steady_store {s : Store} (hactive : ∀ e', activeExtent ⟨s, w.fs⟩ = some e' →
      ∃ e, w.activeExtent = some e ∧ e.file = e'.file ∧ e.size ≤ e'.size) :
    Steady w ⟨s, w.fs⟩ :=
  steady_of le_rfl (fun _ _ => .inl rfl) (fun _ _ _ _ _ h => h) (fun e' he' _ => hactive e' he')

/-- New names for old inodes, none of them temporary. -/
theorem steady_entries {fs : FileSystem} (hlen : w.fs.inodes.length ≤ fs.inodes.length)
    (hdata : ∀ i, i < w.fs.inodes.length → fs.data i = w.fs.data i)
    (htmp : ∀ t id ext i, i < w.fs.inodes.length →
      fs.lookup (tmpPath t id ext) = some i → w.fs.lookup (tmpPath t id ext) = some i) :
    Steady w ⟨w.store, fs⟩ :=
  steady_of hlen (fun i hi => .inl (hdata i hi)) htmp (fun e' he' _ => ⟨e', he', rfl, le_rfl⟩)

theorem steady_place (w : World) (path : Path) (bytes : Bytes) :
    Steady w ⟨w.store, w.fs.place path bytes⟩ := by
  apply steady_entries
  · rw [length_place]
    exact Nat.le_succ _
  · exact fun i hi => data_place_old path bytes hi
  · intro t id ext i hi hlook
    rw [lookup_place] at hlook
    split at hlook
    · cases hlook
      exact absurd hi (Nat.lt_irrefl _)
    · exact hlook

theorem steady_remove (w : World) (path : Path) : Steady w ⟨w.store, w.fs.remove path⟩ := by
  refine steady_entries le_rfl (fun _ _ => rfl) ?_
  intro t id ext i _ hlook
  rw [lookup_remove] at hlook
  split at hlook
  · cases hlook
  · exact hlook

theorem steady_setData {j : Nat} {bytes : Bytes}
    (h : j < w.fs.inodes.length → w.Leaves (w.fs.setData j bytes) j) :
    Steady w ⟨w.store, w.fs.setData j bytes⟩ := by
  refine steady_of (by simp) ?_ (fun _ _ _ _ _ h => h) (fun e' he' _ => ⟨e', he', rfl, le_rfl⟩)
  intro i hi
  by_cases hij : i = j
  · subst hij
    exact h hi
  · exact .inl (data_setData_ne _ hij)

/-- A temporary copy is nobody's pack. -/
theorem steady_setData_tmp {t id : Nat} {ext : Ext} {j : Nat}
    (hj : w.fs.lookup (tmpPath t id ext) = some j) (bytes : Bytes) :
    Steady w ⟨w.store, w.fs.setData j bytes⟩ :=
  steady_setData fun _ => .inr (.inl ⟨t, id, ext, hj⟩)

variable {p : Pack}

theorem steady_writePack (hp : w.activeExtent = some p.extent) {off : Nat}
    (hoff : p.size ≤ off) (bytes : Bytes) : Steady w (w.writePack p off bytes) := by
  apply steady_setData
  intro hlt
  refine .inr (.inr ⟨_, hp, rfl, ?_⟩)
  intro n hn hle
  rw [data_setData_same _ hlt, length_writeAt]
  exact ⟨hle.trans (le_max_left _ _), take_writeAt (hn.trans hoff) hle⟩

theorem steady_undoWrite (hp : w.activeExtent = some p.extent) (env : PutEnv) :
    Steady w (w.undoWrite env p) := by
  unfold undoWrite
  split
  · exact Steady.refl w
  · apply steady_setData
    intro hlt
    refine .inr (.inr ⟨_, hp, rfl, ?_⟩)
    intro n hn hle
    rw [data_setData_same _ hlt, length_truncateTo]
    exact ⟨hn, take_truncateTo hn hle⟩

variable (env : SealEnv)

theorem steady_sealPack (w : World) (p : Pack) :
    Steady w (w.sealPack env p).1 := by
  unfold sealPack
  split
  · exact Steady.refl w
  · exact steady_place w _ _

/-- The new active pack is a new inode, so nothing final is in its way. -/
theorem steady_openActive (now : Int) (w : World) (id : Nat) : Steady w (w.openActive now id) := by
  apply steady_of
  · change _ ≤ (w.fs.place _ _).inodes.length
    rw [length_place]
    exact Nat.le_succ _
  · exact fun i hi => .inl (data_place_old _ _ hi)
  · intro t id ext i hi h
    change (w.fs.place _ _).lookup _ = _ at h
    rw [lookup_place, if_neg (Ne.symm (filePath_ne_tmpPath _ _ _ _ _ _))] at h
    exact h
  · intro e' he' hlt
    change Store.extent (Store.addPack _ _) id = some e' at he'
    rw [Store.extent_addPack, if_pos rfl] at he'
    cases he'
    exact absurd hlt (Nat.lt_irrefl _)

theorem sealActive_of (hp : w.store.activePack = some p) :
    w.sealActive env = w.sealPack env p := by
  rw [sealActive, hp]

theorem sealActive_store (w : World) : (w.sealActive env).1.store = w.store := by
  unfold sealActive
  split
  · unfold sealPack
    split <;> rfl
  · rfl

theorem steady_sealActive (w : World) : Steady w (w.sealActive env).1 := by
  unfold sealActive
  split
  · exact steady_sealPack _ w _
  · exact Steady.refl w

/-- What `rotate` can do: fail after sealing or before, or open the new pack. -/
theorem rotate_cases (env : RotateEnv) (w : World) (id : Nat) :
    w.rotate env id = ((w.sealActive env.sealing).1, false) ∨
      ((w.sealActive env.sealing).2 = true ∧
        (w.sealActive env.sealing).1.fs.lookup (filePath 0 id .pack) = none ∧
        w.rotate env id = ((w.sealActive env.sealing).1.openActive env.now id, true)) := by
  unfold rotate
  split
  · rename_i w' hw
    rw [hw]
    exact .inl rfl
  · rename_i w' hw
    rw [hw]
    split
    · exact .inl rfl
    · rename_i hfree
      rw [Bool.or_eq_true, not_or, Bool.not_eq_true, Bool.not_eq_true,
        Option.isSome_eq_false_iff, Option.isNone_iff_eq_none] at hfree
      exact .inr ⟨rfl, hfree.2, rfl⟩

end World

end Corepkgs.Jigd
