import Corepkgs.Jigd.Index
/-!
# Where a hint may point

A hint file is whatever bytes lie under its name, and `load` has one guard
against them: the end of the value, as an `int64`, must not be past the end of
the pack.  Here are the records of a hint as it states them, in exact numbers,
and which of them the guard lets through.

* `hintLoop_eq` — the reading loop is the stated records, guarded and converted;
* `entry_exact_iff` — a record that passes the guard is indexed where it says,
  inside the pack, unless its end has wrapped around.
-/

namespace Corepkgs.Jigd

open Lib List

structure HintRecord where
  key : Bytes
  vlen : Nat
  /-- Of the record in the pack: a `uint64`. -/
  off : Nat
  deriving DecidableEq, Repr

namespace HintRecord

def valueOff (r : HintRecord) : Nat := r.off + recHeader + r.key.length

def valueEnd (r : HintRecord) : Nat := r.valueOff + r.vlen

def admitted (size : Nat) (r : HintRecord) : Bool :=
  !decide (i64 (i64 r.off + recHeader + r.key.length + r.vlen) > size)

def entry (id : Nat) (r : HintRecord) : Bytes × Loc :=
  (r.key, ⟨id, u32 (u32 r.off + recHeader + r.key.length), r.vlen⟩)

structure Fits (r : HintRecord) : Prop where
  key : r.key.length < 2 ^ 32
  vlen : r.vlen < 2 ^ 32
  off : r.off < 2 ^ 64

end HintRecord

def statedLoop : Nat → Bytes → List HintRecord
  | 0, _ => []
  | fuel + 1, r =>
    let klen := leNat (r.take 4)
    let body := r.drop (recHeader + 8)
    if r.length < recHeader + 8 ∨ body.length < klen then []
    else
      ⟨body.take klen, leNat ((r.drop 4).take 4), leNat ((r.drop 8).take 8)⟩ ::
        statedLoop fuel (body.drop klen)

def statedRecords (hint : Bytes) : List HintRecord := statedLoop hint.length hint

theorem leNat_take_lt (bs : Bytes) (k : Nat) : leNat (bs.take k) < 256 ^ k := by
  calc leNat (bs.take k) < 256 ^ (bs.take k).length := leNat_lt _
    _ ≤ 256 ^ k := Nat.pow_le_pow_right (by norm_num) (length_take_le k bs)

theorem fits_of_mem_statedLoop {fuel : Nat} {r : Bytes} {x : HintRecord}
    (h : x ∈ statedLoop fuel r) : x.Fits := by
  induction fuel generalizing r with
  | zero => cases h
  | succ fuel ih =>
    rw [statedLoop] at h
    split at h
    · cases h
    · rcases mem_cons.mp h with rfl | h
      · have hk := leNat_take_lt r 4
        have hv := leNat_take_lt (r.drop 4) 4
        have ho := leNat_take_lt (r.drop 8) 8
        refine ⟨?_, by norm_num at hv ⊢; omega, by norm_num at ho ⊢; omega⟩
        have hlen := length_take_le (leNat (r.take 4)) (r.drop (recHeader + 8))
        simp only
        norm_num at hk ⊢
        omega
      · exact ih h

theorem hintLoop_eq (id size fuel : Nat) (r : Bytes) :
    hintLoop id size fuel r =
      ((statedLoop fuel r).filter (HintRecord.admitted size)).map (HintRecord.entry id) := by
  induction fuel generalizing r with
  | zero => rfl
  | succ fuel ih =>
    rw [hintLoop, statedLoop]
    split
    · rfl
    · rename_i hcut
      -- the key is read whole, so its length is the one stated
      have hlen : ((r.drop (recHeader + 8)).take (leNat (r.take 4))).length =
          leNat (r.take 4) := by
        rw [length_take]
        omega
      rw [filter_cons, ih]
      simp only [HintRecord.admitted, hlen]
      split
      · rename_i hpast
        rw [if_neg (by simp only [hpast, decide_true, Bool.not_true, Bool.false_eq_true,
          not_false_iff])]
      · rename_i hin
        rw [if_pos (by simp only [hin, decide_false, Bool.not_false]), map_cons]
        simp only [HintRecord.entry, hlen]

/-! ## The guard -/

namespace HintRecord

theorem guard_eq (r : HintRecord) :
    i64 (i64 r.off + recHeader + r.key.length + r.vlen) = i64 r.valueEnd := by
  have hsum : (r.off : Int) + (recHeader + r.key.length + r.vlen : Nat) = (r.valueEnd : Nat) := by
    simp only [valueEnd, valueOff]
    omega
  have hcast : i64 r.off + recHeader + r.key.length + r.vlen =
      i64 r.off + (recHeader + r.key.length + r.vlen : Nat) := by omega
  calc i64 (i64 r.off + recHeader + r.key.length + r.vlen)
      = i64 (i64 r.off + (recHeader + r.key.length + r.vlen : Nat)) := by rw [hcast]
    _ = i64 ((r.off : Int) + (recHeader + r.key.length + r.vlen : Nat)) := Int.bmod_add_bmod
    _ = i64 r.valueEnd := by rw [hsum]

theorem admitted_iff {r : HintRecord} (h : r.Fits) {size : Nat} (hsize : size < 2 ^ 32) :
    r.admitted size = true ↔
      r.valueEnd ≤ size ∨ 2 ^ 63 ≤ r.valueEnd ∧ r.valueEnd ≤ 2 ^ 64 + size := by
  obtain ⟨hk, hv, ho⟩ := h
  have hend : r.valueEnd < 2 ^ 64 + 2 ^ 34 := by
    simp only [valueEnd, valueOff, recHeader]
    omega
  rw [admitted, guard_eq, Bool.not_eq_true', decide_eq_false_iff_not, not_lt, i64, Int.bmod_def]
  split <;> omega

/-- An admitted record is indexed where it says, and inside the pack, unless its end is so large
that the guard took it for another number. -/
theorem entry_exact_iff {r : HintRecord} (h : r.Fits) (id : Nat) {size : Nat}
    (hsize : size < 2 ^ 32) (hadm : r.admitted size = true) :
    ((r.entry id).2.off = r.valueOff ∧ r.valueOff + (r.entry id).2.len ≤ size) ↔
      r.valueEnd < 2 ^ 63 := by
  have hcases := (admitted_iff h hsize).mp hadm
  have hlen : (r.entry id).2.len = r.vlen := rfl
  rw [hlen]
  constructor
  · rintro ⟨-, hle⟩
    change r.valueEnd ≤ size at hle
    omega
  · intro hlt
    have hle : r.valueEnd ≤ size := by omega
    have hoff : r.valueOff < 2 ^ 32 := by
      simp only [valueEnd] at hle
      omega
    have hstart : r.off < 2 ^ 32 := by
      simp only [valueOff] at hoff
      omega
    refine ⟨?_, hle⟩
    change u32 (u32 r.off + recHeader + r.key.length) = r.valueOff
    rw [u32_of_lt hstart]
    exact u32_of_lt hoff

end HintRecord

/-! ## Loading -/

namespace World

/-- Loading a pack that has a hint adds the entries of the records its guard admits, and each lies
in the pack where its record says, if and only if no record's end is between `2 ^ 63` and the size
of the pack beyond `2 ^ 64`. -/
theorem load_hint_exact_iff {env : OpenEnv} {w : World} {t id file hint : Nat}
    (hfile : w.fs.lookup (filePath t id .pack) = some file) (hopen : env.fault t id ≠ some .opening)
    (hhint : w.fs.lookup (filePath t id .hint) = some hint)
    (hsize : (w.fs.data file).length < 2 ^ 32) :
    (w.load env t id).1.store.index =
        ((((statedRecords (w.fs.data hint)).filter
            (HintRecord.admitted (w.fs.data file).length)).map (HintRecord.entry id)).foldl
          (Store.add id) (w.store.addPack (openedPack env w.fs t id file))).index ∧
      ((∀ r ∈ statedRecords (w.fs.data hint), r.admitted (w.fs.data file).length = true →
          (r.entry id).2.off = r.valueOff ∧
            r.valueOff + (r.entry id).2.len ≤ (w.fs.data file).length) ↔
        ∀ r ∈ statedRecords (w.fs.data hint), r.valueEnd < 2 ^ 63 ∨
          2 ^ 64 + (w.fs.data file).length < r.valueEnd) := by
  constructor
  · have hload : w.load env t id = (w.loadHint (openedPack env w.fs t id file) hint, true) := by
      rw [load, hfile]
      simp only [hopen, if_false, hhint]
    rw [hload]
    change (Store.addTotal (foldl _ _ (hintEntries id _ _)) _ _).index = _
    rw [Store.addTotal_index, hintEntries, hintLoop_eq]
    rfl
  · constructor
    · intro hall r hr
      have hfits := fits_of_mem_statedLoop hr
      by_contra hwrap
      have hadm := (HintRecord.admitted_iff hfits hsize).mpr (by omega)
      have hlt := (HintRecord.entry_exact_iff hfits id hsize hadm).mp (hall r hr hadm)
      omega
    · intro hall r hr hadm
      have hfits := fits_of_mem_statedLoop hr
      have hcases := (HintRecord.admitted_iff hfits hsize).mp hadm
      have hnot := hall r hr
      exact (HintRecord.entry_exact_iff hfits id hsize hadm).mpr (by omega)

def withHint (pack hint : Bytes) : World :=
  ⟨emptyStore [0], (FileSystem.empty.place (filePath 0 1 .pack) pack).place
    (filePath 0 1 .hint) hint⟩

def sealedPack : World := withHint (record [97] [7]) (hintBytes [([97], ⟨1, 9, 1⟩)])

theorem load_hint_exact_iff_sealed :
    (sealedPack.load plainOpen 0 1).1.store.index.lookup [97] = some ⟨1, 9, 1⟩ ∧
      ∀ r ∈ statedRecords (sealedPack.fs.data 1), r.admitted (sealedPack.fs.data 0).length = true →
        (r.entry 1).2.off = r.valueOff ∧
          r.valueOff + (r.entry 1).2.len ≤ (sealedPack.fs.data 0).length := by
  have hfile : sealedPack.fs.lookup (filePath 0 1 .pack) = some 0 := by decide +kernel
  have hhint : sealedPack.fs.lookup (filePath 0 1 .hint) = some 1 := by decide +kernel
  have hopen : plainOpen.fault 0 1 ≠ some .opening := by decide
  obtain ⟨hindex, hiff⟩ := load_hint_exact_iff hfile hopen hhint (by decide +kernel)
  refine ⟨?_, hiff.mpr (by decide +kernel)⟩
  rw [hindex]
  decide +kernel

def strayHint : Bytes := leBytes 4 1 ++ leBytes 4 100 ++ leBytes 8 (2 ^ 63) ++ [97]

/-- An empty pack, and an index entry that points at a hundred bytes of it. -/
theorem stray_hint_indexed :
    (withHint [] strayHint).fs.lookup (filePath 0 1 .pack) = some 0 ∧
      (withHint [] strayHint).fs.data 0 = [] ∧
      statedRecords strayHint = [⟨[97], 100, 2 ^ 63⟩] ∧
      ((withHint [] strayHint).load plainOpen 0 1).1.store.index.lookup [97] = some ⟨1, 9, 100⟩ ∧
      ¬ ∀ r ∈ statedRecords strayHint, r.admitted 0 = true →
        (r.entry 1).2.off = r.valueOff ∧ r.valueOff + (r.entry 1).2.len ≤ 0 := by
  refine ⟨?_, ?_, ?_, ?_, ?_⟩ <;> decide +kernel

end World

end Corepkgs.Jigd
