import Corepkgs.Lib.Bytes
import Corepkgs.Lib.Table
/-!
# A file system of numbered directories

Files are inodes: a directory entry names one, an open file refers to one and
keeps it alive after its last name is gone, a hard link gives it a second name.
Each operation is one system call and takes effect at once.  Directories are
numbered and never nested, which is all a store of pack files needs.
-/

namespace Corepkgs.Lib

open List Table

abbrev Path := Nat × Bytes

@[ext] structure FileSystem where
  /-- Contents by inode number; numbers are never reused. -/
  inodes : List Bytes
  entries : Table Path Nat
  named_lt : ∀ {path i}, entries.lookup path = some i → i < inodes.length

namespace FileSystem

def empty : FileSystem := ⟨[], ∅, fun h => by simp at h⟩

def data (fs : FileSystem) (i : Nat) : Bytes := fs.inodes.getD i []

def lookup (fs : FileSystem) (path : Path) : Option Nat := fs.entries.lookup path

variable {fs : FileSystem} {i : Nat}

theorem lookup_lt {path : Path} (h : fs.lookup path = some i) :
    i < fs.inodes.length :=
  fs.named_lt h

def setData (fs : FileSystem) (i : Nat) (bytes : Bytes) : FileSystem :=
  { fs with
    inodes := fs.inodes.set i bytes
    named_lt := fun h => by simpa using fs.named_lt h }

def place (fs : FileSystem) (path : Path) (bytes : Bytes) : FileSystem where
  inodes := fs.inodes ++ [bytes]
  entries := fs.entries.insert path fs.inodes.length
  named_lt {q i} h := by
    rw [lookup_insert] at h
    rw [length_append, length_singleton]
    split at h
    · cases h
      omega
    · exact Nat.lt_succ_of_lt (fs.named_lt h)

def name (fs : FileSystem) (path : Path) (i : Nat) (hi : i < fs.inodes.length) : FileSystem :=
  { fs with
    entries := fs.entries.insert path i
    named_lt := fun {q j} h => by
      rw [lookup_insert] at h
      split at h
      · cases h
        exact hi
      · exact fs.named_lt h }

def remove (fs : FileSystem) (path : Path) : FileSystem :=
  { fs with
    entries := fs.entries.erase path
    named_lt := fun {q i} h => by
      rw [lookup_erase] at h
      split at h
      · cases h
      · exact fs.named_lt h }

@[simp] theorem length_remove (fs : FileSystem) (path : Path) :
    (fs.remove path).inodes.length = fs.inodes.length := rfl

def create (fs : FileSystem) (path : Path) : FileSystem :=
  match fs.lookup path with
  | some i => fs.setData i []
  | none => fs.place path []

def link (fs : FileSystem) (src dst : Path) : FileSystem :=
  match hsrc : fs.lookup src, fs.lookup dst with
  | some i, none => fs.name dst i (lookup_lt hsrc)
  | _, _ => fs

def rename (fs : FileSystem) (src dst : Path) : FileSystem :=
  match hsrc : fs.lookup src with
  | some i => (fs.remove src).name dst i (by rw [length_remove]; exact lookup_lt hsrc)
  | none => fs

def names (fs : FileSystem) (dir : Nat) : List Bytes :=
  fs.entries.keys.filterMap fun path => if path.1 = dir then some path.2 else none

/-! ## Contents -/

theorem data_setData_same (bytes : Bytes) (h : i < fs.inodes.length) :
    (fs.setData i bytes).data i = bytes := by
  simp [data, setData, h]

theorem data_setData_ne {j : Nat} (bytes : Bytes) (h : j ≠ i) :
    (fs.setData i bytes).data j = fs.data j := by
  simp [data, setData, getElem?_set_ne (Ne.symm h)]

theorem data_place_old (path : Path) (bytes : Bytes) (h : i < fs.inodes.length) :
    (fs.place path bytes).data i = fs.data i := by
  simp [data, place, getElem?_append_left h]

@[simp] theorem data_place_new (fs : FileSystem) (path : Path) (bytes : Bytes) :
    (fs.place path bytes).data fs.inodes.length = bytes := by
  simp [data, place]

theorem setData_setData_data (fs : FileSystem) (i : Nat) (bytes : Bytes) :
    (fs.setData i bytes).setData i (fs.data i) = fs := by
  apply FileSystem.ext
  · apply ext_getElem?
    intro j
    simp only [setData, data, set_set, getElem?_set, getD_eq_getElem?_getD]
    split
    · rename_i hij
      subst hij
      split
      · rename_i hlt
        simp [getElem?_eq_getElem hlt]
      · rename_i hge
        exact (getElem?_eq_none (Nat.not_lt.mp hge)).symm
    · rfl
  · rfl

@[simp] theorem data_link (fs : FileSystem) (src dst : Path) (i : Nat) :
    (fs.link src dst).data i = fs.data i := by
  unfold link
  split <;> rfl

@[simp] theorem data_rename (fs : FileSystem) (src dst : Path) (i : Nat) :
    (fs.rename src dst).data i = fs.data i := by
  unfold rename
  split <;> rfl

@[simp] theorem length_setData (fs : FileSystem) (i : Nat) (bytes : Bytes) :
    (fs.setData i bytes).inodes.length = fs.inodes.length := by
  simp [setData]

@[simp] theorem length_place (fs : FileSystem) (path : Path) (bytes : Bytes) :
    (fs.place path bytes).inodes.length = fs.inodes.length + 1 := by
  simp [place]

@[simp] theorem length_link (fs : FileSystem) (src dst : Path) :
    (fs.link src dst).inodes.length = fs.inodes.length := by
  unfold link
  split <;> rfl

@[simp] theorem length_rename (fs : FileSystem) (src dst : Path) :
    (fs.rename src dst).inodes.length = fs.inodes.length := by
  unfold rename
  split <;> rfl

/-! ## Directory entries -/

theorem lookup_place (fs : FileSystem) (path : Path) (bytes : Bytes) (q : Path) :
    (fs.place path bytes).lookup q = if q = path then some fs.inodes.length else fs.lookup q :=
  lookup_insert _ _ _ q

theorem lookup_name (fs : FileSystem) (path : Path) (hi : i < fs.inodes.length) (q : Path) :
    (fs.name path i hi).lookup q = if q = path then some i else fs.lookup q :=
  lookup_insert _ _ _ q

theorem lookup_remove (fs : FileSystem) (path q : Path) :
    (fs.remove path).lookup q = if q = path then none else fs.lookup q :=
  lookup_erase _ path q

theorem lookup_link {src : Path} (hsrc : fs.lookup src = some i) (dst q : Path) :
    (fs.link src dst).lookup q =
      if q = dst then some ((fs.lookup dst).getD i) else fs.lookup q := by
  unfold link
  split
  · rename_i j hj hdst
    rw [hsrc] at hj
    cases hj
    rw [lookup_name, hdst]
    rfl
  · rename_i hno
    cases hdst : fs.lookup dst with
    | none => exact absurd hdst (hno i hsrc)
    | some j =>
      split
      · rename_i hq
        rw [hq, hdst]
        rfl
      · rfl

theorem lookup_rename {src : Path} (hsrc : fs.lookup src = some i) (dst q : Path) :
    (fs.rename src dst).lookup q =
      if q = dst then some i else if q = src then none else fs.lookup q := by
  unfold rename
  split
  · rename_i j hj
    rw [hsrc] at hj
    cases hj
    rw [lookup_name, lookup_remove]
  · rename_i hno
    rw [hsrc] at hno
    cases hno

theorem mem_names {dir : Nat} {name : Bytes} :
    name ∈ fs.names dir ↔ ∃ i, fs.lookup (dir, name) = some i := by
  have hmem : (dir, name) ∈ fs.entries.keys ↔ ∃ i, fs.lookup (dir, name) = some i := by
    rw [← AList.mem_keys, ← AList.lookup_isSome, Option.isSome_iff_exists]
    rfl
  rw [← hmem, names, mem_filterMap]
  constructor
  · rintro ⟨⟨d, n⟩, hpath, hif⟩
    split at hif
    · rename_i hd
      cases hif
      simpa [← hd] using hpath
    · cases hif
  · intro h
    exact ⟨(dir, name), h, by simp⟩

theorem nodup_names (fs : FileSystem) (dir : Nat) : (fs.names dir).Nodup := by
  apply List.Nodup.filterMap _ fs.entries.nodupKeys
  rintro ⟨d, n⟩ ⟨d', n'⟩ name hname hname'
  simp only [Option.mem_def, Option.ite_none_right_eq_some, Option.some.injEq] at hname hname'
  rw [hname.1, hname'.1, hname.2, hname'.2]

end FileSystem

end Corepkgs.Lib
