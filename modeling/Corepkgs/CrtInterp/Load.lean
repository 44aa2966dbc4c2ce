import Corepkgs.Lib.Mapping
/-!
# Mapping the dynamic linker

The entry stub `crt_interp.c` maps `ld.so` itself: it reserves an address range that
covers every `PT_LOAD` segment, maps each segment's pages from the file over it,
zeroes the rest of the last file page of a segment with bss and maps anonymous
pages for what is left.  All of it is 64-bit arithmetic on values from the program
headers.
-/

namespace Corepkgs.CrtInterp

open Lib List BitVec Nat

/-- A program header; `p_paddr` and `p_align` are never read. -/
structure Phdr where
  pType : BitVec 32
  pFlags : BitVec 32
  pOffset : U64
  pVaddr : U64
  pFilesz : U64
  pMemsz : U64
  deriving DecidableEq

def ptLoad : BitVec 32 := 1

def protOf (pFlags : BitVec 32) : Prot :=
  ⟨pFlags &&& 4 != 0, pFlags &&& 2 != 0, pFlags &&& 1 != 0⟩

inductive Stop
  | died (message : Bytes)
  | signalled (signal : Signal)
  deriving DecidableEq

/-- The address space while segments are mapped, with the ranges given to `mmap`. -/
structure Image where
  space : Space
  mapped : List (Nat × Nat)

def Image.mapOrDie (image : Image) (addr len : U64) (message : Bytes) :
    Option Space → Except Stop Image
  | some space => .ok ⟨space, image.mapped ++ [(addr.toNat, len.toNat)]⟩
  | none => .error (.died message)

def widen (range : U64 × U64) (ph : Phdr) : U64 × U64 :=
  if ph.pType = ptLoad then
    (if ph.pVaddr < range.1 then ph.pVaddr else range.1,
      if ph.pVaddr + ph.pMemsz > range.2 then ph.pVaddr + ph.pMemsz else range.2)
  else range

def extent (phs : List Phdr) : U64 × U64 := phs.foldl widen (~~~0, 0)

def lowEnd (PG : U64) (phs : List Phdr) : U64 := pageFloor PG (extent phs).1

def highEnd (PG : U64) (phs : List Phdr) : U64 := pageCeil PG (extent phs).2

def mapFilePages (file : Bytes) (PG bias : U64) (image : Image) (ph : Phdr) : Except Stop Image :=
  let segStart := pageFloor PG ph.pVaddr
  let off := pageFloor PG ph.pOffset
  let fileEnd := ph.pVaddr + ph.pFilesz
  let mapLen := pageCeil PG fileEnd - segStart
  if mapLen = 0 then .ok image
  else
    image.mapOrDie (bias + segStart) mapLen (ascii "mmap segment failed")
      (image.space.mmapFile PG.toNat (bias + segStart).toNat mapLen.toNat (protOf ph.pFlags) file
        off.toNat)

/-- The last file page zeroed to its end; the loop stores as long as `z` is below the end. -/
def zeroLastPage (PG bias : U64) (image : Image) (ph : Phdr) : Except Stop Image :=
  let fileEnd := ph.pVaddr + ph.pFilesz
  if (protOf ph.pFlags).write then
    let z := bias + fileEnd
    let e := pageCeil PG fileEnd
    match image.space.zeroFill z.toNat ((bias + e).toNat - z.toNat) with
    | .ok space => .ok { image with space := space }
    | .error signal => .error (.signalled signal)
  else .ok image

def mapBss (PG bias : U64) (image : Image) (ph : Phdr) : Except Stop Image :=
  let anonStart := pageCeil PG (ph.pVaddr + ph.pFilesz)
  let anonEnd := pageCeil PG (ph.pVaddr + ph.pMemsz)
  if anonEnd > anonStart then
    image.mapOrDie (bias + anonStart) (anonEnd - anonStart) (ascii "mmap bss failed")
      (image.space.mmapAnon PG.toNat (bias + anonStart).toNat (anonEnd - anonStart).toNat
        (protOf ph.pFlags))
  else .ok image

def mapSegment (file : Bytes) (PG bias : U64) (image : Image) (ph : Phdr) : Except Stop Image :=
  if ph.pType ≠ ptLoad then .ok image
  else do
    let image ← mapFilePages file PG bias image ph
    if ph.pVaddr + ph.pMemsz > ph.pVaddr + ph.pFilesz then do
      let image ← zeroLastPage PG bias image ph
      mapBss PG bias image ph
    else .ok image

/-- Where the kernel puts an anonymous mapping it may place itself: at a page, below `2 ^ 63`. -/
structure Placement (PG : U64) where
  choose : U64 → Option U64
  aligned : ∀ {len base}, choose len = some base → PG.toNat ∣ base.toNat
  fits : ∀ {len base}, choose len = some base → base.toNat + len.toNat ≤ 2 ^ 63

def mapInterp {PG : U64} (place : Placement PG) (file : Bytes) (phs : List Phdr) (space : Space) :
    Except Stop (U64 × Image) :=
  let lo := lowEnd PG phs
  let hi := highEnd PG phs
  match place.choose (hi - lo) with
  | none => .error (.died (ascii "mmap reserve failed"))
  | some base => do
    let bias := base - lo
    let reserved := space.map base.toNat (hi - lo).toNat ⟨false, false, false⟩ fun _ => some 0
    let image ← phs.foldlM (mapSegment file PG bias) ⟨reserved, []⟩
    .ok (bias, image)

/-! ## What is asked of the interpreter -/

/-- The pages of size `g` a segment occupies. -/
def Phdr.Occupies (g : Nat) (ph : Phdr) (page : Nat) : Prop :=
  ph.pVaddr.toNat / g ≤ page ∧ page * g < ph.pVaddr.toNat + ph.pMemsz.toNat

/-- A segment that can be mapped at all: its bytes are in the file at the offset its address
asks for, only a writable one has bss, and no rounded end passes the top of 64 bits. -/
structure Phdr.Mappable (g : Nat) (file : Bytes) (ph : Phdr) : Prop where
  congruent : ph.pVaddr.toNat % g = ph.pOffset.toNat % g
  inFile : ph.pOffset.toNat + ph.pFilesz.toNat ≤ file.length
  bss : ph.pFilesz.toNat < ph.pMemsz.toNat → (protOf ph.pFlags).write = true
  filesz_le : ph.pFilesz.toNat ≤ ph.pMemsz.toNat
  below_top : ph.pVaddr.toNat + ph.pMemsz.toNat + g ≤ 2 ^ 64

/-- The segments are mappable and no two are on one page, in whatever order they stand. -/
structure Loadable (g : Nat) (file : Bytes) (phs : List Phdr) : Prop where
  mappable : ∀ ph ∈ phs, ph.pType = ptLoad → ph.Mappable g file
  disjoint : phs.Pairwise fun a b => a.pType = ptLoad → b.pType = ptLoad →
    ∀ page, ¬ (a.Occupies g page ∧ b.Occupies g page)

/-! ## The layout of a segment, in numbers -/

namespace Phdr

variable (g : Nat) (ph : Phdr)

def pageStart : Nat := floorTo g ph.pVaddr.toNat

def pageOff : Nat := floorTo g ph.pOffset.toNat

def fileEnd : Nat := ph.pVaddr.toNat + ph.pFilesz.toNat

def memEnd : Nat := ph.pVaddr.toNat + ph.pMemsz.toNat

def fileCeil : Nat := ceilTo g ph.fileEnd

def memCeil : Nat := ceilTo g ph.memEnd

/-- How the ends of a segment and their pages lie to each other and to the file. -/
structure Layout (file : Bytes) : Prop where
  pageStart_dvd : g ∣ ph.pageStart g
  pageOff_dvd : g ∣ ph.pageOff g
  fileCeil_dvd : g ∣ ph.fileCeil g
  memCeil_dvd : g ∣ ph.memCeil g
  pageStart_le : ph.pageStart g ≤ ph.pVaddr.toNat
  vaddr_le : ph.pVaddr.toNat ≤ ph.fileEnd
  fileEnd_le : ph.fileEnd ≤ ph.memEnd
  le_fileCeil : ph.fileEnd ≤ ph.fileCeil g
  le_memCeil : ph.memEnd ≤ ph.memCeil g
  fileCeil_le : ph.fileCeil g ≤ ph.memCeil g
  vaddr_sub : ph.pVaddr.toNat - ph.pageStart g + ph.pageOff g = ph.pOffset.toNat
  file_covers : ph.pageOff g + (ph.fileCeil g - ph.pageStart g) ≤ ceilTo g file.length

variable {g ph} {file : Bytes}

theorem Mappable.layout (hg : 0 < g) (h : ph.Mappable g file) : ph.Layout g file := by
  have hfilesz := h.filesz_le
  have hstart := floorTo_add_mod g ph.pVaddr.toNat
  have hoff := floorTo_add_mod g ph.pOffset.toNat
  have hle : ph.fileEnd ≤ ph.memEnd := Nat.add_le_add_left hfilesz _
  have hmem : ph.memEnd ≤ ph.memCeil g := le_ceilTo hg _
  -- the file mapping is as long as its part of the file, rounded up
  have hceil : ph.fileCeil g =
    ph.pageStart g + ceilTo g (ph.pVaddr.toNat % g + ph.pFilesz.toNat) := by
    rw [pageStart, ← ceilTo_add hg (dvd_floorTo _ _), ← add_assoc, hstart]
    rfl
  have hpart : ph.pageOff g + ceilTo g (ph.pVaddr.toNat % g + ph.pFilesz.toNat) =
      ceilTo g (ph.pOffset.toNat + ph.pFilesz.toNat) := by
    rw [pageOff, ← ceilTo_add hg (dvd_floorTo _ _), h.congruent, ← add_assoc, hoff]
  have hfile : ceilTo g (ph.pOffset.toNat + ph.pFilesz.toNat) ≤ ceilTo g file.length :=
    ceilTo_le hg (dvd_ceilTo _ _) (h.inFile.trans (le_ceilTo hg _))
  exact {
    pageStart_dvd := dvd_floorTo _ _
    pageOff_dvd := dvd_floorTo _ _
    fileCeil_dvd := dvd_ceilTo _ _
    memCeil_dvd := dvd_ceilTo _ _
    pageStart_le := floorTo_le _ _
    vaddr_le := le_add_right _ _
    fileEnd_le := hle
    le_fileCeil := le_ceilTo hg _
    le_memCeil := hmem
    fileCeil_le := ceilTo_le hg (dvd_ceilTo _ _) (hle.trans hmem)
    vaddr_sub := by
      have hcongruent := h.congruent
      unfold pageStart pageOff
      omega
    file_covers := by omega }

end Phdr

/-! ## One segment -/

/-- A range of whole pages reserved at `base` for what is linked from `lo` to `hi`. -/
structure Room (k : Nat) (PG base lo hi : U64) : Prop where
  page : PG.toNat = 2 ^ k
  lo_dvd : 2 ^ k ∣ lo.toNat
  base_dvd : 2 ^ k ∣ base.toNat
  fits : base.toNat + (hi.toNat - lo.toNat) ≤ 2 ^ 63

def shift (base lo : U64) (x : Nat) : Nat := base.toNat + (x - lo.toNat)

structure Phdr.Within (g : Nat) (lo hi : U64) (ph : Phdr) : Prop where
  lo_le : lo.toNat ≤ ph.pageStart g
  le_hi : ph.memCeil g ≤ hi.toNat

/-- What `mmap` was given is in the reserved range, but for what it was given before. -/
def Kept (base lo hi : U64) (before after : List (Nat × Nat)) : Prop :=
  ∀ r ∈ after, r ∈ before ∨
    base.toNat ≤ r.1 ∧ r.1 + r.2 ≤ base.toNat + (hi.toNat - lo.toNat)

section

variable {k : Nat} {PG base lo hi : U64} {file : Bytes} {ph : Phdr}

theorem Kept.refl (mapped : List (Nat × Nat)) : Kept base lo hi mapped mapped :=
  fun _ hr => .inl hr

theorem Kept.trans {a b c : List (Nat × Nat)} (hab : Kept base lo hi a b)
    (hbc : Kept base lo hi b c) : Kept base lo hi a c := by
  intro r hr
  rcases hbc r hr with hr | hr
  · exact hab r hr
  · exact .inr hr

theorem Room.toNat_bias_add (room : Room k PG base lo hi) {x : U64} {a : Nat} (hx : x.toNat = a)
    (hlo : lo.toNat ≤ a) (hhi : a ≤ hi.toNat) : (base - lo + x).toNat = shift base lo a := by
  subst hx
  have hfits := room.fits
  have hassoc : base - lo + x = base + (x - lo) := by
    rw [BitVec.sub_eq_add_neg, BitVec.sub_eq_add_neg, BitVec.add_assoc, BitVec.add_comm (-lo)]
  have hsub : (x - lo).toNat = x.toNat - lo.toNat := BitVec.toNat_sub_of_le hlo
  rw [hassoc, toNat_add, hsub, shift, mod_eq_of_lt (by omega)]

theorem Room.dvd_shift (room : Room k PG base lo hi) {x : Nat} (hx : 2 ^ k ∣ x) :
    2 ^ k ∣ shift base lo x :=
  Nat.dvd_add room.base_dvd (Nat.dvd_sub hx room.lo_dvd)

theorem Room.mapOrDie (room : Room k PG base lo hi) (image : Image) {x y : U64} {a b : Nat}
    (hx : x.toNat = a) (hy : y.toNat = b) (prot : Prot) (content : Nat → Option UInt8)
    (message : Bytes) (ha : 2 ^ k ∣ a) (hb : 2 ^ k ∣ b) (hlt : a < b) (hlo : lo.toNat ≤ a)
    (hhi : b ≤ hi.toNat) :
    ∃ after, image.mapOrDie (base - lo + x) (y - x) message (image.space.mmapFixed PG.toNat
        (base - lo + x).toNat (y - x).toNat prot content) = .ok after ∧
      after.space = image.space.map (shift base lo a) (b - a) prot content ∧
      Kept base lo hi image.mapped after.mapped := by
  have hfits := room.fits
  have haddr := room.toNat_bias_add hx hlo (by omega)
  have hlen : (y - x).toNat = b - a := by
    rw [toNat_sub_of_le (by rw [le_def, hx, hy]; exact hlt.le), hx, hy]
  have hend : shift base lo a + (b - a) ≤ base.toNat + (hi.toNat - lo.toNat) := by
    unfold shift
    omega
  rw [haddr, hlen, room.page, Space.mmapFixed_eq (Nat.two_pow_pos k) (room.dvd_shift ha)
    (Nat.dvd_sub hb ha) (by omega) (by omega)]
  refine ⟨_, rfl, rfl, ?_⟩
  intro r hr
  rcases mem_append.mp hr with hr | hr
  · exact .inl hr
  · right
    rw [mem_singleton.mp hr, haddr, hlen]
    exact ⟨le_add_right _ _, hend⟩

structure Phdr.Words (k : Nat) (PG : U64) (ph : Phdr) : Prop where
  segStart : (pageFloor PG ph.pVaddr).toNat = ph.pageStart (2 ^ k)
  off : (pageFloor PG ph.pOffset).toNat = ph.pageOff (2 ^ k)
  fileEnd : (ph.pVaddr + ph.pFilesz).toNat = ph.fileEnd
  memEnd : (ph.pVaddr + ph.pMemsz).toNat = ph.memEnd
  fileCeil : (pageCeil PG (ph.pVaddr + ph.pFilesz)).toNat = ph.fileCeil (2 ^ k)
  memCeil : (pageCeil PG (ph.pVaddr + ph.pMemsz)).toNat = ph.memCeil (2 ^ k)

theorem Phdr.Mappable.words (hPG : PG.toNat = 2 ^ k) (h : ph.Mappable (2 ^ k) file) :
    ph.Words k PG := by
  have hle := h.filesz_le
  have htop := h.below_top
  have hpage : 0 < 2 ^ k := Nat.two_pow_pos k
  have hfile : (ph.pVaddr + ph.pFilesz).toNat = ph.fileEnd := by
    rw [toNat_add, mod_eq_of_lt (by omega)]
    rfl
  have hmem : (ph.pVaddr + ph.pMemsz).toNat = ph.memEnd := by
    rw [toNat_add, mod_eq_of_lt (by omega)]
    rfl
  have hmemEnd : ph.memEnd + 2 ^ k ≤ 2 ^ 64 := htop
  have hfileEnd : ph.fileEnd ≤ ph.memEnd := Nat.add_le_add_left hle _
  exact {
    segStart := toNat_pageFloor hPG
    off := toNat_pageFloor hPG
    fileEnd := hfile
    memEnd := hmem
    fileCeil := by
      rw [toNat_pageCeil hPG (by omega), hfile]
      rfl
    memCeil := by
      rw [toNat_pageCeil hPG (by omega), hmem]
      rfl }

def Phdr.filePages (k : Nat) (base lo : U64) (file : Bytes) (ph : Phdr) (space : Space) : Space :=
  space.map (shift base lo (ph.pageStart (2 ^ k)))
    (ph.fileCeil (2 ^ k) - ph.pageStart (2 ^ k)) (protOf ph.pFlags)
    (Space.fileContent (2 ^ k) file (ph.pageOff (2 ^ k)))

def Phdr.zeros (base lo : U64) (x y : Nat) (ph : Phdr) (space : Space) : Space :=
  space.map (shift base lo x) (y - x) (protOf ph.pFlags) fun _ => some 0

section

variable (room : Room k PG base lo hi) (h : ph.Mappable (2 ^ k) file)
  (hin : ph.Within (2 ^ k) lo hi) (image : Image)

include room h hin

theorem mapFilePages_spec :
    ∃ after, mapFilePages file PG (base - lo) image ph = .ok after ∧
      after.space = ph.filePages k base lo file image.space ∧
      Kept base lo hi image.mapped after.mapped := by
  have hwords := h.words room.page
  have hlay := h.layout (Nat.two_pow_pos k)
  have hlo := hin.lo_le
  have hhi := hin.le_hi
  have hceil := hlay.fileCeil_le
  have hmono : ph.pageStart (2 ^ k) ≤ ph.fileCeil (2 ^ k) :=
    hlay.pageStart_le.trans (hlay.vaddr_le.trans hlay.le_fileCeil)
  have hlen : (pageCeil PG (ph.pVaddr + ph.pFilesz) - pageFloor PG ph.pVaddr).toNat =
      ph.fileCeil (2 ^ k) - ph.pageStart (2 ^ k) := by
    rw [toNat_sub_of_le (by rw [le_def, hwords.segStart, hwords.fileCeil]; exact hmono),
      hwords.segStart, hwords.fileCeil]
  simp only [mapFilePages]
  split_ifs with hzero
  · refine ⟨image, rfl, ?_, .refl _⟩
    rw [Phdr.filePages, ← hlen, hzero]
    exact (Space.map_zero ..).symm
  · have hpos : (pageCeil PG (ph.pVaddr + ph.pFilesz) - pageFloor PG ph.pVaddr).toNat ≠ 0 :=
      fun heq => hzero (eq_of_toNat_eq heq)
    have hoff : (pageFloor PG ph.pOffset).toNat % PG.toNat = 0 := by
      rw [hwords.off, room.page]
      exact mod_eq_zero_of_dvd hlay.pageOff_dvd
    have hmapped := room.mapOrDie image hwords.segStart hwords.fileCeil (protOf ph.pFlags)
      (Space.fileContent PG.toNat file (pageFloor PG ph.pOffset).toNat)
      (ascii "mmap segment failed") hlay.pageStart_dvd hlay.fileCeil_dvd (by omega) (by omega)
      (by omega)
    rw [Space.mmapFile, if_pos hoff]
    rw [room.page, hwords.off] at hmapped ⊢
    exact hmapped

theorem zeroLastPage_spec (hbss : ph.pFilesz.toNat < ph.pMemsz.toNat) {old : Space}
    (hfile : image.space = ph.filePages k base lo file old) :
    zeroLastPage PG (base - lo) image ph = .ok { image with
      space := ph.zeros base lo ph.fileEnd (ph.fileCeil (2 ^ k)) image.space } := by
  have hwords := h.words room.page
  have hlay := h.layout (Nat.two_pow_pos k)
  have hlo := hin.lo_le
  have hhi := hin.le_hi
  have hstart := hlay.pageStart_le
  have hvaddr := hlay.vaddr_le
  have hceil := hlay.le_fileCeil
  have htop := hlay.fileCeil_le
  have hcovers := hlay.file_covers
  have hz : (base - lo + (ph.pVaddr + ph.pFilesz)).toNat = shift base lo ph.fileEnd := by
    exact room.toNat_bias_add hwords.fileEnd (by omega) (by omega)
  have he : (base - lo + pageCeil PG (ph.pVaddr + ph.pFilesz)).toNat =
      shift base lo (ph.fileCeil (2 ^ k)) := by
    exact room.toNat_bias_add hwords.fileCeil (by omega) (by omega)
  have hcount : shift base lo (ph.fileCeil (2 ^ k)) - shift base lo ph.fileEnd =
      ph.fileCeil (2 ^ k) - ph.fileEnd := by
    unfold shift
    omega
  simp only [zeroLastPage, h.bss hbss, if_true, hz, he, hcount]
  rw [Space.zeroFill_eq (h.bss hbss)]
  · rfl
  · intro q hq hq'
    have hpage : shift base lo (ph.pageStart (2 ^ k)) ≤ q := by
      unfold shift at hq ⊢
      omega
    have hend : q < shift base lo (ph.pageStart (2 ^ k)) +
        (ph.fileCeil (2 ^ k) - ph.pageStart (2 ^ k)) := by
      unfold shift at hq hq' ⊢
      omega
    -- the page has a byte of the file, so what is mapped there can be stored to
    have hsome : (Space.fileContent (2 ^ k) file (ph.pageOff (2 ^ k))
        (q - shift base lo (ph.pageStart (2 ^ k)))).isSome = true :=
      Space.isSome_fileContent (by omega)
    obtain ⟨b, hb⟩ := Option.isSome_iff_exists.mp hsome
    refine ⟨b, ?_⟩
    rw [hfile, Phdr.filePages, Space.map_inside hpage hend, hb]

theorem mapBss_spec :
    ∃ after, mapBss PG (base - lo) image ph = .ok after ∧
      after.space = ph.zeros base lo (ph.fileCeil (2 ^ k)) (ph.memCeil (2 ^ k)) image.space ∧
      Kept base lo hi image.mapped after.mapped := by
  have hwords := h.words room.page
  have hlay := h.layout (Nat.two_pow_pos k)
  have hlo := hin.lo_le
  have hhi := hin.le_hi
  have hstart := hlay.pageStart_le
  have hvaddr := hlay.vaddr_le
  have hceil := hlay.le_fileCeil
  simp only [mapBss]
  split_ifs with hlt
  · have hlt' : ph.fileCeil (2 ^ k) < ph.memCeil (2 ^ k) := by
      rw [← hwords.fileCeil, ← hwords.memCeil]
      exact hlt
    exact room.mapOrDie image hwords.fileCeil hwords.memCeil (protOf ph.pFlags) (fun _ => some 0)
      (ascii "mmap bss failed") hlay.fileCeil_dvd hlay.memCeil_dvd hlt' (by omega) (by omega)
  · have hge : ph.memCeil (2 ^ k) ≤ ph.fileCeil (2 ^ k) := by
      rw [← hwords.fileCeil, ← hwords.memCeil]
      exact not_lt.mp hlt
    refine ⟨image, rfl, ?_, .refl _⟩
    rw [Phdr.zeros, Nat.sub_eq_zero_of_le hge, Space.map_zero]

end

/-- A segment is in place: its bytes at its addresses, nothing else touched but its own pages,
nothing mapped outside the range. -/
structure Placed (k : Nat) (base lo hi : U64) (file : Bytes) (ph : Phdr) (before after : Image) :
    Prop where
  holds : ∀ i < ph.pMemsz.toNat, after.space (shift base lo (ph.pVaddr.toNat + i)) =
    some ⟨protOf ph.pFlags, if i < ph.pFilesz.toNat then file[ph.pOffset.toNat + i]? else some 0⟩
  frame : ∀ q, q < shift base lo (ph.pageStart (2 ^ k)) ∨
    shift base lo (ph.memCeil (2 ^ k)) ≤ q → after.space q = before.space q
  kept : Kept base lo hi before.mapped after.mapped

/-- What is at the addresses of a segment after its file pages are mapped. -/
theorem filePages_holds (h : ph.Mappable (2 ^ k) file) (hin : ph.Within (2 ^ k) lo hi)
    (space : Space) {i : Nat} (hi : i < ph.pFilesz.toNat) :
    ph.filePages k base lo file space (shift base lo (ph.pVaddr.toNat + i)) =
      some ⟨protOf ph.pFlags, file[ph.pOffset.toNat + i]?⟩ := by
  have hlay := h.layout (Nat.two_pow_pos k)
  have hlo := hin.lo_le
  have hstart := hlay.pageStart_le
  have hceil := hlay.le_fileCeil
  have hsub := hlay.vaddr_sub
  have hfile := h.inFile
  have hend : ph.pVaddr.toNat + i < ph.fileCeil (2 ^ k) := by
    unfold Phdr.fileEnd at hceil
    omega
  have hindex : ph.pageOff (2 ^ k) + (shift base lo (ph.pVaddr.toNat + i) -
      shift base lo (ph.pageStart (2 ^ k))) = ph.pOffset.toNat + i := by
    unfold shift
    omega
  rw [Phdr.filePages, Space.map_inside (by unfold shift; omega) (by unfold shift; omega),
    Space.fileContent_of_lt (by omega), hindex]

theorem zeros_outside {x y : Nat} (hlo : lo.toNat ≤ x) (space : Space) {q : Nat}
    (hq : q < shift base lo x ∨ shift base lo y ≤ q) : ph.zeros base lo x y space q = space q := by
  rw [Phdr.zeros, Space.map_outside]
  unfold shift at hq ⊢
  omega

theorem zeros_inside {x y a : Nat} (hlo : lo.toNat ≤ x) (space : Space) (hx : x ≤ a) (hy : a < y) :
    ph.zeros base lo x y space (shift base lo a) = some ⟨protOf ph.pFlags, some 0⟩ := by
  rw [Phdr.zeros, Space.map_inside]
  · unfold shift
    omega
  · unfold shift
    omega

theorem mapSegment_spec (room : Room k PG base lo hi) (hload : ph.pType = ptLoad)
    (h : ph.Mappable (2 ^ k) file) (hin : ph.Within (2 ^ k) lo hi) (image : Image) :
    ∃ after, mapSegment file PG (base - lo) image ph = .ok after ∧
      Placed k base lo hi file ph image after := by
  have hwords := h.words room.page
  have hlay := h.layout (Nat.two_pow_pos k)
  have hlo := hin.lo_le
  have hstart := hlay.pageStart_le
  have hvaddr := hlay.vaddr_le
  have hfile := hlay.le_fileCeil
  have hmem := hlay.le_memCeil
  have hceil := hlay.fileCeil_le
  obtain ⟨filed, hfiled, hspace, hkept⟩ := mapFilePages_spec room h hin image
  have hframe : ∀ q, q < shift base lo (ph.pageStart (2 ^ k)) ∨
      shift base lo (ph.fileCeil (2 ^ k)) ≤ q → filed.space q = image.space q := by
    intro q hq
    rw [hspace, Phdr.filePages, Space.map_outside]
    unfold shift at hq ⊢
    omega
  have hbytes : ∀ i < ph.pFilesz.toNat, filed.space (shift base lo (ph.pVaddr.toNat + i)) =
      some ⟨protOf ph.pFlags, file[ph.pOffset.toNat + i]?⟩ := by
    intro i hi
    rw [hspace]
    exact filePages_holds h hin _ hi
  have hcond : (ph.pVaddr + ph.pMemsz > ph.pVaddr + ph.pFilesz) ↔
      ph.pFilesz.toNat < ph.pMemsz.toNat := by
    rw [gt_iff_lt, lt_def, hwords.fileEnd, hwords.memEnd]
    unfold Phdr.fileEnd Phdr.memEnd
    omega
  simp only [mapSegment, hload, ne_eq, not_true_eq_false, if_false, hfiled, hcond]
  by_cases hbss : ph.pFilesz.toNat < ph.pMemsz.toNat
  · obtain ⟨after, hafter, hzeros, hkept'⟩ := mapBss_spec room h hin
      { filed with space := ph.zeros base lo ph.fileEnd (ph.fileCeil (2 ^ k)) filed.space }
    simp only at hzeros
    refine ⟨after, ?_, ?_, ?_, hkept.trans hkept'⟩
    · simp only [bind, Except.bind, if_pos hbss,
        zeroLastPage_spec room h hin filed hbss hspace]
      exact hafter
    · intro i hi
      rw [hzeros]
      by_cases hif : i < ph.pFilesz.toNat
      · rw [if_pos hif, zeros_outside (by omega), zeros_outside (by omega), hbytes i hif]
        · unfold shift Phdr.fileEnd
          omega
        · unfold shift
          unfold Phdr.fileEnd at hfile
          omega
      · rw [if_neg hif]
        by_cases hpage : ph.pVaddr.toNat + i < ph.fileCeil (2 ^ k)
        · rw [zeros_outside (by omega),
            zeros_inside (by omega) _ (by unfold Phdr.fileEnd; omega) hpage]
          unfold shift
          omega
        · exact zeros_inside (by omega) _ (by omega) (by unfold Phdr.memEnd at hmem; omega)
    · intro q hq
      rw [hzeros, zeros_outside (by omega), zeros_outside (by omega), hframe]
      · unfold shift at hq ⊢
        omega
      · unfold shift at hq ⊢
        omega
      · unfold shift at hq ⊢
        omega
  · refine ⟨filed, ?_, ?_, ?_, hkept⟩
    · simp only [bind, Except.bind, if_neg hbss]
    · intro i hi
      have hif : i < ph.pFilesz.toNat := by omega
      rw [if_pos hif, hbytes i hif]
    · intro q hq
      apply hframe
      unfold shift at hq ⊢
      omega

/-! ## The loop -/

theorem Phdr.occupies_of_mem {x : Nat} (hlo : ph.pageStart (2 ^ k) ≤ x)
    (hhi : x < ph.memCeil (2 ^ k)) : ph.Occupies (2 ^ k) (x / 2 ^ k) := by
  have hpage : 0 < 2 ^ k := Nat.two_pow_pos k
  have hfloor := floorTo_le (2 ^ k) x
  have hceil := ceilTo_lt_add hpage ph.memEnd
  have hnext : floorTo (2 ^ k) x + 2 ^ k ≤ ph.memCeil (2 ^ k) := by
    apply le_of_dvd_of_lt_add (Nat.dvd_add (dvd_floorTo _ _) dvd_rfl) (dvd_ceilTo _ _)
    unfold Phdr.memCeil at hhi
    omega
  refine ⟨(le_div_iff_mul_le hpage).mpr hlo, ?_⟩
  unfold Phdr.memCeil at hnext
  exact lt_of_add_lt_add_right (lt_of_le_of_lt hnext hceil)

/-- What a segment holds is on none of the pages of another. -/
theorem apart_of_disjoint {a b : Phdr} (ha : a.Mappable (2 ^ k) file)
    (hain : a.Within (2 ^ k) lo hi) (hbin : b.Within (2 ^ k) lo hi)
    (hdisjoint : ∀ page, ¬ (a.Occupies (2 ^ k) page ∧ b.Occupies (2 ^ k) page)) {i : Nat}
    (hi : i < a.pMemsz.toNat) :
    shift base lo (a.pVaddr.toNat + i) < shift base lo (b.pageStart (2 ^ k)) ∨
      shift base lo (b.memCeil (2 ^ k)) ≤ shift base lo (a.pVaddr.toNat + i) := by
  have hlay := ha.layout (Nat.two_pow_pos k)
  have hstart := hlay.pageStart_le
  have hmem := hlay.le_memCeil
  have halo := hain.lo_le
  have hblo := hbin.lo_le
  have hlt : a.pVaddr.toNat + i < a.memCeil (2 ^ k) := by
    unfold Phdr.memEnd at hmem
    omega
  have haocc := @Phdr.occupies_of_mem k a (a.pVaddr.toNat + i) (by omega) hlt
  by_contra hnot
  apply hdisjoint _ ⟨haocc, Phdr.occupies_of_mem _ _⟩
  · unfold shift at hnot
    omega
  · unfold shift at hnot
    omega

theorem mapLoop_spec (room : Room k PG base lo hi) {phs : List Phdr}
    (hmappable : ∀ ph ∈ phs, ph.pType = ptLoad → ph.Mappable (2 ^ k) file)
    (hwithin : ∀ ph ∈ phs, ph.pType = ptLoad → ph.Within (2 ^ k) lo hi)
    (hdisjoint : phs.Pairwise fun a b => a.pType = ptLoad → b.pType = ptLoad →
      ∀ page, ¬ (a.Occupies (2 ^ k) page ∧ b.Occupies (2 ^ k) page)) (image : Image) :
    ∃ after, phs.foldlM (mapSegment file PG (base - lo)) image = .ok after ∧
      (∀ ph ∈ phs, ph.pType = ptLoad → ∀ i < ph.pMemsz.toNat,
        after.space (shift base lo (ph.pVaddr.toNat + i)) = some ⟨protOf ph.pFlags,
          if i < ph.pFilesz.toNat then file[ph.pOffset.toNat + i]? else some 0⟩) ∧
      (∀ q, (∀ ph ∈ phs, ph.pType = ptLoad → q < shift base lo (ph.pageStart (2 ^ k)) ∨
        shift base lo (ph.memCeil (2 ^ k)) ≤ q) → after.space q = image.space q) ∧
      Kept base lo hi image.mapped after.mapped := by
  induction phs generalizing image with
  | nil => exact ⟨image, rfl, by simp, fun _ _ => rfl, .refl _⟩
  | cons ph rest ih =>
    obtain ⟨hhead, htail⟩ := pairwise_cons.mp hdisjoint
    have hrest := @ih (fun p hp => hmappable p (mem_cons_of_mem _ hp))
      (fun p hp => hwithin p (mem_cons_of_mem _ hp)) htail
    rw [foldlM_cons]
    by_cases hload : ph.pType = ptLoad
    · have hmap := hmappable ph mem_cons_self hload
      have hin := hwithin ph mem_cons_self hload
      obtain ⟨mid, hmid, hplaced⟩ := mapSegment_spec room hload hmap hin image
      obtain ⟨after, hafter, hholds, hframe, hkept⟩ := hrest mid
      refine ⟨after, by rw [hmid]; exact hafter, ?_, ?_, hplaced.kept.trans hkept⟩
      · intro p hp hpload i hi
        rcases mem_cons.mp hp with rfl | hp
        · -- the later segments leave this one's bytes alone
          rw [hframe, hplaced.holds i hi]
          intro q hq hqload
          exact apart_of_disjoint hmap hin (hwithin q (mem_cons_of_mem _ hq) hqload)
            (hhead q hq hload hqload) hi
        · exact hholds p hp hpload i hi
      · intro q hq
        rw [hframe q fun p hp => hq p (mem_cons_of_mem _ hp),
          hplaced.frame q (hq ph mem_cons_self hload)]
    · have hskip : mapSegment file PG (base - lo) image ph = .ok image := if_pos hload
      obtain ⟨after, hafter, hholds, hframe, hkept⟩ := hrest image
      refine ⟨after, by rw [hskip]; exact hafter, ?_, ?_, hkept⟩
      · intro p hp hpload
        rcases mem_cons.mp hp with rfl | hp
        · exact absurd hpload hload
        · exact hholds p hp hpload
      · exact fun q hq => hframe q fun p hp => hq p (mem_cons_of_mem _ hp)

end

/-! ## The range -/

theorem foldl_widen {g : Nat} {phs : List Phdr}
    (htop : ∀ ph ∈ phs, ph.pType = ptLoad → ph.memEnd + g ≤ 2 ^ 64) (hg : 0 < g)
    (range : U64 × U64) (hrange : range.2.toNat + g ≤ 2 ^ 64) :
    (phs.foldl widen range).1.toNat ≤ range.1.toNat ∧
      range.2.toNat ≤ (phs.foldl widen range).2.toNat ∧
      (phs.foldl widen range).2.toNat + g ≤ 2 ^ 64 ∧
      ∀ ph ∈ phs, ph.pType = ptLoad → (phs.foldl widen range).1.toNat ≤ ph.pVaddr.toNat ∧
        ph.memEnd ≤ (phs.foldl widen range).2.toNat := by
  induction phs generalizing range with
  | nil => exact ⟨le_rfl, le_rfl, hrange, by simp⟩
  | cons ph rest ih =>
    have hrest := @ih fun p hp => htop p (mem_cons_of_mem _ hp)
    rw [foldl_cons]
    by_cases hload : ph.pType = ptLoad
    · have hph := htop ph mem_cons_self hload
      have hend : (ph.pVaddr + ph.pMemsz).toNat = ph.memEnd := by
        unfold Phdr.memEnd at hph ⊢
        rw [toNat_add, mod_eq_of_lt (by omega)]
      have hlow : (widen range ph).1.toNat ≤ range.1.toNat ∧
          (widen range ph).1.toNat ≤ ph.pVaddr.toNat := by
        simp only [widen, hload, if_true, lt_def]
        split_ifs <;> omega
      have hhigh : range.2.toNat ≤ (widen range ph).2.toNat ∧
          ph.memEnd ≤ (widen range ph).2.toNat ∧ (widen range ph).2.toNat + g ≤ 2 ^ 64 := by
        simp only [widen, hload, if_true, gt_iff_lt, lt_def]
        split_ifs <;> omega
      obtain ⟨hle, hge, hfit, hall⟩ := hrest (widen range ph) hhigh.2.2
      refine ⟨hle.trans hlow.1, hhigh.1.trans hge, hfit, ?_⟩
      intro p hp hpload
      rcases mem_cons.mp hp with rfl | hp
      · exact ⟨hle.trans hlow.2, hhigh.2.1.trans hge⟩
      · exact hall p hp hpload
    · have hskip : widen range ph = range := if_neg hload
      rw [hskip]
      obtain ⟨hle, hge, hfit, hall⟩ := hrest range hrange
      refine ⟨hle, hge, hfit, ?_⟩
      intro p hp hpload
      rcases mem_cons.mp hp with rfl | hp
      · exact absurd hpload hload
      · exact hall p hp hpload

section

variable {k : Nat} {PG : U64} {file : Bytes} {phs : List Phdr}

theorem within_range (hPG : PG.toNat = 2 ^ k) (h : Loadable (2 ^ k) file phs) {ph : Phdr}
    (hph : ph ∈ phs) (hload : ph.pType = ptLoad) :
    ph.Within (2 ^ k) (lowEnd PG phs) (highEnd PG phs) := by
  have hpage : 0 < 2 ^ k := Nat.two_pow_pos k
  have hlt := PG.isLt
  have hstart : (0 : U64).toNat + 2 ^ k ≤ 2 ^ 64 := by
    have hzero : (0 : U64).toNat = 0 := rfl
    omega
  obtain ⟨-, -, hfit, hall⟩ := foldl_widen
    (fun p hp hpload => (h.mappable p hp hpload).below_top) hpage (~~~0, 0) hstart
  obtain ⟨hlo, hhi⟩ := hall ph hph hload
  constructor
  · rw [lowEnd, toNat_pageFloor hPG]
    exact floorTo_mono _ hlo
  · rw [highEnd, extent, toNat_pageCeil hPG hfit]
    exact ceilTo_le hpage (dvd_ceilTo _ _) (hhi.trans (le_ceilTo hpage _))

theorem dvd_lowEnd (hPG : PG.toNat = 2 ^ k) : 2 ^ k ∣ (lowEnd PG phs).toNat := by
  rw [lowEnd, toNat_pageFloor hPG]
  exact dvd_floorTo _ _

theorem Placement.room (hPG : PG.toNat = 2 ^ k) (place : Placement PG) {base : U64}
    (hbase : place.choose (highEnd PG phs - lowEnd PG phs) = some base) :
    Room k PG base (lowEnd PG phs) (highEnd PG phs) where
  page := hPG
  lo_dvd := dvd_lowEnd hPG
  base_dvd := hPG ▸ place.aligned hbase
  fits := by
    have hfits := place.fits hbase
    rw [toNat_sub] at hfits
    omega

/-- The address the stub computes for byte `i` of a segment. -/
theorem toNat_bias_vaddr {base lo hi : U64} {ph : Phdr} (room : Room k PG base lo hi)
    (h : ph.Mappable (2 ^ k) file) (hin : ph.Within (2 ^ k) lo hi) {i : Nat}
    (hlt : i < ph.pMemsz.toNat) :
    (base - lo + ph.pVaddr + BitVec.ofNat 64 i).toNat = shift base lo (ph.pVaddr.toNat + i) := by
  have hlay := h.layout (Nat.two_pow_pos k)
  have hlo := hin.lo_le
  have hhi := hin.le_hi
  have hstart := hlay.pageStart_le
  have hmem := hlay.le_memCeil
  have htop := h.below_top
  have hend : ph.memEnd = ph.pVaddr.toNat + ph.pMemsz.toNat := rfl
  have hsum : (ph.pVaddr + BitVec.ofNat 64 i).toNat = ph.pVaddr.toNat + i := by
    rw [BitVec.toNat_add, BitVec.toNat_ofNat]
    omega
  rw [BitVec.add_assoc]
  exact room.toNat_bias_add hsum (by omega) (by omega)

/-- The stub maps a loadable interpreter as its program headers ask: every byte of every segment
in place with the segment's protection, every mapping in the range reserved first. -/
theorem mapInterp_maps_segments (hPG : PG.toNat = 2 ^ k) (h : Loadable (2 ^ k) file phs)
    (place : Placement PG) (space : Space) {base : U64}
    (hbase : place.choose (highEnd PG phs - lowEnd PG phs) = some base) :
    ∃ bias image, mapInterp place file phs space = .ok (bias, image) ∧
      bias = base - lowEnd PG phs ∧
      (∀ ph ∈ phs, ph.pType = ptLoad → ∀ i < ph.pMemsz.toNat,
        image.space (bias + ph.pVaddr + BitVec.ofNat 64 i).toNat = some ⟨protOf ph.pFlags,
          if i < ph.pFilesz.toNat then file[ph.pOffset.toNat + i]? else some 0⟩) ∧
      ∀ r ∈ image.mapped, base.toNat ≤ r.1 ∧
        r.1 + r.2 ≤ base.toNat + (highEnd PG phs - lowEnd PG phs).toNat := by
  have room := place.room hPG hbase
  obtain ⟨image, himage, hholds, -, hkept⟩ := mapLoop_spec room h.mappable
    (fun ph hph hload => within_range hPG h hph hload) h.disjoint
    ⟨space.map base.toNat (highEnd PG phs - lowEnd PG phs).toNat ⟨false, false, false⟩
      fun _ => some 0, []⟩
  refine ⟨base - lowEnd PG phs, image, ?_, rfl, ?_, ?_⟩
  · simp only [mapInterp, hbase, himage]
    rfl
  · intro ph hph hload i hi
    rw [toNat_bias_vaddr room (h.mappable ph hph hload) (within_range hPG h hph hload) hi]
    exact hholds ph hph hload i hi
  · intro r hr
    rcases hkept r hr with hold | hin
    · nomatch hold
    · rw [toNat_sub]
      omega

end

def roomAt64 : Placement 4 where
  choose len := if len.toNat ≤ 64 then some 64 else none
  aligned h := by
    split_ifs at h
    rw [← Option.some.inj h]
    decide
  fits h := by
    split_ifs at h with hlen
    have hbase : (64 : U64).toNat = 64 := rfl
    rw [← Option.some.inj h, hbase]
    omega

/-- A text segment, and a data segment with bss that starts and ends inside pages. -/
def textAndData : List Phdr :=
  [⟨ptLoad, 5, 0, 0, 4, 4⟩, ⟨0, 4, 0, 0, 1, 1⟩, ⟨ptLoad, 6, 6, 10, 3, 9⟩]

theorem loadable_textAndData : Loadable (2 ^ 2) [1, 2, 3, 4, 5, 6, 7, 8, 9] textAndData := by
  constructor
  · intro ph hph hload
    simp only [textAndData, mem_cons, not_mem_nil, or_false] at hph
    rcases hph with rfl | rfl | rfl
    · exact ⟨by decide, by decide, by decide, by decide, by decide⟩
    · exact absurd hload (by decide)
    · exact ⟨by decide, by decide, by decide, by decide, by decide⟩
  · simp [textAndData, Phdr.Occupies, ptLoad]

/-- The third byte of the data and the last of its bss, at link addresses 12 and 18. -/
theorem mapInterp_maps_textAndData :
    ∃ bias image, mapInterp roomAt64 [1, 2, 3, 4, 5, 6, 7, 8, 9] textAndData (fun _ => none) =
        .ok (bias, image) ∧
      image.space (bias + 10 + BitVec.ofNat 64 2).toNat = some ⟨⟨true, true, false⟩, some 9⟩ ∧
      image.space (bias + 10 + BitVec.ofNat 64 8).toNat = some ⟨⟨true, true, false⟩, some 0⟩ := by
  have hbase : roomAt64.choose (highEnd 4 textAndData - lowEnd 4 textAndData) = some 64 := by
    decide
  obtain ⟨bias, image, himage, -, hholds, -⟩ := mapInterp_maps_segments (k := 2) (by decide)
    loadable_textAndData roomAt64 (fun _ => none) hbase
  have hdata := hholds ⟨ptLoad, 6, 6, 10, 3, 9⟩ (by decide) rfl
  exact ⟨bias, image, himage, hdata 2 (by decide), hdata 8 (by decide)⟩

/-- Two headers that are mapped otherwise: one with more file than memory, and one whose bss ends
in the last page of 64 bits. -/
def moreFile : Phdr := ⟨ptLoad, 4, 0, 0, 8, 4⟩

def lastPage : Phdr := ⟨ptLoad, 6, 0, BitVec.ofNat 64 (2 ^ 64 - 8), 4, 6⟩

/-- The first is mapped past the four bytes reserved for it; the rounded end of the second is
zero, so that its last bytes stay reserved with no access. -/
theorem moreFile_past_range_and_lastPage_unmapped :
    (moreFile.pVaddr.toNat % 4 = moreFile.pOffset.toNat % 4 ∧
      moreFile.pOffset.toNat + moreFile.pFilesz.toNat ≤ 8 ∧
      ¬ moreFile.pFilesz.toNat < moreFile.pMemsz.toNat ∧
      (highEnd 4 [moreFile] - lowEnd 4 [moreFile]).toNat = 4 ∧
      (mapInterp roomAt64 [1, 2, 3, 4, 5, 6, 7, 8] [moreFile] fun _ => none).map
        (fun result => result.2.mapped) = .ok [(64, 8)]) ∧
    (lastPage.pVaddr.toNat % 4 = lastPage.pOffset.toNat % 4 ∧
      lastPage.pOffset.toNat + lastPage.pFilesz.toNat ≤ 8 ∧
      (protOf lastPage.pFlags).write = true ∧
      (mapInterp roomAt64 [1, 2, 3, 4, 5, 6, 7, 8] [lastPage] fun _ => none).map
        (fun result => result.2.space (result.1 + lastPage.pVaddr + BitVec.ofNat 64 4).toNat) =
          .ok (some ⟨⟨false, false, false⟩, some 0⟩)) :=
  ⟨⟨by decide, by decide, by decide, by decide, rfl⟩, by decide, by decide, by decide, rfl⟩

end Corepkgs.CrtInterp
