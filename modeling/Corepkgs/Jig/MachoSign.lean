import Mathlib
import Corepkgs.Jig.ElfImage
import Corepkgs.Jig.StorePath
import Corepkgs.Lib.Results
/-!
# Signing a Mach-O file again

`Resign` of `macho_fixup.cc`: the embedded signature is found through the load commands, and the
code slots of its code directories are overwritten with the digests of the pages they stand for.
Sums of two 32-bit words wrap at 32 bits, the others at 64.
-/

namespace Corepkgs.Jig.Macho

open Lib Jig.Elf Nat
open Jig.NixStore (sha256)

/-! ## The model -/

def wrap32 (n : Nat) : Nat := n % 2 ^ 32

/-- `image.Read<T>(offset).value_or(0)` for an unsigned `T` -/
def readOr0 (bytes : Bytes) (off size : Nat) : Except Fault Nat := do
  let raw ← read bytes off size
  return (raw.map leNat).getD 0

def big32 (bytes : Bytes) (off : Nat) : Except Fault (Option Nat) := do
  let raw ← read bytes off 4
  return raw.map fun r => leNat r.reverse

def kCodeSignature : Nat := 0x1d
def kEmbeddedSignature : Nat := 0xfade0cc0
def kCodeDirectory : Nat := 0xfade0c02
def kSha256 : Nat := 2
def kSha256Size : Nat := 32

/-- The loop over the load commands; the last signature command counts. -/
def commandLoop (bytes : Bytes) : Nat → Nat → Option Nat → Except Fault (Option Nat)
  | 0, _, sigOff => .ok sigOff
  | count + 1, offset, sigOff => do
      match ← read bytes offset 8 with
      | none => return sigOff
      | some load =>
        if Elf.field load 4 4 < 8 then return sigOff
        else do
          let sigOff ← if Elf.field load 0 4 = kCodeSignature then do
              let raw ← read bytes (wrap (offset + 8)) 4
              pure (raw.map leNat)
            else pure sigOff
          commandLoop bytes count (wrap (offset + Elf.field load 4 4)) sigOff

def signatureOffset (bytes : Bytes) : Except Fault (Option Nat) := do
  match ← read bytes 0 32 with
  | none => return none
  | some header => commandLoop bytes (Elf.field header 16 4) 32 none

structure CodeDirectory where
  place : Nat
  hashOff : Nat
  slots : Nat
  limit : Nat
  hashSize : Nat
  hashType : Nat
  pageShift : Nat
  deriving DecidableEq

namespace CodeDirectory

variable (c : CodeDirectory)

/-- A shift by 64 or more is undefined; the hardware takes it modulo 64. -/
def page : Nat := 2 ^ (c.pageShift % 64)

def pageStart (slot : Nat) : Nat := wrap (slot * c.page)

def pageEnd (slot : Nat) : Nat :=
  min (wrap (c.pageStart slot + c.page)) c.limit

def slotAt (slot : Nat) : Nat :=
  wrap (c.place + c.hashOff + slot * c.hashSize)

end CodeDirectory

def directoryFields (bytes : Bytes) (dir : Nat) : Except Fault CodeDirectory := do
  let hashOff ← big32 bytes (wrap (dir + 16))
  let slots ← big32 bytes (wrap (dir + 28))
  let limit ← big32 bytes (wrap (dir + 32))
  let hashSize ← readOr0 bytes (wrap (dir + 36)) 1
  let hashType ← readOr0 bytes (wrap (dir + 37)) 1
  let pageShift ← readOr0 bytes (wrap (dir + 39)) 1
  return ⟨dir, hashOff.getD 0, slots.getD 0, limit.getD 0, hashSize, hashType, pageShift⟩

/-- The blob at `dir`, if it is a code directory. -/
def readDirectory (bytes : Bytes) (dir : Nat) : Except Fault (Option CodeDirectory) := do
  if (← big32 bytes dir) ≠ some kCodeDirectory then return none
  else
    let c ← directoryFields bytes dir
    return some c

inductive SignComplaint where
  | noEmbeddedSignature
  | hashType (found : Nat)
  | slotOutside (slot : Nat)
  deriving DecidableEq

/-- The loop over the slots from `slot` on, with the complaint it ends with if it fails. -/
def signSlots (c : CodeDirectory) : Nat → Nat → Bytes → Except Fault (Option SignComplaint × Bytes)
  | 0, _, bytes => .ok (none, bytes)
  | count + 1, slot, bytes => do
      let data ← substr bytes (c.pageStart slot)
        (wrap (c.pageEnd slot + (2 ^ 64 - c.pageStart slot)))
      match write bytes (c.slotAt slot) (sha256 data) with
      | (false, _) => return (some (.slotOutside slot), bytes)
      | (true, bytes) => signSlots c count (slot + 1) bytes

def signDirectory (c : CodeDirectory) (bytes : Bytes) :
    Except Fault (Option SignComplaint × Bytes) :=
  if c.hashType ≠ kSha256 ∨ c.hashSize ≠ kSha256Size then .ok (some (.hashType c.hashType), bytes)
  else signSlots c c.slots 0 bytes

def indexEntry (sigOff i : Nat) : Nat := wrap (wrap32 (sigOff + 12) + i * 8 + 4)

def blobAt (bytes : Bytes) (sigOff i : Nat) : Except Fault Nat := do
  let off ← big32 bytes (indexEntry sigOff i)
  return wrap32 (sigOff + off.getD 0)

def signBlobs (sigOff : Nat) : Nat → Nat → Bytes → Except Fault (Option SignComplaint × Bytes)
  | 0, _, bytes => .ok (none, bytes)
  | count + 1, i, bytes => do
      let dir ← blobAt bytes sigOff i
      match ← readDirectory bytes dir with
      | none => signBlobs sigOff count (i + 1) bytes
      | some c =>
        match ← signDirectory c bytes with
        | (some complaint, bytes) => return (some complaint, bytes)
        | (none, bytes) => signBlobs sigOff count (i + 1) bytes

def blobCount (bytes : Bytes) (sigOff : Nat) : Except Fault Nat := do
  let count ← big32 bytes (wrap32 (sigOff + 8))
  return count.getD 0

/-- `Resign` returns true if there is no complaint. -/
def resign (bytes : Bytes) : Except Fault (Option SignComplaint × Bytes) := do
  match ← signatureOffset bytes with
  | none => return (none, bytes)
  | some sigOff =>
    if (← big32 bytes sigOff) ≠ some kEmbeddedSignature then
      return (some .noEmbeddedSignature, bytes)
    else
      let blobs ← blobCount bytes sigOff
      signBlobs sigOff blobs 0 bytes

/-! ## Reading -/

variable {S : Set Nat} {a b bytes : Bytes} {off dir : Nat} {c : CodeDirectory}

theorem read_agree (h : AgreeOff S a b) {size : Nat} (hd : Disjoint (Set.Ico off (off + size)) S) :
    read a off size = read b off size := by
  rw [read_eq, read_eq, h.length, h.slice_eq hd]

theorem big32_agree (h : AgreeOff S a b) (hd : Disjoint (Set.Ico off (off + 4)) S) :
    big32 a off = big32 b off := by
  rw [big32, big32, read_agree h hd]

theorem big32_lt {n : Nat} (h : big32 bytes off = .ok (some n)) :
    n < 2 ^ 32 := by
  rw [big32, read_eq] at h
  by_cases hin : off + 4 ≤ bytes.length
  · rw [if_pos hin] at h
    cases h
    have hlt := leNat_lt (slice bytes off 4).reverse
    have hlen : (slice bytes off 4).reverse.length ≤ 4 := by
      rw [List.length_reverse, slice, List.length_take]
      omega
    calc leNat (slice bytes off 4).reverse < 256 ^ (slice bytes off 4).reverse.length := hlt
      _ ≤ 256 ^ 4 := Nat.pow_le_pow_right (by omega) hlen
      _ = 2 ^ 32 := by norm_num
  · rw [if_neg hin] at h
    cases h

theorem getD_big32_lt {n : Option Nat} (h : big32 bytes off = .ok n) :
    n.getD 0 < 2 ^ 32 := by
  cases n with
  | none => exact Nat.two_pow_pos 32
  | some n => exact big32_lt h

theorem big32_ok (bytes : Bytes) (off : Nat) : ∃ n, big32 bytes off = .ok n := by
  rw [big32, read_eq]
  exact ⟨_, rfl⟩

theorem readOr0_ok (bytes : Bytes) (off size : Nat) : ∃ n, readOr0 bytes off size = .ok n := by
  rw [readOr0, read_eq]
  exact ⟨_, rfl⟩

structure CodeDirectory.Words (c : CodeDirectory) : Prop where
  place : c.place < 2 ^ 32
  hashOff : c.hashOff < 2 ^ 32
  slots : c.slots < 2 ^ 32
  limit : c.limit < 2 ^ 32

theorem directoryFields_ok (bytes : Bytes) (hdir : dir < 2 ^ 32) :
    ∃ c, directoryFields bytes dir = .ok c ∧ c.place = dir ∧ c.Words := by
  obtain ⟨hashOff, hhash⟩ := big32_ok bytes (wrap (dir + 16))
  obtain ⟨slots, hslots⟩ := big32_ok bytes (wrap (dir + 28))
  obtain ⟨limit, hlimit⟩ := big32_ok bytes (wrap (dir + 32))
  obtain ⟨hashSize, hsize⟩ := readOr0_ok bytes (wrap (dir + 36)) 1
  obtain ⟨hashType, htype⟩ := readOr0_ok bytes (wrap (dir + 37)) 1
  obtain ⟨pageShift, hshift⟩ := readOr0_ok bytes (wrap (dir + 39)) 1
  rw [directoryFields, hhash, hslots, hlimit, hsize, htype, hshift]
  exact ⟨_, rfl, rfl, hdir, getD_big32_lt hhash, getD_big32_lt hslots, getD_big32_lt hlimit⟩

theorem directoryFields_agree (h : AgreeOff S a b) (hdir : dir < 2 ^ 32)
    (hd : Disjoint (Set.Ico dir (dir + 40)) S) :
    directoryFields b dir = directoryFields a dir := by
  have hsub : ∀ off size, off + size ≤ 40 →
      Disjoint (Set.Ico (wrap (dir + off)) (wrap (dir + off) + size)) S := by
    intro off size hle
    have hwrap : wrap (dir + off) = dir + off := mod_eq_of_lt (by omega)
    rw [hwrap]
    exact hd.mono_left (Set.Ico_subset_Ico (by omega) (by omega))
  have hread : ∀ off, off + 1 ≤ 40 →
      readOr0 b (wrap (dir + off)) 1 = readOr0 a (wrap (dir + off)) 1 := by
    intro off hle
    rw [readOr0, readOr0, read_agree h (hsub off 1 hle)]
  rw [directoryFields, directoryFields, big32_agree h (hsub 16 4 (by omega)),
    big32_agree h (hsub 28 4 (by omega)), big32_agree h (hsub 32 4 (by omega)),
    hread 36 (by omega), hread 37 (by omega), hread 39 (by omega)]

theorem readDirectory_cases (bytes : Bytes) (hdir : dir < 2 ^ 32) :
    big32 bytes dir ≠ .ok (some kCodeDirectory) ∧ readDirectory bytes dir = .ok none ∨
      ∃ c, big32 bytes dir = .ok (some kCodeDirectory) ∧ directoryFields bytes dir = .ok c ∧
        readDirectory bytes dir = .ok (some c) ∧ c.place = dir ∧ c.Words := by
  obtain ⟨magic, hmagic⟩ := big32_ok bytes dir
  rw [readDirectory, hmagic]
  simp only [bind, Except.bind]
  by_cases hcode : magic = some kCodeDirectory
  · obtain ⟨c, hc, hplace, hwords⟩ := directoryFields_ok bytes hdir
    refine .inr ⟨c, by rw [hcode], hc, ?_, hplace, hwords⟩
    rw [if_neg (not_not.mpr hcode), hc]
    rfl
  · refine .inl ⟨fun h => hcode (Except.ok.inj h), ?_⟩
    rw [if_pos hcode]
    rfl

theorem readDirectory_agree (h : AgreeOff S a b) (hdir : dir < 2 ^ 32)
    (hmagic : Disjoint (Set.Ico dir (dir + 4)) S)
    (hheader : ∀ c, readDirectory a dir = .ok (some c) → Disjoint (Set.Ico dir (dir + 40)) S) :
    readDirectory b dir = readDirectory a dir := by
  have hsame := big32_agree h hmagic
  rcases readDirectory_cases a hdir with ⟨hno, ha⟩ | ⟨c, hyes, hfields, ha, -, -⟩
  · rcases readDirectory_cases b hdir with ⟨-, hb⟩ | ⟨c, hyes, -⟩
    · rw [ha, hb]
    · exact absurd (hsame.trans hyes) hno
  · rcases readDirectory_cases b hdir with ⟨hno, -⟩ | ⟨c', -, hfields', hb, -, -⟩
    · exact absurd (hsame.symm.trans hyes) hno
    · rw [directoryFields_agree h hdir (hheader c ha), hfields, Except.ok.injEq] at hfields'
      rw [ha, hb, hfields']

/-! ## One directory -/

namespace CodeDirectory

variable (c : CodeDirectory)

def slotBytes : Set Nat :=
  Set.Ico (c.place + c.hashOff) (c.place + c.hashOff + 32 * c.slots)

structure Covers (c : CodeDirectory) : Prop where
  shift : c.pageShift < 64
  below : ∀ slot < c.slots, slot * 2 ^ c.pageShift < c.limit

def pageOf (bytes : Bytes) (slot : Nat) : Bytes :=
  slice bytes (slot * 2 ^ c.pageShift)
    (min ((slot + 1) * 2 ^ c.pageShift) c.limit - slot * 2 ^ c.pageShift)

def SlotValid (bytes : Bytes) (slot : Nat) : Prop :=
  slice bytes (c.place + c.hashOff + 32 * slot) 32 = sha256 (c.pageOf bytes slot)

section

variable {c : CodeDirectory} {slot : Nat}

theorem slotAt_eq (hw : c.Words) (hsize : c.hashSize = 32) (hslot : slot < c.slots) :
    c.slotAt slot = c.place + c.hashOff + 32 * slot := by
  have h1 := hw.place
  have h2 := hw.hashOff
  have h3 := hw.slots
  rw [slotAt, hsize, wrap, mod_eq_of_lt (by omega), mul_comm]

theorem page_eq (hw : c.Words) (hc : c.Covers) (hslot : slot < c.slots) :
    c.pageStart slot = slot * 2 ^ c.pageShift ∧
      c.pageEnd slot = min ((slot + 1) * 2 ^ c.pageShift) c.limit ∧
      wrap (c.pageEnd slot + (2 ^ 64 - c.pageStart slot)) = c.pageEnd slot - c.pageStart slot := by
  have hlimit := hw.limit
  have hbelow := hc.below slot hslot
  have hpage : c.page = 2 ^ c.pageShift := by rw [page, mod_eq_of_lt hc.shift]
  have hpos : 0 < 2 ^ c.pageShift := Nat.two_pow_pos _
  have hhalf : 2 ^ c.pageShift ≤ 2 ^ 63 :=
    Nat.pow_le_pow_right (by omega) (by have := hc.shift; omega)
  have hstart : c.pageStart slot = slot * 2 ^ c.pageShift := by
    rw [pageStart, hpage, wrap, mod_eq_of_lt (by omega)]
  have hend : c.pageEnd slot = min ((slot + 1) * 2 ^ c.pageShift) c.limit := by
    rw [pageEnd, hstart, hpage, wrap, mod_eq_of_lt (by omega), succ_mul]
  refine ⟨hstart, hend, ?_⟩
  rw [succ_mul] at hend
  rw [wrap]
  have hsum : c.pageEnd slot + (2 ^ 64 - c.pageStart slot) =
      (c.pageEnd slot - c.pageStart slot) + 2 ^ 64 := by omega
  rw [hsum, add_mod_right, mod_eq_of_lt (by omega)]

end

variable {c : CodeDirectory}

/-- A page is below the code limit. -/
theorem pageOf_agree {S : Set Nat} {a b : Bytes} (h : AgreeOff S a b)
    (hS : ∀ i ∈ S, c.limit ≤ i) (slot : Nat) : c.pageOf a slot = c.pageOf b slot := by
  apply h.slice_eq
  rw [Set.disjoint_left]
  intro i hi hiS
  have hge := hS i hiS
  rw [Set.mem_Ico] at hi
  omega

end CodeDirectory

theorem length_sha256 (data : Bytes) : (sha256 data).length = 32 := by
  simp [sha256, NixStore.wordBytes]

theorem write_eq_true {bytes' value : Bytes} (h : write bytes off value = (true, bytes')) :
    off + value.length ≤ bytes.length ∧ bytes' = overwriteAt bytes off value := by
  unfold write at h
  split_ifs at h with hout
  · exact absurd (congrArg Prod.fst h) (by simp)
  · exact ⟨by omega, (congrArg Prod.snd h).symm⟩

/-- A valid slot stays valid if neither it nor a page is written to. -/
theorem CodeDirectory.SlotValid.agree {slot : Nat} (hvalid : c.SlotValid a slot)
    (h : AgreeOff S a b) (hpage : ∀ i ∈ S, c.limit ≤ i)
    (hslot : Disjoint (Set.Ico (c.place + c.hashOff + 32 * slot)
      (c.place + c.hashOff + 32 * slot + 32)) S) : c.SlotValid b slot := by
  rw [SlotValid, ← h.slice_eq hslot, ← c.pageOf_agree h hpage]
  exact hvalid

/-- The loop over the slots: those behind are valid, and only slots are written to. -/
theorem signSlots_valid (hw : c.Words) (hc : c.Covers) (hsize : c.hashSize = 32)
    (hbehind : 0 < c.slots → c.limit ≤ c.place + c.hashOff) {count slot : Nat} {final : Bytes}
    (hcount : slot + count = c.slots) (hdone : ∀ s < slot, c.SlotValid bytes s)
    (h : signSlots c count slot bytes = .ok (none, final)) :
    AgreeOff c.slotBytes bytes final ∧ ∀ s < c.slots, c.SlotValid final s := by
  induction count generalizing slot bytes with
  | zero =>
    cases h
    exact ⟨.refl _ _, fun s hs => hdone s (by omega)⟩
  | succ count ih =>
    have hslot : slot < c.slots := by omega
    have hlimit := hbehind (by omega)
    obtain ⟨hstart, hend, hlen⟩ := CodeDirectory.page_eq hw hc hslot
    rw [signSlots, bind_eq_ok] at h
    obtain ⟨data, hdata, h⟩ := h
    -- what is hashed is the page
    have hpage : data = c.pageOf bytes slot := by
      rw [hlen, hstart, hend, substr] at hdata
      split_ifs at hdata
      cases hdata
      rfl
    rw [CodeDirectory.slotAt_eq hw hsize hslot] at h
    split at h
    · cases h
    · rename_i bytes' hwrite
      obtain ⟨hin, rfl⟩ := write_eq_true hwrite
      have hover := agreeOff_overwriteAt hin
      have hself := slice_overwriteAt hin
      rw [length_sha256] at hover hself hin
      have hafter : ∀ i ∈ Set.Ico (c.place + c.hashOff + 32 * slot)
          (c.place + c.hashOff + 32 * slot + 32), c.limit ≤ i := by
        intro i hi
        have hge := hi.1
        omega
      have hnext : ∀ s < slot + 1, c.SlotValid
          (overwriteAt bytes (c.place + c.hashOff + 32 * slot) (sha256 data)) s := by
        intro s hs
        by_cases hlast : s = slot
        · rw [CodeDirectory.SlotValid, hlast, hself, ← c.pageOf_agree hover hafter, hpage]
        · refine (hdone s (by omega)).agree hover hafter ?_
          rw [Set.disjoint_left]
          intro i hi hi'
          rw [Set.mem_Ico] at hi hi'
          omega
      obtain ⟨hagree, hvalid⟩ := ih (by omega) hnext h
      refine ⟨(hover.mono ?_).trans hagree, hvalid⟩
      exact Set.Ico_subset_Ico (by omega) (by omega)

theorem signDirectory_valid (hw : c.Words) (hc : c.Covers)
    (hbehind : 0 < c.slots → c.limit ≤ c.place + c.hashOff) {final : Bytes}
    (h : signDirectory c bytes = .ok (none, final)) :
    AgreeOff c.slotBytes bytes final ∧ ∀ s < c.slots, c.SlotValid final s := by
  unfold signDirectory at h
  split_ifs at h with htype
  · cases h
  · have hsize : c.hashSize = 32 := by
      by_contra hne
      exact htype (.inr hne)
    exact signSlots_valid hw hc hsize hbehind (zero_add _) (by omega) h

/-! ## All directories -/

def blobDirectory (bytes : Bytes) (sigOff i : Nat) : Except Fault (Option CodeDirectory) := do
  let dir ← blobAt bytes sigOff i
  readDirectory bytes dir

def IsDirectory (bytes : Bytes) (sigOff blobs : Nat) (c : CodeDirectory) : Prop :=
  ∃ i < blobs, blobDirectory bytes sigOff i = .ok (some c)

def allSlots (bytes : Bytes) (sigOff blobs : Nat) : Set Nat :=
  {i | ∃ c, IsDirectory bytes sigOff blobs c ∧ i ∈ c.slotBytes}

/-- The hash arrays are behind every code limit and apart from each other, and nothing that the
directories are found by is in one. -/
structure Apart (bytes : Bytes) (sigOff blobs : Nat) : Prop where
  covers : ∀ c, IsDirectory bytes sigOff blobs c → c.Covers
  behind : ∀ c c', IsDirectory bytes sigOff blobs c → IsDirectory bytes sigOff blobs c' →
    0 < c.slots → c'.limit ≤ c.place + c.hashOff
  arrays : ∀ c c', IsDirectory bytes sigOff blobs c → IsDirectory bytes sigOff blobs c' →
    c = c' ∨ Disjoint c.slotBytes c'.slotBytes
  index : ∀ i < blobs,
    Disjoint (Set.Ico (indexEntry sigOff i) (indexEntry sigOff i + 4)) (allSlots bytes sigOff blobs)
  magic : ∀ i < blobs, ∀ dir, blobAt bytes sigOff i = .ok dir →
    Disjoint (Set.Ico dir (dir + 4)) (allSlots bytes sigOff blobs)
  headers : ∀ c, IsDirectory bytes sigOff blobs c →
    Disjoint (Set.Ico c.place (c.place + 40)) (allSlots bytes sigOff blobs)

theorem blobAt_ok (bytes : Bytes) (sigOff i : Nat) :
    ∃ dir, blobAt bytes sigOff i = .ok dir ∧ dir < 2 ^ 32 := by
  obtain ⟨off, hoff⟩ := big32_ok bytes (indexEntry sigOff i)
  rw [blobAt, hoff]
  exact ⟨_, rfl, Nat.mod_lt _ (Nat.two_pow_pos 32)⟩

section

variable {bytes bytes' final : Bytes} {sigOff blobs : Nat}

theorem words_of_isDirectory (h : IsDirectory bytes sigOff blobs c) :
    c.Words := by
  obtain ⟨i, -, hc⟩ := h
  obtain ⟨dir, hdir, hlt⟩ := blobAt_ok bytes sigOff i
  rw [blobDirectory, hdir] at hc
  rcases readDirectory_cases bytes hlt with ⟨-, hno⟩ | ⟨c', -, -, hyes, -, hwords⟩
  · rw [show readDirectory bytes dir = .ok (some c) from hc] at hno
    cases hno
  · rw [show readDirectory bytes dir = .ok (some c) from hc] at hyes
    cases hyes
    exact hwords

/-- The same directories are found as long as only slots have been written to. -/
theorem Apart.same (h : Apart bytes sigOff blobs)
    (hagree : AgreeOff (allSlots bytes sigOff blobs) bytes bytes') {i : Nat} (hi : i < blobs) :
    blobAt bytes' sigOff i = blobAt bytes sigOff i ∧
      blobDirectory bytes' sigOff i = blobDirectory bytes sigOff i := by
  have hblob : blobAt bytes' sigOff i = blobAt bytes sigOff i := by
    rw [blobAt, blobAt, big32_agree hagree (h.index i hi)]
  obtain ⟨dir, hdir, hlt⟩ := blobAt_ok bytes sigOff i
  refine ⟨hblob, ?_⟩
  rw [blobDirectory, blobDirectory, hblob, hdir]
  refine readDirectory_agree hagree hlt (h.magic i hi dir hdir) fun c hc => ?_
  have hdirectory : IsDirectory bytes sigOff blobs c :=
    ⟨i, hi, by rw [blobDirectory, hdir]; exact hc⟩
  have hplace : c.place = dir := by
    rcases readDirectory_cases bytes hlt with ⟨-, hno⟩ | ⟨c', -, -, hyes, hplace, -⟩
    · rw [hc] at hno
      cases hno
    · rw [hc] at hyes
      cases hyes
      exact hplace
  rw [← hplace]
  exact h.headers c hdirectory

/-- Signing one directory keeps the others valid. -/
theorem Apart.slotValid_stays (h : Apart bytes sigOff blobs) {c' : CodeDirectory}
    (hc : IsDirectory bytes sigOff blobs c) (hc' : IsDirectory bytes sigOff blobs c') (hne : c ≠ c')
    {a b : Bytes} (hagree : AgreeOff c.slotBytes a b) {s : Nat} (hs : s < c'.slots)
    (hvalid : c'.SlotValid a s) : c'.SlotValid b s := by
  apply hvalid.agree hagree
  · intro i hi
    have hlt : 0 < c.slots := by
      rw [CodeDirectory.slotBytes, Set.mem_Ico] at hi
      omega
    have hge := h.behind c c' hc hc' hlt
    have hi' := hi.1
    omega
  · have hdisjoint := (h.arrays c c' hc hc').resolve_left hne
    refine hdisjoint.symm.mono_left (Set.Ico_subset_Ico ?_ ?_) <;> omega

theorem signBlobs_valid (h : Apart bytes sigOff blobs) {count i : Nat} {now : Bytes}
    (hcount : i + count = blobs) (hagree : AgreeOff (allSlots bytes sigOff blobs) bytes now)
    (hdone : ∀ j < i, ∀ c, blobDirectory bytes sigOff j = .ok (some c) →
      ∀ s < c.slots, c.SlotValid now s)
    (hrun : signBlobs sigOff count i now = .ok (none, final)) :
    AgreeOff (allSlots bytes sigOff blobs) bytes final ∧
      ∀ c, IsDirectory bytes sigOff blobs c → ∀ s < c.slots, c.SlotValid final s := by
  induction count generalizing i now with
  | zero =>
    cases hrun
    refine ⟨hagree, ?_⟩
    rintro c ⟨j, hj, hc⟩
    exact hdone j (by omega) c hc
  | succ count ih =>
    have hi : i < blobs := by omega
    obtain ⟨hblob, hsame⟩ := h.same hagree hi
    obtain ⟨dir, hdir, -⟩ := blobAt_ok bytes sigOff i
    rw [blobDirectory, blobDirectory, hblob, hdir] at hsame
    have hread : readDirectory now dir = readDirectory bytes dir := hsame
    rw [signBlobs, hblob, hdir] at hrun
    obtain ⟨found, hfound, hrun⟩ :=
      bind_eq_ok.mp (show (readDirectory now dir >>= _) = _ from hrun)
    have hhere : blobDirectory bytes sigOff i = .ok found := by
      rw [blobDirectory, hdir]
      exact hread.symm.trans hfound
    cases found with
    | none =>
      refine ih (by omega) hagree ?_ hrun
      intro j hj c hc
      by_cases hlast : j = i
      · rw [hlast, hhere] at hc
        cases hc
      · exact hdone j (by omega) c hc
    | some c =>
      have hc : IsDirectory bytes sigOff blobs c := ⟨i, hi, hhere⟩
      obtain ⟨signed, hsigned, hrun⟩ := bind_eq_ok.mp hrun
      obtain ⟨complaint, next⟩ := signed
      cases complaint with
      | some complaint => cases hrun
      | none =>
        obtain ⟨hwrote, hvalid⟩ := signDirectory_valid (words_of_isDirectory hc)
          (h.covers c hc) (h.behind c c hc hc) hsigned
        have hsub : c.slotBytes ⊆ allSlots bytes sigOff blobs := fun k hk => ⟨c, hc, hk⟩
        refine ih (by omega) (hagree.trans (hwrote.mono hsub)) ?_ hrun
        intro j hj c' hc' s hs
        by_cases hcc : c = c'
        · subst hcc
          exact hvalid s hs
        · have hj' : j < i := by
            by_contra hge
            have hji : j = i := by omega
            rw [hji, hhere] at hc'
            cases hc'
            exact hcc rfl
          exact h.slotValid_stays hc ⟨j, by omega, hc'⟩ hcc hwrote hs
            (hdone j hj' c' hc' s hs)

end

/-- Signing again leaves a valid signature if the hash arrays are behind every code limit, apart
from each other and from what the directories are found by: every slot of every code directory
holds the digest of its page of the final image, and nothing but slots has changed.  The final
image has the same code directories. -/
theorem resign_leaves_valid (bytes final : Bytes) (sigOff blobs : Nat)
    (hsig : signatureOffset bytes = .ok (some sigOff)) (hblobs : blobCount bytes sigOff = .ok blobs)
    (hapart : Apart bytes sigOff blobs) (h : resign bytes = .ok (none, final)) :
    AgreeOff (allSlots bytes sigOff blobs) bytes final ∧
      (∀ c, IsDirectory final sigOff blobs c ↔ IsDirectory bytes sigOff blobs c) ∧
      ∀ c, IsDirectory bytes sigOff blobs c → ∀ slot < c.slots, c.SlotValid final slot := by
  rw [resign, hsig] at h
  obtain ⟨magic, hmagic, h⟩ := bind_eq_ok.mp (show (big32 bytes sigOff >>= _) = _ from h)
  split_ifs at h
  · cases h
  · rw [hblobs] at h
    obtain ⟨hagree, hvalid⟩ := signBlobs_valid hapart (zero_add blobs) (.refl _ _) (by omega) h
    refine ⟨hagree, fun c => ?_, hvalid⟩
    constructor
    · rintro ⟨i, hi, hc⟩
      exact ⟨i, hi, by rw [← (hapart.same hagree hi).2]; exact hc⟩
    · rintro ⟨i, hi, hc⟩
      exact ⟨i, hi, by rw [(hapart.same hagree hi).2]; exact hc⟩

def bigBytes (n : Nat) : Bytes := (leBytes 4 n).reverse

def signedHeader : Bytes :=
  leBytes 4 0xfeedfacf ++ List.replicate 12 0 ++ leBytes 4 1 ++ leBytes 4 16 ++
    List.replicate 8 0 ++
  leBytes 4 kCodeSignature ++ leBytes 4 16 ++ leBytes 4 48 ++ leBytes 4 200

def codeDirectory (hashOff slots limit : Nat) (shift : UInt8) : Bytes :=
  bigBytes kCodeDirectory ++ List.replicate 12 0 ++ bigBytes hashOff ++ List.replicate 8 0 ++
  bigBytes slots ++ bigBytes limit ++ [32, 2, 0, shift] ++ List.replicate 4 0

/-- A signature with one code directory, whose limit is the end of the header, in the middle of the
second of its pages. -/
def signedFile : Bytes :=
  signedHeader ++ bigBytes kEmbeddedSignature ++ bigBytes 128 ++ bigBytes 1 ++
  bigBytes 0 ++ bigBytes 20 ++ codeDirectory 44 2 48 5 ++ List.replicate 64 0

def signedFileDirectory : CodeDirectory := ⟨68, 44, 2, 48, 32, 2, 5⟩

theorem isDirectory_signedFile (h : IsDirectory signedFile 48 1 c) :
    c = signedFileDirectory := by
  obtain ⟨i, hi, hc⟩ := h
  have hzero : i = 0 := by omega
  have hfound : blobDirectory signedFile 48 0 = .ok (some signedFileDirectory) := by decide +kernel
  rw [hzero, hfound] at hc
  cases hc
  rfl

theorem allSlots_signedFile : allSlots signedFile 48 1 ⊆ Set.Ico 112 176 := by
  rintro i ⟨c, hc, hi⟩
  rw [isDirectory_signedFile hc] at hi
  exact hi

theorem apart_signedFile : Apart signedFile 48 1 := by
  have hoff : ∀ first last, last ≤ 112 →
      Disjoint (Set.Ico first last) (allSlots signedFile 48 1) := by
    intro first last hle
    rw [Set.disjoint_left]
    intro i hi hin
    have hge := (allSlots_signedFile hin).1
    have hlt := hi.2
    omega
  constructor
  · intro c hc
    rw [isDirectory_signedFile hc]
    exact ⟨by decide, by decide⟩
  · intro c c' hc hc' _
    rw [isDirectory_signedFile hc, isDirectory_signedFile hc']
    decide
  · intro c c' hc hc'
    rw [isDirectory_signedFile hc, isDirectory_signedFile hc']
    exact .inl rfl
  · intro i hi
    have hzero : i = 0 := by omega
    rw [hzero]
    exact hoff _ _ (by decide)
  · intro i hi dir hdir
    have hzero : i = 0 := by omega
    have hfound : blobAt signedFile 48 0 = .ok 68 := by decide +kernel
    rw [hzero, hfound] at hdir
    cases hdir
    exact hoff _ _ (by decide)
  · intro c hc
    rw [isDirectory_signedFile hc]
    exact hoff _ _ (by decide)

theorem resign_signedFile :
    ∃ final, resign signedFile = .ok (none, final) ∧
      ∀ slot < 2, signedFileDirectory.SlotValid final slot := by
  have hdone : (resign signedFile).map Prod.fst = .ok none := by decide +kernel
  cases hfinal : resign signedFile with
  | error fault =>
    rw [hfinal] at hdone
    cases hdone
  | ok result =>
    obtain ⟨complaint, final⟩ := result
    rw [hfinal] at hdone
    cases hdone
    have hdirectory : IsDirectory signedFile 48 1 signedFileDirectory :=
      ⟨0, by decide, by decide +kernel⟩
    obtain ⟨-, -, hvalid⟩ := resign_leaves_valid signedFile final 48 1 (by decide +kernel)
      (by decide +kernel) apart_signedFile hfinal
    exact ⟨final, rfl, hvalid _ hdirectory⟩

/-- Two code directories with limits of 48 and 47 bytes that share their slot. -/
def sharedSlot : Bytes :=
  signedHeader ++ bigBytes kEmbeddedSignature ++ bigBytes 148 ++ bigBytes 2 ++
  bigBytes 0 ++ bigBytes 28 ++ bigBytes 1 ++ bigBytes 72 ++ codeDirectory 88 1 48 12 ++
  codeDirectory 44 1 47 12 ++
  List.replicate 32 0

/-- Both keep their slot behind their limits, and the first is left with the second's digest. -/
theorem shared_slot_overwritten :
    blobDirectory sharedSlot 48 0 = .ok (some ⟨76, 88, 1, 48, 32, 2, 12⟩) ∧
      blobDirectory sharedSlot 48 1 = .ok (some ⟨120, 44, 1, 47, 32, 2, 12⟩) ∧
      (match resign sharedSlot with
        | .ok (none, final) =>
          decide (slice final 164 32 = sha256 (slice final 0 47) ∧
            slice final 164 32 ≠ sha256 (slice final 0 48))
        | _ => false) = true := by
  decide +kernel

end Corepkgs.Jig.Macho
