import Mathlib
import Corepkgs.Jig.Base
import Corepkgs.Lib.Frames
import Corepkgs.Lib.Strides
/-!
# Reading ELF images

`BinaryImage` of `fixup_mode.h` and the readers of `elf_fixup.cc`.  Offsets are 64-bit words, sums
of them wrap.  An access outside the image is a fault, and so is a loop that is still running when
its fuel is used up: that neither happens is for theorems to say.
-/

namespace Corepkgs.Jig.Elf

open Lib List

/-! ## Images -/

inductive Fault where
  /-- a byte outside the image, or `std::out_of_range` -/
  | outOfRange
  /-- more iterations than the fuel allows -/
  | spin
  deriving DecidableEq

/-- A file in a `std::string`, which holds less than 2^63 bytes. -/
structure BinaryImage where
  bytes : Bytes
  fits : bytes.length < 2 ^ 63

def wrap (n : Nat) : Nat := n % 2 ^ 64

def peek (bytes : Bytes) (off size : Nat) : Except Fault Bytes :=
  if off + size ≤ bytes.length then .ok (slice bytes off size) else .error .outOfRange

/-- `std::string::substr`, which throws if it starts outside. -/
def substr (bytes : Bytes) (off size : Nat) : Except Fault Bytes :=
  if off ≤ bytes.length then .ok (slice bytes off size) else .error .outOfRange

def read (bytes : Bytes) (off size : Nat) : Except Fault (Option Bytes) :=
  if bytes.length < off ∨ bytes.length - off < size then .ok none
  else (peek bytes off size).map some

def cString (bytes : Bytes) (off : Nat) : Except Fault Bytes :=
  if bytes.length ≤ off then .ok []
  else substr bytes off (((bytes.drop off).idxOf? 0).getD bytes.length)

def field (record : Bytes) (off size : Nat) : Nat := leNat (slice record off size)

theorem field_lt (record : Bytes) (off size : Nat) : field record off size < 256 ^ size := by
  refine lt_of_lt_of_le (leNat_lt _) (Nat.pow_le_pow_right (by omega) ?_)
  rw [slice, length_take]
  omega

def write (bytes : Bytes) (off : Nat) (value : Bytes) : Bool × Bytes :=
  if bytes.length < off ∨ bytes.length - off < value.length then (false, bytes)
  else (true, overwriteAt bytes off value)

def writePadded (bytes : Bytes) (off capacity : Nat) (text : Bytes) : Bool × Bytes :=
  if capacity < text.length + 1 ∨ bytes.length < off ∨ bytes.length - off < capacity then
    (false, bytes)
  else (true, overwriteAt bytes off (text ++ replicate (capacity - text.length) 0))

theorem read_eq (bytes : Bytes) (off size : Nat) :
    read bytes off size =
      .ok (if off + size ≤ bytes.length then some (slice bytes off size) else none) := by
  unfold read peek
  by_cases h : off + size ≤ bytes.length
  · rw [if_neg (by omega), if_pos h, if_pos h]
    rfl
  · rw [if_neg h, if_neg h]
    by_cases hoff : bytes.length < off ∨ bytes.length - off < size
    · rw [if_pos hoff]
    · omega

theorem take_idxOf? (l : Bytes) {n : Nat} (hn : l.length ≤ n) :
    l.take ((l.idxOf? 0).getD n) = l.takeWhile (· ≠ 0) := by
  induction l generalizing n with
  | nil => simp
  | cons b l ih =>
    rw [idxOf?_cons]
    by_cases hb : b = 0
    · simp [hb]
    · obtain ⟨n, rfl⟩ : ∃ k, n = k + 1 := ⟨n - 1, by simp only [length_cons] at hn; omega⟩
      have htail := ih (n := n) (by simpa using hn)
      rw [takeWhile_cons_of_pos (by simpa using hb), ← htail, if_neg (by simpa using hb)]
      cases l.idxOf? 0 <;> rfl

theorem cString_eq (bytes : Bytes) (off : Nat) :
    cString bytes off = .ok ((bytes.drop off).takeWhile (· ≠ 0)) := by
  unfold cString substr
  by_cases h : bytes.length ≤ off
  · rw [if_pos h, drop_of_length_le h]
    rfl
  · rw [if_neg h, if_pos (by omega), slice]
    rw [take_idxOf? _ (by rw [length_drop]; omega)]

/-! ## Headers -/

structure Ehdr where
  raw : Bytes
  deriving DecidableEq

namespace Ehdr

variable (e : Ehdr)

def type : Nat := field e.raw 16 2
def entry : Nat := field e.raw 24 8
def phoff : Nat := field e.raw 32 8
def shoff : Nat := field e.raw 40 8
def phentsize : Nat := field e.raw 54 2
def phnum : Nat := field e.raw 56 2
def shentsize : Nat := field e.raw 58 2
def shnum : Nat := field e.raw 60 2

def withEntry (entry : Nat) : Ehdr := ⟨overwriteAt e.raw 24 (leBytes 8 entry)⟩

end Ehdr

def readEhdr (bytes : Bytes) : Except Fault (Option Ehdr) := do
  let record ← read bytes 0 64
  return record.map Ehdr.mk

structure Phdr where
  raw : Bytes

namespace Phdr

variable (p : Phdr)

def type : Nat := field p.raw 0 4
def offset : Nat := field p.raw 8 8
def vaddr : Nat := field p.raw 16 8
def filesz : Nat := field p.raw 32 8

def withType (type : Nat) : Phdr := ⟨overwriteAt p.raw 0 (leBytes 4 type)⟩

end Phdr

def readPhdr (bytes : Bytes) (off : Nat) : Except Fault (Option Phdr) := do
  let record ← read bytes off 56
  return record.map Phdr.mk

structure Section where
  type : Nat
  offset : Nat
  size : Nat
  link : Nat
  entsize : Nat
  entsize_lt : entsize < 2 ^ 64
  deriving DecidableEq

def sectionOf (record : Bytes) : Section where
  type := field record 4 4
  offset := field record 24 8
  size := field record 32 8
  link := field record 40 4
  entsize := field record 56 8
  entsize_lt := field_lt record 56 8

def shtDynamic : Nat := 6
def shtNobits : Nat := 8
def shtDynsym : Nat := 11
def shtGnuVerneed : Nat := 0x6ffffffe

def sectionEnd (bytes : Bytes) (s : Section) : Nat :=
  if bytes.length ≤ s.offset then 0 else wrap (s.offset + min s.size (bytes.length - s.offset))

def sectionsFrom (bytes : Bytes) (ehdr : Ehdr) : Nat → Nat → Except Fault (List Section)
  | 0, _ => .ok []
  | count + 1, i => do
      let record ← read bytes (wrap (ehdr.shoff + wrap (i * ehdr.shentsize))) 64
      match record with
      | none => .ok []
      | some r => do
          let rest ← sectionsFrom bytes ehdr count (i + 1)
          return sectionOf r :: rest

def readSections (bytes : Bytes) (ehdr : Ehdr) : Except Fault (List Section) :=
  sectionsFrom bytes ehdr ehdr.shnum 0

def sectionAt (sections : List Section) (i : Nat) : Except Fault Section :=
  match sections[i]? with
  | some s => .ok s
  | none => .error .outOfRange

/-! ## The dynamic section -/

structure Needed where
  name : Bytes
  /-- file offset of the entry's value -/
  valOffset : Nat
  /-- file offsets of the `vn_file` fields that name it -/
  vnFiles : List Nat
  deriving DecidableEq

structure DynamicInfo where
  needed : List Needed
  /-- file offset of the dynamic string table -/
  dynstr : Nat
  runpathOffset : Option Nat
  deriving DecidableEq

def dtNull : Nat := 0
def dtNeeded : Nat := 1
def dtRpath : Nat := 15
def dtRunpath : Nat := 29

def dynamicLoop (bytes : Bytes) (stop : Nat) : Nat → Nat → DynamicInfo → Except Fault DynamicInfo
  | 0, _, _ => .error .spin
  | fuel + 1, off, info =>
    if stop ≤ off then .ok info
    else do
      let record ← read bytes off 16
      match record with
      | none => .ok info
      | some r =>
        let tag := field r 0 8
        let val := field r 8 8
        if tag = dtNull then .ok info
        else do
          let info ← if tag = dtNeeded then do
              let name ← cString bytes (wrap (info.dynstr + val))
              pure { info with needed := info.needed ++ [⟨name, wrap (off + 8), []⟩] }
            else pure info
          let info := if tag = dtRunpath ∨ tag = dtRpath then
            { info with runpathOffset := some (wrap (info.dynstr + val)) } else info
          dynamicLoop bytes stop fuel (wrap (off + 16)) info

/-- The chain of `DT_VERNEED` entries; `off = 0` ends it. -/
def verneedLoop (bytes : Bytes) : Nat → Nat → DynamicInfo → Except Fault DynamicInfo
  | 0, _, _ => .error .spin
  | fuel + 1, off, info =>
    if off = 0 then .ok info
    else do
      let record ← read bytes off 16
      match record with
      | none => .ok info
      | some r =>
        let file ← cString bytes (wrap (info.dynstr + field r 4 4))
        let info := { info with needed := info.needed.map fun lib =>
          if lib.name = file then { lib with vnFiles := lib.vnFiles ++ [wrap (off + 4)] }
          else lib }
        let next := field r 12 4
        verneedLoop bytes fuel (if next = 0 then 0 else wrap (off + next)) info

def readDynamic (bytes : Bytes) (sections : List Section) (fuel : Nat) :
    Except Fault DynamicInfo :=
  match sections.find? (·.type = shtDynamic) with
  | none => .ok ⟨[], 0, none⟩
  | some dynamic =>
    if sections.length ≤ dynamic.link then .ok ⟨[], 0, none⟩
    else do
      let dynstr ← sectionAt sections dynamic.link
      if dynstr.type = shtNobits then .ok ⟨[], 0, none⟩
      else do
        let info ← dynamicLoop bytes (sectionEnd bytes dynamic) fuel dynamic.offset
          ⟨[], dynstr.offset, none⟩
        match sections.find? (·.type = shtGnuVerneed) with
        | none => verneedLoop bytes fuel 0 info
        | some verneed => verneedLoop bytes fuel verneed.offset info

/-! ## Symbols -/

/-- The dynamic symbols' section with the offset of its strings, if the table is usable. -/
def dynsymOf (sections : List Section) : Except Fault (Option (Section × Nat)) :=
  match sections.find? (·.type = shtDynsym) with
  | none => .ok none
  | some dynsym =>
    if dynsym.entsize < 24 ∨ sections.length ≤ dynsym.link then .ok none
    else do
      let strtab ← sectionAt sections dynsym.link
      return some (dynsym, strtab.offset)

def insideLoop (bytes : Bytes) (stop entsize strtab first last : Nat) :
    Nat → Nat → Except Fault (Option Bytes)
  | 0, _ => .error .spin
  | fuel + 1, off =>
    if stop ≤ off then .ok none
    else do
      let record ← read bytes off 24
      match record with
      | none => insideLoop bytes stop entsize strtab first last fuel (wrap (off + entsize))
      | some r =>
        let name := wrap (strtab + field r 0 4)
        if first < name ∧ name < last then do
          let text ← cString bytes name
          return some text
        else insideLoop bytes stop entsize strtab first last fuel (wrap (off + entsize))

def symbolInside (bytes : Bytes) (sections : List Section) (first last fuel : Nat) :
    Except Fault (Option Bytes) := do
  match ← dynsymOf sections with
  | none => return none
  | some (dynsym, strtab) =>
    insideLoop bytes (sectionEnd bytes dynsym) dynsym.entsize strtab first last fuel dynsym.offset

/-! ## The stub's entry -/

def ptNull : Nat := 0
def ptLoad : Nat := 1
def ptInterp : Nat := 3

def fileOffsetFrom (bytes : Bytes) (ehdr : Ehdr) (vaddr : Nat) :
    Nat → Nat → Except Fault (Option Nat)
  | 0, _ => .ok none
  | count + 1, i => do
      match ← readPhdr bytes (wrap (ehdr.phoff + wrap (i * ehdr.phentsize))) with
      | none => fileOffsetFrom bytes ehdr vaddr count (i + 1)
      | some phdr =>
        if phdr.type = ptLoad ∧ phdr.vaddr ≤ vaddr ∧ vaddr - phdr.vaddr < phdr.filesz then
          return some (wrap (phdr.offset + (vaddr - phdr.vaddr)))
        else fileOffsetFrom bytes ehdr vaddr count (i + 1)

def fileOffset (bytes : Bytes) (ehdr : Ehdr) (vaddr : Nat) : Except Fault (Option Nat) :=
  fileOffsetFrom bytes ehdr vaddr ehdr.phnum 0

def relocStubMagic : Bytes := ascii "RELOCSTB"
def relocStubHeader : Nat := 16

def startLoop (bytes : Bytes) (stop entsize strtab : Nat) : Nat → Nat → Except Fault (Option Nat)
  | 0, _ => .error .spin
  | fuel + 1, off =>
    if stop ≤ off then .ok none
    else do
      let record ← read bytes off 24
      match record with
      | none => .ok none
      | some r =>
        let name ← cString bytes (wrap (strtab + field r 0 4))
        if name = ascii "__reloc_start" then return some (field r 8 8)
        else startLoop bytes stop entsize strtab fuel (wrap (off + entsize))

/-- Whether `e_entry` points just past the header of an installed stub.  The offset a program
header yields is not checked before the image is cut there. -/
def entryIsStub (bytes : Bytes) (ehdr : Ehdr) : Except Fault Bool :=
  if ehdr.entry < relocStubHeader then .ok false
  else do
    match ← fileOffset bytes ehdr (ehdr.entry - relocStubHeader) with
    | none => return false
    | some off =>
      let magic ← substr bytes off relocStubMagic.length
      return magic = relocStubMagic

def findRelocStart (bytes : Bytes) (ehdr : Ehdr) (sections : List Section) (fuel : Nat) :
    Except Fault (Option Nat) := do
  if ← entryIsStub bytes ehdr then return some ehdr.entry
  else
    match ← dynsymOf sections with
    | none => return none
    | some (dynsym, strtab) =>
      startLoop bytes (sectionEnd bytes dynsym) dynsym.entsize strtab fuel dynsym.offset

/-! ## They end -/

theorem sectionEnd_le (bytes : Bytes) (s : Section) (h : bytes.length < 2 ^ 63) :
    sectionEnd bytes s ≤ bytes.length := by
  unfold sectionEnd wrap
  split
  · exact Nat.zero_le _
  · rw [Nat.mod_eq_of_lt (by omega)]
    omega

theorem readEhdr_ok (bytes : Bytes) : ∃ ehdr, readEhdr bytes = .ok ehdr := by
  rw [readEhdr, read_eq]
  exact ⟨_, rfl⟩

theorem readPhdr_ok (bytes : Bytes) (off : Nat) : ∃ phdr, readPhdr bytes off = .ok phdr := by
  rw [readPhdr, read_eq]
  exact ⟨_, rfl⟩

theorem sectionsFrom_ok (bytes : Bytes) (ehdr : Ehdr) (count i : Nat) :
    ∃ sections, sectionsFrom bytes ehdr count i = .ok sections := by
  induction count generalizing i with
  | zero => exact ⟨[], rfl⟩
  | succ count ih =>
    rw [sectionsFrom, read_eq]
    obtain ⟨rest, hrest⟩ := ih (i + 1)
    split_ifs
    · exact ⟨_, by simp only [bind, Except.bind, hrest]; rfl⟩
    · exact ⟨[], rfl⟩

variable {bytes : Bytes} {fuel stop : Nat}

theorem dynamicLoop_ok (hfits : bytes.length < 2 ^ 63) (hstop : stop ≤ bytes.length)
    (fuel off : Nat) (info : DynamicInfo) (hfuel : stop - off < fuel) :
    ∃ result, dynamicLoop bytes stop fuel off info = .ok result := by
  induction fuel generalizing off info with
  | zero => omega
  | succ fuel ih =>
    rw [dynamicLoop]
    by_cases hout : stop ≤ off
    · exact ⟨info, if_pos hout⟩
    · rw [if_neg hout, read_eq]
      have hnext : wrap (off + 16) = off + 16 := Nat.mod_eq_of_lt (by omega)
      have hrec : ∀ info, ∃ result,
          dynamicLoop bytes stop fuel (wrap (off + 16)) info = .ok result :=
        fun info => ih _ info (by omega)
      split_ifs
      · simp only [bind, Except.bind, cString_eq, pure, Except.pure]
        split_ifs
        · exact ⟨info, rfl⟩
        all_goals exact hrec _
      · exact ⟨info, rfl⟩

theorem verneedLoop_ok (hfits : bytes.length < 2 ^ 63) (fuel off : Nat) (info : DynamicInfo)
    (hfuel : bytes.length - off + 1 < fuel) :
    ∃ result, verneedLoop bytes fuel off info = .ok result := by
  induction fuel generalizing off info with
  | zero => omega
  | succ fuel ih =>
    rw [verneedLoop]
    by_cases hzero : off = 0
    · exact ⟨info, if_pos hzero⟩
    · rw [if_neg hzero, read_eq]
      by_cases hin : off + 16 ≤ bytes.length
      · rw [if_pos hin]
        simp only [bind, Except.bind, cString_eq]
        set next := field (slice bytes off 16) 12 4 with hnext
        have hnextlt : next < 256 ^ 4 := field_lt _ 12 4
        by_cases hlast : next = 0
        · -- the chain ends with the next look
          obtain ⟨fuel, rfl⟩ : ∃ k, fuel = k + 1 := ⟨fuel - 1, by omega⟩
          rw [if_pos hlast, verneedLoop, if_pos rfl]
          exact ⟨_, rfl⟩
        · rw [if_neg hlast]
          apply ih
          have hnowrap : wrap (off + next) = off + next := Nat.mod_eq_of_lt (by omega)
          omega
      · rw [if_neg hin]
        exact ⟨info, rfl⟩

variable {sections : List Section}

theorem sectionAt_ok {i : Nat} (h : i < sections.length) :
    sectionAt sections i = .ok sections[i] := by
  rw [sectionAt, getElem?_eq_getElem h]

theorem readDynamic_ok (hfits : bytes.length < 2 ^ 63) (sections : List Section)
    (hfuel : bytes.length + 1 < fuel) :
    ∃ info, readDynamic bytes sections fuel = .ok info := by
  unfold readDynamic
  split
  · exact ⟨_, rfl⟩
  · rename_i dynamic _
    split_ifs with hlink
    · exact ⟨_, rfl⟩
    · rw [sectionAt_ok (by omega)]
      simp only [bind, Except.bind]
      split_ifs
      · exact ⟨_, rfl⟩
      · have hend := sectionEnd_le bytes dynamic hfits
        obtain ⟨info, hinfo⟩ := dynamicLoop_ok hfits hend fuel dynamic.offset
          ⟨[], (sections[dynamic.link]).offset, none⟩ (by omega)
        rw [hinfo]
        dsimp only
        split <;> exact verneedLoop_ok hfits fuel _ info (by omega)

theorem dynsymOf_ok (sections : List Section) : ∃ found, dynsymOf sections = .ok found := by
  unfold dynsymOf
  split
  · exact ⟨_, rfl⟩
  · rename_i dynsym _
    split_ifs with h
    · exact ⟨_, rfl⟩
    · rw [sectionAt_ok (by omega)]
      exact ⟨_, rfl⟩

theorem le_entsize_of_dynsymOf {dynsym : Section} {strtab : Nat}
    (h : dynsymOf sections = .ok (some (dynsym, strtab))) : 24 ≤ dynsym.entsize := by
  unfold dynsymOf at h
  split at h
  · cases h
  · rename_i found hfound
    split_ifs at h with hbad
    · cases h
    · rw [sectionAt_ok (by omega)] at h
      simp only [bind, Except.bind, pure, Except.pure, Except.ok.injEq, Option.some.injEq,
        Prod.mk.injEq] at h
      rw [← h.1]
      omega

theorem leaves_dynsym (hfits : bytes.length < 2 ^ 63) {dynsym : Section}
    {strtab : Nat} (h : dynsymOf sections = .ok (some (dynsym, strtab)))
    (hfuel : bytes.length + 1 < fuel) (off : Nat) :
    leaves (2 ^ 64) dynsym.entsize (sectionEnd bytes dynsym) fuel off := by
  have hstride := le_entsize_of_dynsymOf h
  have hend := sectionEnd_le bytes dynsym hfits
  exact leaves_of_lt (by omega) dynsym.entsize_lt (by omega) (by omega) off

theorem insideLoop_ok {entsize : Nat} (strtab first last fuel off : Nat)
    (h : leaves (2 ^ 64) entsize stop fuel off) :
    ∃ found, insideLoop bytes stop entsize strtab first last fuel off = .ok found := by
  induction fuel generalizing off with
  | zero => exact h.elim
  | succ fuel ih =>
    rw [insideLoop]
    by_cases hout : stop ≤ off
    · exact ⟨none, if_pos hout⟩
    · have hrec := ih _ (h.resolve_left hout)
      rw [if_neg hout, read_eq]
      split_ifs
      · simp only [bind, Except.bind, cString_eq, pure, Except.pure]
        split_ifs
        · exact ⟨_, rfl⟩
        · exact hrec
      · exact hrec

theorem startLoop_ok {entsize : Nat} (strtab fuel off : Nat)
    (h : leaves (2 ^ 64) entsize stop fuel off) :
    ∃ found, startLoop bytes stop entsize strtab fuel off = .ok found := by
  induction fuel generalizing off with
  | zero => exact h.elim
  | succ fuel ih =>
    rw [startLoop]
    by_cases hout : stop ≤ off
    · exact ⟨none, if_pos hout⟩
    · have hrec := ih _ (h.resolve_left hout)
      rw [if_neg hout, read_eq]
      split_ifs
      · simp only [bind, Except.bind, cString_eq, pure, Except.pure]
        split_ifs
        · exact ⟨_, rfl⟩
        · exact hrec
      · exact ⟨none, rfl⟩

theorem symbolInside_ok (hfits : bytes.length < 2 ^ 63) (sections : List Section) (first last : Nat)
    (hfuel : bytes.length + 1 < fuel) :
    ∃ found, symbolInside bytes sections first last fuel = .ok found := by
  obtain ⟨table, htable⟩ := dynsymOf_ok sections
  rw [symbolInside, htable]
  cases table with
  | none => exact ⟨none, rfl⟩
  | some table => exact insideLoop_ok _ _ _ _ _ (leaves_dynsym hfits htable hfuel _)

theorem fileOffsetFrom_ok (bytes : Bytes) (ehdr : Ehdr) (vaddr count i : Nat) :
    ∃ off, fileOffsetFrom bytes ehdr vaddr count i = .ok off := by
  induction count generalizing i with
  | zero => exact ⟨none, rfl⟩
  | succ count ih =>
    obtain ⟨phdr, hphdr⟩ := readPhdr_ok bytes (wrap (ehdr.phoff + wrap (i * ehdr.phentsize)))
    rw [fileOffsetFrom, hphdr]
    cases phdr with
    | none => exact ih (i + 1)
    | some phdr =>
      simp only [bind, Except.bind]
      split_ifs
      · exact ⟨_, rfl⟩
      · exact ih (i + 1)

/-- The address in front of the entry is in a segment whose bytes are beyond the end. -/
def EntryBeyond (bytes : Bytes) (ehdr : Ehdr) : Prop :=
  relocStubHeader ≤ ehdr.entry ∧ ∃ off,
    fileOffset bytes ehdr (ehdr.entry - relocStubHeader) = .ok (some off) ∧ bytes.length < off

theorem entryIsStub_cases (bytes : Bytes) (ehdr : Ehdr) :
    EntryBeyond bytes ehdr ∧ entryIsStub bytes ehdr = .error .outOfRange ∨
      ¬EntryBeyond bytes ehdr ∧ ∃ found, entryIsStub bytes ehdr = .ok found := by
  unfold entryIsStub EntryBeyond
  by_cases hentry : ehdr.entry < relocStubHeader
  · rw [if_pos hentry]
    exact .inr ⟨fun h => by omega, false, rfl⟩
  · obtain ⟨off, hoff⟩ :=
      fileOffsetFrom_ok bytes ehdr (ehdr.entry - relocStubHeader) ehdr.phnum 0
    rw [if_neg hentry, fileOffset, hoff]
    cases off with
    | none => exact .inr ⟨(fun ⟨_, _, h, _⟩ => by cases h), false, rfl⟩
    | some off =>
      simp only [bind, Except.bind, substr]
      by_cases hin : off ≤ bytes.length
      · rw [if_pos hin]
        refine .inr ⟨?_, _, rfl⟩
        rintro ⟨-, off', h, hlt⟩
        cases h
        omega
      · rw [if_neg hin]
        exact .inl ⟨⟨by omega, off, rfl, by omega⟩, rfl⟩

theorem findRelocStart_cases (hfits : bytes.length < 2 ^ 63) (ehdr : Ehdr) (sections : List Section)
    (hfuel : bytes.length + 1 < fuel) :
    EntryBeyond bytes ehdr ∧ findRelocStart bytes ehdr sections fuel = .error .outOfRange ∨
      ¬EntryBeyond bytes ehdr ∧ ∃ stub, findRelocStart bytes ehdr sections fuel = .ok stub := by
  rcases entryIsStub_cases bytes ehdr with ⟨hbeyond, hstub⟩ | ⟨hin, found, hstub⟩
  · exact .inl ⟨hbeyond, by rw [findRelocStart, hstub]; rfl⟩
  · refine .inr ⟨hin, ?_⟩
    obtain ⟨table, htable⟩ := dynsymOf_ok sections
    rw [findRelocStart, hstub, htable]
    cases found with
    | true => exact ⟨_, rfl⟩
    | false =>
      cases table with
      | none => exact ⟨none, rfl⟩
      | some table => exact startLoop_ok _ _ _ (leaves_dynsym hfits htable hfuel _)

end Corepkgs.Jig.Elf
