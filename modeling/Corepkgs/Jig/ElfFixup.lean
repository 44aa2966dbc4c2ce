import Mathlib
import Corepkgs.Jig.Driver
import Corepkgs.Jig.ElfImage
import Corepkgs.Jig.FixupPaths
/-!
# Making an ELF file relocatable

`elf_fixup.cc` above its readers: the RUNPATH made `$ORIGIN`-relative, the NEEDED that become
paths, the interpreter handed to the stub, and `FixElf` with its complaints.
-/

namespace Corepkgs.Jig.Elf

open Lib Jig.Fixup

/-! ## The model -/

structure Host where
  /-- `fs::exists` -/
  existing : Bytes → Bool
  /-- `fs::relative(path, base).string()` -/
  relative : Bytes → Bytes → Bytes
  /-- whether `WriteBack` succeeds -/
  writeBack : Bytes → Bytes → Bool

inductive Complaint where
  | neededNotFound (name old : Bytes)
  | symbolShares (sym : Bytes)
  | runpathDoesNotFit (size capacity : Nat) (neu : Bytes)
  | interpDoesNotFit (neu : Bytes)
  | cannotWriteBack
  deriving DecidableEq

structure RunpathDir where
  entry : Bytes
  dir : Bytes
  keep : Bool
  deriving DecidableEq

def RunpathDir.isLibc (host : Host) (d : RunpathDir) : Bool :=
  host.existing (appendPath d.dir (ascii "libc.so.6"))

def runpathDir (ctx : FixupContext) (finalHere entry : Bytes) : Bytes :=
  if entry = origin ∨ (origin ++ [47]).isPrefixOf entry then resolveOrigin finalHere entry
  else ctx.final entry

/-- One entry of the old RUNPATH; what is not in the store drops out. -/
def relativizeEntry (storeDir : Bytes) (ctx : FixupContext) (finalHere entry : Bytes) :
    Option RunpathDir :=
  let dir := runpathDir ctx finalHere entry
  if isStorePath storeDir dir then some ⟨relativeTo finalHere dir origin, ctx.onDisk dir, true⟩
  else none

def relativizeRunpath (storeDir : Bytes) (ctx : FixupContext) (old here : Bytes) :
    List RunpathDir :=
  let finalHere := ctx.final here
  (split old 58).filterMap (relativizeEntry storeDir ctx finalHere) ++
    ctx.ownLibDirs.map fun own => ⟨relativeTo finalHere (ctx.final own) origin, own, false⟩

def keptEntries (runpath : List RunpathDir) : List Bytes :=
  runpath.foldl
    (fun kept d => if d.keep ∧ d.entry ∉ kept then kept ++ [d.entry] else kept) []

def renderRunpath (runpath : List RunpathDir) : Bytes := join (keptEntries runpath) [58]

/-- A NEEDED that becomes a path, with the place and the entry of its directory. -/
structure Direct where
  lib : Needed
  index : Nat
  entry : Bytes

def Direct.target (d : Direct) : Bytes := d.entry ++ 47 :: d.lib.name

structure Selection where
  runpath : List RunpathDir
  direct : List Direct
  complaints : List Complaint

def setKeep (keep : Bool) (index : Nat) (runpath : List RunpathDir) : List RunpathDir :=
  runpath.modify index fun d => { d with keep := keep }

/-- Neither a path nor provided by the dynamic linker or the kernel. -/
def Needed.searched (lib : Needed) : Bool :=
  !(decide (47 ∈ lib.name) || startsWith "ld-linux" lib.name || startsWith "linux-vdso" lib.name)

def Selection.visit (host : Host) (old : Bytes) (s : Selection) (lib : Needed) : Selection :=
  if lib.searched = false then s
  else
    match s.runpath.zipIdx.find? fun d => host.existing (appendPath d.1.dir lib.name) with
    | none => { s with complaints := s.complaints ++ [.neededNotFound lib.name old] }
    | some (d, index) =>
      if d.isLibc host then s
      else { s with
        runpath := setKeep false index s.runpath
        direct := s.direct ++ [⟨lib, index, d.entry⟩] }

structure Layout where
  neu : Bytes
  direct : List Direct
  blob : Bytes

/-- The paths behind the new RUNPATH or, if they do not fit, the RUNPATH with their directories. -/
def layout (old : Bytes) (s : Selection) : Layout :=
  let neu := renderRunpath s.runpath
  let blob := neu ++ s.direct.flatMap fun d => 0 :: d.target
  if old.length < blob.length then
    let neu := renderRunpath (s.direct.foldl (fun r d => setKeep true d.index r) s.runpath)
    ⟨neu, [], neu⟩
  else ⟨neu, s.direct, blob⟩

/-- The NEEDED and `vn_file` values for strings that stand one behind the other from `str` on. -/
def writeNames : Nat → Bytes → List Direct → Bytes
  | _, bytes, [] => bytes
  | str, bytes, d :: rest =>
    let bytes := (write bytes d.lib.valOffset (leBytes 8 str)).2
    let bytes := d.lib.vnFiles.foldl (fun bytes vn => (write bytes vn (leBytes 4 str)).2) bytes
    writeNames (wrap (str + (d.target.length + 1))) bytes rest

structure Progress where
  bytes : Bytes
  complaints : List Complaint
  log : List Bytes
  dirty : Bool

/-- `path` is the file's own path; the first component of the result is what the function
returns. -/
def fixRunpath (host : Host) (storeDir : Bytes) (ctx : FixupContext) (path : Bytes)
    (sections : List Section) (fuel : Nat) (p : Progress) : Except Fault (Bool × Progress) := do
  let dynamic ← readDynamic p.bytes sections fuel
  match dynamic.runpathOffset with
  | none => return (true, p)
  | some runpathOffset =>
    let old ← cString p.bytes runpathOffset
    let s := dynamic.needed.foldl (Selection.visit host old)
      ⟨relativizeRunpath storeDir ctx old (parentPath path), [], p.complaints⟩
    let l := layout old s
    let log := p.log ++ (ascii "RUNPATH " ++ l.neu) ::
      l.direct.map fun d => ascii "NEEDED " ++ d.target
    if l.blob = old then return (true, { p with complaints := s.complaints, log := log })
    else
      match ← symbolInside p.bytes sections runpathOffset (wrap (runpathOffset + old.length))
        fuel with
      | some sym => return (false, { p with complaints := s.complaints ++ [.symbolShares sym] })
      | none =>
        match writePadded p.bytes runpathOffset (old.length + 1) l.blob with
        | (false, _) => return (false, { p with
            complaints := s.complaints ++ [.runpathDoesNotFit l.blob.length old.length l.neu] })
        | (true, bytes) =>
          let str := wrap (runpathOffset + l.neu.length + 1 + (2 ^ 64 - dynamic.dynstr))
          return (true, ⟨writeNames str bytes l.direct, s.complaints, log, true⟩)

def interpLoop (storeDir : Bytes) (ctx : FixupContext) (path : Bytes) (ehdr : Ehdr)
    (stub : Option Nat) : Nat → Nat → Progress → Except Fault (Bool × Progress)
  | 0, _, p => .ok (true, p)
  | count + 1, i, p => do
      let phOff := wrap (ehdr.phoff + wrap (i * ehdr.phentsize))
      match ← readPhdr p.bytes phOff with
      | none => return (true, p)
      | some phdr =>
        if phdr.type ≠ ptInterp then interpLoop storeDir ctx path ehdr stub count (i + 1) p
        else
          let old ← cString p.bytes phdr.offset
          match stub with
          | none => interpLoop storeDir ctx path ehdr none count (i + 1) { p with
              log := p.log ++ [ascii "INTERP " ++ old ++ ascii " kept (no stub)"] }
          | some entry =>
            let neu := if isStorePath storeDir old then
              relativeTo (ctx.final (parentPath path)) old [] else old
            let placed := if isStorePath storeDir old then
              writePadded p.bytes phdr.offset phdr.filesz neu else (true, p.bytes)
            if placed.1 = false then
              return (false, { p with complaints := p.complaints ++ [.interpDoesNotFit neu] })
            else
              let bytes := (write placed.2 phOff (phdr.withType ptNull).raw).2
              let bytes := (write bytes 0 (ehdr.withEntry entry).raw).2
              interpLoop storeDir ctx path ehdr stub count (i + 1) ⟨bytes, p.complaints,
                p.log ++ [ascii "INTERP " ++ neu ++ ascii " (PT_NULL, entry=__reloc_start)"],
                true⟩

def fixInterp (storeDir : Bytes) (ctx : FixupContext) (path : Bytes) (ehdr : Ehdr)
    (sections : List Section) (fuel : Nat) (p : Progress) : Except Fault (Bool × Progress) := do
  let stub ← findRelocStart p.bytes ehdr sections fuel
  interpLoop storeDir ctx path ehdr stub ehdr.phnum 0 p

def isElf64LittleEndian (bytes : Bytes) : Bool :=
  [127, 69, 76, 70].isPrefixOf bytes && decide (5 < bytes.length) &&
    decide (bytes[4]? = some 2) && decide (bytes[5]? = some 1)

def etExec : Nat := 2
def etDyn : Nat := 3

inductive Notice where
  | fixed (log : Bytes)
  /-- `WARN absolute store ref` -/
  | storeRef (file : Bytes) (leak : Nat) (shown : Bytes)
  deriving DecidableEq

structure Outcome where
  /-- what `FixElf` returns: the file was an ELF file of the kind -/
  handled : Bool
  complaints : List Complaint
  notices : List Notice
  /-- what the file was overwritten with -/
  written : Option Bytes
  deriving DecidableEq

def kLeakContext : Nat := 100

def findText (pat : Bytes) : Bytes → Option Nat
  | [] => if pat = [] then some 0 else none
  | c :: text => if pat.isPrefixOf (c :: text) then some 0 else (findText pat text).map (· + 1)

/-- The warning about a store path that is still there. -/
def leakNotice (host : Host) (storeDir : Bytes) (ctx : FixupContext) (path bytes : Bytes) :
    Except Fault (List Notice) :=
  match findText (storeDir ++ [47]) bytes with
  | none => .ok []
  | some leak => do
      let text ← cString bytes leak
      return [.storeRef (host.relative path ctx.prefixDir) leak (text.take kLeakContext)]

def fixElf (host : Host) (storeDir : Bytes) (ctx : FixupContext) (path bytes : Bytes)
    (fuel : Nat) : Except Fault Outcome :=
  if isElf64LittleEndian bytes = false then .ok ⟨false, [], [], none⟩
  else do
    match ← readEhdr bytes with
    | none => return ⟨true, [], [], none⟩
    | some ehdr =>
      if ehdr.type ≠ etExec ∧ ehdr.type ≠ etDyn then return ⟨true, [], [], none⟩
      else
        let sections ← readSections bytes ehdr
        match ← fixRunpath host storeDir ctx path sections fuel
          ⟨bytes, [], [host.relative path ctx.prefixDir], false⟩ with
        | (false, p) => return ⟨true, p.complaints, [], none⟩
        | (true, p) =>
          match ← fixInterp storeDir ctx path ehdr sections fuel p with
          | (false, p) => return ⟨true, p.complaints, [], none⟩
          | (true, p) =>
            if p.dirty = true ∧ host.writeBack path p.bytes = false then
              return ⟨false, p.complaints ++ [.cannotWriteBack], [], none⟩
            else
              let leak ← leakNotice host storeDir ctx path p.bytes
              return ⟨true, p.complaints,
                (if p.dirty then [.fixed (join p.log (ascii "  "))] else []) ++ leak,
                if p.dirty then some p.bytes else none⟩

/-! ## It ends -/

variable (bytes : Bytes)

theorem length_write (off : Nat) (value : Bytes) :
    (write bytes off value).2.length = bytes.length := by
  unfold write
  split_ifs with h
  · rfl
  · exact length_overwriteAt (by omega)

theorem length_writePadded (off capacity : Nat) (text : Bytes) :
    (writePadded bytes off capacity text).2.length = bytes.length := by
  unfold writePadded
  split_ifs with h
  · rfl
  · apply length_overwriteAt
    rw [List.length_append, List.length_replicate]
    omega

theorem length_foldl_write (vnFiles : List Nat) (value : Bytes) :
    (vnFiles.foldl (fun bytes vn => (write bytes vn value).2) bytes).length = bytes.length := by
  induction vnFiles generalizing bytes with
  | nil => rfl
  | cons vn vnFiles ih => rw [List.foldl_cons, ih, length_write]

theorem length_writeNames (str : Nat) (bytes : Bytes) (direct : List Direct) :
    (writeNames str bytes direct).length = bytes.length := by
  induction direct generalizing str bytes with
  | nil => rfl
  | cons d direct ih => rw [writeNames, ih, length_foldl_write, length_write]

variable (host : Host) {fuel : Nat}

theorem fixRunpath_ok (storeDir : Bytes) (ctx : FixupContext) (path : Bytes)
    (sections : List Section) {p : Progress} (hfits : p.bytes.length < 2 ^ 63)
    (hfuel : p.bytes.length + 1 < fuel) :
    ∃ fine p', fixRunpath host storeDir ctx path sections fuel p = .ok (fine, p') ∧
      p'.bytes.length = p.bytes.length := by
  obtain ⟨dynamic, hdynamic⟩ := readDynamic_ok hfits sections hfuel
  rw [fixRunpath, hdynamic]
  simp only [bind, Except.bind, cString_eq]
  cases dynamic.runpathOffset with
  | none => exact ⟨true, p, rfl, rfl⟩
  | some runpathOffset =>
    dsimp only
    set old := (p.bytes.drop runpathOffset).takeWhile (· ≠ 0)
    obtain ⟨found, hfound⟩ := symbolInside_ok hfits sections runpathOffset
      (wrap (runpathOffset + old.length)) hfuel
    rw [hfound]
    split_ifs
    · exact ⟨true, _, rfl, rfl⟩
    · cases found with
      | some sym => exact ⟨false, _, rfl, rfl⟩
      | none =>
        dsimp only
        split
        · exact ⟨false, _, rfl, rfl⟩
        · rename_i bytes hplaced
          refine ⟨true, _, rfl, ?_⟩
          rw [length_writeNames]
          have hlen := length_writePadded p.bytes runpathOffset (old.length + 1)
          rw [← hlen, hplaced]

theorem interpLoop_ok (storeDir : Bytes) (ctx : FixupContext) (path : Bytes) (ehdr : Ehdr)
    (stub : Option Nat) (count i : Nat) (p : Progress) :
    ∃ fine p', interpLoop storeDir ctx path ehdr stub count i p = .ok (fine, p') := by
  induction count generalizing i p with
  | zero => exact ⟨true, p, rfl⟩
  | succ count ih =>
    obtain ⟨phdr, hphdr⟩ := readPhdr_ok p.bytes (wrap (ehdr.phoff + wrap (i * ehdr.phentsize)))
    rw [interpLoop, hphdr]
    cases phdr with
    | none => exact ⟨true, p, rfl⟩
    | some phdr =>
      simp only [bind, Except.bind, cString_eq]
      by_cases htype : phdr.type = ptInterp
      · rw [if_neg (not_not.mpr htype)]
        cases stub with
        | none => exact ih _ _
        | some entry =>
          dsimp only
          split_ifs
          · exact ⟨false, _, rfl⟩
          · exact ih _ _
          · exact ⟨false, _, rfl⟩
          · exact ih _ _
      · rw [if_pos htype]
        exact ih _ _

theorem leakNotice_ok (storeDir : Bytes) (ctx : FixupContext) (path bytes : Bytes) :
    ∃ notices, leakNotice host storeDir ctx path bytes = .ok notices := by
  unfold leakNotice
  split
  · exact ⟨[], rfl⟩
  · rw [cString_eq]
    exact ⟨_, rfl⟩

theorem fixInterp_cases (storeDir : Bytes) (ctx : FixupContext) (path : Bytes) (ehdr : Ehdr)
    (sections : List Section) {p : Progress} (hfits : p.bytes.length < 2 ^ 63)
    (hfuel : p.bytes.length + 1 < fuel) :
    EntryBeyond p.bytes ehdr ∧
        fixInterp storeDir ctx path ehdr sections fuel p = .error .outOfRange ∨
      ¬EntryBeyond p.bytes ehdr ∧
        ∃ fine p', fixInterp storeDir ctx path ehdr sections fuel p = .ok (fine, p') := by
  rw [fixInterp]
  rcases findRelocStart_cases hfits ehdr sections hfuel with ⟨hbeyond, hstub⟩ | ⟨hin, stub, hstub⟩
  · exact .inl ⟨hbeyond, by rw [hstub]; rfl⟩
  · rw [hstub]
    exact .inr ⟨hin, interpLoop_ok storeDir ctx path ehdr stub ehdr.phnum 0 p⟩

/-- The file gets as far as its interpreter, and the entry's segment is beyond the end. -/
def StubBeyond (host : Host) (storeDir : Bytes) (ctx : FixupContext) (path bytes : Bytes)
    (fuel : Nat) : Prop :=
  isElf64LittleEndian bytes = true ∧ ∃ ehdr sections p, readEhdr bytes = .ok (some ehdr) ∧
    (ehdr.type = etExec ∨ ehdr.type = etDyn) ∧ readSections bytes ehdr = .ok sections ∧
    fixRunpath host storeDir ctx path sections fuel
      ⟨bytes, [], [host.relative path ctx.prefixDir], false⟩ = .ok (true, p) ∧
    EntryBeyond p.bytes ehdr

theorem fixElf_cases (storeDir : Bytes) (ctx : FixupContext) (path : Bytes)
    {bytes : Bytes} (hfits : bytes.length < 2 ^ 63) (hfuel : bytes.length + 1 < fuel) :
    StubBeyond host storeDir ctx path bytes fuel ∧
        fixElf host storeDir ctx path bytes fuel = .error .outOfRange ∨
      ¬StubBeyond host storeDir ctx path bytes fuel ∧
        ∃ outcome, fixElf host storeDir ctx path bytes fuel = .ok outcome := by
  unfold fixElf StubBeyond
  by_cases helf : isElf64LittleEndian bytes = false
  · rw [if_pos helf]
    exact .inr ⟨(fun h => by rw [helf] at h; exact absurd h.1 (by simp)), _, rfl⟩
  · rw [if_neg helf]
    obtain ⟨ehdr, hehdr⟩ := readEhdr_ok bytes
    rw [hehdr]
    cases ehdr with
    | none => exact .inr ⟨(fun ⟨_, _, _, _, h, _⟩ => by cases h), _, rfl⟩
    | some ehdr =>
      simp only [bind, Except.bind]
      by_cases htype : ehdr.type ≠ etExec ∧ ehdr.type ≠ etDyn
      · rw [if_pos htype]
        refine .inr ⟨?_, _, rfl⟩
        rintro ⟨-, ehdr', _, _, h, htype', -⟩
        cases h
        exact htype'.elim htype.1 htype.2
      · rw [if_neg htype]
        obtain ⟨sections, hsections⟩ := sectionsFrom_ok bytes ehdr ehdr.shnum 0
        obtain ⟨fine, p, hrunpath, hlen⟩ := fixRunpath_ok host storeDir ctx path sections
          (p := ⟨bytes, [], [host.relative path ctx.prefixDir], false⟩) hfits hfuel
        rw [readSections, hsections]
        dsimp only
        rw [hrunpath]
        cases fine with
        | false =>
          refine .inr ⟨?_, _, rfl⟩
          rintro ⟨-, ehdr', sections', p', h, -, hsections', hrunpath', -⟩
          cases h
          rw [readSections, hsections] at hsections'
          cases hsections'
          rw [hrunpath] at hrunpath'
          cases hrunpath'
        | true =>
          dsimp only
          rcases fixInterp_cases storeDir ctx path ehdr sections (p := p)
              (by rw [hlen]; exact hfits) (by rw [hlen]; exact hfuel) with
            ⟨hbeyond, hinterp⟩ | ⟨hin, fine, p', hinterp⟩
          · rw [hinterp]
            exact .inl ⟨⟨by simpa using helf, ehdr, sections, p, rfl, by tauto, hsections,
              hrunpath, hbeyond⟩, rfl⟩
          · rw [hinterp]
            refine .inr ⟨?_, ?_⟩
            · rintro ⟨-, ehdr', sections', p', h, -, hsections', hrunpath', hbeyond⟩
              cases h
              rw [readSections, hsections] at hsections'
              cases hsections'
              rw [hrunpath] at hrunpath'
              cases hrunpath'
              exact hin hbeyond
            · cases fine with
              | false => exact ⟨_, rfl⟩
              | true =>
                obtain ⟨notices, hleak⟩ := leakNotice_ok host storeDir ctx path p'.bytes
                dsimp only
                split_ifs
                all_goals first
                  | exact ⟨_, rfl⟩
                  | (rw [hleak]; exact ⟨_, rfl⟩)

/-- Every loop ends and stays in the image, whatever the tables say, but for the look at the bytes
in front of the entry: `FixElf` throws exactly if it gets there and the program headers put them
beyond the end of the file. -/
theorem fixElf_ends_iff (host : Host) (storeDir : Bytes) (ctx : FixupContext) (path : Bytes)
    (image : BinaryImage) (fuel : Nat) (hfuel : image.bytes.length + 1 < fuel) :
    (∀ ehdr, ∃ sections, readSections image.bytes ehdr = .ok sections) ∧
    (∀ sections, ∃ info, readDynamic image.bytes sections fuel = .ok info) ∧
    (∀ sections first last, ∃ found,
      symbolInside image.bytes sections first last fuel = .ok found) ∧
    (∀ ehdr vaddr, ∃ off, fileOffset image.bytes ehdr vaddr = .ok off) ∧
    (∀ ehdr sections, findRelocStart image.bytes ehdr sections fuel ≠ .error .spin ∧
      ((∃ stub, findRelocStart image.bytes ehdr sections fuel = .ok stub) ↔
        ¬EntryBeyond image.bytes ehdr)) ∧
    (∀ ehdr stub count i p, ∃ result,
      interpLoop storeDir ctx path ehdr stub count i p = .ok result) ∧
    fixElf host storeDir ctx path image.bytes fuel ≠ .error .spin ∧
    ((∃ outcome, fixElf host storeDir ctx path image.bytes fuel = .ok outcome) ↔
      ¬StubBeyond host storeDir ctx path image.bytes fuel) := by
  have hfits := image.fits
  refine ⟨fun ehdr => sectionsFrom_ok _ _ _ _, fun sections => readDynamic_ok hfits sections hfuel,
    fun sections first last => symbolInside_ok hfits sections first last hfuel,
    fun ehdr vaddr => fileOffsetFrom_ok _ _ _ _ _, ?_, ?_, ?_⟩
  · intro ehdr sections
    rcases findRelocStart_cases hfits ehdr sections hfuel with ⟨hbeyond, h⟩ | ⟨hin, stub, h⟩
    · rw [h]
      exact ⟨by simp, by simp [hbeyond]⟩
    · rw [h]
      exact ⟨by simp, by simp [hin]⟩
  · intro ehdr stub count i p
    obtain ⟨fine, p', h⟩ := interpLoop_ok storeDir ctx path ehdr stub count i p
    exact ⟨(fine, p'), h⟩
  · rcases fixElf_cases host storeDir ctx path hfits hfuel with ⟨hbeyond, h⟩ | ⟨hin, outcome, h⟩
    · rw [h]
      exact ⟨by simp, by simp [hbeyond]⟩
    · rw [h]
      exact ⟨by simp, by simp [hin]⟩

def unreachableStub : Bytes :=
  -- e_ident, e_type, e_machine, e_version
  [127, 69, 76, 70, 2, 1, 1] ++ List.replicate 9 0 ++ leBytes 2 etExec ++ leBytes 2 62 ++
  leBytes 4 1 ++
  -- e_entry, e_phoff, e_shoff, e_flags, e_ehsize
  leBytes 8 16 ++ leBytes 8 64 ++ leBytes 8 0 ++ leBytes 4 0 ++ leBytes 2 64 ++
  -- e_phentsize, e_phnum, e_shentsize, e_shnum, e_shstrndx
  leBytes 2 56 ++ leBytes 2 1 ++ leBytes 2 64 ++ leBytes 2 0 ++ leBytes 2 0 ++
  -- p_type, p_flags, p_offset, p_vaddr, p_paddr, p_filesz, p_memsz, p_align
  leBytes 4 ptLoad ++ leBytes 4 5 ++ leBytes 8 4096 ++ leBytes 8 0 ++ leBytes 8 0 ++
  leBytes 8 32 ++ leBytes 8 32 ++ leBytes 8 4096

def emptyHost : Host := ⟨fun _ => false, fun path _ => path, fun _ _ => true⟩

theorem unreachable_stub_throws :
    fixElf emptyHost (ascii "/nix/store") ⟨ascii "/nix/store/x", ascii "/nix/store/x", []⟩
      (ascii "/nix/store/x/bin/a") unreachableStub 200 = .error .outOfRange := by
  decide +kernel

/-- A shared object with the given dynamic entries and strings, and no symbols. -/
def sharedObject (entries : List (Nat × Nat)) (strings : Bytes) : Bytes :=
  -- e_ident, e_type, e_machine, e_version, e_entry, e_phoff, e_shoff
  [127, 69, 76, 70, 2, 1, 1] ++ List.replicate 9 0 ++ leBytes 2 etDyn ++ leBytes 2 62 ++
  leBytes 4 1 ++ leBytes 8 0 ++ leBytes 8 0 ++ leBytes 8 64 ++
  -- e_flags, e_ehsize, e_phentsize, e_phnum, e_shentsize, e_shnum, e_shstrndx
  leBytes 4 0 ++ leBytes 2 64 ++ leBytes 2 0 ++ leBytes 2 0 ++ leBytes 2 64 ++ leBytes 2 2 ++
  leBytes 2 0 ++
  -- the strings
  leBytes 4 0 ++ leBytes 4 3 ++ leBytes 8 0 ++ leBytes 8 0 ++
  leBytes 8 (192 + 16 * entries.length) ++ leBytes 8 strings.length ++ leBytes 8 0 ++
  leBytes 8 0 ++ leBytes 8 0 ++
  -- the dynamic section
  leBytes 4 0 ++ leBytes 4 shtDynamic ++ leBytes 8 0 ++ leBytes 8 0 ++ leBytes 8 192 ++
  leBytes 8 (16 * entries.length) ++ leBytes 8 0 ++ leBytes 8 0 ++ leBytes 8 16 ++
  entries.flatMap (fun e => leBytes 8 e.1 ++ leBytes 8 e.2) ++ strings

def onePath : Bytes := sharedObject [(dtRunpath, 0), (dtNull, 0)] (ascii "/l\x00")

theorem fixElf_ends_onePath : ∃ outcome,
    fixElf emptyHost (ascii "/nix/store") ⟨ascii "/nix/store/x", ascii "/nix/store/x", []⟩
      (ascii "/nix/store/x/bin/a") onePath 300 = .ok outcome := by
  obtain ⟨-, -, -, -, -, -, -, hends⟩ := fixElf_ends_iff emptyHost (ascii "/nix/store")
    ⟨ascii "/nix/store/x", ascii "/nix/store/x", []⟩ (ascii "/nix/store/x/bin/a")
    ⟨onePath, by decide +kernel⟩ 300 (by decide +kernel)
  refine hends.mpr ?_
  rintro ⟨-, ehdr, _, _, hehdr, -, -, -, hentry⟩
  have hfirst : readEhdr onePath = .ok (some ⟨slice onePath 0 64⟩) := by decide +kernel
  cases hfirst.symm.trans hehdr
  exact absurd hentry.1 (by decide +kernel)

end Corepkgs.Jig.Elf
