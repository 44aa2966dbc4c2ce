import Mathlib
import Corepkgs.Jig.RunpathSlack
import Corepkgs.Lib.Results
/-!
# What a fixed ELF file has in common with the original

The ranges `elf_fixup.cc` reads its tables from and those it writes to.  In a file whose tables do
not overlap, the tables are read the same after the writes; only the names of the NEEDED are not.
-/

namespace Corepkgs.Jig.Elf

open Lib Jig.Fixup List Nat

/-! ## The ranges of a file -/

def phdrAt (ehdr : Ehdr) (i : Nat) : Nat := wrap (ehdr.phoff + wrap (i * ehdr.phentsize))

def shdrAt (ehdr : Ehdr) (i : Nat) : Nat := wrap (ehdr.shoff + wrap (i * ehdr.shentsize))

def headerRange : List (Nat × Nat) := [(0, 64)]

def phdrRanges (ehdr : Ehdr) : List (Nat × Nat) :=
  (range ehdr.phnum).map fun i => (phdrAt ehdr i, 56)

def shdrRanges (ehdr : Ehdr) : List (Nat × Nat) :=
  (range ehdr.shnum).map fun i => (shdrAt ehdr i, 64)

def entryRanges (off stop : Nat) : List (Nat × Nat) :=
  (range ((stop - off + 15) / 16)).map fun k => (off + 16 * k, 16)

def dynamicRanges (bytes : Bytes) (sections : List Section) : List (Nat × Nat) :=
  match sections.find? (·.type = shtDynamic) with
  | none => []
  | some s => entryRanges s.offset (sectionEnd bytes s)

def slotRange (bytes : Bytes) (dynamic : DynamicInfo) : List (Nat × Nat) :=
  match dynamic.runpathOffset with
  | none => []
  | some off => [(off, ((bytes.drop off).takeWhile (· ≠ 0)).length + 1)]

def valRanges (needed : List Needed) : List (Nat × Nat) := needed.map fun lib => (lib.valOffset, 8)

def vnFileRanges (needed : List Needed) : List (Nat × Nat) :=
  needed.flatMap fun lib => lib.vnFiles.map fun vn => (vn, 4)

def interpRange (bytes : Bytes) (off : Nat) : List (Nat × Nat) :=
  match readPhdr bytes off with
  | .ok (some phdr) => if phdr.type = ptInterp then [(phdr.offset, phdr.filesz)] else []
  | _ => []

def interpRanges (bytes : Bytes) (ehdr : Ehdr) : List (Nat × Nat) :=
  (range ehdr.phnum).flatMap fun i => interpRange bytes (phdrAt ehdr i)

def tableRanges (bytes : Bytes) (ehdr : Ehdr) (sections : List Section) (dynamic : DynamicInfo) :
    List (List (Nat × Nat)) :=
  [headerRange, phdrRanges ehdr, shdrRanges ehdr, dynamicRanges bytes sections,
    slotRange bytes dynamic]

/-- The tables do not overlap, and neither the interpreter's name nor a `vn_file` field is in
one. -/
structure Disentangled (bytes : Bytes) (ehdr : Ehdr) (sections : List Section)
    (dynamic : DynamicInfo) : Prop where
  tables : (tableRanges bytes ehdr sections dynamic).Pairwise Separate
  phdrs : (phdrRanges ehdr).Pairwise fun a b => Separate [a] [b]
  strings : ∀ table ∈ tableRanges bytes ehdr sections dynamic,
    Separate (vnFileRanges dynamic.needed ++ interpRanges bytes ehdr) table

variable {ehdr e : Ehdr} {i off stop fuel : Nat} {a b bytes : Bytes} {info : DynamicInfo}

theorem mem_phdrRanges (h : i < ehdr.phnum) :
    (phdrAt ehdr i, 56) ∈ phdrRanges ehdr :=
  mem_map.mpr ⟨i, mem_range.mpr h, rfl⟩

theorem mem_shdrRanges (h : i < ehdr.shnum) :
    (shdrAt ehdr i, 64) ∈ shdrRanges ehdr :=
  mem_map.mpr ⟨i, mem_range.mpr h, rfl⟩

theorem mem_entryRanges {k : Nat} (h : off + 16 * k < stop) :
    (off + 16 * k, 16) ∈ entryRanges off stop :=
  mem_map.mpr ⟨k, mem_range.mpr (by omega), rfl⟩

/-! ## Reading -/

theorem field_slice (bytes : Bytes) {base len size : Nat} (h : off + size ≤ len) :
    field (slice bytes base len) off size = leNat (slice bytes (base + off) size) := by
  rw [field]
  congr 1
  apply ext_getElem?
  intro i
  simp only [slice, getElem?_take, getElem?_drop]
  split_ifs with hi hin
  · rw [add_assoc]
  · omega
  · rfl

variable {ranges : List (Nat × Nat)}

/-- A string is the same in an image that differs only off it and its terminator. -/
theorem cString_agree (h : AgreeOff (covered ranges) a b) {text : Bytes}
    (ha : cString a off = .ok text) (hap : Separate [(off, text.length + 1)] ranges) :
    cString b off = .ok text := by
  rw [cString_eq, Except.ok.injEq] at ha ⊢
  have hslice := h.slice_of_separate hap
  have hsplit := takeWhile_append_dropWhile (p := fun c : UInt8 => decide (c ≠ 0))
    (l := a.drop off)
  have hnonzero : ∀ c ∈ text, decide (c ≠ 0) = true := by
    rw [← ha]
    intro c hc
    exact mem_takeWhile_imp (p := fun c : UInt8 => decide (c ≠ 0)) hc
  rw [ha] at hsplit
  have hb : b.drop off = slice b off (text.length + 1) ++ b.drop (off + (text.length + 1)) := by
    rw [slice, ← drop_drop, take_append_drop]
  cases hrest : (a.drop off).dropWhile fun c => decide (c ≠ 0) with
  | nil =>
    -- the string runs to the end of the image
    rw [hrest, append_nil] at hsplit
    have hend : b.drop (off + (text.length + 1)) = [] := by
      apply drop_of_length_le
      have hlen := congrArg length hsplit
      rw [length_drop] at hlen
      rw [← h.length]
      omega
    rw [hb, hend, append_nil, ← hslice, slice, ← hsplit,
      take_of_length_le (le_succ _)]
    exact takeWhile_eq_self_iff.mpr hnonzero
  | cons c rest =>
    have hzero : c = 0 := by
      have hhead := head?_dropWhile_not (fun c : UInt8 => decide (c ≠ 0)) (a.drop off)
      rw [hrest] at hhead
      simpa using hhead
    rw [hrest, hzero] at hsplit
    have htake : slice a off (text.length + 1) = text ++ [0] := by
      rw [slice, ← hsplit, take_length_add_append]
      rfl
    rw [hb, ← hslice, htake, append_assoc, singleton_append]
    exact takeWhile_append_of_pos hnonzero |>.trans (by simp)

theorem readPhdr_eq (bytes : Bytes) (off : Nat) :
    readPhdr bytes off =
      .ok (if off + 56 ≤ bytes.length then some ⟨slice bytes off 56⟩ else none) := by
  rw [readPhdr, read_eq]
  split_ifs <;> rfl

theorem readEhdr_eq (bytes : Bytes) :
    readEhdr bytes = .ok (if 64 ≤ bytes.length then some ⟨slice bytes 0 64⟩ else none) := by
  rw [readEhdr, read_eq, zero_add]
  split_ifs <;> rfl

/-- The fields of the header that say where the tables are. -/
structure SameTables (e e' : Ehdr) : Prop where
  phoff : e'.phoff = e.phoff
  phentsize : e'.phentsize = e.phentsize
  phnum : e'.phnum = e.phnum
  shoff : e'.shoff = e.shoff
  shentsize : e'.shentsize = e.shentsize
  shnum : e'.shnum = e.shnum

theorem SameTables.refl (e : Ehdr) : SameTables e e := ⟨rfl, rfl, rfl, rfl, rfl, rfl⟩

theorem sameTables_withEntry (hlen : e.raw.length = 64) (entry : Nat) :
    SameTables e (e.withEntry entry) := by
  have hagree : AgreeOff (Set.Ico 24 32) e.raw (e.withEntry entry).raw := by
    have h : AgreeOff _ e.raw (overwriteAt e.raw 24 (leBytes 8 entry)) :=
      agreeOff_overwriteAt (by rw [length_leBytes, hlen]; omega)
    rwa [length_leBytes] at h
  have hfield : ∀ off size : Nat, 32 ≤ off →
      field (e.withEntry entry).raw off size = field e.raw off size := by
    intro off size hoff
    rw [field, field, hagree.slice_eq]
    rw [Set.disjoint_left]
    rintro i ⟨hlo, -⟩ ⟨-, hhi⟩
    omega
  exact ⟨hfield 32 8 (by omega), hfield 54 2 (by omega), hfield 56 2 (by omega),
    hfield 40 8 (by omega), hfield 58 2 (by omega), hfield 60 2 (by omega)⟩

variable {e' : Ehdr}

theorem SameTables.phdrAt (h : SameTables e e') (i : Nat) :
    phdrAt e' i = phdrAt e i := by
  rw [Elf.phdrAt, Elf.phdrAt, h.phoff, h.phentsize]

theorem sectionsFrom_agree (h : AgreeOff (covered ranges) a b) (he : SameTables e e')
    (hap : Separate (shdrRanges e) ranges) (count i : Nat) (hcount : i + count = e.shnum) :
    sectionsFrom b e' count i = sectionsFrom a e count i := by
  induction count generalizing i with
  | zero => rfl
  | succ count ih =>
    have hslice : slice a (shdrAt e i) 64 = slice b (shdrAt e i) 64 :=
      h.slice_of_separate (hap.mono (by simpa using mem_shdrRanges (show i < e.shnum by omega)))
    rw [sectionsFrom, sectionsFrom, he.shoff, he.shentsize, read_eq, read_eq, ih _ (by omega),
      ← h.length]
    rw [shdrAt] at hslice
    rw [hslice]

theorem readSections_agree (h : AgreeOff (covered ranges) a b) (he : SameTables e e')
    (hap : Separate (shdrRanges e) ranges) :
    readSections b e' = readSections a e := by
  rw [readSections, readSections, he.shnum]
  exact sectionsFrom_agree h he hap e.shnum 0 (by omega)

/-! ## The dynamic section again -/

/-- What is known after the entry at `off`. -/
def dynamicStep (bytes : Bytes) (off : Nat) (info : DynamicInfo) : DynamicInfo :=
  let tag := field (slice bytes off 16) 0 8
  let val := field (slice bytes off 16) 8 8
  { info with
    needed := if tag = dtNeeded then
        info.needed ++ [⟨(bytes.drop (wrap (info.dynstr + val))).takeWhile (· ≠ 0),
          wrap (off + 8), []⟩]
      else info.needed
    runpathOffset := if tag = dtRunpath ∨ tag = dtRpath then some (wrap (info.dynstr + val))
      else info.runpathOffset }

theorem dynamicLoop_succ (bytes : Bytes) (stop fuel off : Nat) (info : DynamicInfo) :
    dynamicLoop bytes stop (fuel + 1) off info =
      if stop ≤ off ∨ bytes.length < off + 16 ∨ field (slice bytes off 16) 0 8 = dtNull then
        .ok info
      else dynamicLoop bytes stop fuel (wrap (off + 16)) (dynamicStep bytes off info) := by
  rw [dynamicLoop, read_eq]
  by_cases hout : stop ≤ off
  · rw [if_pos hout, if_pos (.inl hout)]
  by_cases hin : off + 16 ≤ bytes.length
  · by_cases hnull : field (slice bytes off 16) 0 8 = dtNull
    · rw [if_neg hout, if_pos hin, if_pos (.inr (.inr hnull))]
      exact if_pos hnull
    · rw [if_neg hout, if_pos hin, if_neg (by omega)]
      simp only [bind, Except.bind, cString_eq, pure, Except.pure, if_neg hnull]
      by_cases hneeded : field (slice bytes off 16) 0 8 = dtNeeded
      · simp [dynamicStep, hneeded, dtNeeded, dtRunpath, dtRpath]
      · simp only [dynamicStep, if_neg hneeded]
        split_ifs <;> rfl
  · rw [if_neg hout, if_neg hin, if_pos (by omega)]
    rfl

/-- The entries from `off` on have the same tags, and the same values but for those of NEEDED. -/
def SameEntries (a b : Bytes) (off stop : Nat) : Prop :=
  ∀ k, off + 16 * k < stop →
    field (slice b (off + 16 * k) 16) 0 8 = field (slice a (off + 16 * k) 16) 0 8 ∧
    (field (slice a (off + 16 * k) 16) 0 8 ≠ dtNeeded →
      field (slice b (off + 16 * k) 16) 8 8 = field (slice a (off + 16 * k) 16) 8 8)

theorem SameEntries.next (h : SameEntries a b off stop) :
    SameEntries a b (off + 16) stop := by
  intro k hk
  have hnext := h (k + 1) (by omega)
  rwa [show off + 16 * (k + 1) = off + 16 + 16 * k by omega] at hnext

variable {result : DynamicInfo}

theorem dynamicLoop_agree (hfits : a.length < 2 ^ 63) (hlen : a.length = b.length)
    (h : SameEntries a b off stop) {info' result' : DynamicInfo}
    (hstr : info'.dynstr = info.dynstr) (hrun : info'.runpathOffset = info.runpathOffset)
    (ha : dynamicLoop a stop fuel off info = .ok result)
    (hb : dynamicLoop b stop fuel off info' = .ok result') :
    result'.runpathOffset = result.runpathOffset := by
  induction fuel generalizing off info info' with
  | zero => cases ha
  | succ fuel ih =>
    rw [dynamicLoop_succ] at ha hb
    by_cases hout : stop ≤ off
    · rw [if_pos (.inl hout)] at ha hb
      cases ha
      cases hb
      exact hrun
    obtain ⟨htag, hval⟩ := h 0 (by omega)
    rw [mul_zero, add_zero] at htag hval
    rw [htag, ← hlen] at hb
    split_ifs at ha hb with hstopped
    · cases ha
      cases hb
      exact hrun
    · have hnext : wrap (off + 16) = off + 16 := mod_eq_of_lt (by omega)
      rw [hnext] at ha hb
      refine ih h.next ?_ ?_ ha hb
      · exact hstr
      · dsimp only [dynamicStep]
        rw [htag, hstr, hrun]
        split_ifs with hpath
        · rw [hval (by rcases hpath with h | h <;> rw [h] <;> decide)]
        · rfl

def NeededAt (bytes : Bytes) (off stop : Nat) (lib : Needed) : Prop :=
  ∃ k, off + 16 * k < stop ∧ lib.valOffset = off + 16 * k + 8 ∧
    field (slice bytes (off + 16 * k) 16) 0 8 = dtNeeded

theorem NeededAt.of_next {lib : Needed} (h : NeededAt bytes (off + 16) stop lib) :
    NeededAt bytes off stop lib := by
  obtain ⟨k, hk, hval, htag⟩ := h
  rw [show off + 16 + 16 * k = off + 16 * (k + 1) by omega] at hk hval htag
  exact ⟨k + 1, hk, hval, htag⟩

theorem dynamicLoop_needed (hfits : bytes.length < 2 ^ 63)
    (h : dynamicLoop bytes stop fuel off info = .ok result) :
    ∀ lib ∈ result.needed, lib ∈ info.needed ∨ NeededAt bytes off stop lib := by
  induction fuel generalizing off info with
  | zero => cases h
  | succ fuel ih =>
    rw [dynamicLoop_succ] at h
    split_ifs at h with hstopped
    · cases h
      exact fun lib hlib => .inl hlib
    · have hnext : wrap (off + 16) = off + 16 := mod_eq_of_lt (by omega)
      have hval : wrap (off + 8) = off + 8 := mod_eq_of_lt (by omega)
      rw [hnext] at h
      intro lib hlib
      rcases ih h lib hlib with hlib | hlib
      · dsimp only [dynamicStep] at hlib
        split_ifs at hlib with hneeded
        · rcases mem_append.mp hlib with hlib | hlib
          · exact .inl hlib
          · rw [mem_singleton.mp hlib, hval]
            exact .inr ⟨0, by omega, rfl, hneeded⟩
        · exact .inl hlib
      · exact .inr hlib.of_next

/-- The chain of `DT_VERNEED` only adds `vn_file` fields. -/
theorem verneedLoop_same (h : verneedLoop bytes fuel off info = .ok result) :
    result.runpathOffset = info.runpathOffset ∧
      result.needed.map (·.valOffset) = info.needed.map (·.valOffset) := by
  induction fuel generalizing off info with
  | zero => cases h
  | succ fuel ih =>
    rw [verneedLoop, read_eq] at h
    split_ifs at h
    · cases h
      exact ⟨rfl, rfl⟩
    · simp only [bind, Except.bind, cString_eq] at h
      obtain ⟨hrun, hval⟩ := ih h
      refine ⟨hrun, hval.trans ?_⟩
      rw [map_map]
      apply map_congr_left
      intro lib _
      dsimp only [Function.comp_apply]
      split_ifs <;> rfl
    · cases h
      exact ⟨rfl, rfl⟩

theorem readDynamic_needed (hfits : bytes.length < 2 ^ 63) {sections : List Section}
    (h : readDynamic bytes sections fuel = .ok info) :
    ∀ lib ∈ info.needed, ∃ s, sections.find? (·.type = shtDynamic) = some s ∧
      NeededAt bytes s.offset (sectionEnd bytes s) lib := by
  unfold readDynamic at h
  split at h
  · cases h
    simp
  · rename_i s hs
    split_ifs at h
    · cases h
      simp
    · obtain ⟨dynstr, -, h⟩ := bind_eq_ok.mp h
      split_ifs at h
      · cases h
        simp
      · obtain ⟨first, hfirst, h⟩ := bind_eq_ok.mp h
        have hvals : info.needed.map (·.valOffset) = first.needed.map (·.valOffset) := by
          split at h <;> exact (verneedLoop_same h).2
        intro lib hlib
        have hmem : lib.valOffset ∈ first.needed.map (·.valOffset) := by
          rw [← hvals]
          exact mem_map_of_mem hlib
        obtain ⟨lib', hlib', hval⟩ := mem_map.mp hmem
        refine ⟨s, hs, ?_⟩
        rcases dynamicLoop_needed hfits hfirst lib' hlib' with hold | hat
        · cases hold
        · rwa [NeededAt, hval] at hat

theorem readDynamic_runpathOffset (hfits : a.length < 2 ^ 63) (hlen : a.length = b.length)
    {sections : List Section} (hentries : ∀ s, sections.find? (·.type = shtDynamic) = some s →
      SameEntries a b s.offset (sectionEnd a s))
    {info' : DynamicInfo} (ha : readDynamic a sections fuel = .ok info)
    (hb : readDynamic b sections fuel = .ok info') :
    info'.runpathOffset = info.runpathOffset := by
  unfold readDynamic at ha hb
  split at ha
  · rename_i hnone
    rw [hnone] at hb
    cases ha
    cases hb
    rfl
  · rename_i s hs
    rw [hs] at hb
    dsimp only at hb
    split_ifs at ha hb
    · cases ha
      cases hb
      rfl
    · obtain ⟨dynstr, hdynstr, ha⟩ := bind_eq_ok.mp ha
      obtain ⟨dynstr', hdynstr', hb⟩ := bind_eq_ok.mp hb
      rw [hdynstr] at hdynstr'
      cases hdynstr'
      split_ifs at ha hb
      · cases ha
        cases hb
        rfl
      · obtain ⟨first, hfirst, ha⟩ := bind_eq_ok.mp ha
        obtain ⟨first', hfirst', hb⟩ := bind_eq_ok.mp hb
        have hend : sectionEnd b s = sectionEnd a s := by rw [sectionEnd, sectionEnd, hlen]
        rw [hend] at hfirst'
        have hloop := dynamicLoop_agree hfits hlen (hentries s hs) rfl rfl hfirst hfirst'
        have hrun : info.runpathOffset = first.runpathOffset := by
          split at ha <;> exact (verneedLoop_same ha).1
        have hrun' : info'.runpathOffset = first'.runpathOffset := by
          split at hb <;> exact (verneedLoop_same hb).1
        rw [hrun, hrun', hloop]

/-- Writing the values of the NEEDED leaves the other entries alone. -/
theorem sameEntries_of_agree {needed : List Needed} {others : List (Nat × Nat)}
    (h : AgreeOff (covered (valRanges needed ++ others)) a b)
    (hneeded : ∀ lib ∈ needed, NeededAt a off stop lib)
    (hothers : Separate (entryRanges off stop) others) : SameEntries a b off stop := by
  intro k hk
  have hentry := hothers _ (mem_entryRanges hk)
  have hslice : ∀ start, off + 16 * k ≤ start → start ≤ off + 16 * k + 8 →
      (∀ lib ∈ needed, start + 8 ≤ lib.valOffset ∨ lib.valOffset + 8 ≤ start) →
      slice a start 8 = slice b start 8 := by
    intro start hlo hhi hvals
    apply h.slice_of_separate
    intro x hx y hy
    rw [mem_singleton.mp hx]
    rcases mem_append.mp hy with hy | hy
    · obtain ⟨lib, hlib, rfl⟩ := mem_map.mp hy
      exact hvals lib hlib
    · have hy := hentry y hy
      dsimp only at hy ⊢
      omega
  have htag : field (slice b (off + 16 * k) 16) 0 8 = field (slice a (off + 16 * k) 16) 0 8 := by
    rw [field_slice _ (by omega), field_slice _ (by omega), add_zero,
      hslice _ (by omega) (by omega)]
    intro lib hlib
    obtain ⟨j, -, hval, -⟩ := hneeded lib hlib
    omega
  refine ⟨htag, fun hother => ?_⟩
  rw [field_slice _ (by omega), field_slice _ (by omega), hslice _ (by omega) (by omega)]
  intro lib hlib
  obtain ⟨j, -, hval, hj⟩ := hneeded lib hlib
  have hne : j ≠ k := by
    rintro rfl
    exact hother hj
  omega

/-! ## Writing -/

theorem agreeOff_write (bytes : Bytes) (off : Nat) (value : Bytes) :
    AgreeOff (covered [(off, value.length)]) bytes (write bytes off value).2 := by
  unfold write
  split_ifs with h
  · exact .refl _ _
  · rw [covered_singleton]
    exact agreeOff_overwriteAt (by omega)

theorem agreeOff_writePadded (bytes : Bytes) (off capacity : Nat) (text : Bytes) :
    AgreeOff (covered [(off, capacity)]) bytes (writePadded bytes off capacity text).2 := by
  unfold writePadded
  split_ifs with h
  · exact .refl _ _
  · have hlen : (text ++ replicate (capacity - text.length) 0).length = capacity := by
      rw [length_append, length_replicate]
      omega
    have hagree : AgreeOff _ bytes
        (overwriteAt bytes off (text ++ replicate (capacity - text.length) 0)) :=
      agreeOff_overwriteAt (by omega)
    rwa [hlen, ← covered_singleton] at hagree

theorem writePadded_eq_true {text bytes' : Bytes} {capacity : Nat}
    (h : writePadded bytes off capacity text = (true, bytes')) :
    text.length < capacity ∧ off + capacity ≤ bytes.length ∧
      bytes' = overwriteAt bytes off (text ++ replicate (capacity - text.length) 0) := by
  unfold writePadded at h
  split_ifs at h with hbad
  · cases h
  · cases h
    exact ⟨by omega, by omega, rfl⟩

theorem agreeOff_vnFiles (bytes : Bytes) (vnFiles : List Nat) (value : Bytes)
    (hvalue : value.length = 4) :
    AgreeOff (covered (vnFiles.map fun vn => (vn, 4))) bytes
      (vnFiles.foldl (fun bytes vn => (write bytes vn value).2) bytes) := by
  induction vnFiles generalizing bytes with
  | nil => exact .refl _ _
  | cons vn vnFiles ih =>
    have hone := agreeOff_write bytes vn value
    rw [hvalue] at hone
    exact (hone.mono (covered_mono (by simp))).trans
      ((ih _).mono (covered_mono fun _ hr => mem_cons_of_mem _ hr))

theorem agreeOff_writeNames (str : Nat) (bytes : Bytes) {needed : List Needed}
    {direct : List Direct} (h : ∀ d ∈ direct, d.lib ∈ needed) :
    AgreeOff (covered (valRanges needed ++ vnFileRanges needed)) bytes
      (writeNames str bytes direct) := by
  induction direct generalizing str bytes with
  | nil => exact .refl _ _
  | cons d direct ih =>
    rw [forall_mem_cons] at h
    have hval := agreeOff_write bytes d.lib.valOffset (leBytes 8 str)
    rw [length_leBytes] at hval
    have hvn := agreeOff_vnFiles (write bytes d.lib.valOffset (leBytes 8 str)).2 d.lib.vnFiles
      (leBytes 4 str) (length_leBytes _ _)
    rw [writeNames]
    refine ((hval.mono (covered_mono ?_)).trans (hvn.mono (covered_mono ?_))).trans (ih _ _ h.2)
    · intro r hr
      rw [mem_singleton.mp hr]
      exact mem_append_left _ (mem_map_of_mem h.1)
    · intro r hr
      exact mem_append_right _ (mem_flatMap.mpr ⟨d.lib, h.1, hr⟩)

/-! ## The interpreter -/

/-- No program header up to the first that cannot be read has an interpreter. -/
def NoInterp (bytes : Bytes) (ehdr : Ehdr) : Prop :=
  ∀ j < ehdr.phnum, (∀ k ≤ j, phdrAt ehdr k + 56 ≤ bytes.length) →
    Phdr.type ⟨slice bytes (phdrAt ehdr j) 56⟩ ≠ ptInterp

variable {storeDir path : Bytes} {ctx : FixupContext} {count : Nat}

theorem interpLoop_noInterp {stub : Option Nat} {p p' : Progress} {fine : Bool}
    (hnone : NoInterp p.bytes ehdr) (hcount : i + count = ehdr.phnum)
    (hread : ∀ k < i, phdrAt ehdr k + 56 ≤ p.bytes.length)
    (h : interpLoop storeDir ctx path ehdr stub count i p = .ok (fine, p')) : p' = p := by
  induction count generalizing i with
  | zero =>
    cases h
    rfl
  | succ count ih =>
    rw [interpLoop, ← phdrAt, readPhdr_eq] at h
    by_cases hin : phdrAt ehdr i + 56 ≤ p.bytes.length
    · have hread' : ∀ k < i + 1, phdrAt ehdr k + 56 ≤ p.bytes.length := by
        intro k hk
        rcases Nat.lt_succ_iff_lt_or_eq.mp hk with hk | rfl
        · exact hread k hk
        · exact hin
      have htype := hnone i (by omega) fun k hk => hread' k (by omega)
      rw [if_pos hin] at h
      simp only [bind, Except.bind, if_pos htype] at h
      exact ih (by omega) hread' h
    · rw [if_neg hin] at h
      cases h
      rfl

theorem interpLoop_noStub {p p' : Progress} {fine : Bool}
    (h : interpLoop storeDir ctx path ehdr none count i p = .ok (fine, p')) :
    p'.bytes = p.bytes ∧ p'.dirty = p.dirty := by
  induction count generalizing i p with
  | zero =>
    cases h
    exact ⟨rfl, rfl⟩
  | succ count ih =>
    rw [interpLoop, readPhdr_eq] at h
    split_ifs at h
    · simp only [bind, Except.bind, cString_eq] at h
      split_ifs at h
      · exact ih h
      · have hrest := ih h
        exact hrest
    · cases h
      exact ⟨rfl, rfl⟩

section

variable {original : Bytes} {ehdr : Ehdr} {entry : Nat}

/-- The image after the first `i` program headers. -/
structure Handed (original : Bytes) (ehdr : Ehdr) (entry i : Nat) (bytes : Bytes) : Prop where
  agree : AgreeOff (covered (headerRange ++ phdrRanges ehdr ++ interpRanges original ehdr)) original
    bytes
  header : slice bytes 0 64 = ehdr.raw ∨ slice bytes 0 64 = (ehdr.withEntry entry).raw
  done : ∀ j < i, Phdr.type ⟨slice bytes (phdrAt ehdr j) 56⟩ ≠ ptInterp
  rest : ∀ j, i ≤ j → j < ehdr.phnum →
    slice bytes (phdrAt ehdr j) 56 = slice original (phdrAt ehdr j) 56

/-- What the loop relies on: program headers apart from each other, from the header and from the
names of the interpreters. -/
structure HeadersApart (original : Bytes) (ehdr : Ehdr) : Prop where
  raw : ehdr.raw.length = 64
  room : 64 ≤ original.length
  header : Separate (phdrRanges ehdr) headerRange
  phdrs : ∀ i j, i < ehdr.phnum → j < ehdr.phnum → i ≠ j →
    Separate [(phdrAt ehdr i, 56)] [(phdrAt ehdr j, 56)]
  interps : Separate (phdrRanges ehdr) (interpRanges original ehdr)
  interpsHeader : Separate (interpRanges original ehdr) headerRange

theorem type_withType_ptNull {phdr : Phdr} (h : phdr.raw.length = 56) :
    (phdr.withType ptNull).type = ptNull := by
  have hwritten : slice (overwriteAt phdr.raw 0 (leBytes 4 ptNull)) 0 _ = leBytes 4 ptNull :=
    slice_overwriteAt (by rw [length_leBytes, h]; omega)
  rw [length_leBytes] at hwritten
  rw [Phdr.type, Phdr.withType, Elf.field, hwritten]
  decide

theorem slice_write (bytes value : Bytes) (off : Nat) (h : off + value.length ≤ bytes.length) :
    slice (write bytes off value).2 off value.length = value := by
  rw [write, if_neg (by omega)]
  exact slice_overwriteAt h

theorem Handed.step (hapart : HeadersApart original ehdr) {i : Nat} {bytes placed : Bytes}
    (h : Handed original ehdr entry i bytes) (hi : i < ehdr.phnum)
    (hin : phdrAt ehdr i + 56 ≤ bytes.length) {phdr : Phdr}
    (hphdr : phdr = ⟨slice bytes (phdrAt ehdr i) 56⟩) (htype : phdr.type = ptInterp)
    (hplaced : AgreeOff (covered [(phdr.offset, phdr.filesz)]) bytes placed) :
    Handed original ehdr entry (i + 1) (write (write placed (phdrAt ehdr i)
      (phdr.withType ptNull).raw).2 0 (ehdr.withEntry entry).raw).2 := by
  have hlen := h.agree.length
  have hphdrLen : phdr.raw.length = 56 := by
    rw [hphdr, slice, length_take, length_drop]
    omega
  have htypeLen : (phdr.withType ptNull).raw.length = 56 := by
    rw [Phdr.withType, length_overwriteAt (by rw [length_leBytes]; omega), hphdrLen]
  have hentryLen : (ehdr.withEntry entry).raw.length = 64 := by
    have hraw := hapart.raw
    rw [Ehdr.withEntry, length_overwriteAt (by rw [length_leBytes]; omega), hraw]
  set named := (write placed (phdrAt ehdr i) (phdr.withType ptNull).raw).2 with hnamed
  set final := (write named 0 (ehdr.withEntry entry).raw).2 with hfinal
  have hagreeNamed : AgreeOff (covered [(phdrAt ehdr i, 56)]) placed named := by
    have hw := agreeOff_write placed (phdrAt ehdr i) (phdr.withType ptNull).raw
    rwa [htypeLen] at hw
  have hagreeFinal : AgreeOff (covered headerRange) named final := by
    have hw := agreeOff_write named 0 (ehdr.withEntry entry).raw
    rwa [hentryLen] at hw
  -- the interpreter's name is where the original has it
  have hinterp : (phdr.offset, phdr.filesz) ∈ interpRanges original ehdr := by
    refine mem_flatMap.mpr ⟨i, mem_range.mpr hi, ?_⟩
    have hsame := h.rest i (le_refl i) hi
    rw [interpRange, readPhdr_eq, if_pos (by rw [hlen]; exact hin), ← hsame, ← hphdr]
    dsimp only
    rw [if_pos htype]
    exact mem_singleton_self _
  -- a program header that is not the current one stays
  have hother : ∀ j < ehdr.phnum, j ≠ i →
      slice final (phdrAt ehdr j) 56 = slice bytes (phdrAt ehdr j) 56 := by
    intro j hj hne
    have hmem : ∀ x ∈ [(phdrAt ehdr j, 56)], x ∈ phdrRanges ehdr := by
      simpa using mem_phdrRanges hj
    have hname : Separate [(phdrAt ehdr j, 56)] [(phdr.offset, phdr.filesz)] :=
      ((hapart.interps.mono hmem).symm.mono (by simpa using hinterp)).symm
    rw [hplaced.slice_of_separate hname, hagreeNamed.slice_of_separate (hapart.phdrs j i hj hi hne),
      hagreeFinal.slice_of_separate (hapart.header.mono hmem)]
  have hhere : slice final (phdrAt ehdr i) 56 = (phdr.withType ptNull).raw := by
    have hmem : ∀ x ∈ [(phdrAt ehdr i, 56)], x ∈ phdrRanges ehdr := by
      simpa using mem_phdrRanges hi
    have hwritten := slice_write placed (phdr.withType ptNull).raw (phdrAt ehdr i)
      (by rw [htypeLen, ← hplaced.length]; exact hin)
    rw [htypeLen] at hwritten
    rw [← hagreeFinal.slice_of_separate (hapart.header.mono hmem), hwritten]
  refine ⟨?_, ?_, ?_, ?_⟩
  · refine ((h.agree.trans (hplaced.mono (covered_mono ?_))).trans
      (hagreeNamed.mono (covered_mono ?_))).trans (hagreeFinal.mono (covered_mono ?_))
    · simp [hinterp]
    · simp [mem_phdrRanges hi]
    · simp +contextual
  · right
    have hroom := hapart.room
    have hwritten := slice_write named (ehdr.withEntry entry).raw 0
      (by rw [hentryLen, ← hagreeNamed.length, ← hplaced.length, ← hlen]; omega)
    rwa [hentryLen] at hwritten
  · intro j hj
    by_cases hji : j = i
    · rw [hji, hhere]
      have hnull := type_withType_ptNull hphdrLen
      rw [hnull]
      decide
    · rw [hother j (by omega) hji]
      exact h.done j (by omega)
  · intro j hj hjn
    rw [hother j hjn (by omega)]
    exact h.rest j (by omega) hjn

/-- With a stub no interpreter is left. -/
theorem interpLoop_handed (hapart : HeadersApart original ehdr) {i : Nat} {p p' : Progress}
    (h : Handed original ehdr entry i p.bytes) (hcount : i + count = ehdr.phnum)
    (hloop : interpLoop storeDir ctx path ehdr (some entry) count i p = .ok (true, p')) :
    ∃ j, Handed original ehdr entry j p'.bytes ∧ NoInterp p'.bytes ehdr := by
  induction count generalizing i p with
  | zero =>
    cases hloop
    exact ⟨i, h, fun j hj _ => h.done j (by omega)⟩
  | succ count ih =>
    rw [interpLoop, ← phdrAt, readPhdr_eq] at hloop
    by_cases hin : phdrAt ehdr i + 56 ≤ p.bytes.length
    · rw [if_pos hin] at hloop
      simp only [bind, Except.bind, cString_eq] at hloop
      split_ifs at hloop with hother hstore hfits hfits
      · -- another kind of header
        refine ih ⟨h.agree, h.header, ?_, fun j hj => h.rest j (by omega)⟩ (by omega) hloop
        intro j hj
        rcases Nat.lt_succ_iff_lt_or_eq.mp hj with hj | rfl
        · exact h.done j hj
        · exact hother
      · cases hloop
      · refine ih (h.step hapart (by omega) hin rfl (not_not.mp hother) ?_) (by omega) hloop
        exact agreeOff_writePadded _ _ _ _
      · cases hloop
      · refine ih (h.step hapart (by omega) hin rfl (not_not.mp hother) ?_) (by omega) hloop
        exact .refl _ _
    · rw [if_neg hin] at hloop
      cases hloop
      refine ⟨i, h, fun j hj hread => ?_⟩
      by_cases hji : j < i
      · exact h.done j hji
      · exact absurd (hread i (by omega)) hin

end

end Corepkgs.Jig.Elf
