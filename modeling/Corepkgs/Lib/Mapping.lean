import Corepkgs.Lib.Bytes
import Mathlib.Data.Nat.Bitwise
import Mathlib.Tactic.Linarith
/-!
# Pages and mappings

Rounding to pages in 64-bit words, and an address space as `mmap` sees it: at each
address a byte with the protection of its mapping, or nothing.  A byte of a page
wholly past the end of the mapped file is there but cannot be read.
-/

namespace Corepkgs.Lib

open BitVec Nat

abbrev U64 := BitVec 64

/-! ## Rounding -/

def floorTo (g x : Nat) : Nat := x / g * g

def ceilTo (g x : Nat) : Nat := (x + g - 1) / g * g

def pageFloor (page x : U64) : U64 := x &&& ~~~(page - 1)

def pageCeil (page x : U64) : U64 := (x + page - 1) &&& ~~~(page - 1)

section

variable {g x y : Nat}

theorem floorTo_le (g x : Nat) : floorTo g x ≤ x := div_mul_le_self x g

theorem lt_floorTo_add (hg : 0 < g) (x : Nat) : x < floorTo g x + g := by
  have hdiv := div_add_mod' x g
  have hmod := mod_lt x hg
  unfold floorTo
  omega

theorem dvd_floorTo (g x : Nat) : g ∣ floorTo g x := Dvd.intro_left _ rfl

theorem dvd_ceilTo (g x : Nat) : g ∣ ceilTo g x := Dvd.intro_left _ rfl

theorem le_ceilTo (hg : 0 < g) (x : Nat) : x ≤ ceilTo g x := by
  have hlt := lt_floorTo_add hg (x + g - 1)
  unfold floorTo at hlt
  unfold ceilTo
  omega

theorem ceilTo_lt_add (hg : 0 < g) (x : Nat) : ceilTo g x < x + g := by
  have hle := floorTo_le g (x + g - 1)
  unfold floorTo at hle
  unfold ceilTo
  omega

/-- Multiples less than one step apart the wrong way are in order. -/
theorem le_of_dvd_of_lt_add (hx : g ∣ x) (hy : g ∣ y) (h : x < y + g) : x ≤ y := by
  obtain ⟨a, rfl⟩ := hx
  obtain ⟨b, rfl⟩ := hy
  have hstep : g * a < g * (b + 1) := by
    rw [Nat.mul_add, Nat.mul_one]
    exact h
  exact Nat.mul_le_mul_left g (Nat.lt_succ_iff.mp (Nat.lt_of_mul_lt_mul_left hstep))

theorem floorTo_mono (g : Nat) (h : x ≤ y) : floorTo g x ≤ floorTo g y :=
  Nat.mul_le_mul_right g (Nat.div_le_div_right h)

theorem ceilTo_le (hg : 0 < g) (hy : g ∣ y) (h : x ≤ y) : ceilTo g x ≤ y := by
  have hlt := ceilTo_lt_add hg x
  exact le_of_dvd_of_lt_add (dvd_ceilTo g x) hy (by omega)

theorem ceilTo_of_dvd (hg : 0 < g) (hx : g ∣ x) : ceilTo g x = x :=
  le_antisymm (ceilTo_le hg hx le_rfl) (le_ceilTo hg x)

/-- What is left of the page below `x`. -/
theorem floorTo_add_mod (g x : Nat) : floorTo g x + x % g = x := div_add_mod' x g

theorem ceilTo_add (hg : 0 < g) (hx : g ∣ x) (y : Nat) : ceilTo g (x + y) = x + ceilTo g y := by
  obtain ⟨a, rfl⟩ := hx
  have hsum : g * a + y + g - 1 = y + g - 1 + g * a := by omega
  rw [ceilTo, ceilTo, hsum, Nat.add_mul_div_left _ _ hg, Nat.add_mul]
  ring

end

section

variable {page x : U64} {k : Nat}

theorem toNat_page_sub_one (hpage : page.toNat = 2 ^ k) : (page - 1).toNat = 2 ^ k - 1 := by
  have hone : 1 ≤ 2 ^ k := Nat.one_le_two_pow
  rw [BitVec.toNat_sub_of_le (by simp [BitVec.le_def, hpage, hone]), hpage]
  rfl

theorem toNat_pageFloor (hpage : page.toNat = 2 ^ k) :
    (pageFloor page x).toNat = floorTo (2 ^ k) x.toNat := by
  have hshift : pageFloor page x = x >>> k <<< k := by
    apply eq_of_getLsbD_eq
    intro i hi
    have hbit : (page - 1).getLsbD i = decide (i < k) := by
      rw [← testBit_toNat, toNat_page_sub_one hpage, testBit_two_pow_sub_one]
    rw [pageFloor, getLsbD_and, getLsbD_not, hbit, getLsbD_shiftLeft,
      getLsbD_ushiftRight]
    by_cases hik : i < k
    · simp [hik]
    · simp [hik, hi, add_sub_of_le (not_lt.mp hik)]
  have hle := floorTo_le (2 ^ k) x.toNat
  have hlt := x.isLt
  rw [hshift, toNat_shiftLeft, toNat_ushiftRight, shiftRight_eq_div_pow,
    Nat.shiftLeft_eq]
  exact Nat.mod_eq_of_lt (lt_of_le_of_lt hle hlt)

/-- Rounding up, when there is a page left above. -/
theorem toNat_pageCeil (hpage : page.toNat = 2 ^ k) (hroom : x.toNat + 2 ^ k ≤ 2 ^ 64) :
    (pageCeil page x).toNat = ceilTo (2 ^ k) x.toNat := by
  have hone : 1 ≤ 2 ^ k := Nat.one_le_two_pow
  have hsum : (x + page - 1).toNat = x.toNat + 2 ^ k - 1 := by
    have hadd : x + page - 1 = x + (page - 1) := by
      rw [BitVec.sub_eq_add_neg, BitVec.add_assoc, ← BitVec.sub_eq_add_neg]
    rw [hadd, BitVec.toNat_add, toNat_page_sub_one hpage, Nat.mod_eq_of_lt (by omega)]
    omega
  have hfloor : (pageFloor page (x + page - 1)).toNat = _ := toNat_pageFloor hpage
  rw [hsum] at hfloor
  exact hfloor

end

/-! ## Address spaces -/

structure Prot where
  read : Bool
  write : Bool
  exec : Bool
  deriving DecidableEq

/-- A mapped address; `byte` is `none` in a page wholly past the end of the mapped file. -/
structure Cell where
  prot : Prot
  byte : Option UInt8
  deriving DecidableEq

abbrev Space := Nat → Option Cell

inductive Signal
  | segv | bus
  deriving DecidableEq

namespace Space

def map (s : Space) (addr len : Nat) (prot : Prot) (content : Nat → Option UInt8) : Space :=
  fun q => if addr ≤ q ∧ q < addr + len then some ⟨prot, content (q - addr)⟩ else s q

/-- `mmap` with `MAP_FIXED`: whole pages from `addr` on, in place of what was mapped there.
User addresses are below `2 ^ 63`, so that an address is no error number. -/
def mmapFixed (page : Nat) (s : Space) (addr len : Nat) (prot : Prot)
    (content : Nat → Option UInt8) : Option Space :=
  if addr % page = 0 ∧ 0 < len ∧ addr + ceilTo page len ≤ 2 ^ 63 then
    some (s.map addr (ceilTo page len) prot content)
  else none

/-- What a private mapping of `file` from `off` on shows: zeros from the end of the file to the
end of its last page. -/
def fileContent (page : Nat) (file : Bytes) (off i : Nat) : Option UInt8 :=
  if off + i < file.length then file[off + i]?
  else if off + i < ceilTo page file.length then some 0
  else none

def mmapFile (page : Nat) (s : Space) (addr len : Nat) (prot : Prot) (file : Bytes) (off : Nat) :
    Option Space :=
  if off % page = 0 then s.mmapFixed page addr len prot (fileContent page file off) else none

def mmapAnon (page : Nat) (s : Space) (addr len : Nat) (prot : Prot) : Option Space :=
  s.mmapFixed page addr len prot fun _ => some 0

def store (s : Space) (addr : Nat) (b : UInt8) : Except Signal Space :=
  match s addr with
  | none => .error .segv
  | some ⟨prot, byte⟩ =>
    if prot.write = false then .error .segv
    else if byte.isNone then .error .bus
    else .ok (s.map addr 1 prot fun _ => some b)

def zeroFill (s : Space) (addr : Nat) : Nat → Except Signal Space
  | 0 => .ok s
  | n + 1 => do
    let s ← s.store addr 0
    zeroFill s (addr + 1) n

variable {addr : Nat} {s : Space} {prot : Prot} {content : Nat → Option UInt8}

theorem mmapFixed_eq {page len : Nat} (hpage : 0 < page)
    (haddr : page ∣ addr) (hlen : page ∣ len) (hpos : 0 < len) (hfit : addr + len ≤ 2 ^ 63) :
    s.mmapFixed page addr len prot content = some (s.map addr len prot content) := by
  rw [mmapFixed, ceilTo_of_dvd hpage hlen,
    if_pos ⟨mod_eq_zero_of_dvd haddr, hpos, hfit⟩]

theorem map_zero (s : Space) (addr : Nat) (prot : Prot) (content : Nat → Option UInt8) :
    s.map addr 0 prot content = s :=
  funext fun q => if_neg (by omega)

theorem map_inside {len q : Nat} (h : addr ≤ q) (h' : q < addr + len)
    :
    s.map addr len prot content q = some ⟨prot, content (q - addr)⟩ := if_pos ⟨h, h'⟩

theorem map_outside {len q : Nat} (h : q < addr ∨ addr + len ≤ q) :
    s.map addr len prot content q = s q := if_neg (by omega)

theorem fileContent_of_lt {page off i : Nat} {file : Bytes} (h : off + i < file.length) :
    fileContent page file off i = file[off + i]? := if_pos h

/-- A byte of a page that has a byte of the file can be read. -/
theorem isSome_fileContent {page off i : Nat} {file : Bytes}
    (h : off + i < ceilTo page file.length) : (fileContent page file off i).isSome = true := by
  unfold fileContent
  split_ifs with hlt
  · rw [List.getElem?_eq_getElem hlt]
    rfl
  · rfl

/-- Zeros over a writable range are a mapping of zeros. -/
theorem zeroFill_eq {n : Nat} (hwrite : prot.write = true)
    (h : ∀ q, addr ≤ q → q < addr + n → ∃ b, s q = some ⟨prot, some b⟩) :
    s.zeroFill addr n = .ok (s.map addr n prot fun _ => some 0) := by
  induction n generalizing s addr with
  | zero =>
    rw [zeroFill, map_zero]
  | succ n ih =>
    obtain ⟨b, hb⟩ := h addr le_rfl (by omega)
    have hstore : s.store addr 0 = .ok (s.map addr 1 prot fun _ => some 0) := by
      simp [store, hb, hwrite]
    have hrest : ∀ q, addr + 1 ≤ q → q < addr + 1 + n →
        ∃ b, s.map addr 1 prot (fun _ => some 0) q = some ⟨prot, some b⟩ := by
      intro q hq hq'
      rw [map_outside (by omega)]
      exact h q (by omega) (by omega)
    rw [zeroFill, hstore]
    refine (ih hrest).trans (congrArg Except.ok (funext fun q => ?_))
    by_cases hin : addr ≤ q ∧ q < addr + (n + 1)
    · rw [map_inside hin.1 hin.2]
      by_cases hq : q = addr
      · rw [map_outside (by omega), map_inside (by omega) (by omega)]
      · rw [map_inside (by omega) (by omega)]
    · rw [map_outside (by omega), map_outside (by omega), map_outside (by omega)]

end Space

end Corepkgs.Lib
