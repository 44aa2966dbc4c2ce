import Mathlib.Data.List.Basic
import Mathlib.Tactic.Ring
/-!
# Byte strings, slices and little-endian words

Go and C++ strings are byte strings.  This module fixes their representation
and the few operations file formats are made of: fixed-width little-endian
words, slices, positional writes and truncation.  It names nothing of the
repository.
-/

namespace Corepkgs.Lib

open List Nat

/-- A byte string: a Go `string` or `[]byte`, a C++ `std::string`, the contents of a file. -/
abbrev Bytes := List UInt8

instance : LawfulBEq Bytes := instLawfulBEq

def ascii (text : String) : Bytes := text.toList.map fun c => UInt8.ofNat c.toNat

/-! ## Little-endian words -/

def leBytes : Nat → Nat → Bytes
  | 0, _ => []
  | width + 1, n => UInt8.ofNat (n % 256) :: leBytes width (n / 256)

def leNat : Bytes → Nat
  | [] => 0
  | b :: bs => b.toNat + 256 * leNat bs

@[simp] theorem length_leBytes (width n : Nat) : (leBytes width n).length = width := by
  induction width generalizing n with
  | zero => rfl
  | succ width ih => simp [leBytes, ih]

theorem leNat_leBytes (width n : Nat) : leNat (leBytes width n) = n % 256 ^ width := by
  induction width generalizing n with
  | zero => simp [leBytes, leNat, mod_one]
  | succ width ih =>
    have hbyte : (UInt8.ofNat (n % 256)).toNat = n % 256 := by simp
    rw [leBytes, leNat, ih, hbyte, pow_succ', mod_mul]

theorem leNat_leBytes_of_lt {width n : Nat} (h : n < 256 ^ width) :
    leNat (leBytes width n) = n := by
  rw [leNat_leBytes, mod_eq_of_lt h]

theorem leNat_lt (bs : Bytes) : leNat bs < 256 ^ bs.length := by
  induction bs with
  | nil => simp [leNat]
  | cons b bs ih =>
    have hb : b.toNat < 256 := b.toNat_lt
    rw [leNat, length_cons, pow_succ']
    omega

theorem leBytes_leNat (bs : Bytes) : leBytes bs.length (leNat bs) = bs := by
  induction bs with
  | nil => rfl
  | cons b bs ih =>
    have hb : b.toNat < 256 := b.toNat_lt
    have hlow : (b.toNat + 256 * leNat bs) % 256 = b.toNat := by omega
    have hhigh : (b.toNat + 256 * leNat bs) / 256 = leNat bs := by omega
    rw [length_cons, leNat, leBytes, hlow, hhigh, ih, UInt8.ofNat_toNat]

theorem leNat_inj {xs ys : Bytes} (hlen : xs.length = ys.length) (h : leNat xs = leNat ys) :
    xs = ys := by
  rw [← leBytes_leNat xs, ← leBytes_leNat ys, hlen, h]

theorem leBytes_mod (width n : Nat) : leBytes width (n % 256 ^ width) = leBytes width n := by
  have h := leBytes_leNat (leBytes width n)
  rwa [length_leBytes, leNat_leBytes] at h

/-- The bytes one by one, as a loop shifts and masks them. -/
theorem leBytes_eq_map (width n : Nat) :
    leBytes width n =
      (range width).map fun i => UInt8.ofNat (n >>> (i * 8) &&& 0xff) := by
  induction width generalizing n with
  | zero => rfl
  | succ width ih =>
    have hmask : ∀ m : Nat, m &&& 0xff = m % 256 := fun m => and_two_pow_sub_one_eq_mod m 8
    have hshift : ∀ i : Nat, (n / 256) >>> (i * 8) = n >>> ((i + 1) * 8) := by
      intro i
      rw [succ_mul, add_comm (i * 8), shiftRight_add, shiftRight_eq_div_pow n 8]
    rw [leBytes, ih, range_succ_eq_map, map_cons, map_map]
    simp only [hshift, Function.comp_def, zero_mul, shiftRight_zero, hmask]

/-! ## Slices and positional writes -/

/-- What a read of `len` bytes at offset `off` returns: short at the end of the file. -/
def slice (data : Bytes) (off len : Nat) : Bytes := (data.drop off).take len

/-- `pwrite(2)`: overwrite from `off` on, growing the file (and zero-filling a gap) as needed. -/
def writeAt (data : Bytes) (off : Nat) (bytes : Bytes) : Bytes :=
  data.take off ++ replicate (off - data.length) 0 ++ bytes ++ data.drop (off + bytes.length)

/-- `ftruncate(2)`: cut or zero-extend to `n` bytes. -/
def truncateTo (data : Bytes) (n : Nat) : Bytes :=
  data.take n ++ replicate (n - data.length) 0

theorem writeAt_length (data bytes : Bytes) : writeAt data data.length bytes = data ++ bytes := by
  simp [writeAt]

theorem take_writeAt {data bytes : Bytes} {off n : Nat} (hn : n ≤ off) (hlen : n ≤ data.length) :
    (writeAt data off bytes).take n = data.take n := by
  rw [writeAt, append_assoc, append_assoc,
    take_append_of_le_length (by rw [length_take]; omega), take_take,
    min_eq_left hn]

theorem length_writeAt (data bytes : Bytes) (off : Nat) :
    (writeAt data off bytes).length = max data.length (off + bytes.length) := by
  simp only [writeAt, length_append, length_take, length_replicate,
    length_drop]
  omega

theorem slice_writeAt (data bytes : Bytes) (off : Nat) :
    slice (writeAt data off bytes) off bytes.length = bytes := by
  have hlen : (data.take off ++ replicate (off - data.length) 0).length = off := by
    simp only [length_append, length_take, length_replicate]
    omega
  rw [slice, writeAt, append_assoc, drop_left' hlen, take_left' rfl]

theorem truncateTo_append (data tail : Bytes) :
    truncateTo (data ++ tail) data.length = data := by
  simp [truncateTo]

theorem take_truncateTo {data : Bytes} {n m : Nat} (hn : n ≤ m) (hlen : n ≤ data.length) :
    (truncateTo data m).take n = data.take n := by
  rw [truncateTo, take_append_of_le_length (by rw [length_take]; omega), take_take,
    min_eq_left hn]

@[simp] theorem length_truncateTo (data : Bytes) (n : Nat) :
    (truncateTo data n).length = n := by
  simp [truncateTo]
  omega

/-- A slice only looks at the bytes before its end. -/
theorem slice_congr {a b : Bytes} {off len n : Nat} (hn : off + len ≤ n)
    (h : a.take n = b.take n) : slice a off len = slice b off len := by
  have hslice : ∀ d : Bytes, slice d off len = ((d.take n).drop off).take len := by
    intro d
    rw [slice, drop_take, take_take, min_eq_left (by omega)]
  rw [hslice a, hslice b, h]

theorem slice_append_mid (front mid tail : Bytes) :
    slice (front ++ mid ++ tail) front.length mid.length = mid := by
  simp [slice, append_assoc]

end Corepkgs.Lib
