import Mathlib
import Corepkgs.Lib.Bytes
/-!
# FIPS 180-4: SHA-256

The standard's own account of the function, on bit strings: a message is padded to a multiple of
512 bits, parsed into blocks of sixteen words, and the blocks are hashed one after the other.  The
constants are what the standard says they stand for, not a table.

The second half is about messages that are byte strings: their bits, and the numbers that groups
of them spell.
-/

namespace Corepkgs.Lib.Fips180

open List Nat

abbrev Word := BitVec 32

/-! ## Functions and constants (4.1.2, 4.2.2) -/

def ch (x y z : Word) : Word := (x &&& y) ^^^ (~~~x &&& z)

def maj (x y z : Word) : Word := (x &&& y) ^^^ (x &&& z) ^^^ (y &&& z)

def bigSigma0 (x : Word) : Word := x.rotateRight 2 ^^^ x.rotateRight 13 ^^^ x.rotateRight 22

def bigSigma1 (x : Word) : Word := x.rotateRight 6 ^^^ x.rotateRight 11 ^^^ x.rotateRight 25

def smallSigma0 (x : Word) : Word := x.rotateRight 7 ^^^ x.rotateRight 18 ^^^ x >>> 3

def smallSigma1 (x : Word) : Word := x.rotateRight 17 ^^^ x.rotateRight 19 ^^^ x >>> 10

/-- The first thirty-two bits of the fractional part of the `r`-th root of `p`. -/
noncomputable def rootBits (r p : Nat) : Nat :=
  ⌊Int.fract ((p : ℝ) ^ (r : ℝ)⁻¹) * 2 ^ 32⌋₊

noncomputable def K (t : Nat) : Word := BitVec.ofNat 32 (rootBits 3 (nth Nat.Prime t))

@[ext] structure Vars where
  a : Word
  b : Word
  c : Word
  d : Word
  e : Word
  f : Word
  g : Word
  h : Word

noncomputable def initial : Vars :=
  let H (i : Nat) : Word := BitVec.ofNat 32 (rootBits 2 (nth Nat.Prime i))
  ⟨H 0, H 1, H 2, H 3, H 4, H 5, H 6, H 7⟩

/-! ## Padding and parsing (5.1.1, 5.2.1) -/

def natBits : Nat → Nat → List Bool
  | 0, _ => []
  | width + 1, n => n.testBit width :: natBits width n

def bitsNat (bits : List Bool) : Nat := bits.foldl (fun n b => 2 * n + b.toNat) 0

/-- The least `k` with `l + 1 + k ≡ 448 (mod 512)`. -/
def zeroCount (l : Nat) : Nat := (959 - l % 512) % 512

def pad (message : List Bool) : List Bool :=
  message ++ true :: replicate (zeroCount message.length) false ++
    natBits 64 message.length

def messageWord (padded : List Bool) (i t : Nat) : Word :=
  BitVec.ofNat 32 (bitsNat ((padded.drop (512 * i + 32 * t)).take 32))

/-! ## Hash computation (6.2.2) -/

def schedule (M : Nat → Word) (t : Nat) : Word :=
  if t < 16 then M t
  else smallSigma1 (schedule M (t - 2)) + schedule M (t - 7) + smallSigma0 (schedule M (t - 15)) +
    schedule M (t - 16)
termination_by t

theorem schedule_of_lt (M : Nat → Word) {t : Nat} (ht : t < 16) : schedule M t = M t := by
  rw [schedule, if_pos ht]

theorem schedule_of_le (M : Nat → Word) {t : Nat} (ht : 16 ≤ t) :
    schedule M t = smallSigma1 (schedule M (t - 2)) + schedule M (t - 7) +
      smallSigma0 (schedule M (t - 15)) + schedule M (t - 16) := by
  rw [schedule, if_neg (by omega)]

def step (k w : Word) (v : Vars) : Vars :=
  let T1 := v.h + bigSigma1 v.e + ch v.e v.f v.g + k + w
  let T2 := bigSigma0 v.a + maj v.a v.b v.c
  ⟨T1 + T2, v.a, v.b, v.c, v.d + T1, v.e, v.f, v.g⟩

def Vars.add (v w : Vars) : Vars :=
  ⟨v.a + w.a, v.b + w.b, v.c + w.c, v.d + w.d, v.e + w.e, v.f + w.f, v.g + w.g, v.h + w.h⟩

noncomputable def hashBlock (M : Nat → Word) (H : Vars) : Vars :=
  ((range 64).foldl (fun v t => step (K t) (schedule M t) v) H).add H

noncomputable def hashBlocks (padded : List Bool) (H : Vars) : Vars :=
  (range (padded.length / 512)).foldl (fun H i => hashBlock (messageWord padded i) H) H

def Vars.bits (v : Vars) : List Bool :=
  [v.a, v.b, v.c, v.d, v.e, v.f, v.g, v.h].flatMap fun w => natBits 32 w.toNat

noncomputable def sha256 (message : List Bool) : List Bool :=
  (hashBlocks (pad message) initial).bits

/-! ## The constants evaluated -/

/-- An `r`-th root that is pinned between two neighbours with thirty-two binary places. -/
theorem rootBits_eq {r p a k : Nat} (hr : 0 < r) (hk : k < 2 ^ 32)
    (hlow : (a * 2 ^ 32 + k) ^ r ≤ p * 2 ^ (32 * r))
    (hhigh : p * 2 ^ (32 * r) < (a * 2 ^ 32 + k + 1) ^ r) : rootBits r p = k := by
  set x : ℝ := (p : ℝ) ^ (r : ℝ)⁻¹ with hx
  have hx0 : 0 ≤ x := by positivity
  have hpow : (x * 2 ^ 32) ^ r = ((p * 2 ^ (32 * r) : ℕ) : ℝ) := by
    rw [mul_pow, hx, Real.rpow_inv_natCast_pow (by positivity) (by omega), ← pow_mul]
    push_cast
    rfl
  have hle : ((a * 2 ^ 32 + k : ℕ) : ℝ) ≤ x * 2 ^ 32 := by
    apply le_of_pow_le_pow_left₀ hr.ne' (by positivity)
    rw [hpow]
    exact_mod_cast hlow
  have hlt : x * 2 ^ 32 < ((a * 2 ^ 32 + k + 1 : ℕ) : ℝ) := by
    apply lt_of_pow_lt_pow_left₀ r (by positivity)
    rw [hpow]
    exact_mod_cast hhigh
  push_cast at hle hlt
  have hkle : (k : ℝ) + 1 ≤ 2 ^ 32 := by exact_mod_cast hk
  have hfloor : ⌊x⌋ = (a : ℤ) := by
    rw [Int.floor_eq_iff]
    push_cast
    constructor <;> nlinarith
  have hfract : Int.fract x = x - a := by rw [Int.fract, hfloor]; push_cast; rfl
  rw [rootBits, ← hx, hfract, floor_eq_iff (by nlinarith)]
  constructor <;> nlinarith

def primes : List Nat :=
  [2, 3, 5, 7, 11, 13, 17, 19, 23, 29, 31, 37, 41, 43, 47, 53, 59, 61, 67, 71, 73, 79, 83, 89, 97,
   101, 103, 107, 109, 113, 127, 131, 137, 139, 149, 151, 157, 163, 167, 173, 179, 181, 191, 193,
   197, 199, 211, 223, 227, 229, 233, 239, 241, 251, 257, 263, 269, 271, 277, 281, 283, 293, 307,
   311]

theorem nth_prime : ∀ t < 64, nth Nat.Prime t = primes.getD t 0 := by
  have hcount : ∀ t < 64, (primes.getD t 0).Prime ∧ count Nat.Prime (primes.getD t 0) = t := by
    decide +kernel
  intro t ht
  obtain ⟨hprime, hc⟩ := hcount t ht
  conv_lhs => rw [← hc]
  exact nth_count hprime

/-! ## Messages that are byte strings -/

def bytesBits (bytes : Bytes) : List Bool := bytes.flatMap fun b => natBits 8 b.toNat

@[simp] theorem length_natBits (width n : Nat) : (natBits width n).length = width := by
  induction width with
  | zero => rfl
  | succ width ih => rw [natBits, length_cons, ih]

theorem natBits_mod (width n : Nat) : natBits width (n % 2 ^ width) = natBits width n := by
  have hlow : ∀ w m, w ≤ m → natBits w (n % 2 ^ m) = natBits w n := by
    intro w m hw
    induction w with
    | zero => rfl
    | succ w ih =>
      rw [natBits, natBits, ih (by omega), testBit_mod_two_pow]
      simp [show w < m by omega]
  exact hlow width width le_rfl

theorem natBits_add (high low n : Nat) :
    natBits (high + low) n = natBits high (n / 2 ^ low) ++ natBits low n := by
  induction high with
  | zero => rw [zero_add, natBits, nil_append]
  | succ high ih =>
    rw [show high + 1 + low = (high + low) + 1 by omega, natBits, natBits, ih,
      testBit_div_two_pow, cons_append]

theorem bitsNat_append (xs ys : List Bool) :
    bitsNat (xs ++ ys) = bitsNat xs * 2 ^ ys.length + bitsNat ys := by
  have hacc : ∀ (ys : List Bool) (n : Nat),
      ys.foldl (fun n b => 2 * n + b.toNat) n = n * 2 ^ ys.length + bitsNat ys := by
    intro ys
    induction ys with
    | nil => intro n; simp [bitsNat]
    | cons y ys ih =>
      intro n
      have hy := ih (2 * 0 + y.toNat)
      rw [bitsNat, foldl_cons, foldl_cons, ih, hy, length_cons]
      ring
  rw [bitsNat, foldl_append, hacc]
  rfl

theorem bitsNat_natBits (width n : Nat) : bitsNat (natBits width n) = n % 2 ^ width := by
  induction width with
  | zero => simp [natBits, bitsNat, mod_one]
  | succ width ih =>
    have hhead : bitsNat [n.testBit width] = (n.testBit width).toNat := by
      simp [bitsNat]
    rw [natBits, ← singleton_append, bitsNat_append, ih, hhead, length_natBits,
      mod_pow_succ, testBit_eq_decide_div_mod_eq]
    rcases mod_two_eq_zero_or_one (n / 2 ^ width) with h | h <;> simp [h, add_comm]

@[simp] theorem bytesBits_append (xs ys : Bytes) :
    bytesBits (xs ++ ys) = bytesBits xs ++ bytesBits ys :=
  flatMap_append

theorem bytesBits_cons (b : UInt8) (bs : Bytes) :
    bytesBits (b :: bs) = natBits 8 b.toNat ++ bytesBits bs := rfl

variable (bytes : Bytes)

@[simp] theorem length_bytesBits : (bytesBits bytes).length = 8 * bytes.length := by
  induction bytes with
  | nil => rfl
  | cons b bs ih =>
    rw [bytesBits_cons, length_append, ih, length_natBits, length_cons]
    omega

theorem bytesBits_drop (n : Nat) :
    (bytesBits bytes).drop (8 * n) = bytesBits (bytes.drop n) := by
  induction bytes generalizing n with
  | nil => simp [bytesBits]
  | cons b bs ih =>
    cases n with
    | zero => rfl
    | succ n =>
      rw [bytesBits_cons, drop_succ_cons, ← ih,
        show 8 * (n + 1) = (natBits 8 b.toNat).length + 8 * n by simp; omega,
        drop_append, drop_eq_nil_of_le (by omega)]
      simp

theorem bytesBits_take (n : Nat) :
    (bytesBits bytes).take (8 * n) = bytesBits (bytes.take n) := by
  by_cases hn : n ≤ bytes.length
  · have hsplit : bytesBits bytes = bytesBits (bytes.take n) ++ bytesBits (bytes.drop n) := by
      rw [← bytesBits_append, take_append_drop]
    have hlen : (bytesBits (bytes.take n)).length = 8 * n := by
      rw [length_bytesBits, length_take, min_eq_left hn]
    rw [hsplit, take_left' hlen]
  · rw [take_of_length_le (by rw [length_bytesBits]; omega),
      take_of_length_le (by omega)]

/-- A word that is written most significant byte first. -/
theorem bytesBits_reverse_leBytes (width n : Nat) :
    bytesBits (leBytes width n).reverse = natBits (8 * width) n := by
  induction width generalizing n with
  | zero => rfl
  | succ width ih =>
    have hbyte : natBits 8 (UInt8.ofNat (n % 256)).toNat = natBits 8 n := by
      rw [show (UInt8.ofNat (n % 256)).toNat = n % 2 ^ 8 by simp, natBits_mod]
    rw [leBytes, reverse_cons, bytesBits_append, ih, bytesBits_cons, hbyte,
      mul_succ, natBits_add]
    simp [bytesBits]

/-- The padding of a byte string is made of bytes. -/
theorem pad_bytesBits :
    pad (bytesBits bytes) =
      bytesBits (bytes ++ 0x80 :: replicate (zeroCount (8 * bytes.length) / 8) 0 ++
        (leBytes 8 (8 * bytes.length)).reverse) := by
  have hzero : bytesBits (replicate (zeroCount (8 * bytes.length) / 8) 0) =
      replicate (zeroCount (8 * bytes.length) / 8 * 8) false := by
    induction zeroCount (8 * bytes.length) / 8 with
    | zero => rfl
    | succ n ih =>
      rw [replicate_succ, bytesBits_cons, ih, succ_mul, add_comm,
        replicate_add]
      rfl
  have hcount : zeroCount (8 * bytes.length) = 7 + zeroCount (8 * bytes.length) / 8 * 8 := by
    unfold zeroCount
    omega
  have hmark : natBits 8 (0x80 : UInt8).toNat = true :: replicate 7 false := by decide
  rw [bytesBits_append, bytesBits_append, bytesBits_cons, bytesBits_reverse_leBytes, hzero, hmark,
    pad, length_bytesBits, cons_append, ← replicate_add, ← hcount]

end Corepkgs.Lib.Fips180
