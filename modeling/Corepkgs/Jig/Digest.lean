import Mathlib
import Corepkgs.Jig.StorePath
import Corepkgs.Lib.Fips180
/-!
# SHA-256 and Nix32 against what they stand for

`Sha256` of `nix_store_mode.cc` with its loop over whole blocks and its tail buffer is the SHA-256
of the standard, and `Nix32` writes a number in base 32.
-/

namespace Corepkgs.Jig.NixStore

open Lib List Fips180 Nat

/-! ## The loops of `Sha256` -/

/-- `for (; data.size() - off >= kBlockBytes; off += kBlockBytes)`, with the offset it ends at. -/
def blockLoop (data : Bytes) : Nat → Nat → Words → Nat × Words
  | 0, off, state => (off, state)
  | fuel + 1, off, state =>
    if 64 ≤ data.length - off then
      blockLoop data fuel (off + 64) (compress state (slice data off 64))
    else (off, state)

def tailLength (rest : Nat) : Nat := if rest + 1 + 8 ≤ 64 then 64 else 128

/-- The two blocks' worth of zeros with the remaining bytes, the mark and the length written in. -/
def tailBuffer (data : Bytes) (off : Nat) : Bytes :=
  let rest := data.length - off
  let tail := writeAt (replicate 128 0) 0 (data.drop off)
  let tail := tail.set rest 0x80
  let bitLength := data.length * 8 % 2 ^ 64
  (range 8).foldl
    (fun tail i => tail.set (tailLength rest - 1 - i)
      (UInt8.ofNat (bitLength >>> (i * 8) &&& 0xff)))
    tail

/-- The blocks of the buffer up to `tail_len`. -/
def tailLoop (tail : Bytes) (tailLen : Nat) (state : Words) : Words :=
  (range (tailLen / 64)).foldl (fun s blk => compress s (slice tail (blk * 64) 64)) state

def wordsBytes (state : Words) : Bytes :=
  [state.a, state.b, state.c, state.d, state.e, state.f, state.g, state.h].flatMap fun word =>
    [24, 16, 8, 0].map fun shift => UInt8.ofNat (word.toNat >>> shift &&& 0xff)

def sha256Loop (data : Bytes) : Bytes :=
  let whole := blockLoop data (data.length + 1) 0 initialState
  let tail := tailBuffer data whole.1
  wordsBytes (tailLoop tail (tailLength (data.length - whole.1)) whole.2)

variable (data : Bytes) (state : Words)

theorem blockLoop_eq (n fuel : Nat)
    (hfuel : data.length / 64 + 1 ≤ n + fuel) (hn : n ≤ data.length / 64) :
    blockLoop data fuel (n * 64)
        ((range n).foldl (fun s i => compress s (block data i)) state) =
      (data.length / 64 * 64,
        (range (data.length / 64)).foldl (fun s i => compress s (block data i)) state) := by
  induction fuel generalizing n with
  | zero => omega
  | succ fuel ih =>
    rw [blockLoop]
    by_cases hmore : 64 ≤ data.length - n * 64
    · rw [if_pos hmore]
      have hnext := ih (n + 1) (by omega) (by omega)
      rw [range_succ, foldl_append, succ_mul] at hnext
      exact hnext
    · rw [if_neg hmore, show n = data.length / 64 by omega]

theorem wordsBytes_eq :
    wordsBytes state = [state.a, state.b, state.c, state.d, state.e, state.f, state.g,
      state.h].flatMap wordBytes := by
  have hword : ∀ word : UInt32,
      ([24, 16, 8, 0].map fun shift => UInt8.ofNat (word.toNat >>> shift &&& 0xff)) =
        wordBytes word := by
    intro word
    have hmask : ∀ n : Nat, n &&& 0xff = n % 256 := fun n => and_two_pow_sub_one_eq_mod n 8
    simp only [map_cons, map_nil, hmask, shiftRight_eq_div_pow, wordBytes, leBytes,
      reverse_cons, reverse_nil, nil_append, cons_append]
    norm_num [Nat.div_div_eq_div_mul]
  simp only [wordsBytes, hword]

theorem foldl_set_back {tail : Bytes} {len : Nat} (f : Nat → UInt8) (hlen : len ≤ tail.length)
    (n : Nat) (hn : n ≤ len) :
    (range n).foldl (fun tail i => tail.set (len - 1 - i) (f i)) tail =
      tail.take (len - n) ++ ((range n).map f).reverse ++ tail.drop len := by
  induction n with
  | zero => simp
  | succ n ih =>
    obtain ⟨m, rfl⟩ : ∃ m, len = m + n + 1 := ⟨len - n - 1, by omega⟩
    have htake : tail.take (m + n + 1 - n) = tail.take m ++ [tail.get ⟨m, by omega⟩] := by
      rw [show m + n + 1 - n = m + 1 by omega, take_succ_eq_append_getElem (by omega)]
      rfl
    have hm : (tail.take m).length = m := length_take_of_le (by omega)
    rw [range_succ, foldl_append, ih (by omega), htake, foldl_cons,
      foldl_nil, show m + n + 1 - 1 - n = (tail.take m).length by omega,
      show m + n + 1 - (n + 1) = m by omega, map_append, reverse_append]
    simp only [append_assoc, set_append_right _ _ le_rfl, Nat.sub_self]
    rfl

/-- What the buffer holds in its blocks is the padding. -/
theorem take_tailBuffer :
    (tailBuffer data (data.length / 64 * 64)).take
        (tailLength (data.length - data.length / 64 * 64)) = padded data := by
  set off := data.length / 64 * 64 with hoff
  have hrest : (data.drop off).length = data.length - off := length_drop
  have hlen : data.length - off + 9 ≤ tailLength (data.length - off) ∧
      tailLength (data.length - off) ≤ 128 := by
    unfold tailLength
    split <;> omega
  set len := tailLength (data.length - off) with hlenDef
  have hmark : (writeAt (replicate 128 0) 0 (data.drop off)).set (data.length - off) 0x80 =
      data.drop off ++ 0x80 :: replicate (127 - (data.length - off)) 0 := by
    rw [writeAt, Nat.zero_add, hrest, take_zero, Nat.zero_sub, replicate_zero,
      nil_append, nil_append, drop_replicate, ← hrest,
      set_append_right _ _ le_rfl, Nat.sub_self,
      show 128 - (data.drop off).length = 127 - (data.drop off).length + 1 by omega,
      replicate_succ, set_cons_zero]
  have hlength : (data.drop off ++ 0x80 :: replicate (127 - (data.length - off)) 0).length =
      128 := by
    rw [length_append, length_cons, length_replicate, hrest]
    omega
  have hkeep : (data.drop off ++ 0x80 :: replicate (127 - (data.length - off)) (0 : UInt8)).take
      (len - 8) = data.drop off ++ 0x80 :: replicate (len - (data.drop off).length - 9) 0 := by
    rw [take_append, take_of_length_le (by omega), hrest,
      show len - 8 - (data.length - off) = len - (data.length - off) - 9 + 1 by omega,
      take_succ_cons, take_replicate, min_eq_left (by omega)]
  have htail : tailBuffer data off = data.drop off ++
      0x80 :: replicate (len - (data.drop off).length - 9) 0 ++
      (leBytes 8 (data.length * 8 % 2 ^ 64)).reverse ++
      (data.drop off ++ 0x80 :: replicate (127 - (data.length - off)) 0).drop len := by
    rw [tailBuffer, ← hlenDef, hmark, foldl_set_back _ (by omega) 8 (by omega), hkeep,
      leBytes_eq_map]
  have hpadded : padded data = data.drop off ++
      0x80 :: replicate (len - (data.drop off).length - 9) 0 ++
      (leBytes 8 (data.length * 8 % 2 ^ 64)).reverse := by
    rw [padded, hlenDef, tailLength, ← hrest]
  rw [htail, hpadded]
  apply take_left'
  simp only [length_append, length_cons, length_replicate, length_reverse,
    length_leBytes, hrest]
  omega

theorem length_padded :
    (padded data).length = tailLength (data.length - data.length / 64 * 64) := by
  simp only [padded, tailLength, length_append, length_cons, length_replicate,
    length_reverse, length_leBytes, length_drop]
  split <;> omega

/-- The loops of the source compute `sha256`. -/
theorem sha256Loop_eq : sha256Loop data = sha256 data := by
  have hloop := blockLoop_eq data initialState 0 (data.length + 1) (by omega) (zero_le _)
  rw [zero_mul] at hloop
  have htail : ∀ state, tailLoop (tailBuffer data (data.length / 64 * 64))
      (tailLength (data.length - data.length / 64 * 64)) state =
      (range ((padded data).length / 64)).foldl
        (fun s i => compress s (block (padded data) i)) state := by
    intro state
    rw [tailLoop, ← length_padded]
    apply foldl_ext
    intro s i hi
    rw [mem_range] at hi
    have hslice : slice (tailBuffer data (data.length / 64 * 64)) (i * 64) 64 =
        block (padded data) i := by
      apply slice_congr (n := (padded data).length) (by omega)
      rw [length_padded, take_tailBuffer, ← length_padded, take_length]
    rw [hslice]
  rw [sha256Loop, show blockLoop data (data.length + 1) 0 initialState = _ from hloop]
  rw [htail, wordsBytes_eq]
  rfl

/-! ## The standard's words -/

def Words.toVars (s : Words) : Fips180.Vars :=
  ⟨s.a.toBitVec, s.b.toBitVec, s.c.toBitVec, s.d.toBitVec, s.e.toBitVec, s.f.toBitVec,
    s.g.toBitVec, s.h.toBitVec⟩

/-- The table is what the standard derives it from: each entry's neighbours enclose a cube root. -/
theorem roundConstants_toBitVec (t : Nat) (ht : t < 64) :
    (roundConstants.getD t 0).toBitVec = Fips180.K t := by
  have henclosed : ∀ t < 64, ∃ a < 8,
      (a * 2 ^ 32 + (roundConstants.getD t 0).toNat) ^ 3 ≤ primes.getD t 0 * 2 ^ (32 * 3) ∧
      primes.getD t 0 * 2 ^ (32 * 3) <
        (a * 2 ^ 32 + (roundConstants.getD t 0).toNat + 1) ^ 3 := by
    decide +kernel
  obtain ⟨a, -, hlow, hhigh⟩ := henclosed t ht
  rw [Fips180.K, nth_prime t ht,
    rootBits_eq (by omega) (UInt32.toNat_lt _) hlow hhigh]
  exact BitVec.eq_of_toNat_eq (by simp)

theorem initialState_toVars : initialState.toVars = initial := by
  have hroot : ∀ (t k a : Nat), t < 64 → k < 2 ^ 32 →
      (a * 2 ^ 32 + k) ^ 2 ≤ primes.getD t 0 * 2 ^ (32 * 2) →
      primes.getD t 0 * 2 ^ (32 * 2) < (a * 2 ^ 32 + k + 1) ^ 2 →
      BitVec.ofNat 32 (rootBits 2 (nth Nat.Prime t)) = BitVec.ofNat 32 k := by
    intro t k a ht hk hlow hhigh
    rw [nth_prime t ht, rootBits_eq (by omega) hk hlow hhigh]
  dsimp only [initial]
  rw [hroot 0 0x6a09e667 1, hroot 1 0xbb67ae85 1, hroot 2 0x3c6ef372 2,
    hroot 3 0xa54ff53a 2, hroot 4 0x510e527f 3, hroot 5 0x9b05688c 3, hroot 6 0x1f83d9ab 4,
    hroot 7 0x5be0cd19 4]
  · rfl
  all_goals decide

theorem rotr_toBitVec (x n : UInt32) (h0 : 0 < n.toNat) (hn : n.toNat < 32) :
    (rotr x n).toBitVec = x.toBitVec.rotateRight n.toNat := by
  have hright : (n.toBitVec % (32 : BitVec 32)).toNat = n.toNat := by
    rw [BitVec.toNat_umod, UInt32.toNat_toBitVec]
    exact mod_eq_of_lt hn
  have hleft : ((32 - n).toBitVec % (32 : BitVec 32)).toNat = 32 - n.toNat := by
    have hsub : (32 - n : UInt32).toNat = 32 - n.toNat := by
      rw [UInt32.toNat_sub_of_le]
      · rfl
      · exact UInt32.le_iff_toNat_le.mpr hn.le
    rw [BitVec.toNat_umod, UInt32.toNat_toBitVec, hsub]
    exact mod_eq_of_lt (by show 32 - n.toNat < 32; omega)
  rw [rotr, UInt32.toBitVec_or, UInt32.toBitVec_shiftRight, UInt32.toBitVec_shiftLeft,
    BitVec.rotateRight_def, mod_eq_of_lt hn, BitVec.ushiftRight_eq', BitVec.shiftLeft_eq',
    hright, hleft]

/-! ## One block -/

theorem smallSigma0_toBitVec (x : UInt32) :
    (rotr x 7 ^^^ rotr x 18 ^^^ x >>> 3).toBitVec = smallSigma0 x.toBitVec := by
  rw [UInt32.toBitVec_xor, UInt32.toBitVec_xor, rotr_toBitVec x 7 (by decide) (by decide),
    rotr_toBitVec x 18 (by decide) (by decide)]
  rfl

theorem smallSigma1_toBitVec (x : UInt32) :
    (rotr x 17 ^^^ rotr x 19 ^^^ x >>> 10).toBitVec = smallSigma1 x.toBitVec := by
  rw [UInt32.toBitVec_xor, UInt32.toBitVec_xor, rotr_toBitVec x 17 (by decide) (by decide),
    rotr_toBitVec x 19 (by decide) (by decide)]
  rfl

theorem round_toVars (work : Words) (k w : UInt32) :
    (round work k w).toVars = step k.toBitVec w.toBitVec work.toVars := by
  have hs1 : (rotr work.e 6 ^^^ rotr work.e 11 ^^^ rotr work.e 25).toBitVec =
      bigSigma1 work.e.toBitVec := by
    rw [UInt32.toBitVec_xor, UInt32.toBitVec_xor, rotr_toBitVec _ 6 (by decide) (by decide),
      rotr_toBitVec _ 11 (by decide) (by decide), rotr_toBitVec _ 25 (by decide) (by decide)]
    rfl
  have hs0 : (rotr work.a 2 ^^^ rotr work.a 13 ^^^ rotr work.a 22).toBitVec =
      bigSigma0 work.a.toBitVec := by
    rw [UInt32.toBitVec_xor, UInt32.toBitVec_xor, rotr_toBitVec _ 2 (by decide) (by decide),
      rotr_toBitVec _ 13 (by decide) (by decide), rotr_toBitVec _ 22 (by decide) (by decide)]
    rfl
  simp only [round, Words.toVars, step, UInt32.toBitVec_add, hs0, hs1,
    UInt32.toBitVec_xor, UInt32.toBitVec_and, UInt32.toBitVec_not, ch, maj]

theorem getD_map_range {α : Type} (f : Nat → α) (d : α) {n i : Nat} (h : i < n) :
    ((range n).map f).getD i d = f i := by
  simp [h]

theorem scheduleOf_toBitVec {M : Nat → Fips180.Word}
    (hM : ∀ t < 16, (beWord data t).toBitVec = M t) (n : Nat) :
    (range' 16 n).foldl (fun schedule i => schedule ++ [scheduleWord schedule i])
        ((range 16).map (beWord data)) =
      (range (16 + n)).map fun t => UInt32.ofBitVec (schedule M t) := by
  induction n with
  | zero =>
    apply map_congr_left
    intro t ht
    rw [mem_range] at ht
    rw [schedule_of_lt M ht, ← hM t ht]
  | succ n ih =>
    rw [range'_concat, foldl_append, ih, foldl_cons, foldl_nil,
      one_mul, ← add_assoc, range_succ, map_append]
    congr 2
    rw [scheduleWord, getD_map_range _ _ (by omega), getD_map_range _ _ (by omega),
      getD_map_range _ _ (by omega), getD_map_range _ _ (by omega)]
    apply UInt32.toBitVec_inj.mp
    simp only [UInt32.toBitVec_add, smallSigma0_toBitVec, smallSigma1_toBitVec]
    rw [schedule_of_le M (le_add_right 16 n)]
    ac_rfl

theorem compress_toVars (data : Bytes) {M : Nat → Fips180.Word}
    (hM : ∀ t < 16, (beWord data t).toBitVec = M t) :
    (compress state data).toVars = hashBlock M state.toVars := by
  have hconst : roundConstants =
      (range 64).map fun t => UInt32.ofBitVec (Fips180.K t) := by
    apply ext_getElem (by rfl)
    intro t ht _
    have ht64 : t < 64 := ht
    rw [getElem_map, getElem_range, ← roundConstants_toBitVec t ht64,
      getD_eq_getElem _ _ ht]
  have hrounds : ((roundConstants.zip (scheduleOf data)).foldl
      (fun work p => round work p.1 p.2) state).toVars =
      (range 64).foldl (fun v t => step (Fips180.K t) (schedule M t) v)
        state.toVars := by
    rw [hconst, scheduleOf, scheduleOf_toBitVec data hM 48, zip_map', foldl_map]
    symm
    apply foldl_hom Words.toVars
    intro work t
    exact (round_toVars work _ _).symm
  rw [hashBlock, ← hrounds]
  simp only [compress, Words.toVars, Fips180.Vars.add, UInt32.toBitVec_add, BitVec.add_comm]

/-! ## All blocks -/

/-- Bytes that are shifted apart do not overlap. -/
theorem or_shifted {a b c d : Nat} (hb : b < 256) (hc : c < 256) (hd : d < 256) :
    a <<< 24 ||| b <<< 16 ||| c <<< 8 ||| d = ((a * 256 + b) * 256 + c) * 256 + d := by
  have hab : a <<< 24 ||| b <<< 16 = (a * 256 + b) <<< 16 := by
    rw [← shiftLeft_add_eq_or_of_lt (by rw [shiftLeft_eq]; omega)]
    simp only [shiftLeft_eq]
    ring
  have habc : (a * 256 + b) <<< 16 ||| c <<< 8 = ((a * 256 + b) * 256 + c) <<< 8 := by
    rw [← shiftLeft_add_eq_or_of_lt (by rw [shiftLeft_eq]; omega)]
    simp only [shiftLeft_eq]
    ring
  rw [hab, habc, ← shiftLeft_add_eq_or_of_lt hd, shiftLeft_eq]

theorem exists_four (rest : Bytes) (h : 4 ≤ rest.length) :
    ∃ b0 b1 b2 b3 tail, rest = b0 :: b1 :: b2 :: b3 :: tail := by
  match rest, h with
  | b0 :: b1 :: b2 :: b3 :: tail, _ => exact ⟨b0, b1, b2, b3, tail, rfl⟩

theorem beWord_toBitVec {data : Bytes} {t : Nat} (ht : t * 4 + 4 ≤ data.length) :
    (beWord data t).toBitVec =
      BitVec.ofNat 32 (bitsNat (bytesBits (slice data (t * 4) 4))) := by
  have hget : ∀ i, data.getD (t * 4 + i) 0 = (data.drop (t * 4)).getD i 0 := by
    intro i
    rw [getD_eq_getElem?_getD, getD_eq_getElem?_getD, getElem?_drop]
  obtain ⟨b0, b1, b2, b3, tail, hdrop⟩ :=
    exists_four (data.drop (t * 4)) (by rw [length_drop]; omega)
  have hword : beWord data t =
      b0.toUInt32 <<< 24 ||| b1.toUInt32 <<< 16 ||| b2.toUInt32 <<< 8 ||| b3.toUInt32 := by
    rw [beWord, ← add_zero (t * 4), hget 0]
    simp only [add_zero, hget, hdrop]
    rfl
  have hslice : slice data (t * 4) 4 = [b0, b1, b2, b3] := by
    rw [slice, hdrop]
    rfl
  have hbits : bitsNat (bytesBits [b0, b1, b2, b3]) =
      ((b0.toNat * 256 + b1.toNat) * 256 + b2.toNat) * 256 + b3.toNat := by
    have hmod : ∀ b : UInt8, b.toNat % 2 ^ 8 = b.toNat := fun b => mod_eq_of_lt b.toNat_lt
    simp only [bytesBits, flatMap_cons, flatMap_nil, append_nil,
      bitsNat_append, bitsNat_natBits, hmod, length_append,
      length_natBits]
    ring
  have hlt : ∀ (b : UInt8) (k : Nat), k ≤ 24 → b.toNat <<< k % 2 ^ 32 = b.toNat <<< k := by
    intro b k hk
    apply mod_eq_of_lt
    have hb : b.toNat < 2 ^ 8 := b.toNat_lt
    calc b.toNat <<< k = b.toNat * 2 ^ k := shiftLeft_eq _ _
      _ ≤ b.toNat * 2 ^ 24 := Nat.mul_le_mul_left _ (Nat.pow_le_pow_right (by omega) hk)
      _ < 2 ^ 32 := by omega
  rw [hslice, hbits, hword]
  apply BitVec.eq_of_toNat_eq
  rw [UInt32.toNat_toBitVec, BitVec.toNat_ofNat, UInt32.toNat_or, UInt32.toNat_or, UInt32.toNat_or,
    UInt32.toNat_shiftLeft, UInt32.toNat_shiftLeft, UInt32.toNat_shiftLeft]
  simp only [UInt8.toNat_toUInt32]
  rw [show (24 : UInt32).toNat % 32 = 24 from rfl, show (16 : UInt32).toNat % 32 = 16 from rfl,
    show (8 : UInt32).toNat % 32 = 8 from rfl, hlt b0 24 (by omega), hlt b1 16 (by omega),
    hlt b2 8 (by omega), or_shifted b1.toNat_lt b2.toNat_lt b3.toNat_lt, mod_eq_of_lt]
  have h0 := b0.toNat_lt
  have h1 := b1.toNat_lt
  have h2 := b2.toNat_lt
  have h3 := b3.toNat_lt
  omega

/-- The words of a block are those the message is parsed into. -/
theorem beWord_block {message : Bytes} {i : Nat} (hi : i * 64 + 64 ≤ message.length) (t : Nat)
    (ht : t < 16) :
    (beWord (block message i) t).toBitVec =
      messageWord (bytesBits message) i t := by
  have hlen : (block message i).length = 64 := by
    rw [block, slice, length_take, length_drop]
    omega
  have hslice : slice (block message i) (t * 4) 4 = slice message (i * 64 + t * 4) 4 := by
    rw [block, slice, slice, slice, drop_take, take_take, drop_drop,
      min_eq_left (by omega)]
  rw [beWord_toBitVec (by omega), hslice, messageWord,
    show 512 * i + 32 * t = 8 * (i * 64 + t * 4) by omega, bytesBits_drop,
    show 32 = 8 * 4 by rfl, bytesBits_take]
  rfl

theorem hashBlocks_toVars {message : Bytes} (hlen : message.length % 64 = 0) (state : Words) :
    ((range (message.length / 64)).foldl (fun s i => compress s (block message i))
        state).toVars =
      hashBlocks (bytesBits message) state.toVars := by
  rw [hashBlocks, length_bytesBits,
    show 8 * message.length / 512 = message.length / 64 by omega]
  have hfold : ∀ n ≤ message.length / 64,
      ((range n).foldl (fun s i => compress s (block message i)) state).toVars =
        (range n).foldl
          (fun H i => hashBlock (messageWord (bytesBits message) i) H)
          state.toVars := by
    intro n
    induction n with
    | zero => intro _; rfl
    | succ n ih =>
      intro hn
      rw [range_succ, foldl_append, foldl_append, ← ih (by omega)]
      exact compress_toVars _ _ (beWord_block (by omega))
  exact hfold _ le_rfl

/-! ## The whole function -/

/-- The whole blocks of the data and the tail are the padded message. -/
theorem bytesBits_padded :
    bytesBits (data.take (data.length / 64 * 64) ++ padded data) =
      pad (bytesBits data) := by
  have hzeros : (if (data.drop (data.length / 64 * 64)).length + 1 + 8 ≤ 64 then 64 else 128) -
      (data.drop (data.length / 64 * 64)).length - 9 =
      zeroCount (8 * data.length) / 8 := by
    rw [length_drop, zeroCount]
    split <;> omega
  have hlength : leBytes 8 (data.length * 8 % 2 ^ 64) = leBytes 8 (8 * data.length) := by
    rw [mul_comm]
    exact leBytes_mod 8 (8 * data.length)
  rw [pad_bytesBits, padded, hzeros, hlength, ← append_assoc, ← append_assoc,
    take_append_drop]

theorem bytesBits_wordBytes :
    bytesBits ([state.a, state.b, state.c, state.d, state.e, state.f, state.g,
      state.h].flatMap wordBytes) = state.toVars.bits := by
  simp only [flatMap_cons, flatMap_nil, bytesBits_append, wordBytes,
    bytesBits_reverse_leBytes, Fips180.Vars.bits, Words.toVars, UInt32.toNat_toBitVec]
  rfl

theorem bytesBits_sha256 :
    Fips180.bytesBits (sha256 data) = Fips180.sha256 (Fips180.bytesBits data) := by
  set whole := data.take (data.length / 64 * 64) with hwhole
  have hwholeLen : whole.length = data.length / 64 * 64 := by
    rw [hwhole, length_take]
    omega
  have htailLen : (padded data).length % 64 = 0 := by
    rw [length_padded, tailLength]
    split <;> rfl
  have hfront : ∀ i < data.length / 64, block data i = block (whole ++ padded data) i := by
    intro i hi
    apply slice_congr (n := whole.length) (by omega)
    rw [take_left, hwholeLen, hwhole]
  have hback : ∀ i, block (padded data) i =
    block (whole ++ padded data) (data.length / 64 + i) := by
    intro i
    rw [block, block, slice, slice, add_mul, ← hwholeLen, drop_length_add_append]
  have hblocks : (whole ++ padded data).length / 64 =
      data.length / 64 + (padded data).length / 64 := by
    rw [length_append]
    omega
  have hstate : (range ((padded data).length / 64)).foldl
      (fun s i => compress s (block (padded data) i))
      ((range (data.length / 64)).foldl (fun s i => compress s (block data i)) initialState) =
      (range ((whole ++ padded data).length / 64)).foldl
        (fun s i => compress s (block (whole ++ padded data) i)) initialState := by
    have hwholeState : (range (data.length / 64)).foldl
        (fun s i => compress s (block data i)) initialState =
        (range (data.length / 64)).foldl
          (fun s i => compress s (block (whole ++ padded data) i)) initialState := by
      apply foldl_ext
      intro s i hi
      rw [hfront i (mem_range.mp hi)]
    rw [hblocks, range_add, foldl_append, foldl_map, hwholeState]
    simp only [← hback]
  rw [sha256, hstate, bytesBits_wordBytes,
    hashBlocks_toVars (by rw [length_append]; omega), initialState_toVars, hwhole,
    bytesBits_padded, Fips180.sha256]

/-- The bits `Sha256` returns are the standard's digest of the bits it is given, and what it hands
to `Compress`, in the loop over the data and from the tail buffer, is the padded message.  The
standard defines both up to 2^61 bytes, beyond that the length field wraps on both sides. -/
theorem sha256_fips (data : Bytes) :
    Fips180.bytesBits (sha256Loop data) = Fips180.sha256 (Fips180.bytesBits data) ∧
      Fips180.bytesBits
        (data.take (blockLoop data (data.length + 1) 0 initialState).1 ++
          (tailBuffer data (blockLoop data (data.length + 1) 0 initialState).1).take
            (tailLength (data.length - (blockLoop data (data.length + 1) 0 initialState).1))) =
        pad (bytesBits data) := by
  have hloop := blockLoop_eq data initialState 0 (data.length + 1) (by omega) (zero_le _)
  rw [zero_mul] at hloop
  constructor
  · rw [sha256Loop_eq, bytesBits_sha256]
  · rw [show (blockLoop data (data.length + 1) 0 initialState).1 = data.length / 64 * 64 from
      congrArg Prod.fst hloop, take_tailBuffer, bytesBits_padded]

/-! ## Nix32 -/

def nix32Value (text : Bytes) : Nat :=
  text.foldl (fun n c => n * 32 + nix32Alphabet.idxOf c) 0

variable (bytes : Bytes)

theorem leNat_drop (q : Nat) : leNat bytes / 256 ^ q = leNat (bytes.drop q) := by
  induction q generalizing bytes with
  | zero => simp
  | succ q ih =>
    cases bytes with
    | nil => simp [leNat]
    | cons b bs =>
      have hb : b.toNat < 256 := b.toNat_lt
      rw [Nat.pow_succ', ← Nat.div_div_eq_div_mul, leNat,
        show (b.toNat + 256 * leNat bs) / 256 = leNat bs by omega, ih, drop_succ_cons]

/-- Two neighbouring bytes hold any five bits that start in the first. -/
theorem pair_eq (q : Nat) :
    (bytes.getD q 0).toNat ||| (bytes.getD (q + 1) 0).toNat <<< 8 =
      leNat bytes / 256 ^ q % 2 ^ 16 := by
  have hget : ∀ i, bytes.getD (q + i) 0 = (bytes.drop q).getD i 0 := by
    intro i
    rw [getD_eq_getElem?_getD, getD_eq_getElem?_getD, getElem?_drop]
  have hor : ∀ x y : UInt8, x.toNat ||| y.toNat <<< 8 = x.toNat + 256 * y.toNat := by
    intro x y
    rw [Nat.or_comm, ← Nat.shiftLeft_add_eq_or_of_lt x.toNat_lt, Nat.shiftLeft_eq]
    omega
  rw [leNat_drop, ← add_zero q, hget 0, add_zero, hget 1, hor]
  match bytes.drop q with
  | [] => rfl
  | [b] =>
    have hb : b.toNat < 256 := b.toNat_lt
    simp only [getD_cons_zero, getD_cons_succ, getD_nil, leNat]
    simp
  | b :: c :: rest =>
    have hb : b.toNat < 256 := b.toNat_lt
    have hc : c.toNat < 256 := c.toNat_lt
    simp only [getD_cons_zero, getD_cons_succ, leNat]
    omega

theorem digit_eq (bit : Nat) :
    (((bytes.getD (bit / 8) 0).toNat ||| (bytes.getD (bit / 8 + 1) 0).toNat <<< 8) >>>
      (bit % 8)) &&&
      0x1f = leNat bytes / 2 ^ bit % 32 := by
  have hmask : ∀ n : Nat, n &&& 0x1f = n % 32 := fun n => Nat.and_two_pow_sub_one_eq_mod n 5
  have hpow : 2 ^ bit = 256 ^ (bit / 8) * 2 ^ (bit % 8) := by
    rw [show 256 = 2 ^ 8 by rfl, ← pow_mul, ← pow_add, div_add_mod]
  have hsplit : 2 ^ 16 = 2 ^ (bit % 8) * 2 ^ (16 - bit % 8) := by
    rw [← Nat.pow_add, Nat.add_sub_cancel' (by omega)]
  have hdvd : 32 ∣ 2 ^ (16 - bit % 8) := by
    rw [show 32 = 2 ^ 5 by rfl]
    exact pow_dvd_pow 2 (by omega)
  rw [pair_eq, hmask, Nat.shiftRight_eq_div_pow, hpow, ← Nat.div_div_eq_div_mul, hsplit,
    Nat.mod_mul_right_div_self, Nat.mod_mod_of_dvd _ hdvd]

theorem foldl_digits (value length k : Nat) (hk : k ≤ length) :
    (range k).foldl (fun n idx => n * 32 + value / 2 ^ ((length - 1 - idx) * 5) % 32) 0 =
      value / 32 ^ (length - k) % 32 ^ k := by
  induction k with
  | zero => simp [mod_one]
  | succ k ih =>
    have hexp : (length - 1 - k) * 5 = 5 * (length - (k + 1)) := by omega
    have hpow : 32 ^ (length - k) = 32 ^ (length - (k + 1)) * 32 := by
      rw [← Nat.pow_succ, show (length - (k + 1)).succ = length - k by omega]
    rw [range_succ, foldl_append, ih (by omega), foldl_cons, foldl_nil, hexp,
      Nat.pow_mul, show 2 ^ 5 = 32 by rfl, hpow, ← Nat.div_div_eq_div_mul,
      Nat.pow_succ' (m := 32) (n := k),
      Nat.mod_mul]
    ring

theorem nix32_eq :
    nix32 bytes = (range ((bytes.length * 8 - 1) / 5 + 1)).map fun idx =>
      nix32Alphabet.getD
        (leNat bytes / 2 ^ (((bytes.length * 8 - 1) / 5 + 1 - 1 - idx) * 5) % 32) 0 := by
  rw [nix32]
  apply map_congr_left
  intro idx _
  dsimp only
  rw [digit_eq]

theorem nix32Value_nix32 {bytes : Bytes} (hne : bytes ≠ []) :
    nix32Value (nix32 bytes) = leNat bytes := by
  have hdigit : ∀ d < 32, nix32Alphabet.idxOf (nix32Alphabet.getD d 0) = d := by decide +kernel
  have hpos := length_pos_iff.mpr hne
  set length := (bytes.length * 8 - 1) / 5 + 1 with hlength
  have hlt : leNat bytes < 32 ^ length := by
    calc leNat bytes < 256 ^ bytes.length := leNat_lt bytes
      _ = 2 ^ (8 * bytes.length) := by rw [show 256 = 2 ^ 8 by rfl, ← pow_mul]
      _ ≤ 2 ^ (5 * length) := Nat.pow_le_pow_right (by omega) (by omega)
      _ = 32 ^ length := by rw [Nat.pow_mul]
  rw [nix32Value, nix32_eq, foldl_map]
  simp only [hdigit _ (mod_lt _ (show 0 < 32 by omega))]
  rw [foldl_digits _ length length le_rfl, Nat.sub_self, Nat.pow_zero, Nat.div_one,
    Nat.mod_eq_of_lt hlt]

/-- The digits, their number, the value they spell, and that they determine the bytes. -/
theorem nix32_positional (bytes : Bytes) (hne : bytes ≠ []) :
    (nix32 bytes).length = (8 * bytes.length + 4) / 5 ∧
      (∀ c ∈ nix32 bytes, c ∈ nix32Alphabet) ∧
      nix32Value (nix32 bytes) = leNat bytes ∧
      ∀ other : Bytes, other.length = bytes.length → nix32 other = nix32 bytes → other = bytes := by
  have hpos := length_pos_iff.mpr hne
  refine ⟨?_, ?_, nix32Value_nix32 hne, ?_⟩
  · rw [nix32_eq, length_map, length_range]
    omega
  · intro c hc
    have hmem : ∀ d < 32, nix32Alphabet.getD d 0 ∈ nix32Alphabet := by decide +kernel
    rw [nix32_eq, mem_map] at hc
    obtain ⟨idx, -, rfl⟩ := hc
    exact hmem _ (mod_lt _ (by omega))
  · intro other hlen heq
    have hother : other ≠ [] := length_pos_iff.mp (by omega)
    apply leNat_inj hlen
    rw [← nix32Value_nix32 hother, heq, nix32Value_nix32 hne]

/-- A byte whose two digits straddle its five low bits. -/
theorem nix32_positional_byte :
    nix32 [0x9f] = ascii "4z" ∧ nix32Value (ascii "4z") = 0x9f := by
  have h := (nix32_positional [0x9f] (by decide)).2.2.1
  have htext : nix32 [0x9f] = ascii "4z" := by decide +kernel
  rw [htext] at h
  exact ⟨htext, h⟩

end Corepkgs.Jig.NixStore
