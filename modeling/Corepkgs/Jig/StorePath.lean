import Corepkgs.Jig.Base
import Corepkgs.Lib.Attrs
import Mathlib
/-!
# Store paths

SHA-256, Nix32 and the paths made with them in `nix_store_mode.cc`.  What a path is
made of is said for any digest function; `sha256` is the one the program has.
-/

namespace Corepkgs.Jig.NixStore

open Lib List
open scoped Lib.Attrs

/-! ## SHA-256 -/

def roundConstants : List UInt32 :=
  [0x428a2f98, 0x71374491, 0xb5c0fbcf, 0xe9b5dba5, 0x3956c25b, 0x59f111f1, 0x923f82a4, 0xab1c5ed5,
   0xd807aa98, 0x12835b01, 0x243185be, 0x550c7dc3, 0x72be5d74, 0x80deb1fe, 0x9bdc06a7, 0xc19bf174,
   0xe49b69c1, 0xefbe4786, 0x0fc19dc6, 0x240ca1cc, 0x2de92c6f, 0x4a7484aa, 0x5cb0a9dc, 0x76f988da,
   0x983e5152, 0xa831c66d, 0xb00327c8, 0xbf597fc7, 0xc6e00bf3, 0xd5a79147, 0x06ca6351, 0x14292967,
   0x27b70a85, 0x2e1b2138, 0x4d2c6dfc, 0x53380d13, 0x650a7354, 0x766a0abb, 0x81c2c92e, 0x92722c85,
   0xa2bfe8a1, 0xa81a664b, 0xc24b8b70, 0xc76c51a3, 0xd192e819, 0xd6990624, 0xf40e3585, 0x106aa070,
   0x19a4c116, 0x1e376c08, 0x2748774c, 0x34b0bcb5, 0x391c0cb3, 0x4ed8aa4a, 0x5b9cca4f, 0x682e6ff3,
   0x748f82ee, 0x78a5636f, 0x84c87814, 0x8cc70208, 0x90befffa, 0xa4506ceb, 0xbef9a3f7, 0xc67178f2]

structure Words where
  a : UInt32
  b : UInt32
  c : UInt32
  d : UInt32
  e : UInt32
  f : UInt32
  g : UInt32
  h : UInt32

def initialState : Words :=
  ⟨0x6a09e667, 0xbb67ae85, 0x3c6ef372, 0xa54ff53a, 0x510e527f, 0x9b05688c, 0x1f83d9ab, 0x5be0cd19⟩

def rotr (x n : UInt32) : UInt32 := x >>> n ||| x <<< (32 - n)

def beWord (block : Bytes) (i : Nat) : UInt32 :=
  (block.getD (i * 4) 0).toUInt32 <<< 24 ||| (block.getD (i * 4 + 1) 0).toUInt32 <<< 16 |||
    (block.getD (i * 4 + 2) 0).toUInt32 <<< 8 ||| (block.getD (i * 4 + 3) 0).toUInt32

def scheduleWord (schedule : List UInt32) (i : Nat) : UInt32 :=
  let x := schedule.getD (i - 15) 0
  let y := schedule.getD (i - 2) 0
  let s0 := rotr x 7 ^^^ rotr x 18 ^^^ x >>> 3
  let s1 := rotr y 17 ^^^ rotr y 19 ^^^ y >>> 10
  schedule.getD (i - 16) 0 + s0 + schedule.getD (i - 7) 0 + s1

def scheduleOf (block : Bytes) : List UInt32 :=
  (range' 16 48).foldl (fun schedule i => schedule ++ [scheduleWord schedule i])
    ((range 16).map (beWord block))

def round (work : Words) (k w : UInt32) : Words :=
  let s1 := rotr work.e 6 ^^^ rotr work.e 11 ^^^ rotr work.e 25
  let choose := (work.e &&& work.f) ^^^ (~~~work.e &&& work.g)
  let temp1 := work.h + s1 + choose + k + w
  let s0 := rotr work.a 2 ^^^ rotr work.a 13 ^^^ rotr work.a 22
  let majority := (work.a &&& work.b) ^^^ (work.a &&& work.c) ^^^ (work.b &&& work.c)
  let temp2 := s0 + majority
  ⟨temp1 + temp2, work.a, work.b, work.c, work.d + temp1, work.e, work.f, work.g⟩

def compress (state : Words) (block : Bytes) : Words :=
  let work := (roundConstants.zip (scheduleOf block)).foldl (fun work p => round work p.1 p.2) state
  ⟨state.a + work.a, state.b + work.b, state.c + work.c, state.d + work.d,
    state.e + work.e, state.f + work.f, state.g + work.g, state.h + work.h⟩

def block (data : Bytes) (i : Nat) : Bytes := slice data (i * 64) 64

/-- The bytes behind the last whole block, padded to one block or two. -/
def padded (data : Bytes) : Bytes :=
  let rest := data.drop (data.length / 64 * 64)
  let tailLen := if rest.length + 1 + 8 ≤ 64 then 64 else 128
  let bitLength := data.length * 8 % 2 ^ 64
  rest ++ 0x80 :: replicate (tailLen - rest.length - 9) 0 ++ (leBytes 8 bitLength).reverse

def wordBytes (w : UInt32) : Bytes := (leBytes 4 w.toNat).reverse

def sha256 (data : Bytes) : Bytes :=
  let whole := (range (data.length / 64)).foldl (fun s i => compress s (block data i)) initialState
  let tail := padded data
  let last := (range (tail.length / 64)).foldl (fun s i => compress s (block tail i)) whole
  [last.a, last.b, last.c, last.d, last.e, last.f, last.g, last.h].flatMap wordBytes

/-! ## Paths -/

def nix32Alphabet : Bytes := ascii "0123456789abcdfghijklmnpqrsvwxyz"

def nix32 (bytes : Bytes) : Bytes :=
  let length := (bytes.length * 8 - 1) / 5 + 1
  (range length).map fun idx =>
    let bit := (length - 1 - idx) * 5
    let pair := (bytes.getD (bit / 8) 0).toNat ||| (bytes.getD (bit / 8 + 1) 0).toNat <<< 8
    nix32Alphabet.getD ((pair >>> (bit % 8)) &&& 0x1f) 0

def compressHash (digest : Bytes) : Bytes :=
  digest.zipIdx.foldl (fun out e => out.modify (e.2 % 20) (· ^^^ e.1)) (replicate 20 0)

section

variable (sha : Bytes → Bytes)

def fingerprint (storeDir type inner name : Bytes) : Bytes :=
  type ++ ascii ":sha256:" ++ hexEncode (sha inner) ++ 58 :: storeDir ++ 58 :: name

def makeStorePath (storeDir type inner name : Bytes) : Bytes :=
  storeDir ++ 47 :: nix32 (compressHash (sha (fingerprint sha storeDir type inner name))) ++
    45 :: name

/-- The references, sorted into the type of the fingerprint. -/
def textType (references : List Bytes) : Bytes :=
  (references.insertionSort (· ≤ ·)).foldl (fun type ref => type ++ 58 :: ref) (ascii "text")

def textPath (storeDir name : Bytes) (references : List Bytes) (contents : Bytes) : Bytes :=
  makeStorePath sha storeDir (textType references) contents name

end

/-! ## References are a list to it -/

theorem textType_eq (references : List Bytes) :
    textType references =
      ascii "text" ++ (references.insertionSort (· ≤ ·)).flatMap fun ref => 58 :: ref := by
  have hfold : ∀ (refs : List Bytes) (type : Bytes),
      refs.foldl (fun type ref => type ++ 58 :: ref) type =
        type ++ refs.flatMap fun ref => 58 :: ref := by
    intro refs
    induction refs with
    | nil => intro type; simp
    | cons ref refs ih => intro type; simp [ih]
  exact hfold _ _

theorem insertionSort_eq_iff_perm {xs ys : List Bytes} :
    xs.insertionSort (· ≤ ·) = ys.insertionSort (· ≤ ·) ↔ xs.Perm ys := by
  constructor
  · intro h
    have hperm := (perm_insertionSort (· ≤ ·) xs).symm
    rw [h] at hperm
    exact hperm.trans (perm_insertionSort (· ≤ ·) ys)
  · intro h
    have hperm := ((perm_insertionSort (· ≤ ·) xs).trans h).trans
      (perm_insertionSort (· ≤ ·) ys).symm
    exact hperm.eq_of_pairwise' (pairwise_insertionSort (· ≤ ·) xs)
      (pairwise_insertionSort (· ≤ ·) ys)

theorem splitOn_flatMap_colon {z : Bytes} {zs : List Bytes} (hz : 58 ∉ z)
    (hzs : ∀ z' ∈ zs, 58 ∉ z') : (z ++ zs.flatMap fun z => 58 :: z).splitOn 58 = z :: zs := by
  induction zs generalizing z with
  | nil => simp [splitOn_eq_singleton hz]
  | cons z' zs ih =>
    rw [flatMap_cons, cons_append, Text.splitOn_line 58 hz]
    rw [ih (hzs z' mem_cons_self) fun z'' hmem => hzs z'' (mem_cons_of_mem _ hmem)]

/-- Texts without a colon are told apart behind colons. -/
theorem flatMap_colon_inj {xs ys : List Bytes} (hx : ∀ x ∈ xs, 58 ∉ x) (hy : ∀ y ∈ ys, 58 ∉ y)
    (h : (xs.flatMap fun x => 58 :: x) = ys.flatMap fun y => 58 :: y) : xs = ys := by
  have hnil : (58 : UInt8) ∉ ([] : Bytes) := not_mem_nil
  have hxs := splitOn_flatMap_colon hnil hx
  rw [h, splitOn_flatMap_colon hnil hy] at hxs
  exact (cons.inj hxs).2.symm

theorem textType_perm_iff {xs ys : List Bytes} (hx : ∀ x ∈ xs, 58 ∉ x) (hy : ∀ y ∈ ys, 58 ∉ y) :
    textType xs = textType ys ↔ xs.Perm ys := by
  rw [textType_eq, textType_eq, append_cancel_left_eq, ← insertionSort_eq_iff_perm]
  constructor
  · apply flatMap_colon_inj
    · intro x hmem
      exact hx x ((mem_insertionSort (· ≤ ·)).mp hmem)
    · intro y hmem
      exact hy y ((mem_insertionSort (· ≤ ·)).mp hmem)
  · intro h
    rw [h]

/-! ## Only the type matters -/

theorem textPath_congr {xs ys : List Bytes} (h : textType xs = textType ys)
    (sha : Bytes → Bytes) (storeDir name contents : Bytes) :
    textPath sha storeDir name xs contents = textPath sha storeDir name ys contents := by
  rw [textPath, textPath, h]

def printed (digest storeDir type name : Bytes) : Bytes :=
  type ++ ascii ":sha256:" ++ hexEncode digest ++ 58 :: storeDir ++ 58 :: name

theorem fingerprint_eq (sha : Bytes → Bytes) (storeDir type inner name : Bytes) :
    fingerprint sha storeDir type inner name = printed (sha inner) storeDir type name := rfl

theorem printed_type_inj {digest storeDir type type' name : Bytes}
    (h : printed digest storeDir type name = printed digest storeDir type' name) :
    type = type' := by
  simp only [printed, append_assoc] at h
  exact append_cancel_right h

/-- A digest function that gives different paths to different fingerprints: `other` to `text`,
`digest` to everything else. -/
def telling (text digest other : Bytes) : Bytes → Bytes :=
  fun x => if x = text then other else digest

/-- Of two digests for the contents at least one makes a fingerprint other than the contents. -/
theorem exists_printed_ne (storeDir type name contents : Bytes) :
    ∃ digest, printed digest storeDir type name ≠ contents ∧
      nix32 (compressHash digest) ≠ nix32 (compressHash [2]) := by
  by_cases hnil : printed [] storeDir type name = contents
  · refine ⟨[1], ?_, by decide +kernel⟩
    intro hone
    have hlen := congrArg length (hnil.trans hone.symm)
    simp [printed, hexEncode] at hlen
  · exact ⟨[], hnil, by decide +kernel⟩

/-- Two reference lists have the same paths whatever the digest function is exactly if they make
the same type. -/
theorem textPath_eq_iff (storeDir name contents : Bytes) (xs ys : List Bytes) :
    (∀ sha, textPath sha storeDir name xs contents = textPath sha storeDir name ys contents) ↔
      textType xs = textType ys := by
  constructor
  · intro h
    by_contra hne
    obtain ⟨digest, hcontents, hdigest⟩ :=
      exists_printed_ne storeDir (textType xs) name contents
    set this := printed digest storeDir (textType xs) name
    set that := printed digest storeDir (textType ys) name
    have hinner : telling this digest [2] contents = digest := if_neg (Ne.symm hcontents)
    have hthis : telling this digest [2] this = [2] := if_pos rfl
    have hthat : telling this digest [2] that = digest :=
      if_neg fun heq => hne (printed_type_inj heq).symm
    have hsha := h (telling this digest [2])
    simp only [textPath, makeStorePath, fingerprint_eq, hinner] at hsha
    rw [hthis, hthat] at hsha
    have hmid := append_cancel_right hsha
    exact hdigest (cons.inj (append_cancel_left hmid)).2.symm
  · intro h sha
    exact textPath_congr h sha storeDir name contents

end Corepkgs.Jig.NixStore
