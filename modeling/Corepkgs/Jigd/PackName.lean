import Corepkgs.Lib.Bytes
import Mathlib.Data.List.TakeWhile
import Mathlib.Data.Nat.Digits.Lemmas
/-!
# Pack file names

`packName` writes a pack id with `"%06d"`, which is *at least* six digits;
`OpenStore` reads it back with the same verb in `Sscanf`, where the width is
*at most* six.  The two agree below a million and nowhere else.
-/

namespace Corepkgs.Jigd

open Lib List Nat

def digitByte (d : Nat) : UInt8 := UInt8.ofNat (48 + d)

def isDigit (b : UInt8) : Bool := 48 ≤ b.toNat && b.toNat ≤ 57

def paddedId (id : Nat) : Bytes :=
  replicate (6 - (digits 10 id).length) 48 ++ ((digits 10 id).reverse.map digitByte)

def packName (id : Nat) (ext : Bytes) : Bytes := paddedId id ++ 46 :: ext

def packExt : Bytes := ascii "pack"
def hintExt : Bytes := ascii "hint"

def decimalValue (digits : Bytes) : Nat :=
  ofDigits 10 (digits.map fun b => b.toNat - 48).reverse

def isBlank (b : UInt8) : Bool := b == 32 || b == 9 || b == 11 || b == 12 || b == 13

/-- `fmt.Sscanf(base, "%06d.pack", &id)`: blanks, at most six digits, then the literal. -/
def scanId (base : Bytes) : Option Nat :=
  let text := base.dropWhile isBlank
  let digits := (text.take 6).takeWhile isDigit
  if digits = [] then none
  else if (ascii ".pack").isPrefixOf (text.drop digits.length) then some (decimalValue digits)
  else none

def globPack (base : Bytes) : Bool := (ascii ".pack").isSuffixOf base

/-! ## Reading back what `packName` wrote -/

theorem digitByte_toNat {d : Nat} (h : d < 10) : (digitByte d).toNat = 48 + d := by
  simp only [digitByte, UInt8.toNat_ofNat']
  omega

theorem isDigit_digitByte {d : Nat} (h : d < 10) : isDigit (digitByte d) = true := by
  rw [isDigit, digitByte_toNat h]
  simp
  omega

theorem isDigit_of_mem_paddedId {id : Nat} {b : UInt8} (h : b ∈ paddedId id) :
    isDigit b = true := by
  rw [paddedId, mem_append, mem_replicate, mem_map] at h
  rcases h with ⟨_, rfl⟩ | ⟨d, hd, rfl⟩
  · decide
  · exact isDigit_digitByte (digits_lt_base (by norm_num) (mem_reverse.mp hd))

theorem length_paddedId (id : Nat) :
    (paddedId id).length = max 6 (digits 10 id).length := by
  simp [paddedId]
  omega

theorem length_paddedId_of_lt {id : Nat} (h : id < 1000000) : (paddedId id).length = 6 := by
  have hle : (digits 10 id).length ≤ 6 :=
    (digits_length_le_iff (by norm_num) id).mpr (by norm_num; exact h)
  rw [length_paddedId]
  omega

theorem length_paddedId_of_le {id : Nat} (h : 1000000 ≤ id) : 6 < (paddedId id).length := by
  have hlt : ¬ (digits 10 id).length ≤ 6 := by
    rw [digits_length_le_iff (by norm_num) id]
    norm_num
    exact h
  rw [length_paddedId]
  omega

theorem decimalValue_paddedId (id : Nat) : decimalValue (paddedId id) = id := by
  have hmap : ((digits 10 id).reverse.map digitByte).map (fun b => b.toNat - 48) =
      (digits 10 id).reverse := by
    rw [map_map]
    conv_rhs => rw [← map_id (digits 10 id).reverse]
    apply map_congr_left
    intro d hd
    have hlt := digits_lt_base (by norm_num) (mem_reverse.mp hd)
    simp [digitByte_toNat hlt]
  rw [decimalValue, paddedId, map_append, hmap, reverse_append, reverse_reverse,
    map_replicate, reverse_replicate]
  exact (ofDigits_append_replicate_zero _).trans (ofDigits_digits 10 id)

theorem paddedId_injective {a b : Nat} (h : paddedId a = paddedId b) : a = b := by
  rw [← decimalValue_paddedId a, h, decimalValue_paddedId]

theorem takeWhile_packName (id : Nat) (ext : Bytes) :
    (packName id ext).takeWhile isDigit = paddedId id := by
  rw [packName, takeWhile_append_of_pos (fun b hb => isDigit_of_mem_paddedId hb)]
  simp [isDigit]

theorem packName_inj {a b : Nat} {e f : Bytes} : packName a e = packName b f ↔ a = b ∧ e = f := by
  constructor
  · intro h
    have hid : paddedId a = paddedId b := by
      rw [← takeWhile_packName a e, h, takeWhile_packName]
    have hab := paddedId_injective hid
    subst hab
    simpa [packName] using h
  · rintro ⟨rfl, rfl⟩
    rfl

theorem dropWhile_packName (id : Nat) (ext : Bytes) :
    (packName id ext).dropWhile isBlank = packName id ext := by
  have hlen : 6 ≤ (paddedId id).length := by rw [length_paddedId]; omega
  obtain ⟨b, bs, hb⟩ := exists_cons_of_length_pos (show 0 < (paddedId id).length by omega)
  have hmem : b ∈ paddedId id := by simp [hb]
  have hdigit : isDigit b = true := isDigit_of_mem_paddedId hmem
  have hblank : isBlank b = false := by
    by_contra hne
    rw [Bool.not_eq_false] at hne
    simp only [isBlank, Bool.or_eq_true, beq_iff_eq] at hne
    rcases hne with (((rfl | rfl) | rfl) | rfl) | rfl <;> simp [isDigit] at hdigit
  rw [packName, hb, cons_append, dropWhile_cons, hblank]
  simp

theorem scanId_packName {id : Nat} (h : id < 1000000) :
    scanId (packName id packExt) = some id := by
  have hlen := length_paddedId_of_lt h
  have htake : ((packName id packExt).take 6).takeWhile isDigit = paddedId id := by
    rw [packName, take_append_of_le_length (by omega), take_of_length_le (by omega)]
    exact takeWhile_eq_self_iff.mpr (fun b hb => isDigit_of_mem_paddedId hb)
  have hne : paddedId id ≠ [] := by
    intro hnil
    simp [hnil] at hlen
  have hdrop : (packName id packExt).drop (paddedId id).length = ascii ".pack" := by
    rw [packName, drop_left]
    decide
  simp only [scanId, dropWhile_packName, htake, if_neg hne, hdrop, decimalValue_paddedId]
  rfl

/-- A seven-digit name is cut after its sixth digit, and `".pack"` does not follow there. -/
theorem scanId_packName_of_le {id : Nat} (h : 1000000 ≤ id) :
    scanId (packName id packExt) = none := by
  have hlen := length_paddedId_of_le h
  obtain ⟨b, bs, hb⟩ := exists_cons_of_length_pos
    (show 0 < ((paddedId id).drop 6).length by rw [length_drop]; omega)
  have hsplit : paddedId id = (paddedId id).take 6 ++ b :: bs := by
    rw [← hb, take_append_drop]
  have hmem : b ∈ paddedId id := by
    rw [hsplit]
    simp
  have hdigit : isDigit b = true := isDigit_of_mem_paddedId hmem
  have hsix : ((paddedId id).take 6).length = 6 := by rw [length_take]; omega
  have htake : ((packName id packExt).take 6).takeWhile isDigit = (paddedId id).take 6 := by
    rw [packName, take_append_of_le_length (by omega)]
    exact takeWhile_eq_self_iff.mpr
      (fun b hb => isDigit_of_mem_paddedId (mem_of_mem_take hb))
  have hdrop : (packName id packExt).drop 6 = b :: (bs ++ 46 :: packExt) := by
    rw [packName, drop_append_of_le_length (by omega), hb, cons_append]
  have hdot : b ≠ 46 := by
    rintro rfl
    simp [isDigit] at hdigit
  have hpre : (ascii ".pack").isPrefixOf (b :: (bs ++ 46 :: packExt)) = false := by
    have hascii : ascii ".pack" = 46 :: packExt := by decide
    rw [hascii, isPrefixOf_cons_cons]
    simp [hdot.symm]
  simp only [scanId, dropWhile_packName, htake, hsix, hdrop, hpre]
  simp

/-- At most six digits are read back. -/
theorem scanId_lt {base : Bytes} {id : Nat} (h : scanId base = some id) : id < 1000000 := by
  unfold scanId at h
  simp only at h
  split at h
  · cases h
  · split at h
    · cases h
      set digits := ((base.dropWhile isBlank).take 6).takeWhile isDigit with hdigits
      have hlen : digits.length ≤ 6 :=
        (takeWhile_sublist _).length_le.trans (length_take_le _ _)
      have hlt : decimalValue digits < 10 ^ digits.length := by
        have hbound := ofDigits_lt_base_pow_length (b := 10)
          (l := (digits.map fun b => b.toNat - 48).reverse) (by decide) (by
            intro d hd
            rw [mem_reverse, mem_map] at hd
            obtain ⟨b, hb, rfl⟩ := hd
            have hdigit : isDigit b = true := mem_takeWhile_imp hb
            simp only [isDigit, Bool.and_eq_true, decide_eq_true_eq] at hdigit
            omega)
        rwa [length_reverse, length_map] at hbound
      exact hlt.trans_le (Nat.pow_le_pow_right (by decide) hlen)
    · cases h

theorem globPack_packName (id : Nat) : globPack (packName id packExt) = true := by
  have hascii : packName id packExt = paddedId id ++ ascii ".pack" := by
    rw [packName]
    congr 1
  rw [hascii, globPack, isSuffixOf_iff_suffix]
  exact suffix_append _ _

/-- The extension decides whether a name is that of a pack. -/
theorem globPack_packName_ext {id : Nat} {ext : Bytes} (hlen : 4 ≤ ext.length)
    (h : globPack (packName id ext) = true) : ascii ".pack" <:+ 46 :: ext := by
  rw [globPack, isSuffixOf_iff_suffix] at h
  apply suffix_of_suffix_length_le h (suffix_append _ _)
  have hascii : (ascii ".pack").length = 5 := by decide
  rw [hascii, length_cons]
  omega

end Corepkgs.Jigd
