import Corepkgs.Lib.Text
/-!
# Texts and hashes of jig

The parts of `base.cc` that keys and manifests are made with.  BLAKE3 is a
parameter: `blake3 data` are the sixteen bytes jig keeps of the digest.
-/

namespace Corepkgs.Jig

open Lib List Nat

def split (text : Bytes) (sep : UInt8) : List Bytes := Text.pieces sep text

/-- `Join(parts, sep)`: no separator as long as nothing has been written. -/
def join (parts : List Bytes) (sep : Bytes) : Bytes :=
  parts.foldl (fun out part => (if out = [] then out else out ++ sep) ++ part) []

def splitWhitespace (text : Bytes) : List Bytes :=
  (text.splitOnP fun b => b == 32 || b == 9 || b == 10).filter (· ≠ [])

def hexDigit (d : Nat) : UInt8 := UInt8.ofNat (if d < 10 then 48 + d else 87 + d)

def hexEncode (bytes : Bytes) : Bytes :=
  bytes.flatMap fun b => [hexDigit (b.toNat / 16), hexDigit (b.toNat % 16)]

theorem lt_of_mem_hexEncode {bytes : Bytes} {b : UInt8} (h : b ∈ hexEncode bytes) :
    47 < b.toNat := by
  have hdigit : ∀ d, d < 16 → 47 < (hexDigit d).toNat := by decide
  obtain ⟨c, -, hb⟩ := mem_flatMap.mp h
  have hc := c.toNat_lt
  simp only [mem_cons, not_mem_nil, or_false] at hb
  rcases hb with rfl | rfl
  · exact hdigit _ (by omega)
  · exact hdigit _ (by omega)

def decimal (n : Nat) : Bytes := (toDigits 10 n).map fun c => UInt8.ofNat c.toNat

/-- What a `Hasher` has been fed after one more `Field`. -/
def field (fed data : Bytes) : Bytes := fed ++ decimal data.length ++ 58 :: data

def fed (fields : List Bytes) : Bytes := fields.foldl field []

section

variable (blake3 : Bytes → Bytes)

def digest (data : Bytes) : Bytes := hexEncode (blake3 data)

def hashOf (data : Bytes) : Bytes := digest blake3 data

end

/-! ## Numbers

`std::to_string` and `std::format("{:o}")` write what `ParseUint` reads back.
-/

def numeral (base n : Nat) : Bytes := (toDigits base n).map fun c => UInt8.ofNat c.toNat

theorem numeral_ten (n : Nat) : numeral 10 n = decimal n := rfl

def isDigit (base : Nat) (b : UInt8) : Bool := 48 ≤ b.toNat && b.toNat < 48 + base

def trim (text : Bytes) : Bytes :=
  let blank : UInt8 → Bool := fun b => b == 32 || b == 9
  ((text.dropWhile blank).reverse.dropWhile blank).reverse

def digitsValue (base : Nat) (digits : Bytes) : Nat :=
  digits.foldl (fun v d => base * v + (d.toNat - 48)) 0

/-- `ParseUint(text, base)`: the whole trimmed text has to be one 64-bit number. -/
def parseUint (base : Nat) (text : Bytes) : Option Nat :=
  let digits := trim text
  if digits ≠ [] ∧ digits.all (isDigit base) ∧ digitsValue base digits < 2 ^ 64 then
    some (digitsValue base digits)
  else none

theorem digitsValue_concat (base : Nat) (ds : Bytes) (d : UInt8) :
    digitsValue base (ds ++ [d]) = base * digitsValue base ds + (d.toNat - 48) := by
  rw [digitsValue, foldl_append, foldl_cons, foldl_nil, digitsValue]

theorem trim_eq_self {base : Nat} {text : Bytes} (h : ∀ b ∈ text, isDigit base b = true) :
    trim text = text := by
  have hnil : ∀ l : Bytes, (∀ b ∈ l, isDigit base b = true) →
      l.dropWhile (fun b => b == 32 || b == 9) = l := by
    intro l hl
    cases l with
    | nil => rfl
    | cons b l =>
      apply dropWhile_cons_of_neg
      have hb := hl b mem_cons_self
      simp only [isDigit, Bool.and_eq_true, decide_eq_true_eq] at hb
      intro hblank
      have hblank : b = 32 ∨ b = 9 := by simpa using hblank
      rcases hblank with rfl | rfl
      · exact absurd hb.1 (by decide)
      · exact absurd hb.1 (by decide)
  rw [trim, hnil text h, hnil text.reverse (fun b hb => h b (mem_reverse.mp hb)),
    reverse_reverse]

theorem parseUint_digits {base : Nat} {digits : Bytes} (hne : digits ≠ [])
    (h : ∀ b ∈ digits, isDigit base b = true) (hlt : digitsValue base digits < 2 ^ 64) :
    parseUint base digits = some (digitsValue base digits) := by
  rw [parseUint, trim_eq_self h, if_pos ⟨hne, all_eq_true.mpr h, hlt⟩]

section

variable {base : Nat} (hbase : 1 < base) (hten : base ≤ 10)
include hbase hten

theorem numeral_eq (n : Nat) :
    numeral base n =
      (if n < base then [] else numeral base (n / base)) ++ [UInt8.ofNat (48 + n % base)] := by
  have hdigit : ∀ d < 10, UInt8.ofNat (digitChar d).toNat = UInt8.ofNat (48 + d) := by decide
  rw [numeral, toDigits_eq_if hbase]
  split_ifs with h
  · rw [map_singleton, hdigit n (by omega), mod_eq_of_lt h, nil_append]
  · have hlt := mod_lt n (show base > 0 by omega)
    rw [map_append, map_singleton, hdigit _ (by omega)]
    rfl

theorem numeral_ne_nil (n : Nat) : numeral base n ≠ [] := by
  rw [numeral_eq hbase hten]
  exact append_ne_nil_of_right_ne_nil _ (cons_ne_nil _ _)

theorem toNat_lastDigit (n : Nat) : (UInt8.ofNat (48 + n % base)).toNat = 48 + n % base := by
  have h := mod_lt n (show base > 0 by omega)
  rw [UInt8.toNat_ofNat']
  omega

theorem digitsValue_numeral (n : Nat) : digitsValue base (numeral base n) = n := by
  induction n using Nat.strongRecOn with
  | _ n ih =>
    rw [numeral_eq hbase hten, digitsValue_concat, toNat_lastDigit hbase hten,
      Nat.add_sub_cancel_left]
    split_ifs with h
    · rw [digitsValue, foldl_nil, Nat.mod_eq_of_lt h]
      omega
    · rw [ih (n / base) (div_lt_self (by omega) hbase)]
      exact div_add_mod n base

theorem isDigit_of_mem_numeral {n : Nat} {b : UInt8} (h : b ∈ numeral base n) :
    isDigit base b = true := by
  induction n using Nat.strongRecOn with
  | _ n ih =>
    rw [numeral_eq hbase hten, mem_append, mem_singleton] at h
    rcases h with h | rfl
    · split_ifs at h with hn
      · exact absurd h not_mem_nil
      · exact ih (n / base) (div_lt_self (by omega) hbase) h
    · have h := toNat_lastDigit hbase hten n
      have hlt := mod_lt n (show base > 0 by omega)
      simp only [isDigit, Bool.and_eq_true, decide_eq_true_eq]
      omega

/-- What is there of a torn number is a smaller number, and not zero: there is no leading zero. -/
theorem digitsValue_take_numeral {n k : Nat} (hn : 0 < n) (hk : 0 < k) :
    0 < digitsValue base ((numeral base n).take k) ∧
      digitsValue base ((numeral base n).take k) ≤ n := by
  induction n using Nat.strongRecOn with
  | _ n ih =>
    by_cases hlen : (numeral base n).length ≤ k
    · rw [take_of_length_le hlen, digitsValue_numeral hbase hten]
      omega
    · have hlarge : ¬ n < base := by
        intro h
        rw [numeral_eq hbase hten, if_pos h, nil_append, length_singleton] at hlen
        omega
      have hlen' : k ≤ (numeral base (n / base)).length := by
        rw [numeral_eq hbase hten, if_neg hlarge, length_append, length_singleton] at hlen
        omega
      have hdiv : n / base < n := div_lt_self hn hbase
      rw [numeral_eq hbase hten, if_neg hlarge, take_append_of_le_length hlen']
      have := ih (n / base) hdiv (div_pos (by omega) (by omega))
      omega

theorem parseUint_numeral {n : Nat} (h : n < 2 ^ 64) :
    parseUint base (numeral base n) = some n := by
  rw [parseUint_digits (numeral_ne_nil hbase hten n)
    (fun _ => isDigit_of_mem_numeral hbase hten) (by rwa [digitsValue_numeral hbase hten]),
    digitsValue_numeral hbase hten]

theorem eq_of_parseUint_numeral {n len : Nat} (h : parseUint base (numeral base n) = some len) :
    len = n := by
  rw [parseUint, trim_eq_self (fun _ => isDigit_of_mem_numeral hbase hten),
    digitsValue_numeral hbase hten] at h
  split_ifs at h
  exact (Option.some.inj h).symm

end

end Corepkgs.Jig
