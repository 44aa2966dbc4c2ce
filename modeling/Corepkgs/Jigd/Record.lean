import Corepkgs.Lib.Bytes
import Mathlib.Data.List.Infix
/-!
# Pack and hint records

A pack is a sequence of records `u32 keylen, u32 vallen, key, value`; its hint
repeats them without the values and with the `u64` offset of each record in the
pack.  `scanLoop` and `hintLoop` are the two reading loops of `Store.load`; they
return what the loop hands to `add`, in order.
-/

namespace Corepkgs.Jigd

open Lib List

/-! ## Go integers -/

def u32 (n : Nat) : Nat := n % 2 ^ 32

def i64 (z : Int) : Int := z.bmod (2 ^ 64)

theorem u32_of_lt {n : Nat} (h : n < 2 ^ 32) : u32 n = n := Nat.mod_eq_of_lt h

theorem i64_of_range {z : Int} (hlo : -(2 ^ 63) ≤ z) (hhi : z < 2 ^ 63) : i64 z = z := by
  unfold i64
  rw [Int.bmod_def]
  split <;> omega

/-! ## Records -/

structure Loc where
  pack : Nat
  off : Nat
  len : Nat
  deriving DecidableEq, Repr

def recHeader : Nat := 8

def packLimit : Nat := 256 * 2 ^ 20

def recordHead (key : Bytes) (size : Nat) : Bytes :=
  leBytes 4 key.length ++ leBytes 4 size ++ key

def record (key value : Bytes) : Bytes := recordHead key value.length ++ value

def packBytes (recs : List (Bytes × Bytes)) : Bytes :=
  recs.flatMap fun r => record r.1 r.2

variable (key : Bytes)

@[simp] theorem length_recordHead (size : Nat) :
    (recordHead key size).length = recHeader + key.length := by
  simp [recordHead, recHeader]
  omega

@[simp] theorem length_record (value : Bytes) :
    (record key value).length = recHeader + key.length + value.length := by
  simp [record]

@[simp] theorem packBytes_nil : packBytes [] = [] := rfl

theorem packBytes_cons (r : Bytes × Bytes) (recs : List (Bytes × Bytes)) :
    packBytes (r :: recs) = record r.1 r.2 ++ packBytes recs := rfl

theorem packBytes_concat (recs : List (Bytes × Bytes)) (key value : Bytes) :
    packBytes (recs ++ [(key, value)]) = packBytes recs ++ record key value := by
  simp [packBytes]

/-! ## Scanning a pack -/

/-- The scan of an unsealed pack: `io.ReadFull` of the header and the key, `Discard` of the
value, each of which stops the loop when the file ends first.  The second component is the
end of the last complete record. -/
def scanLoop (id : Nat) : Nat → Bytes → Nat → List (Bytes × Loc) × Nat
  | 0, _, off => ([], off)
  | fuel + 1, r, off =>
    let klen := leNat (r.take 4)
    let vlen := leNat ((r.drop 4).take 4)
    let body := r.drop recHeader
    if r.length < recHeader ∨ body.length < klen ∨ (body.drop klen).length < vlen then ([], off)
    else
      let more := scanLoop id fuel ((body.drop klen).drop vlen) (off + (recHeader + klen + vlen))
      ((body.take klen, ⟨id, u32 (u32 off + recHeader + klen), vlen⟩) :: more.1, more.2)

/-- Every iteration consumes a header, so the length of the file is fuel enough. -/
def scan (id : Nat) (data : Bytes) : List (Bytes × Loc) × Nat := scanLoop id data.length data 0

variable {id fuel off : Nat} {e : Bytes × Loc} {key value : Bytes}

theorem pack_of_mem_scanLoop {r : Bytes} (h : e ∈ (scanLoop id fuel r off).1) :
    e.2.pack = id := by
  induction fuel generalizing r off with
  | zero => cases h
  | succ fuel ih =>
    rw [scanLoop] at h
    split at h
    · cases h
    · rcases mem_cons.mp h with rfl | h
      · rfl
      · exact ih h

theorem pack_of_mem_scan {data : Bytes} (h : e ∈ (scan id data).1) :
    e.2.pack = id := pack_of_mem_scanLoop h

theorem take4_record {rest : Bytes} (hk : key.length < 2 ^ 32) :
    leNat ((record key value ++ rest).take 4) = key.length := by
  have h : (record key value ++ rest).take 4 = leBytes 4 key.length := by
    simp [record, recordHead, append_assoc]
  rw [h, leNat_leBytes_of_lt (by norm_num; omega)]

theorem drop4_record {rest : Bytes} (hv : value.length < 2 ^ 32) :
    leNat (((record key value ++ rest).drop 4).take 4) = value.length := by
  have h : ((record key value ++ rest).drop 4).take 4 = leBytes 4 value.length := by
    simp [record, recordHead, append_assoc]
  rw [h, leNat_leBytes_of_lt (by norm_num; omega)]

theorem drop_header_record (value rest : Bytes) :
    (record key value ++ rest).drop recHeader = key ++ (value ++ rest) := by
  simp [record, recordHead, recHeader, append_assoc, drop_append]

theorem scanLoop_record (id : Nat) (rest : Bytes) (fuel off : Nat) (hk : key.length < 2 ^ 32)
    (hv : value.length < 2 ^ 32) :
    scanLoop id (fuel + 1) (record key value ++ rest) off =
      ((key, ⟨id, u32 (u32 off + recHeader + key.length), value.length⟩) ::
          (scanLoop id fuel rest (off + (record key value).length)).1,
        (scanLoop id fuel rest (off + (record key value).length)).2) := by
  have hcut : ¬ ((record key value ++ rest).length < recHeader ∨
      (key ++ (value ++ rest)).length < key.length ∨
      (value ++ rest).length < value.length) := by
    simp only [length_append, length_record]
    omega
  rw [scanLoop]
  simp only [take4_record hk, drop4_record hv, drop_header_record, drop_left, take_left]
  rw [if_neg hcut, length_record]

/-- A record cut anywhere before its last byte stops the scan where it began. -/
theorem scanLoop_torn (id : Nat) {torn : Bytes} (fuel off : Nat) (hk : key.length < 2 ^ 32)
    (hv : value.length < 2 ^ 32) (hpre : torn <+: record key value) (hne : torn ≠ record key value)
    :
    scanLoop id fuel torn off = ([], off) := by
  cases fuel with
  | zero => rfl
  | succ fuel =>
    obtain ⟨tail, htail⟩ := hpre
    have hlen : torn.length < (record key value).length := by
      rcases Nat.lt_or_ge torn.length (record key value).length with h | h
      · exact h
      · exact absurd (List.IsPrefix.eq_of_length_le ⟨tail, htail⟩ h) hne
    have hsame : ∀ a b : Nat, a + b ≤ torn.length →
        (torn.drop a).take b = ((record key value).drop a).take b := by
      intro a b hab
      rw [← htail, drop_append_of_le_length (by omega), take_append_of_le_length
        (by rw [length_drop]; omega)]
    rw [scanLoop]
    apply if_pos
    by_cases hhead : torn.length < recHeader
    · exact .inl hhead
    · right
      simp only [recHeader] at hhead
      have hkl : leNat (torn.take 4) = key.length := by
        have h := hsame 0 4 (by omega)
        rw [drop_zero, drop_zero] at h
        rw [h, ← append_nil (record key value), take4_record hk]
      have hvl : leNat ((torn.drop 4).take 4) = value.length := by
        rw [hsame 4 4 (by omega), ← append_nil (record key value), drop4_record hv]
      rw [hkl, hvl]
      simp only [length_drop, recHeader]
      simp only [length_record, recHeader] at hlen
      omega

/-- Where the values of consecutive records lie, the first record starting at `off`. -/
def recordLocs (id : Nat) : Nat → List (Bytes × Bytes) → List (Bytes × Loc)
  | _, [] => []
  | off, r :: recs =>
    (r.1, ⟨id, off + recHeader + r.1.length, r.2.length⟩) ::
      recordLocs id (off + (record r.1 r.2).length) recs

/-- Records a pack can hold: keys and values fit their length fields, and so does every value's
offset. -/
def Addressable : Nat → List (Bytes × Bytes) → Prop
  | _, [] => True
  | off, r :: recs =>
    r.1.length < 2 ^ 32 ∧ r.2.length < 2 ^ 32 ∧ off + recHeader + r.1.length < 2 ^ 32 ∧
      Addressable (off + (record r.1 r.2).length) recs

/-- What the scan finds in complete records followed by a torn one. -/
theorem scanLoop_records (id : Nat) {recs : List (Bytes × Bytes)} {torn : Bytes}
    (hfuel : (packBytes recs ++ torn).length ≤ fuel) (haddr : Addressable off recs)
    (hk : key.length < 2 ^ 32) (hv : value.length < 2 ^ 32) (hpre : torn <+: record key value)
    (hne : torn ≠ record key value) :
    scanLoop id fuel (packBytes recs ++ torn) off =
      (recordLocs id off recs, off + (packBytes recs).length) := by
  -- induction over the records; each one uses up one unit of fuel and at least a header
  induction recs generalizing fuel off with
  | nil => exact scanLoop_torn id fuel off hk hv hpre hne
  | cons r recs ih =>
    obtain ⟨hrk, hrv, hoff, hrest⟩ := haddr
    rw [packBytes_cons, append_assoc] at hfuel ⊢
    cases fuel with
    | zero =>
      simp only [length_append, length_record, recHeader] at hfuel
      omega
    | succ fuel =>
      have hfuel' : (packBytes recs ++ torn).length ≤ fuel := by
        rw [length_append, length_record] at hfuel
        simp only [recHeader] at hfuel
        omega
      have hu : u32 (u32 off + recHeader + r.1.length) = off + recHeader + r.1.length := by
        rw [u32_of_lt (n := off) (by omega), u32_of_lt hoff]
      rw [scanLoop_record id _ fuel off hrk hrv, ih hfuel' hrest, recordLocs, hu,
        length_append]
      congr 1
      omega

/-! ## Hints -/

/-- One hint record.  The offset of the record is computed in `uint32` and widened. -/
def hintRecord (key : Bytes) (l : Loc) : Bytes :=
  leBytes 4 key.length ++ leBytes 4 l.len ++
    leBytes 8 (u32 (l.off + (2 ^ 32 - recHeader) + (2 ^ 32 - u32 key.length))) ++ key

def hintBytes (entries : List (Bytes × Loc)) : Bytes :=
  entries.flatMap fun e => hintRecord e.1 e.2

def hintLoop (id size : Nat) : Nat → Bytes → List (Bytes × Loc)
  | 0, _ => []
  | fuel + 1, r =>
    let klen := leNat (r.take 4)
    let vlen := leNat ((r.drop 4).take 4)
    let off := leNat ((r.drop 8).take 8)
    let body := r.drop (recHeader + 8)
    if r.length < recHeader + 8 ∨ body.length < klen then []
    -- pack and hint are not fsynced: after a crash the hint can outlive pack writes
    else if i64 (i64 off + recHeader + klen + vlen) > size then
      hintLoop id size fuel (body.drop klen)
    else
      (body.take klen, ⟨id, u32 (u32 off + recHeader + klen), vlen⟩) ::
        hintLoop id size fuel (body.drop klen)

def hintEntries (id size : Nat) (hint : Bytes) : List (Bytes × Loc) :=
  hintLoop id size hint.length hint

variable {size : Nat}

theorem pack_of_mem_hintLoop {r : Bytes} (h : e ∈ hintLoop id size fuel r) :
    e.2.pack = id := by
  induction fuel generalizing r with
  | zero => cases h
  | succ fuel ih =>
    rw [hintLoop] at h
    split at h
    · cases h
    · split at h
      · exact ih h
      · rcases mem_cons.mp h with rfl | h
        · rfl
        · exact ih h

theorem pack_of_mem_hintEntries {hint : Bytes} (h : e ∈ hintEntries id size hint) :
    e.2.pack = id := pack_of_mem_hintLoop h

/-- An index entry of pack `id` that lies inside its first `size` bytes, after its own header. -/
structure InPack (id size : Nat) (key : Bytes) (l : Loc) : Prop where
  pack : l.pack = id
  head : recHeader + key.length ≤ l.off
  bound : l.off + l.len ≤ size
  off_lt : l.off < 2 ^ 32
  len_lt : l.len < 2 ^ 32

theorem length_hintRecord (l : Loc) :
    (hintRecord key l).length = recHeader + 8 + key.length := by
  simp [hintRecord, recHeader]
  omega

theorem u32_recordStart (hhead : recHeader + key.length ≤ off) (hoff : off < 2 ^ 32) :
    u32 (off + (2 ^ 32 - recHeader) + (2 ^ 32 - u32 key.length)) =
      off - recHeader - key.length := by
  simp only [u32, recHeader] at *
  rw [Nat.mod_eq_of_lt (a := key.length) (by omega)]
  omega

theorem hintLoop_hintRecord (id size : Nat) {l : Loc} (rest : Bytes) (fuel : Nat)
    (hsize : size < 2 ^ 63) (h : InPack id size key l) :
    hintLoop id size (fuel + 1) (hintRecord key l ++ rest) =
      (key, l) :: hintLoop id size fuel rest := by
  obtain ⟨hpack, hhead, hbound, hoff, hlen⟩ := h
  have hk : key.length < 2 ^ 32 := by simp only [recHeader] at hhead; omega
  have hstart := u32_recordStart hhead hoff
  have h4 : leNat ((hintRecord key l ++ rest).take 4) = key.length := by
    have h : (hintRecord key l ++ rest).take 4 = leBytes 4 key.length := by
      simp [hintRecord, append_assoc]
    rw [h, leNat_leBytes_of_lt (by norm_num; omega)]
  have h8 : leNat (((hintRecord key l ++ rest).drop 4).take 4) = l.len := by
    have h : ((hintRecord key l ++ rest).drop 4).take 4 = leBytes 4 l.len := by
      simp [hintRecord, append_assoc]
    rw [h, leNat_leBytes_of_lt (by norm_num; omega)]
  have h16 : leNat (((hintRecord key l ++ rest).drop 8).take 8) =
    l.off - recHeader - key.length := by
    have h : ((hintRecord key l ++ rest).drop 8).take 8 =
        leBytes 8 (l.off - recHeader - key.length) := by
      rw [hintRecord, hstart]
      simp only [append_assoc]
      rw [← append_assoc, drop_left' (by simp), take_left' (by simp)]
    rw [h, leNat_leBytes_of_lt (by norm_num; omega)]
  have hbody : (hintRecord key l ++ rest).drop (recHeader + 8) = key ++ rest := by
    rw [hintRecord, append_assoc, drop_left' (by simp [recHeader])]
  have hcut : ¬ ((hintRecord key l ++ rest).length < recHeader + 8 ∨
      (key ++ rest).length < key.length) := by
    simp only [length_append, length_hintRecord]
    omega
  have hcast : ((l.off - recHeader - key.length : Nat) : Int) =
      (l.off : Int) - recHeader - key.length := by omega
  have hin : ¬ i64 (i64 ((l.off - recHeader - key.length : Nat) : Int) + recHeader + key.length +
      l.len) > size := by
    rw [i64_of_range (z := ((l.off - recHeader - key.length : Nat) : Int)) (by omega) (by omega),
      i64_of_range (by simp only [recHeader] at *; omega) (by simp only [recHeader] at *; omega)]
    omega
  have hu : u32 (u32 (l.off - recHeader - key.length) + recHeader + key.length) = l.off := by
    rw [u32_of_lt (n := l.off - recHeader - key.length) (by omega), u32_of_lt (by omega)]
    omega
  rw [hintLoop]
  simp only [h4, h8, h16, hbody, if_neg hcut, if_neg hin, hu, drop_left, take_left]
  rw [← hpack]

/-- A hint gives back the entries it was written from, in their order. -/
theorem hintLoop_hintBytes (id size : Nat) {entries : List (Bytes × Loc)}
    (hfuel : (hintBytes entries).length ≤ fuel) (hsize : size < 2 ^ 63)
    (h : ∀ e ∈ entries, InPack id size e.1 e.2) :
    hintLoop id size fuel (hintBytes entries) = entries := by
  induction entries generalizing fuel with
  | nil => cases fuel <;> simp [hintBytes, hintLoop, recHeader]
  | cons e entries ih =>
    have hcons : hintBytes (e :: entries) = hintRecord e.1 e.2 ++ hintBytes entries := rfl
    rw [hcons] at hfuel ⊢
    rw [length_append, length_hintRecord] at hfuel
    simp only [recHeader] at hfuel
    cases fuel with
    | zero => omega
    | succ fuel =>
      rw [hintLoop_hintRecord id size _ fuel hsize (h e (by simp)),
        ih (by omega) (fun e' he' => h e' (by simp [he']))]

theorem hintEntries_hintBytes {entries : List (Bytes × Loc)} (hsize : size < 2 ^ 63)
    (h : ∀ e ∈ entries, InPack id size e.1 e.2) :
    hintEntries id size (hintBytes entries) = entries :=
  hintLoop_hintBytes id size le_rfl hsize h

end Corepkgs.Jigd
