import Corepkgs.Lib.Verdicts
import Mathlib
/-!
# Versions

`version.nu`: a version is read as a list of numbers, words and pre-release
words, and two versions are compared component by component.  Next to a number
a missing component counts as zero, next to a word it is a class of its own.

Strings of nu are Unicode texts.  `\d` of its regular expressions matches every
decimal digit; `nd` says which characters outside ASCII are digits.  `into int`
fails on those, and so does everything that reads such a version.
-/

namespace Corepkgs.Uptrack

open Lib List Option Nat

abbrev Str := List Char

/-! ## Components -/

def preWords : List Str :=
  ["dev", "pre", "preview", "alpha", "a", "beta", "b", "rc", "c", "DEV", "PRE", "ALPHA", "BETA",
    "RC"].map String.toList

inductive Rank where
  | pre (index : Nat)
  | absent
  | word (text : Str)
  | number (value : Nat)
  deriving DecidableEq, Repr

namespace Rank

/-- 0 pre-release word, 1 absent, 2 other word, 3 number -/
def cls : Rank → Nat
  | pre _ => 0
  | absent => 1
  | word _ => 2
  | number _ => 3

def valueLt : Rank → Rank → Bool
  | pre i, pre j => i < j
  | word s, word t => s < t
  | number m, number n => m < n
  | _, _ => false

end Rank

section

variable (nd : Char → Bool)

def isDecimal (c : Char) : Bool := c.isDigit || (127 < c.toNat && nd c)

def isLetter (c : Char) : Bool := c.isAlpha

/-- `\+.*$` replaced by nothing: the first plus sign with no line end behind it. -/
def dropMetadata : Str → Str
  | [] => []
  | c :: text => if c = '+' ∧ '\n' ∉ text then [] else c :: dropMetadata text

/-- `str replace -r '^[vV](?=\d)|\+.*$' ''`, which replaces one match only. -/
def bare (v : Str) : Str :=
  match v with
  | c :: d :: text =>
    if (c = 'v' ∨ c = 'V') ∧ isDecimal nd d then d :: text else dropMetadata v
  | _ => dropMetadata v

def components : Nat → Str → List Str
  | 0, _ => []
  | _ + 1, [] => []
  | n + 1, c :: text =>
    if isDecimal nd c then
      (c :: text.takeWhile (isDecimal nd)) :: components n (text.dropWhile (isDecimal nd))
    else if isLetter c then
      (c :: text.takeWhile isLetter) :: components n (text.dropWhile isLetter)
    else components n text

/-- `into int` of a run of digits: a value past the range of an int goes through a float and ends
at the largest int. -/
def intoInt (digits : Str) : Option Nat :=
  if digits.all Char.isDigit then
    some (min (digits.foldl (fun n c => 10 * n + (c.toNat - '0'.toNat)) 0) (2 ^ 63 - 1))
  else none

def rank (p : Str) : Option Rank :=
  if p.head?.any (isDecimal nd) then (intoInt p).map Rank.number
  else if p ∈ preWords then some (.pre (preWords.idxOf p))
  else some (.word p)

def ranks (v : Str) : Option (List Rank) :=
  (components nd (bare nd v).length (bare nd v)).mapM (rank nd)

end

/-! ## Comparison -/

def rankAt (ra : List Rank) (i : Nat) : Rank := ra[i]?.getD .absent

def compareRank (x y : Rank) : Int :=
  let x := if x.cls = 1 ∧ y.cls = 3 then .number 0 else x
  let y := if y.cls = 1 ∧ x.cls = 3 then .number 0 else y
  if x ≠ y then
    if x.cls < y.cls ∨ (x.cls = y.cls ∧ x.valueLt y) then -1 else 1
  else 0

def compareRanks (ra rb : List Rank) : Int :=
  Verdicts.firstFrom (fun i => compareRank (rankAt ra i) (rankAt rb i)) (max ra.length rb.length) 0

section

variable (nd : Char → Bool)

def versionCmp (a b : Str) : Option Int := do
  let ra ← ranks nd a
  let rb ← ranks nd b
  return compareRanks ra rb

def keepNewer (best : Option Str) (v : Str) : Option (Option Str) :=
  match best with
  | none => some (some v)
  | some best => (versionCmp nd v best).map fun d => if 0 < d then some v else some best

/-- `version max`: the outer option is a failure, the inner one is null. -/
def versionMax (versions : List Str) : Option (Option Str) :=
  versions.foldlM (keepNewer nd) none

end

/-! ## One component -/

theorem compareRank_swap (x y : Rank) : compareRank x y = -compareRank y x := by
  cases x <;> cases y <;>
    simp only [compareRank, Rank.cls, Rank.valueLt] <;> grind

theorem compareRank_absent : compareRank .absent .absent = 0 := by decide

theorem compareRank_word_zero (w : Str) : compareRank (.word w) (.number 0) = -1 := by
  simp [compareRank, Rank.cls]

theorem compareRank_absent_word (w : Str) : compareRank .absent (.word w) = -1 := by
  simp [compareRank, Rank.cls]

/-- A missing component, a word and a zero: the one combination that has no order. -/
def Rank.Odd (x y z : Rank) : Prop := x = .absent ∧ (∃ w, y = .word w) ∧ z = .number 0

variable {x : Rank} {ra rb rc : List Rank} {i : Nat}

theorem compareRank_trans {y z : Rank} (hxyz : ¬x.Odd y z) (hzxy : ¬z.Odd x y) (hyzx : ¬y.Odd z x)
    (hxy : compareRank x y ≤ 0) (hyz : compareRank y z ≤ 0) :
    compareRank x z ≤ 0 := by
  cases x <;> cases y <;> cases z <;>
    simp only [compareRank, Rank.cls, Rank.valueLt, Rank.Odd] at * <;> grind

theorem compareRank_congr {y z : Rank} (hxzy : ¬x.Odd z y) (hyzx : ¬y.Odd z x)
    (hxy : compareRank x y = 0) : compareRank x z = compareRank y z := by
  cases x <;> cases y <;> cases z <;>
    simp only [compareRank, Rank.cls, Rank.valueLt, Rank.Odd] at * <;> grind

def Rank.Same (x y : Rank) : Prop :=
  x = y ∨ (x = .absent ∧ y = .number 0) ∨ (x = .number 0 ∧ y = .absent)

instance (x y : Rank) : Decidable (x.Same y) := inferInstanceAs (Decidable (_ ∨ _ ∨ _))

theorem compareRank_eq_zero_iff {y : Rank} : compareRank x y = 0 ↔ x.Same y := by
  cases x <;> cases y <;> simp only [compareRank, Rank.cls, Rank.valueLt, Rank.Same] <;> grind

/-! ## Lists of components -/

theorem compareRanks_swap (ra rb : List Rank) : compareRanks ra rb = -compareRanks rb ra := by
  unfold compareRanks
  rw [← Verdicts.firstFrom_neg, max_comm]
  congr 1
  funext i
  exact compareRank_swap _ _

theorem rankAt_of_length_le (h : ra.length ≤ i) :
    rankAt ra i = .absent := by
  rw [rankAt, getElem?_eq_none h]
  rfl

theorem compareRanks_eq {k : Nat}
    (hbefore : ∀ j, j < k → compareRank (rankAt ra j) (rankAt rb j) = 0)
    (hat : compareRank (rankAt ra k) (rankAt rb k) ≠ 0) :
    compareRanks ra rb = compareRank (rankAt ra k) (rankAt rb k) := by
  have hk : k < max ra.length rb.length := by
    by_contra hlong
    have ha : ra.length ≤ k := by omega
    have hb : rb.length ≤ k := by omega
    rw [rankAt_of_length_le ha, rankAt_of_length_le hb] at hat
    exact hat compareRank_absent
  exact Verdicts.firstFrom_eq (zero_le k) (by omega) (fun j _ hj => hbefore j hj) hat

theorem compareRanks_eq_zero (h : ∀ j, compareRank (rankAt ra j) (rankAt rb j) = 0) :
    compareRanks ra rb = 0 :=
  Verdicts.firstFrom_eq_zero _ fun j _ => h j

/-- Up to the first place where they differ two lists of components compare by that place. -/
theorem compareRank_of_compareRanks {k : Nat}
    (hbefore : ∀ j, j < k → compareRank (rankAt ra j) (rankAt rb j) = 0) :
    compareRank (rankAt ra k) (rankAt rb k) = 0 ∨
      compareRank (rankAt ra k) (rankAt rb k) = compareRanks ra rb := by
  by_cases hat : compareRank (rankAt ra k) (rankAt rb k) = 0
  · exact .inl hat
  · exact .inr (compareRanks_eq hbefore hat).symm

/-- After zeros the components end, or a pre-release word follows. -/
def notAbove (tail : List Rank) : Bool :=
  match tail.dropWhile fun x => x.Same .absent with
  | [] => true
  | x :: _ => x.cls == 0

/-- Where the versions part, the first one ends, the second has a word and the third a zero with
nothing above it behind.  The second is then newer than the first and older than the third, and the
first is not older than the third. -/
def ClashAt (ra rb rc : List Rank) (i : Nat) : Prop :=
  (∀ j, j < i → (rankAt ra j).Same (rankAt rb j) ∧ (rankAt rb j).Same (rankAt rc j)) ∧
    ra.length ≤ i ∧ (rankAt rb i).cls = 2 ∧ rankAt rc i = .number 0 ∧ notAbove (rc.drop i)

def Clash (ra rb rc : List Rank) : Prop := ∃ i, ClashAt ra rb rc i

theorem exists_word_of_cls (h : x.cls = 2) : ∃ w, x = .word w := by
  cases x <;> simp [Rank.cls] at h
  exact ⟨_, rfl⟩

theorem compareRank_absent_pos_iff : 0 < compareRank .absent x ↔ x.cls = 0 := by
  cases x <;> simp only [compareRank, Rank.cls, Rank.valueLt] <;> grind

theorem rankAt_drop (rc : List Rank) (i j : Nat) : rankAt (rc.drop i) j = rankAt rc (i + j) := by
  rw [rankAt, rankAt, getElem?_drop]

theorem compareRanks_ended (hbefore : ∀ j, j < i → compareRank (rankAt ra j) (rankAt rc j) = 0)
    (hend : ra.length ≤ i) :
    0 ≤ compareRanks ra rc ↔ notAbove (rc.drop i) := by
  generalize hk : ((rc.drop i).takeWhile fun x => decide (x.Same .absent)).length = k
  have hsplit := takeWhile_append_dropWhile
    (p := fun x => decide (x.Same .absent)) (l := rc.drop i)
  have hended : ∀ j, i ≤ j → rankAt ra j = .absent := fun j hj => rankAt_of_length_le (by omega)
  -- the zeros compare equal with the missing components
  have hzeros : ∀ j, j < i + k → compareRank (rankAt ra j) (rankAt rc j) = 0 := by
    intro j hj
    by_cases hji : j < i
    · exact hbefore j hji
    · obtain ⟨j, rfl⟩ : ∃ j', j = i + j' := ⟨j - i, by omega⟩
      have hlt : j < ((rc.drop i).takeWhile fun x => decide (x.Same .absent)).length := by omega
      rw [hended _ (by omega), compareRank_swap, ← rankAt_drop, ← hsplit, rankAt,
        getElem?_append_left hlt, getElem?_eq_getElem hlt, getD_some]
      have hsame := mem_takeWhile_imp (getElem_mem hlt)
      rw [compareRank_eq_zero_iff.mpr (by simpa using hsame), neg_zero]
  have hnext : rankAt rc (i + k) =
      ((rc.drop i).dropWhile fun x => decide (x.Same .absent)).head?.getD .absent := by
    rw [← rankAt_drop, ← hsplit, rankAt, getElem?_append_right (by omega), hk, Nat.sub_self,
      hsplit, ← head?_eq_getElem?]
  unfold notAbove
  cases htail : (rc.drop i).dropWhile fun x => decide (x.Same .absent) with
  | nil =>
    have hzero : compareRanks ra rc = 0 := by
      apply compareRanks_eq_zero
      intro j
      by_cases hj : j < i + k
      · exact hzeros j hj
      · have hlen : rc.length ≤ j := by
          have hlen := congrArg length hsplit
          rw [htail, append_nil, hk, length_drop] at hlen
          omega
        rw [hended j (by omega), rankAt_of_length_le hlen]
        exact compareRank_absent
    simp [hzero]
  | cons x rest =>
    have hx : ¬x.Same .absent := by
      have hhead := head?_dropWhile_not (fun x : Rank => decide (x.Same .absent)) (rc.drop i)
      rw [htail] at hhead
      simpa using hhead
    rw [htail, head?_cons, getD_some] at hnext
    have hat : compareRank (rankAt ra (i + k)) (rankAt rc (i + k)) ≠ 0 := by
      rw [hended _ (by omega), hnext, compareRank_swap, neg_ne_zero]
      exact fun h => hx (compareRank_eq_zero_iff.mp h)
    rw [compareRanks_eq hzeros hat, hended _ (by omega), hnext]
    rw [hended _ (by omega), hnext] at hat
    have hpos := compareRank_absent_pos_iff (x := x)
    simp only [beq_iff_eq]
    omega

theorem length_le_of_rankAt (hproper : .absent ∉ ra) (h : rankAt ra i = .absent) :
    ra.length ≤ i := by
  by_contra hlt
  rw [not_le] at hlt
  rw [rankAt, getElem?_eq_getElem hlt, getD_some] at h
  exact hproper (h ▸ getElem_mem hlt)

/-- The three versions compare equal before `i`. -/
def AlikeBefore (ra rb rc : List Rank) (i : Nat) : Prop :=
  ∀ j, j < i → compareRank (rankAt ra j) (rankAt rb j) = 0 ∧
    compareRank (rankAt rb j) (rankAt rc j) = 0 ∧ compareRank (rankAt ra j) (rankAt rc j) = 0

theorem AlikeBefore.rotate (h : AlikeBefore ra rb rc i) :
    AlikeBefore rb rc ra i := by
  intro j hj
  obtain ⟨hab, hbc, hac⟩ := h j hj
  refine ⟨hbc, ?_, ?_⟩
  · rw [compareRank_swap, hac, neg_zero]
  · rw [compareRank_swap, hab, neg_zero]

/-- Three versions that part in a missing component, a word and a zero, but do not clash. -/
theorem AlikeBefore.lt_of_odd (h : AlikeBefore ra rb rc i) (hproper : .absent ∉ ra)
    (hclash : ¬Clash ra rb rc) (hodd : (rankAt ra i).Odd (rankAt rb i) (rankAt rc i)) :
    compareRanks ra rc < 0 := by
  obtain ⟨habsent, ⟨w, hw⟩, hzero⟩ := hodd
  have hend := length_le_of_rankAt hproper habsent
  by_contra hge
  rw [not_lt, compareRanks_ended (fun j hj => (h j hj).2.2) hend] at hge
  refine hclash ⟨i, ?_, hend, by rw [hw]; rfl, hzero, hge⟩
  intro j hj
  exact ⟨compareRank_eq_zero_iff.mp (h j hj).1, compareRank_eq_zero_iff.mp (h j hj).2.1⟩

/-- Three versions are alike everywhere, or there is a first place where a comparison is not
zero. -/
theorem alike_or_part (ra rb rc : List Rank) :
    (∀ i, AlikeBefore ra rb rc i) ∨ ∃ i, AlikeBefore ra rb rc i ∧
      ¬(compareRank (rankAt ra i) (rankAt rb i) = 0 ∧
        compareRank (rankAt rb i) (rankAt rc i) = 0 ∧
        compareRank (rankAt ra i) (rankAt rc i) = 0) := by
  rcases Verdicts.zero_or_first fun i => ¬(compareRank (rankAt ra i) (rankAt rb i) = 0 ∧
    compareRank (rankAt rb i) (rankAt rc i) = 0 ∧
    compareRank (rankAt ra i) (rankAt rc i) = 0) with hall | ⟨i, hi, hmin⟩
  · exact .inl fun _ j _ => not_not.mp (hall j)
  · exact .inr ⟨i, fun j hj => not_not.mp (hmin j hj), hi⟩

theorem compareRanks_trans (ha : .absent ∉ ra) (hb : .absent ∉ rb) (hc : .absent ∉ rc)
    (habc : ¬Clash ra rb rc) (hcab : ¬Clash rc ra rb) (hbca : ¬Clash rb rc ra)
    (hab : compareRanks ra rb ≤ 0) (hbc : compareRanks rb rc ≤ 0) : compareRanks ra rc ≤ 0 := by
  rcases alike_or_part ra rb rc with hall | ⟨i, hbefore, hsome⟩
  · rw [compareRanks_eq_zero fun j => (hall (j + 1) j (lt_succ_self j)).2.2]
  have hxy := compareRank_of_compareRanks fun j hj => (hbefore j hj).1
  have hyz := compareRank_of_compareRanks fun j hj => (hbefore j hj).2.1
  have hxz := compareRank_of_compareRanks fun j hj => (hbefore j hj).2.2
  have hswap := compareRanks_swap rc rb
  have hswap' := compareRanks_swap rb ra
  -- the odd combinations are settled by what follows the zero
  by_cases h1 : (rankAt ra i).Odd (rankAt rb i) (rankAt rc i)
  · exact (hbefore.lt_of_odd ha habc h1).le
  by_cases h2 : (rankAt rc i).Odd (rankAt ra i) (rankAt rb i)
  · have hlt := hbefore.rotate.rotate.lt_of_odd hc hcab h2
    omega
  by_cases h3 : (rankAt rb i).Odd (rankAt rc i) (rankAt ra i)
  · have hlt := hbefore.rotate.lt_of_odd hb hbca h3
    omega
  have hle := compareRank_trans h1 h2 h3 (by omega) (by omega)
  by_cases hzero : compareRank (rankAt ra i) (rankAt rc i) = 0
  · -- then all three are alike at `i`
    have hback : compareRank (rankAt rc i) (rankAt ra i) ≤ 0 := by
      rw [compareRank_swap, hzero, neg_zero]
    have hzx := compareRank_trans h2 h3 h1 hback (by omega)
    have hyx := compareRank_trans h3 h1 h2 (by omega) hback
    have hneg := compareRank_swap (rankAt rc i) (rankAt rb i)
    have hneg' := compareRank_swap (rankAt rb i) (rankAt ra i)
    omega
  · omega

theorem compareRanks_congr (ha : .absent ∉ ra) (hb : .absent ∉ rb) (hacb : ¬Clash ra rc rb)
    (hbca : ¬Clash rb rc ra) (hab : compareRanks ra rb = 0) :
    compareRanks ra rc = compareRanks rb rc := by
  rcases alike_or_part ra rb rc with hall | ⟨i, hbefore, hsome⟩
  · rw [compareRanks_eq_zero fun j => (hall (j + 1) j (lt_succ_self j)).2.2,
      compareRanks_eq_zero fun j => (hall (j + 1) j (lt_succ_self j)).2.1]
  have hxy := compareRank_of_compareRanks fun j hj => (hbefore j hj).1
  have hyz := compareRank_of_compareRanks fun j hj => (hbefore j hj).2.1
  have hxz := compareRank_of_compareRanks fun j hj => (hbefore j hj).2.2
  have hswap := compareRanks_swap rb ra
  by_cases h1 : (rankAt ra i).Odd (rankAt rc i) (rankAt rb i)
  · have hflip : AlikeBefore ra rc rb i := by
      intro j hj
      obtain ⟨hab, hbc, hac⟩ := hbefore j hj
      refine ⟨hac, ?_, hab⟩
      rw [compareRank_swap, hbc, neg_zero]
    have hlt := hflip.lt_of_odd ha hacb h1
    omega
  by_cases h2 : (rankAt rb i).Odd (rankAt rc i) (rankAt ra i)
  · have hlt := hbefore.rotate.lt_of_odd hb hbca h2
    omega
  have hsame := compareRank_congr h1 h2 (by omega)
  omega

/-- The comparisons three clashing versions give. -/
theorem Clash.verdicts (h : Clash ra rb rc) :
    compareRanks ra rb = -1 ∧ compareRanks rb rc = -1 ∧ 0 ≤ compareRanks ra rc := by
  obtain ⟨i, hbefore, hend, hword, hzero, hnot⟩ := h
  obtain ⟨w, hw⟩ := exists_word_of_cls hword
  have hab : ∀ j, j < i → compareRank (rankAt ra j) (rankAt rb j) = 0 :=
    fun j hj => compareRank_eq_zero_iff.mpr (hbefore j hj).1
  have hbc : ∀ j, j < i → compareRank (rankAt rb j) (rankAt rc j) = 0 :=
    fun j hj => compareRank_eq_zero_iff.mpr (hbefore j hj).2
  have hac : ∀ j, j < i → compareRank (rankAt ra j) (rankAt rc j) = 0 := by
    intro j hj
    obtain ⟨hab, hbc⟩ := hbefore j hj
    rw [compareRank_eq_zero_iff]
    unfold Rank.Same at *
    grind
  have habsent := rankAt_of_length_le hend
  refine ⟨?_, ?_, (compareRanks_ended hac hend).mpr hnot⟩
  · have hat : compareRank (rankAt ra i) (rankAt rb i) = -1 := by
      rw [habsent, hw, compareRank_absent_word]
    rw [compareRanks_eq hab (by omega), hat]
  · have hat : compareRank (rankAt rb i) (rankAt rc i) = -1 := by
      rw [hw, hzero, compareRank_word_zero]
    rw [compareRanks_eq hbc (by omega), hat]

/-! ## Versions -/

section

variable {nd : Char → Bool}

theorem rank_ne_absent {p : Str} {x : Rank} (h : rank nd p = some x) : x ≠ .absent := by
  unfold rank at h
  split_ifs at h
  · obtain ⟨n, -, rfl⟩ := map_eq_some_iff.mp h
    simp
  · cases h
    simp
  · cases h
    simp

theorem absent_notMem_ranks {v : Str} {ra : List Rank} (h : ranks nd v = some ra) :
    .absent ∉ ra := by
  unfold ranks at h
  generalize components nd (bare nd v).length (bare nd v) = ps at h
  induction ps generalizing ra with
  | nil =>
    cases h
    exact not_mem_nil
  | cons p ps ih =>
    rw [mapM_cons] at h
    cases hp : rank nd p with
    | none => simp [hp] at h
    | some x =>
      cases hps : ps.mapM (rank nd) with
      | none => simp [hp, hps] at h
      | some rest =>
        simp only [hp, hps, Option.bind_eq_bind, Option.bind_some, Option.pure_def,
          Option.some.injEq] at h
        subst h
        rw [mem_cons, not_or]
        exact ⟨(rank_ne_absent hp).symm, ih hps⟩

theorem versionCmp_eq {a b : Str} {ra rb : List Rank} (ha : ranks nd a = some ra)
    (hb : ranks nd b = some rb) : versionCmp nd a b = some (compareRanks ra rb) := by
  simp [versionCmp, ha, hb]

variable (nd)

/-- `version cmp` orders the versions of `S`, and `version max` does not depend on the order in
which it sees them. -/
structure IsOrdering (S : Set Str) : Prop where
  total : ∀ a ∈ S, ∀ b ∈ S, ∃ d, versionCmp nd a b = some d
  antisymm : ∀ a ∈ S, ∀ b ∈ S, versionCmp nd a b = (versionCmp nd b a).map fun d => -d
  trans : ∀ a ∈ S, ∀ b ∈ S, ∀ c ∈ S, ∀ d e, versionCmp nd a b = some d →
    versionCmp nd b c = some e →
    d ≤ 0 → e ≤ 0 → ∃ f, versionCmp nd a c = some f ∧ f ≤ 0
  congr : ∀ a ∈ S, ∀ b ∈ S, ∀ c ∈ S, versionCmp nd a b = some 0 →
    versionCmp nd a c = versionCmp nd b c
  max : ∀ l, l ≠ [] → (∀ v ∈ l, v ∈ S) → ∃ m ∈ l, versionMax nd l = some (some m) ∧
    ∀ l', l'.Perm l → ∃ m' ∈ l, versionMax nd l' = some (some m') ∧ versionCmp nd m m' = some 0

/-- Versions whose components clash. -/
def Clashing (a b c : Str) : Prop :=
  ∃ ra rb rc, ranks nd a = some ra ∧ ranks nd b = some rb ∧ ranks nd c = some rc ∧ Clash ra rb rc

def verdict (a b : Str) : Int := (versionCmp nd a b).getD 0

variable {nd} {S : Set Str}

theorem orders_verdict (hread : ∀ a ∈ S, (ranks nd a).isSome)
    (hclash : ∀ a ∈ S, ∀ b ∈ S, ∀ c ∈ S, ¬Clashing nd a b c) : Verdicts.Orders S (verdict nd) := by
  have hranks : ∀ a ∈ S, ∃ ra, ranks nd a = some ra ∧ .absent ∉ ra := by
    intro a ha
    obtain ⟨ra, hra⟩ := isSome_iff_exists.mp (hread a ha)
    exact ⟨ra, hra, absent_notMem_ranks hra⟩
  have hcmp : ∀ {a b ra rb}, ranks nd a = some ra → ranks nd b = some rb →
      verdict nd a b = compareRanks ra rb := by
    intro a b ra rb ha hb
    rw [verdict, versionCmp_eq ha hb, getD_some]
  refine ⟨?_, ?_, ?_⟩
  · intro a ha b hb
    obtain ⟨ra, hra, -⟩ := hranks a ha
    obtain ⟨rb, hrb, -⟩ := hranks b hb
    rw [hcmp hra hrb, hcmp hrb hra]
    exact compareRanks_swap ra rb
  · intro a ha b hb c hc hab hbc
    obtain ⟨ra, hra, hpa⟩ := hranks a ha
    obtain ⟨rb, hrb, hpb⟩ := hranks b hb
    obtain ⟨rc, hrc, hpc⟩ := hranks c hc
    rw [hcmp hra hrb] at hab
    rw [hcmp hrb hrc] at hbc
    rw [hcmp hra hrc]
    exact compareRanks_trans hpa hpb hpc
      (fun h => hclash a ha b hb c hc ⟨ra, rb, rc, hra, hrb, hrc, h⟩)
      (fun h => hclash c hc a ha b hb ⟨rc, ra, rb, hrc, hra, hrb, h⟩)
      (fun h => hclash b hb c hc a ha ⟨rb, rc, ra, hrb, hrc, hra, h⟩) hab hbc
  · intro a ha b hb c hc hab
    obtain ⟨ra, hra, hpa⟩ := hranks a ha
    obtain ⟨rb, hrb, hpb⟩ := hranks b hb
    obtain ⟨rc, hrc, -⟩ := hranks c hc
    rw [hcmp hra hrb] at hab
    rw [hcmp hra hrc, hcmp hrb hrc]
    exact compareRanks_congr hpa hpb
      (fun h => hclash a ha c hc b hb ⟨ra, rc, rb, hra, hrc, hrb, h⟩)
      (fun h => hclash b hb c hc a ha ⟨rb, rc, ra, hrb, hrc, hra, h⟩) hab

/-- Where every version can be read, `version max` keeps what the comparison says. -/
theorem versionMax_eq (hcmp : ∀ a ∈ S, ∀ b ∈ S, versionCmp nd a b = some (verdict nd a b))
    {best : Str} {l : List Str} (hbest : best ∈ S) (hl : ∀ v ∈ l, v ∈ S) :
    l.foldlM (keepNewer nd) (some best) =
      some (some (l.foldl (Verdicts.newer (verdict nd)) best)) := by
  induction l generalizing best with
  | nil => rfl
  | cons v l ih =>
    have hv := hl v (mem_cons_self ..)
    have hstep : keepNewer nd (some best) v = some (some (Verdicts.newer (verdict nd) best v)) := by
      rw [keepNewer, hcmp v hv best hbest, map_some, Verdicts.newer]
      split_ifs <;> rfl
    rw [foldlM_cons, hstep, foldl_cons]
    exact ih (Verdicts.mem_newer hbest hv) fun w hw => hl w (mem_cons_of_mem v hw)

variable (nd S)

/-- `version cmp` is an ordering of exactly the sets of versions that can be read and of which no
three clash. -/
theorem version_ordering_iff :
    IsOrdering nd S ↔ (∀ a ∈ S, (ranks nd a).isSome) ∧
      ∀ a ∈ S, ∀ b ∈ S, ∀ c ∈ S, ¬Clashing nd a b c := by
  constructor
  · intro h
    have hread : ∀ a ∈ S, (ranks nd a).isSome := by
      intro a ha
      obtain ⟨d, hd⟩ := h.total a ha a ha
      cases hra : ranks nd a with
      | none => simp [versionCmp, hra] at hd
      | some ra => rfl
    refine ⟨hread, ?_⟩
    rintro a ha b hb c hc ⟨ra, rb, rc, hra, hrb, hrc, hclash⟩
    obtain ⟨hab, hbc, hac⟩ := hclash.verdicts
    have hcab := versionCmp_eq hra hrb
    have hcbc := versionCmp_eq hrb hrc
    have hcac := versionCmp_eq hra hrc
    rw [hab] at hcab
    rw [hbc] at hcbc
    by_cases hzero : compareRanks ra rc = 0
    · -- the first and the third are equal, and the second is above one and below the other
      rw [hzero] at hcac
      have hsame := h.congr a ha c hc b hb hcac
      rw [hcab, versionCmp_eq hrc hrb, compareRanks_swap, hbc] at hsame
      simp at hsame
    · obtain ⟨f, hf, hle⟩ := h.trans a ha b hb c hc _ _ hcab hcbc (by omega) (by omega)
      rw [hcac, some.injEq] at hf
      omega
  · rintro ⟨hread, hclash⟩
    have horders := orders_verdict hread hclash
    have hcmp : ∀ a ∈ S, ∀ b ∈ S, versionCmp nd a b = some (verdict nd a b) := by
      intro a ha b hb
      obtain ⟨ra, hra⟩ := isSome_iff_exists.mp (hread a ha)
      obtain ⟨rb, hrb⟩ := isSome_iff_exists.mp (hread b hb)
      rw [verdict, versionCmp_eq hra hrb, getD_some]
    refine ⟨?_, ?_, ?_, ?_, ?_⟩
    · exact fun a ha b hb => ⟨_, hcmp a ha b hb⟩
    · intro a ha b hb
      rw [hcmp a ha b hb, hcmp b hb a ha, map_some, horders.antisymm a ha b hb]
    · intro a ha b hb c hc d e hd he hd0 he0
      rw [hcmp a ha b hb, some.injEq] at hd
      rw [hcmp b hb c hc, some.injEq] at he
      exact ⟨_, hcmp a ha c hc, horders.trans a ha b hb c hc (by omega) (by omega)⟩
    · intro a ha b hb c hc hab
      rw [hcmp a ha b hb, some.injEq] at hab
      rw [hcmp a ha c hc, hcmp b hb c hc, horders.congr a ha b hb c hc hab]
    · -- the maximum is an upper bound, and two upper bounds of one list compare equal
      have hmax : ∀ l, l ≠ [] → (∀ v ∈ l, v ∈ S) → ∃ m ∈ l, versionMax nd l = some (some m) ∧
          ∀ v ∈ l, verdict nd v m ≤ 0 := by
        intro l hne hl
        cases l with
        | nil => exact absurd rfl hne
        | cons v l =>
          have hv := hl v (mem_cons_self ..)
          have hrest : ∀ w ∈ l, w ∈ S := fun w hw => hl w (mem_cons_of_mem v hw)
          obtain ⟨hmem, hle⟩ := horders.le_foldl hv hrest
          exact ⟨_, hmem, versionMax_eq hcmp hv hrest, hle⟩
      intro l hne hl
      obtain ⟨m, hm, hmaxl, hle⟩ := hmax l hne hl
      refine ⟨m, hm, hmaxl, ?_⟩
      intro l' hperm
      have hl' : ∀ v ∈ l', v ∈ S := fun v hv => hl v (hperm.mem_iff.mp hv)
      have hne' : l' ≠ [] := by
        rintro rfl
        exact hne hperm.nil_eq.symm
      obtain ⟨m', hm', hmaxl', hle'⟩ := hmax l' hne' hl'
      have hm'l := hperm.mem_iff.mp hm'
      refine ⟨m', hm'l, hmaxl', ?_⟩
      rw [hcmp m (hl m hm) m' (hl m' hm'l), some.injEq]
      have h1 := hle m' hm'l
      have h2 := hle' m (hperm.mem_iff.mpr hm)
      have h3 := horders.antisymm m (hl m hm) m' (hl m' hm'l)
      omega

end

def asciiOnly : Char → Bool := fun _ => false

/-- The order the header of `version.nu` promises, 1.0 == 1.0.0 < 1.0.post1, is not the one the code
computes, and which of the three is the newest depends on their order in the list. -/
theorem post_release_unordered :
    versionCmp asciiOnly "1.0".toList "1.0.0".toList = some 0 ∧
    versionCmp asciiOnly "1.0".toList "1.0.post1".toList = some (-1) ∧
    versionCmp asciiOnly "1.0.0".toList "1.0.post1".toList = some 1 ∧
    versionMax asciiOnly ["1.0".toList, "1.0.0".toList, "1.0.post1".toList] =
      some (some "1.0.post1".toList) ∧
    versionMax asciiOnly ["1.0.post1".toList, "1.0.0".toList, "1.0".toList] =
      some (some "1.0.0".toList) ∧
    ¬IsOrdering asciiOnly Set.univ := by
  have h1 : versionCmp asciiOnly "1.0".toList "1.0.0".toList = some 0 := by rfl
  have h2 : versionCmp asciiOnly "1.0".toList "1.0.post1".toList = some (-1) := by rfl
  have h3 : versionCmp asciiOnly "1.0.0".toList "1.0.post1".toList = some 1 := by rfl
  refine ⟨h1, h2, h3, by rfl, by rfl, ?_⟩
  intro h
  have hsame := h.congr _ (Set.mem_univ _) _ (Set.mem_univ _) "1.0.post1".toList (Set.mem_univ _) h1
  rw [h2, h3] at hsame
  simp at hsame

end Corepkgs.Uptrack
