import Corepkgs.Lib.Template
import Mathlib.Data.Char
import Mathlib.Data.List.Lex
import Mathlib.Data.List.Nodup
import Mathlib.Data.List.Sort
import Mathlib.Data.List.TakeWhile
/-!
# URL templates

A source's URL is a template over the fields of its `[pin]`.  It is expanded
twice: by `expand` of `pipeline.nu` when the updater fetches the file to hash
it, one placeholder after another, and by `nix/sources.nix` when the evaluator
fetches it, all placeholders at once after a first round for `{version}` and
`{tag}`.
-/

namespace Corepkgs.Uptrack

open Lib Template List

inductive Field where
  | text (s : List Char)
  | number (n : Int)
  deriving DecidableEq

def Field.string : Field → List Char
  | text s => s
  | number n => (toString n).toList

def versionKey : List Char := "version".toList

def tagKey : List Char := "tag".toList

def version_Key : List Char := "version_".toList

def majorKey : List Char := "major".toList

def minorKey : List Char := "minor".toList

def sysKey : List Char := "sys".toList

/-- A `[pin]` table: its fields in the order of the file, without `sys`, which is a list of library
names the updater leaves out of templates. -/
structure Pin where
  fields : List (List Char × Field)
  sys : Option (List (List Char))
  version : List Char
  nodup : (fields.map Prod.fst).Nodup
  version_mem : (versionKey, .text version) ∈ fields
  tag_text : ∀ f, (tagKey, f) ∈ fields → ∃ s, f = .text s
  sys_notMem : sysKey ∉ fields.map Prod.fst

/-- `{key}` -/
def spell (key : List Char) : List Char := '{' :: key ++ ['}']

/-! ## Records -/

abbrev Vars := List (List Char × List Char)

def valueIn (vars : Vars) (key : List Char) : Option (List Char) := vars.lookup key

@[simp] theorem valueIn_nil (q : List Char) : valueIn [] q = none := rfl

theorem valueIn_cons (e : List Char × List Char) (vars : Vars) (q : List Char) :
    valueIn (e :: vars) q = if q = e.1 then some e.2 else valueIn vars q := by
  unfold valueIn
  rw [lookup_cons]
  by_cases hq : q = e.1
  · rw [if_pos hq, beq_iff_eq.mpr hq]
  · rw [if_neg hq, beq_false_of_ne hq]

theorem valueIn_append (vars vars' : Vars) (q : List Char) :
    valueIn (vars ++ vars') q = (valueIn vars q).or (valueIn vars' q) := lookup_append

theorem valueIn_eq_none {vars : Vars} {q : List Char} (h : q ∉ vars.map Prod.fst) :
    valueIn vars q = none := by
  induction vars with
  | nil => rfl
  | cons e vars ih =>
    rw [map_cons, mem_cons, not_or] at h
    rw [valueIn_cons, if_neg h.1, ih h.2]

theorem valueIn_of_mem {vars : Vars} (hnodup : (vars.map Prod.fst).Nodup)
    {e : List Char × List Char} (he : e ∈ vars) : valueIn vars e.1 = some e.2 := by
  induction vars with
  | nil => cases he
  | cons e' vars ih =>
    rw [map_cons, nodup_cons] at hnodup
    rw [valueIn_cons]
    rcases mem_cons.mp he with rfl | he
    · rw [if_pos rfl]
    · rw [if_neg, ih hnodup.2 he]
      intro heq
      exact hnodup.1 (heq ▸ mem_map_of_mem he)

/-- A field of a record overwritten in its place, or appended. -/
def setField : Vars → List Char → List Char → Vars
  | [], key, value => [(key, value)]
  | e :: r, key, value => if e.1 = key then (key, value) :: r else e :: setField r key value

def merge (r fields : Vars) : Vars := fields.foldl (fun r e => setField r e.1 e.2) r

theorem valueIn_setField (r : Vars) (key value q : List Char) :
    valueIn (setField r key value) q = if q = key then some value else valueIn r q := by
  induction r with
  | nil => rw [setField, valueIn_cons]
  | cons e r ih =>
    rw [setField]
    by_cases hkey : e.1 = key
    · rw [if_pos hkey, valueIn_cons, valueIn_cons, hkey]
      split_ifs <;> rfl
    · rw [if_neg hkey, valueIn_cons, valueIn_cons, ih]
      by_cases hq : q = e.1
      · rw [if_pos hq, if_neg fun h => hkey (hq.symm.trans h), if_pos hq]
      · rw [if_neg hq, if_neg hq]

theorem valueIn_merge {r fields : Vars} (hnodup : (fields.map Prod.fst).Nodup) (q : List Char) :
    valueIn (merge r fields) q = (valueIn fields q).or (valueIn r q) := by
  induction fields generalizing r with
  | nil => rfl
  | cons e fields ih =>
    rw [map_cons, nodup_cons] at hnodup
    rw [merge, foldl_cons, ← merge, ih hnodup.2, valueIn_setField, valueIn_cons]
    by_cases hq : q = e.1
    · rw [if_pos hq, if_pos hq, hq, valueIn_eq_none hnodup.1, Option.none_or, Option.some_or]
    · rw [if_neg hq, if_neg hq]

theorem keys_setField (r : Vars) (key value : List Char) :
    (setField r key value).map Prod.fst =
      if key ∈ r.map Prod.fst then r.map Prod.fst else r.map Prod.fst ++ [key] := by
  induction r with
  | nil => rfl
  | cons e r ih =>
    rw [setField]
    by_cases hkey : e.1 = key
    · rw [if_pos hkey, map_cons, map_cons, if_pos (by simp [hkey]), hkey]
    · rw [if_neg hkey, map_cons, map_cons, ih]
      by_cases hmem : key ∈ r.map Prod.fst
      · rw [if_pos hmem, if_pos (mem_cons_of_mem _ hmem)]
      · rw [if_neg hmem, if_neg, cons_append]
        rw [mem_cons, not_or]
        exact ⟨Ne.symm hkey, hmem⟩

theorem nodup_merge {r : Vars} (fields : Vars) (hr : (r.map Prod.fst).Nodup) :
    ((merge r fields).map Prod.fst).Nodup := by
  induction fields generalizing r with
  | nil => exact hr
  | cons e fields ih =>
    apply ih
    rw [keys_setField]
    split_ifs with hmem
    · exact hr
    · rw [nodup_append']
      refine ⟨hr, nodup_singleton _, ?_⟩
      intro q hq hkey
      rw [mem_singleton] at hkey
      exact hmem (hkey ▸ hq)

namespace Pin

variable (pin : Pin)

def strings : Vars := pin.fields.map fun e => (e.1, e.2.string)

/-! ## `pipeline.nu` -/

def parts : List (List Char) := pin.version.splitOn '.'

def nuBase : Vars :=
  [(tagKey, pin.version), (version_Key, ['_'].intercalate pin.parts),
    (majorKey, pin.parts.head?.getD []), (minorKey, pin.parts[1]?.getD "0".toList)]

/-- The placeholders in the order `expand` goes through them. -/
def nuVars : Vars := merge pin.nuBase pin.strings

def strReplace (text : List Char) (e : List Char × List Char) : List Char :=
  replaceStrings [(spell e.1, e.2)] text.length text

def nuExpand (template : List Char) : List Char := pin.nuVars.foldl strReplace template

/-! ## `sources.nix` -/

def tag : List Char := (valueIn pin.strings tagKey).getD pin.version

def major : List Char := pin.version.takeWhile (· ≠ '.')

def minor : List Char := ((pin.version.dropWhile (· ≠ '.')).drop 1).takeWhile (· ≠ '.')

def nixBase : Vars :=
  [(tagKey, pin.version), (version_Key, pin.version.map fun c => if c = '.' then '_' else c),
    (majorKey, pin.major), (minorKey, pin.minor)]

def nixVars : Vars :=
  merge pin.nixBase
    (pin.strings ++ (pin.sys.map fun names => (sysKey, [' '].intercalate names)).toList)

def nixNames : List (List Char) := (pin.nixVars.map Prod.fst).insertionSort (· ≤ ·)

def nixValue (key : List Char) : List Char := (valueIn pin.nixVars key).getD []

def expandAll (text : List Char) : List Char :=
  replaceStrings (pin.nixNames.map fun key => (spell key, pin.nixValue key)) text.length text

def quickVars : Vars := [(versionKey, pin.version), (tagKey, pin.tag)]

def quick (text : List Char) : List Char :=
  replaceStrings (pin.quickVars.map fun e => (spell e.1, e.2)) text.length text

def nixExpand (template : List Char) : List Char :=
  if '{' ∉ pin.quick template then pin.quick template else pin.expandAll (pin.quick template)

/-! ## Rounds of replacement -/

/-- The letters and placeholders of a template. -/
def pieces (template : List Char) : List (Piece Char (List Char)) :=
  scan spell pin.nixNames template.length template

/-- A round that looks for `names` in the template with the placeholders of `vars` filled in finds
those of the template that are left, and no others. -/
def FindsOwn (template : List Char) (vars : Vars) (names : List (List Char)) : Prop :=
  let text := fill spell (valueIn vars) (pin.pieces template)
  scan spell names text.length text = spread spell (valueIn vars) names (pin.pieces template)

/-- No round of either side finds a placeholder that a value brought in. -/
structure Own (template : List Char) : Prop where
  nix : pin.FindsOwn template [] (pin.quickVars.map Prod.fst)
  nixAll : pin.FindsOwn template pin.quickVars pin.nixNames
  nu : ∀ i : Fin pin.nuVars.length,
    pin.FindsOwn template (pin.nuVars.take i) [(pin.nuVars.get i).1]
  /-- `{sys}` is a placeholder of one side only. -/
  sys : .hole sysKey ∉ pin.pieces template

variable {pin} {template : List Char}

theorem fill_pieces : fill spell (valueIn []) (pin.pieces template) = template := fill_scan _ _ _

theorem FindsOwn.replace {vars vars' : Vars} (h : pin.FindsOwn template vars (vars'.map Prod.fst))
    (hnodup : (vars'.map Prod.fst).Nodup) :
    replaceStrings (vars'.map fun e => (spell e.1, e.2))
        (fill spell (valueIn vars) (pin.pieces template)).length
        (fill spell (valueIn vars) (pin.pieces template)) =
      fill spell (valueIn (vars ++ vars')) (pin.pieces template) := by
  have hvalue : ∀ e ∈ vars', (valueIn vars' e.1).getD [] = e.2 := by
    intro e he
    rw [valueIn_of_mem hnodup he, Option.getD_some]
  have hpairs : vars'.map (fun e => (spell e.1, e.2)) =
      (vars'.map Prod.fst).map fun k => (spell k, (valueIn vars' k).getD []) := by
    rw [map_map]
    apply map_congr_left
    intro e he
    simp only [Function.comp_apply, hvalue e he]
  rw [hpairs, replaceStrings_eq_fill, h, fill_spread]
  · apply fill_congr
    intro k _
    rw [valueIn_append]
    by_cases hk : k ∈ vars'.map Prod.fst
    · obtain ⟨e, he, rfl⟩ := mem_map.mp hk
      rw [if_pos hk, hvalue e he, valueIn_of_mem hnodup he]
    · rw [if_neg hk, valueIn_eq_none hk]
  · intro k hk
    by_contra hnot
    exact hk (if_neg hnot)

theorem Own.nuExpand (h : pin.Own template) :
    pin.nuExpand template = fill spell (valueIn pin.nuVars) (pin.pieces template) := by
  have hround : ∀ i, i ≤ pin.nuVars.length → (pin.nuVars.take i).foldl strReplace template =
      fill spell (valueIn (pin.nuVars.take i)) (pin.pieces template) := by
    intro i
    induction i with
    | zero => exact fun _ => fill_pieces.symm
    | succ i ih =>
      intro hi
      rw [take_succ_eq_append_getElem hi, foldl_append, ih (by omega), foldl_cons,
        foldl_nil, strReplace]
      have hown : pin.FindsOwn template (pin.nuVars.take i) ([pin.nuVars[i]].map Prod.fst) :=
        h.nu ⟨i, hi⟩
      exact hown.replace (nodup_singleton _)
  have hall := hround pin.nuVars.length (Nat.le_refl _)
  rwa [take_length] at hall

variable (pin : Pin)

theorem nodup_quickVars : (pin.quickVars.map Prod.fst).Nodup := by
  simp only [quickVars, map_cons, map_nil]
  decide

theorem Own.quick (h : pin.Own template) :
    pin.quick template = fill spell (valueIn pin.quickVars) (pin.pieces template) := by
  have hround := h.nix.replace pin.nodup_quickVars
  rwa [fill_pieces] at hround

theorem nixExpand_eq (template : List Char) :
    pin.nixExpand template = pin.expandAll (pin.quick template) := by
  unfold nixExpand
  split_ifs with hbrace
  · rfl
  · rw [expandAll, replaceStrings_of_notMem _ _ hbrace]
    intro p hp
    obtain ⟨key, -, rfl⟩ := mem_map.mp hp
    exact mem_cons_self ..

theorem nodup_nixNames : pin.nixNames.Nodup := by
  rw [nixNames, (perm_insertionSort _ _).nodup_iff]
  apply nodup_merge
  simp only [nixBase, map_cons, map_nil]
  decide

/-- The placeholders the second round of the evaluator fills. -/
def nixPairs (pin : Pin) : Vars := pin.nixNames.map fun key => (key, pin.nixValue key)

theorem keys_nixPairs : pin.nixPairs.map Prod.fst = pin.nixNames := by
  rw [nixPairs, map_map]
  exact map_id _

theorem Own.nixExpand (h : pin.Own template) :
    pin.nixExpand template =
      fill spell (valueIn (pin.quickVars ++ pin.nixPairs)) (pin.pieces template) := by
  have hall : pin.FindsOwn template pin.quickVars (pin.nixPairs.map Prod.fst) := by
    rw [keys_nixPairs]
    exact h.nixAll
  have hround := hall.replace (by rw [keys_nixPairs]; exact pin.nodup_nixNames)
  rw [nixPairs, map_map] at hround
  rw [nixExpand_eq, h.quick, expandAll]
  exact hround

/-! ## Where the two sides agree -/

theorem nodup_strings : (pin.strings.map Prod.fst).Nodup := by
  rw [strings, map_map]
  exact pin.nodup

theorem sys_notMem_strings : sysKey ∉ pin.strings.map Prod.fst := by
  rw [strings, map_map]
  exact pin.sys_notMem

variable {k : List Char}

theorem valueIn_nixVars (hk : k ≠ sysKey) :
    valueIn pin.nixVars k = (valueIn pin.strings k).or (valueIn pin.nixBase k) := by
  have hnodup : ((pin.strings ++ (pin.sys.map fun names =>
      (sysKey, [' '].intercalate names)).toList).map Prod.fst).Nodup := by
    rw [map_append, nodup_append']
    refine ⟨pin.nodup_strings, ?_, ?_⟩
    · cases pin.sys <;> simp
    · intro q hq hsys
      cases hs : pin.sys with
      | none => simp [hs] at hsys
      | some names =>
        simp only [hs, Option.map_some, Option.toList_some, map_cons, map_nil,
          mem_singleton] at hsys
        exact pin.sys_notMem_strings (hsys ▸ hq)
  rw [nixVars, valueIn_merge hnodup, valueIn_append]
  cases pin.sys with
  | none => simp
  | some names =>
    simp only [Option.map_some, Option.toList_some, valueIn_cons, if_neg hk, valueIn_nil,
      Option.or_none]

theorem valueIn_nuVars (k : List Char) :
    valueIn pin.nuVars k = (valueIn pin.strings k).or (valueIn pin.nuBase k) :=
  valueIn_merge pin.nodup_strings k

theorem valueIn_nixPairs (hk : k ∈ pin.nixNames) :
    valueIn pin.nixPairs k = valueIn pin.nixVars k := by
  have hnodup : (pin.nixPairs.map Prod.fst).Nodup := by
    rw [keys_nixPairs]
    exact pin.nodup_nixNames
  have hpair : (k, pin.nixValue k) ∈ pin.nixPairs := mem_map_of_mem hk
  rw [valueIn_of_mem hnodup hpair, nixValue]
  have hkey : k ∈ pin.nixVars.map Prod.fst := (perm_insertionSort _ _).mem_iff.mp hk
  obtain ⟨e, he, rfl⟩ := mem_map.mp hkey
  have hvars : (pin.nixVars.map Prod.fst).Nodup :=
    (perm_insertionSort _ _).nodup_iff.mp pin.nodup_nixNames
  rw [valueIn_of_mem hvars he, Option.getD_some]

theorem valueIn_version : valueIn pin.strings versionKey = some pin.version :=
  valueIn_of_mem pin.nodup_strings (mem_map_of_mem pin.version_mem)

/-- A placeholder that is filled alike, unless the two sides derive it differently. -/
theorem value_agree (hname : k ∈ pin.nixNames) (hsys : k ≠ sysKey)
    (hbase : valueIn pin.strings k = none → valueIn pin.nixBase k = valueIn pin.nuBase k) :
    valueIn (pin.quickVars ++ pin.nixPairs) k = valueIn pin.nuVars k := by
  rw [valueIn_append, valueIn_nixPairs pin hname, valueIn_nixVars pin hsys, valueIn_nuVars,
    quickVars, valueIn_cons, valueIn_cons, valueIn_nil]
  by_cases hv : k = versionKey
  · rw [if_pos hv, hv, valueIn_version, Option.some_or, Option.some_or]
  by_cases ht : k = tagKey
  · rw [if_neg hv, if_pos ht, ht, Option.some_or, tag]
    cases valueIn pin.strings tagKey with
    | some _ | none => rfl
  · rw [if_neg hv, if_neg ht, Option.none_or]
    cases hs : valueIn pin.strings k with
    | some s => rfl
    | none => rw [hbase hs]

theorem intercalate_parts (v : List Char) :
    ['_'].intercalate (v.splitOn '.') = v.map fun c => if c = '.' then '_' else c := by
  -- by the number of dots: cut at the first one
  induction hn : v.length using Nat.strong_induction_on generalizing v with
  | _ n ih =>
    by_cases hdot : '.' ∈ v
    · obtain ⟨a, b, rfl, ha⟩ := eq_append_cons_of_mem hdot
      have hsame : a.map (fun c => if c = '.' then '_' else c) = a := by
        conv_rhs => rw [← map_id a]
        apply map_congr_left
        intro c hc
        rw [if_neg, id]
        rintro rfl
        exact ha hc
      have hlen : b.length < n := by
        rw [← hn, length_append, length_cons]
        omega
      rw [splitOn_append_cons_self_of_not_mem ha,
        intercalate_cons_of_ne_nil (splitOn_ne_nil _ _), ih b.length hlen b rfl,
        map_append, map_cons, hsame, if_pos rfl, append_assoc]
      rfl
    · have hsame : v.map (fun c => if c = '.' then '_' else c) = v := by
        conv_rhs => rw [← map_id v]
        apply map_congr_left
        intro c hc
        rw [if_neg, id]
        rintro rfl
        exact hdot hc
      rw [splitOn_eq_singleton hdot, intercalate_singleton, hsame]

theorem ne_dot_of_mem {v : List Char} (h : '.' ∉ v) : ∀ c ∈ v, decide (c ≠ '.') = true := by
  intro c hc
  rw [decide_eq_true_iff]
  rintro rfl
  exact h hc

theorem head_splitOn (v : List Char) :
    (v.splitOn '.').head? = some (v.takeWhile (· ≠ '.')) := by
  by_cases hdot : '.' ∈ v
  · obtain ⟨a, b, rfl, ha⟩ := eq_append_cons_of_mem hdot
    rw [splitOn_append_cons_self_of_not_mem ha, head?_cons,
      takeWhile_append_of_pos (ne_dot_of_mem ha)]
    simp
  · rw [splitOn_eq_singleton hdot, head?_cons, takeWhile_eq_self_iff.mpr (ne_dot_of_mem hdot)]

theorem second_part {v : List Char} (hdot : '.' ∈ v) :
    (v.splitOn '.')[1]? = some (((v.dropWhile (· ≠ '.')).drop 1).takeWhile (· ≠ '.')) := by
  obtain ⟨a, b, rfl, ha⟩ := eq_append_cons_of_mem hdot
  have hdrop : (a ++ '.' :: b).dropWhile (fun c => decide (c ≠ '.')) = '.' :: b := by
    rw [dropWhile_append_of_pos (ne_dot_of_mem ha)]
    simp
  rw [splitOn_append_cons_self_of_not_mem ha, getElem?_cons_succ, ← head?_eq_getElem?,
    head_splitOn, hdrop, drop_succ_cons, drop_zero]

theorem base_agree (hk : k = minorKey → '.' ∈ pin.version) :
    valueIn pin.nixBase k = valueIn pin.nuBase k := by
  have hmajor : pin.parts.head?.getD [] = pin.major := by
    rw [parts, head_splitOn, Option.getD_some, major]
  rw [nixBase, nuBase, parts, intercalate_parts, ← parts, hmajor]
  simp only [valueIn_cons, valueIn_nil]
  by_cases hminor : k = minorKey
  · rw [parts, second_part (hk hminor), Option.getD_some, minor]
  · rw [if_neg hminor, if_neg hminor]

/-- `{minor}` of a version without a dot is derived as nothing by the evaluator and as zero by the
updater. -/
def MinorAgrees (pin : Pin) (template : List Char) : Prop :=
  '.' ∈ pin.version ∨ minorKey ∈ pin.fields.map Prod.fst ∨ .hole minorKey ∉ pin.pieces template

theorem minor_of_no_dot (hdot : '.' ∉ pin.version) : pin.minor = [] := by
  rw [minor, dropWhile_eq_nil_iff.mpr (ne_dot_of_mem hdot)]
  rfl

/-- Where no value brings in a placeholder, the URL the updater hashes is the one the evaluator
fetches if and only if `{minor}` agrees. -/
theorem expanders_agree_iff (pin : Pin) (template : List Char) (h : pin.Own template) :
    pin.nixExpand template = pin.nuExpand template ↔ pin.MinorAgrees template := by
  rw [h.nixExpand, h.nuExpand]
  have hhole : ∀ k, .hole k ∈ pin.pieces template → k ∈ pin.nixNames ∧ k ≠ sysKey := by
    intro k hk
    refine ⟨mem_of_hole_mem_scan hk, ?_⟩
    rintro rfl
    exact h.sys hk
  constructor
  · intro heq
    by_contra hminor
    simp only [MinorAgrees, not_or, not_not] at hminor
    obtain ⟨hdot, hfield, hmem⟩ := hminor
    have hstrings : valueIn pin.strings minorKey = none := by
      apply valueIn_eq_none
      rw [strings, map_map]
      exact hfield
    have hnix : valueIn (pin.quickVars ++ pin.nixPairs) minorKey = some [] := by
      rw [valueIn_append, valueIn_nixPairs pin (hhole _ hmem).1, valueIn_nixVars pin (by decide),
        hstrings, nixBase, minor_of_no_dot pin hdot]
      simp only [quickVars, valueIn_cons, valueIn_nil]
      rfl
    have hnu : valueIn pin.nuVars minorKey = some ['0'] := by
      rw [valueIn_nuVars, hstrings, nuBase, parts, splitOn_eq_singleton hdot]
      simp only [valueIn_cons, valueIn_nil]
      rfl
    have hlt : (fill spell (valueIn (pin.quickVars ++ pin.nixPairs)) (pin.pieces template)).length <
        (fill spell (valueIn pin.nuVars) (pin.pieces template)).length := by
      apply length_fill_lt hmem
      · intro k hk hne
        exact pin.value_agree (hhole k hk).1 (hhole k hk).2 fun _ =>
          pin.base_agree fun heq => absurd heq hne
      · rw [hnix, hnu]
        decide
    rw [heq] at hlt
    exact Nat.lt_irrefl _ hlt
  · intro hminor
    apply fill_congr
    intro k hk
    refine pin.value_agree (hhole k hk).1 (hhole k hk).2 fun hnone => pin.base_agree ?_
    rintro rfl
    rcases hminor with hdot | hfield | hmissing
    · exact hdot
    · obtain ⟨e, he, hkey⟩ := mem_map.mp hfield
      have hsome := valueIn_of_mem pin.nodup_strings
        (mem_map_of_mem (f := fun e : List Char × Field => (e.1, e.2.string)) he)
      rw [hkey, hnone] at hsome
      cases hsome
    · exact absurd hk hmissing

/-! ## Two pins -/

def versionOnly (version : List Char) : Pin where
  fields := [(versionKey, .text version)]
  sys := none
  version := version
  nodup := nodup_singleton _
  version_mem := mem_singleton.mpr rfl
  tag_text := by
    intro f hf
    rw [mem_singleton, Prod.mk.injEq] at hf
    exact absurd hf.1 (by decide)
  sys_notMem := by
    rw [map_cons, map_nil, mem_singleton]
    show sysKey ≠ versionKey
    decide

instance (pin : Pin) (template : List Char) (vars : Vars) (names : List (List Char)) :
    Decidable (pin.FindsOwn template vars names) :=
  inferInstanceAs (Decidable (_ = _))

/-- glib's URL at a version with dots. -/
theorem expanders_agree_iff_glib :
    (versionOnly "2.88.3".toList).nixExpand "glib/{major}.{minor}/glib-{version}.tar.xz".toList =
      (versionOnly "2.88.3".toList).nuExpand
        "glib/{major}.{minor}/glib-{version}.tar.xz".toList := by
  have hown : (versionOnly "2.88.3".toList).Own
    "glib/{major}.{minor}/glib-{version}.tar.xz".toList :=
    ⟨by decide +kernel, by decide +kernel, by decide +kernel, by decide +kernel⟩
  exact (expanders_agree_iff _ _ hown).mpr (.inl (by decide +kernel))

/-- At a version without a dot the evaluator fetches another URL than the updater hashed. -/
theorem minor_of_plain_version_differs :
    (versionOnly "5".toList).nixExpand "pub/{major}.{minor}/x-{version}.tar".toList =
      "pub/5./x-5.tar".toList ∧
    (versionOnly "5".toList).nuExpand "pub/{major}.{minor}/x-{version}.tar".toList =
      "pub/5.0/x-5.tar".toList ∧
    ¬∀ (pin : Pin) (template : List Char), pin.nixExpand template = pin.nuExpand template := by
  have hnix : (versionOnly "5".toList).nixExpand "pub/{major}.{minor}/x-{version}.tar".toList =
      "pub/5./x-5.tar".toList := by decide +kernel
  have hnu : (versionOnly "5".toList).nuExpand "pub/{major}.{minor}/x-{version}.tar".toList =
      "pub/5.0/x-5.tar".toList := by decide +kernel
  refine ⟨hnix, hnu, ?_⟩
  intro hall
  have hsame := hall (versionOnly "5".toList) "pub/{major}.{minor}/x-{version}.tar".toList
  rw [hnix, hnu] at hsame
  exact absurd hsame (by decide)

end Pin

end Corepkgs.Uptrack
