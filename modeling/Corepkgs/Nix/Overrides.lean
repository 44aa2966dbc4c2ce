import Corepkgs.Lib.Attrs
import Corepkgs.Lib.Results
/-!
# Merging override trees

`overrides` may be a list of trees, which `nix/overrides.nix` merges into one
before anything is applied.  At every name the merge decides from the name and
from the shapes of all values there which rule applies: go on below, keep the
last value, update one set with the next, concatenate lists.  A thrown error is
the whole result.
-/

namespace Corepkgs.Nix

open Lib Attrs List
open scoped Lib.Attrs

abbrev Name := Bytes

inductive Kind
  | null | int | float | string | path | lambda
  deriving DecidableEq

/-- An evaluated Nix value; `α` is what the other types' values are made of. -/
inductive Value (α : Type)
  | attrs (bindings : List (Name × Value α))
  | list (elems : List (Value α))
  | bool (b : Bool)
  | other (kind : Kind) (a : α)

inductive Fault
  | thrown (message : Bytes)
  | notASet (found : Bytes)
  | outOfBounds
  deriving DecidableEq

variable {α : Type}

namespace Value

def typeOf : Value α → Bytes
  | .attrs _ => ascii "set"
  | .list _ => ascii "list"
  | .bool _ => ascii "bool"
  | .other .null _ => ascii "null"
  | .other .int _ => ascii "int"
  | .other .float _ => ascii "float"
  | .other .string _ => ascii "string"
  | .other .path _ => ascii "path"
  | .other .lambda _ => ascii "lambda"

def attrs? : Value α → Option (Attrs Name (Value α))
  | .attrs bindings => some bindings
  | _ => none

def isAttrs (v : Value α) : Bool := v.attrs?.isSome

def isTrue : Value α → Bool
  | .bool b => b
  | _ => false

mutual

def depth : Value α → Nat
  | .attrs bindings => depthOf bindings
  | .list _ => 0
  | .bool _ => 0
  | .other _ _ => 0

def depthOf : List (Name × Value α) → Nat
  | [] => 0
  | (_, v) :: rest => max (v.depth + 1) (depthOf rest)

end

mutual

def canonical : Value α → Bool
  | .attrs bindings => decide (Attrs.Sorted bindings) && canonicalAttrs bindings
  | .list elems => canonicalList elems
  | .bool _ => true
  | .other _ _ => true

def canonicalAttrs : List (Name × Value α) → Bool
  | [] => true
  | (_, v) :: rest => v.canonical && canonicalAttrs rest

def canonicalList : List (Value α) → Bool
  | [] => true
  | v :: rest => v.canonical && canonicalList rest

end

variable {a : Attrs Name (Value α)}

theorem depth_lt_of_get {name : Name} {v : Value α}
    (h : a.get name = some v) : v.depth < depthOf a := by
  have hmem := mem_of_get h
  clear h
  induction a with
  | nil => simp at hmem
  | cons p rest ih =>
    rw [depthOf]
    rcases mem_cons.mp hmem with rfl | hmem
    · exact lt_max_of_lt_left (Nat.lt_succ_self _)
    · exact lt_max_of_lt_right (ih hmem)

theorem canonicalAttrs_iff :
    canonicalAttrs a = true ↔ ∀ p ∈ a, p.2.canonical = true := by
  induction a with
  | nil => simp [canonicalAttrs]
  | cons p rest ih => rw [canonicalAttrs, Bool.and_eq_true, ih, forall_mem_cons]

theorem canonicalList_iff {vs : List (Value α)} :
    canonicalList vs = true ↔ ∀ v ∈ vs, v.canonical = true := by
  induction vs with
  | nil => simp [canonicalList]
  | cons v rest ih => rw [canonicalList, Bool.and_eq_true, ih, forall_mem_cons]

theorem canonical_attrs_iff :
    (Value.attrs a).canonical = true ↔
      a.Sorted ∧ ∀ name v, a.get name = some v → v.canonical = true := by
  rw [canonical, Bool.and_eq_true, decide_eq_true_iff, canonicalAttrs_iff]
  constructor
  · rintro ⟨hsorted, hall⟩
    exact ⟨hsorted, fun name v hget => hall (name, v) (mem_of_get hget)⟩
  · rintro ⟨hsorted, hall⟩
    exact ⟨hsorted, fun p hp => hall p.1 p.2 (hsorted.get_of_mem hp)⟩

end Value

/-! ## The rule at a name -/

def verbs : List Name :=
  [ascii "set", ascii "append", ascii "prepend", ascii "merge", ascii "remove"]

def isVerbNode : Value α → Bool
  | .attrs bindings => !bindings.isEmpty && (keys bindings).all verbs.contains
  | _ => false

inductive Rule
  | mergeTrees | last | update | true | concatLists | conflicting
  deriving DecidableEq

/-- Which branch the values `vals` under `name` take. -/
def ruleFor (name : Name) (vals : List (Value α)) : Rule :=
  -- a field that happens to be called like a verb holds verb nodes itself
  if verbs.contains name && vals.all isVerbNode then .mergeTrees
  else if name == ascii "set" || name == ascii "edit" then .last
  else if name == ascii "features" then .update
  else if name == ascii "remove" && vals.any Value.isTrue then .true
  else if name == ascii "append" || name == ascii "prepend" || name == ascii "remove" then
    .concatLists
  else if name == ascii "merge" then .update
  else if vals.all Value.isAttrs then .mergeTrees
  else .conflicting

def updateFrom (acc : Attrs Name (Value α)) :
    List (Value α) → Except Fault (Attrs Name (Value α))
  | [] => .ok acc
  | .attrs b :: rest => updateFrom (acc.update b) rest
  | v :: _ => .error (.notASet v.typeOf)

/-- `concatLists` of the values under `name`, each of which must be a list. -/
def concatLists (name : Name) : List (Value α) → Except Fault (List (Value α))
  | [] => .ok []
  | .list elems :: rest => (concatLists name rest).map (elems ++ ·)
  | v :: _ =>
    .error (.thrown (ascii "overrides: " ++ name ++ ascii " takes a list, got a " ++ v.typeOf))

/-- The sets among the values. -/
def subtrees (vals : List (Value α)) : List (Attrs Name (Value α)) := vals.filterMap Value.attrs?

def mergeField (mergeTrees : List (Attrs Name (Value α)) → Except Fault (Attrs Name (Value α)))
    (name : Name) (vals : List (Value α)) : Except Fault (Value α) :=
  match ruleFor name vals with
  | .mergeTrees => (mergeTrees (subtrees vals)).map .attrs
  | .last => match vals.getLast? with
    | some v => .ok v
    | none => .error .outOfBounds
  | .update => (updateFrom [] vals).map .attrs
  | .true => .ok (.bool Bool.true)
  | .concatLists => (concatLists name vals).map .list
  | .conflicting => .error (.thrown (ascii "overrides: conflicting values at " ++ name))

/-! ## The merge -/

def height : List (Attrs Name (Value α)) → Nat
  | [] => 0
  | a :: trees => max (Value.depthOf a) (height trees)

/-- The merge of trees at most `d` deep. -/
def mergeWithin : Nat → List (Attrs Name (Value α)) → Except Fault (Attrs Name (Value α))
  | 0, _ => .ok []
  | d + 1, trees => zipAttrsWith (mergeField (mergeWithin d)) trees

def mergeTrees (trees : List (Attrs Name (Value α))) : Except Fault (Attrs Name (Value α)) :=
  mergeWithin (height trees) trees

variable {trees : List (Attrs Name (Value α))} {vals : List (Value α)}

theorem depthOf_le_height {a : Attrs Name (Value α)} (h : a ∈ trees) :
    Value.depthOf a ≤ height trees := by
  induction trees with
  | nil => simp at h
  | cons b trees ih =>
    rw [height]
    rcases mem_cons.mp h with rfl | h
    · omega
    · have hrest := ih h
      omega

theorem height_le {d : Nat} (h : ∀ a ∈ trees, Value.depthOf a ≤ d) : height trees ≤ d := by
  induction trees with
  | nil => simp [height]
  | cons b trees ih =>
    have hb := h b mem_cons_self
    have hrest := ih fun a ha => h a (mem_cons_of_mem _ ha)
    rw [height]
    omega

theorem height_subtrees {name : Name} {d : Nat} (h : height trees ≤ d + 1) :
    height (subtrees (valuesOf name trees)) ≤ d := by
  apply height_le
  intro a ha
  obtain ⟨v, hv, hattrs⟩ := mem_filterMap.mp ha
  obtain ⟨b, hb, hget⟩ := mem_valuesOf.mp hv
  have hdepth : Value.depthOf a = v.depth := by
    cases v with
    | attrs c =>
      cases hattrs
      rfl
    | list _ | bool _ | other _ _ => nomatch hattrs
  have hlt := Value.depth_lt_of_get hget
  have hle := depthOf_le_height hb
  omega

theorem valuesOf_of_height_zero (h : height trees = 0) (name : Name) :
    valuesOf name trees = [] := by
  rw [eq_nil_iff_forall_not_mem]
  intro v hv
  obtain ⟨b, hb, hget⟩ := mem_valuesOf.mp hv
  have hlt := Value.depth_lt_of_get hget
  have hle := depthOf_le_height hb
  omega

theorem zipAttrsWith_of_height_zero (h : height trees = 0)
    (f : Name → List (Value α) → Except Fault (Value α)) :
    zipAttrsWith f trees = .ok [] := by
  rw [zipAttrsWith_eq_ok]
  refine ⟨List.Pairwise.nil, fun name => ?_⟩
  simp [valuesOf_of_height_zero h]

theorem mergeField_congr {f g : List (Attrs Name (Value α)) → Except Fault (Attrs Name (Value α))}
    {name : Name} (h : f (subtrees vals) = g (subtrees vals)) :
    mergeField f name vals = mergeField g name vals := by
  rw [mergeField, mergeField, h]

theorem mergeWithin_eq {d e : Nat} (hd : height trees ≤ d) (he : height trees ≤ e) :
    mergeWithin d trees = mergeWithin e trees := by
  induction d generalizing e trees with
  | zero =>
    cases e with
    | zero => rfl
    | succ e =>
      rw [mergeWithin, mergeWithin, zipAttrsWith_of_height_zero (Nat.le_zero.mp hd)]
  | succ d ih =>
    cases e with
    | zero => rw [mergeWithin, mergeWithin, zipAttrsWith_of_height_zero (Nat.le_zero.mp he)]
    | succ e =>
      rw [mergeWithin, mergeWithin]
      apply zipAttrsWith_congr
      intro name
      apply mergeField_congr
      exact ih (height_subtrees hd) (height_subtrees he)

theorem mergeTrees_eq (trees : List (Attrs Name (Value α))) :
    mergeTrees trees = zipAttrsWith (mergeField mergeTrees) trees := by
  have hstep : mergeTrees trees = mergeWithin (height trees + 1) trees :=
    mergeWithin_eq le_rfl (Nat.le_succ _)
  rw [hstep, mergeWithin]
  apply zipAttrsWith_congr
  intro name
  apply mergeField_congr
  exact mergeWithin_eq (height_subtrees (Nat.le_succ _)) le_rfl

/-- What a merge that does not throw binds at each name. -/
theorem mergeTrees_eq_ok {r : Attrs Name (Value α)} :
    mergeTrees trees = .ok r ↔
      r.Sorted ∧ ∀ name, (valuesOf name trees = [] → r.get name = none) ∧
        (valuesOf name trees ≠ [] → ∃ v, r.get name = some v ∧
          mergeField mergeTrees name (valuesOf name trees) = .ok v) := by
  rw [mergeTrees_eq, zipAttrsWith_eq_ok]

/-- Induction along the merge: below every name the trees are less deep. -/
theorem trees_induction {P : List (Attrs Name (Value α)) → Prop}
    (step : ∀ trees, (∀ name, valuesOf name trees ≠ [] →
      P (subtrees (valuesOf name trees))) → P trees)
    (trees : List (Attrs Name (Value α))) : P trees := by
  have hall : ∀ d, ∀ trees : List (Attrs Name (Value α)), height trees ≤ d → P trees := by
    intro d
    induction d with
    | zero =>
      intro trees hd
      apply step
      intro name hne
      exact absurd (valuesOf_of_height_zero (Nat.le_zero.mp hd) name) hne
    | succ d ih => exact fun trees hd => step trees fun name _ => ih _ (height_subtrees hd)
  exact hall _ trees le_rfl

/-! ## What each branch gives -/

theorem attrs?_eq_some {v : Value α} {a : Attrs Name (Value α)} :
    v.attrs? = some a ↔ v = .attrs a := by
  cases v <;> simp [Value.attrs?]

theorem isAttrs_iff {v : Value α} : v.isAttrs = true ↔ ∃ a, v = .attrs a := by
  cases v <;> simp [Value.isAttrs, Value.attrs?]

theorem mem_subtrees {a : Attrs Name (Value α)} :
    a ∈ subtrees vals ↔ .attrs a ∈ vals := by
  simp [subtrees, attrs?_eq_some]

section

variable {f : List (Attrs Name (Value α)) → Except Fault (Attrs Name (Value α))} {name : Name}
  {vals : List (Value α)}

theorem mergeField_mergeTrees (h : ruleFor name vals = .mergeTrees) :
    mergeField f name vals = (f (subtrees vals)).map .attrs := by
  rw [mergeField, h]

theorem mergeField_last (h : ruleFor name vals = .last) {v : Value α} :
    mergeField f name vals = .ok v ↔ vals.getLast? = some v := by
  rw [mergeField, h]
  cases vals.getLast? <;> simp

theorem mergeField_update (h : ruleFor name vals = .update) :
    mergeField f name vals = (updateFrom [] vals).map .attrs := by
  rw [mergeField, h]

theorem mergeField_true (h : ruleFor name vals = .true) :
    mergeField f name vals = .ok (.bool true) := by
  rw [mergeField, h]

theorem mergeField_concatLists (h : ruleFor name vals = .concatLists) :
    mergeField f name vals = (concatLists name vals).map .list := by
  rw [mergeField, h]

theorem mergeField_conflicting (h : ruleFor name vals = .conflicting) {v : Value α} :
    mergeField f name vals ≠ .ok v := by
  rw [mergeField, h]
  nofun

end

theorem canonical_updateFrom {acc m : Attrs Name (Value α)}
    (hacc : (Value.attrs acc).canonical = true) (hvals : ∀ v ∈ vals, v.canonical = true)
    (h : updateFrom acc vals = .ok m) : (Value.attrs m).canonical = true := by
  induction vals generalizing acc with
  | nil =>
    cases h
    exact hacc
  | cons v rest ih =>
    have hrest := fun u hu => hvals u (mem_cons_of_mem _ hu)
    have hv := hvals v mem_cons_self
    cases v with
    | attrs b =>
      apply ih _ hrest h
      rw [Value.canonical_attrs_iff] at hacc hv ⊢
      refine ⟨sorted_update _ _, fun name u hget => ?_⟩
      rw [get_update, Option.or_eq_some_iff] at hget
      rcases hget with hb | ⟨-, ha⟩
      · exact hv.2 name u hb
      · exact hacc.2 name u ha
    | list _ | bool _ | other _ _ => nomatch h

theorem canonical_concatLists {name : Name} {elems : List (Value α)}
    (hvals : ∀ v ∈ vals, v.canonical = true) (h : concatLists name vals = .ok elems) :
    ∀ v ∈ elems, v.canonical = true := by
  induction vals generalizing elems with
  | nil =>
    cases h
    simp
  | cons v rest ih =>
    have hv := hvals v mem_cons_self
    cases v with
    | list first =>
      obtain ⟨others, hothers, rfl⟩ := map_eq_ok.mp h
      rw [Value.canonical, Value.canonicalList_iff] at hv
      have hrest := ih (fun u hu => hvals u (mem_cons_of_mem _ hu)) hothers
      intro u hu
      rcases mem_append.mp hu with hu | hu
      · exact hv u hu
      · exact hrest u hu
    | attrs _ | bool _ | other _ _ => nomatch h

/-- Merging sets gives a set: names in order at every level. -/
theorem canonical_mergeTrees {r : Attrs Name (Value α)}
    (htrees : ∀ a ∈ trees, (Value.attrs a).canonical = true) (h : mergeTrees trees = .ok r) :
    (Value.attrs r).canonical = true := by
  induction trees using trees_induction generalizing r with
  | step trees ih =>
    obtain ⟨hsorted, hat⟩ := mergeTrees_eq_ok.mp h
    refine Value.canonical_attrs_iff.mpr ⟨hsorted, fun name v hget => ?_⟩
    have hne : valuesOf name trees ≠ [] := by
      intro hnil
      rw [(hat name).1 hnil] at hget
      nomatch hget
    obtain ⟨w, hw, hfield⟩ := (hat name).2 hne
    obtain rfl : v = w := Option.some.inj (hget.symm.trans hw)
    have hvals : ∀ u ∈ valuesOf name trees, u.canonical = true := by
      intro u hu
      obtain ⟨a, ha, hua⟩ := mem_valuesOf.mp hu
      exact (Value.canonical_attrs_iff.mp (htrees a ha)).2 name u hua
    cases hrule : ruleFor name (valuesOf name trees) with
    | mergeTrees =>
      rw [mergeField_mergeTrees hrule] at hfield
      obtain ⟨m, hm, rfl⟩ := map_eq_ok.mp hfield
      exact ih name hne (fun a ha => hvals _ (mem_subtrees.mp ha)) hm
    | last => exact hvals v (mem_of_getLast? ((mergeField_last hrule).mp hfield))
    | update =>
      rw [mergeField_update hrule] at hfield
      obtain ⟨m, hm, rfl⟩ := map_eq_ok.mp hfield
      exact canonical_updateFrom rfl hvals hm
    | true =>
      rw [mergeField_true hrule] at hfield
      cases hfield
      rfl
    | concatLists =>
      rw [mergeField_concatLists hrule] at hfield
      obtain ⟨elems, helems, rfl⟩ := map_eq_ok.mp hfield
      rw [Value.canonical, Value.canonicalList_iff]
      exact canonical_concatLists hvals helems
    | conflicting => exact absurd hfield (mergeField_conflicting hrule)

/-! ## Trees -/

/-- An override tree: a set all the way down. -/
@[ext]
structure Tree (α : Type) where
  bindings : List (Name × Value α)
  canonical : (Value.attrs bindings).canonical = true

namespace Tree

def empty : Tree α := ⟨[], rfl⟩

def bindingsOf (trees : List (Tree α)) : List (Attrs Name (Value α)) := trees.map Tree.bindings

/-- `mergeTrees`, from sets to a set. -/
def merge (trees : List (Tree α)) : Except Fault (Tree α) :=
  match h : mergeTrees (bindingsOf trees) with
  | .error e => .error e
  | .ok r => .ok ⟨r, canonical_mergeTrees (by simp [bindingsOf, Tree.canonical]) h⟩

theorem merge_eq_ok {trees : List (Tree α)} {r : Tree α} :
    merge trees = .ok r ↔ mergeTrees (bindingsOf trees) = .ok r.bindings := by
  unfold merge
  split
  next e heq => simp [heq]
  next m heq =>
    have hm : mergeTrees (bindingsOf trees) = .ok r.bindings ↔ m = r.bindings := by
      rw [heq, Except.ok.injEq]
    rw [hm, Except.ok.injEq, Tree.ext_iff]

end Tree

end Corepkgs.Nix
