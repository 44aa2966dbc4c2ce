import Corepkgs.Nix.Overrides
/-!
# Grouping of override trees

A list of trees may be merged in groups first.  That gives the same tree when, at
every place the merge comes to, the values under `set` are all verb nodes or none
is, and so for `merge`: these two verbs take any set as an argument, so a value
that reads like a verb node is an argument beside other arguments and a subtree
among verb nodes.  For every other name the values of a group decide as the values
of the whole list do.
-/

namespace Corepkgs.Nix

open Lib List Attrs Value
open scoped Lib.Attrs

variable {α : Type}

/-! ## Roles of names -/

inductive Role
  | set | listVerb | remove | merge | edit | features | field
  deriving DecidableEq

def roleOf (name : Name) : Role :=
  if name = ascii "set" then .set
  else if name = ascii "append" ∨ name = ascii "prepend" then .listVerb
  else if name = ascii "remove" then .remove
  else if name = ascii "merge" then .merge
  else if name = ascii "edit" then .edit
  else if name = ascii "features" then .features
  else .field

def Role.isVerb : Role → Bool
  | .set | .listVerb | .remove | .merge => true
  | .edit | .features | .field => false

def Role.rule : Role → List (Value α) → Rule
  | .set, vals => if vals.all isVerbNode then .mergeTrees else .last
  | .listVerb, vals => if vals.all isVerbNode then .mergeTrees else .concatLists
  | .remove, vals =>
    if vals.all isVerbNode then .mergeTrees
    else if vals.any isTrue then .true
    else .concatLists
  | .merge, vals => if vals.all isVerbNode then .mergeTrees else .update
  | .edit, _ => .last
  | .features, _ => .update
  | .field, vals => if vals.all isAttrs then .mergeTrees else .conflicting

theorem roleOf_cases {P : Name → Role → Prop} (set : P (ascii "set") .set)
    (append : P (ascii "append") .listVerb) (prepend : P (ascii "prepend") .listVerb)
    (remove : P (ascii "remove") .remove) (merge : P (ascii "merge") .merge)
    (edit : P (ascii "edit") .edit) (features : P (ascii "features") .features)
    (field : ∀ name, name ∉ verbs → name ≠ ascii "edit" → name ≠ ascii "features" →
      P name .field) (name : Name) : P name (roleOf name) := by
  by_cases hset : name = ascii "set"
  · exact hset ▸ set
  by_cases happend : name = ascii "append"
  · exact happend ▸ append
  by_cases hprepend : name = ascii "prepend"
  · exact hprepend ▸ prepend
  by_cases hremove : name = ascii "remove"
  · exact hremove ▸ remove
  by_cases hmerge : name = ascii "merge"
  · exact hmerge ▸ merge
  by_cases hedit : name = ascii "edit"
  · exact hedit ▸ edit
  by_cases hfeatures : name = ascii "features"
  · exact hfeatures ▸ features
  have hrole : roleOf name = .field := by
    simp [roleOf, hset, happend, hprepend, hremove, hmerge, hedit, hfeatures]
  rw [hrole]
  apply field name _ hedit hfeatures
  simp [verbs, hset, happend, hprepend, hremove, hmerge]

theorem ruleFor_eq (name : Name) (vals : List (Value α)) :
    ruleFor name vals = (roleOf name).rule vals := by
  apply roleOf_cases (P := fun name role => ruleFor name vals = role.rule vals)
  case set | append | prepend | merge =>
    simp only [ruleFor, Role.rule]
    cases vals.all isVerbNode <;> rfl
  case remove =>
    simp only [ruleFor, Role.rule]
    cases vals.all isVerbNode <;> cases vals.any isTrue <;> rfl
  case edit => rfl
  case features => rfl
  case field =>
    intro name hverbs hedit hfeatures
    have hcontains : verbs.contains name = false := by simpa using hverbs
    simp only [verbs, mem_cons, not_or] at hverbs
    rw [ruleFor, hcontains]
    simp [Role.rule, hverbs, hedit, hfeatures]

/-! ## Verb nodes -/

variable {a m acc r : Attrs Name (Value α)} {v : Value α} {trees : List (Attrs Name (Value α))}
  {vals : List (Value α)} {name : Name}

theorem isVerbNode_attrs :
    isVerbNode (.attrs a) = true ↔
      (∃ name v, a.get name = some v) ∧ ∀ name v, a.get name = some v → name ∈ verbs := by
  have hsome : a.isEmpty = false ↔ ∃ name v, a.get name = some v := by
    cases a with
    | nil => simp
    | cons p rest => simpa using ⟨p.1, p.2, if_pos rfl⟩
  have hkeys : (∀ name ∈ a.keys, name ∈ verbs) ↔
      ∀ name v, a.get name = some v → name ∈ verbs := by
    constructor
    · exact fun h name v hget => h name (mem_keys_of_get hget)
    · intro h name hname
      cases hget : a.get name with
      | none => exact absurd hname (get_eq_none_iff.mp hget)
      | some v => exact h name v hget
  rw [isVerbNode, Bool.and_eq_true, Bool.not_eq_true', hsome, all_eq_true, ← hkeys]
  simp

theorem isAttrs_of_isVerbNode (h : isVerbNode v = true) : v.isAttrs = true := by
  cases v with
  | attrs a => rfl
  | list _ | bool _ | other _ _ => nomatch h

/-- Verb nodes merge to a verb node. -/
theorem isVerbNode_mergeTrees (hne : trees ≠ []) (hall : ∀ a ∈ trees, isVerbNode (.attrs a) = true)
    (h : mergeTrees trees = .ok m) : isVerbNode (.attrs m) = true := by
  obtain ⟨-, hat⟩ := mergeTrees_eq_ok.mp h
  rw [isVerbNode_attrs]
  constructor
  · obtain ⟨a, ha⟩ := exists_mem_of_ne_nil _ hne
    obtain ⟨⟨name, v, hget⟩, -⟩ := isVerbNode_attrs.mp (hall a ha)
    have hmem : v ∈ valuesOf name trees := mem_valuesOf.mpr ⟨a, ha, hget⟩
    obtain ⟨w, hw, -⟩ := (hat name).2 (ne_nil_of_mem hmem)
    exact ⟨name, w, hw⟩
  · intro name v hget
    have hvals : valuesOf name trees ≠ [] := by
      intro hnil
      rw [(hat name).1 hnil] at hget
      nomatch hget
    obtain ⟨u, hu⟩ := exists_mem_of_ne_nil _ hvals
    obtain ⟨a, ha, hua⟩ := mem_valuesOf.mp hu
    exact (isVerbNode_attrs.mp (hall a ha)).2 name u hua

/-- An update is a verb node only when one of its sides is. -/
theorem isVerbNode_update {b : Attrs Name (Value α)} (h : isVerbNode (.attrs (a.update b)) = true) :
    isVerbNode (.attrs a) = true ∨ isVerbNode (.attrs b) = true := by
  rw [isVerbNode_attrs] at h
  simp only [get_update] at h
  obtain ⟨⟨name, v, hget⟩, hverbs⟩ := h
  cases hb : b.get name with
  | some u =>
    refine .inr (isVerbNode_attrs.mpr ⟨⟨name, u, hb⟩, fun q w hq => ?_⟩)
    exact hverbs q w (by rw [hq, Option.some_or])
  | none =>
    rw [hb, Option.none_or] at hget
    refine .inl (isVerbNode_attrs.mpr ⟨⟨name, v, hget⟩, fun q w hq => ?_⟩)
    cases hbq : b.get q with
    | some u => exact hverbs q u (by rw [hbq, Option.some_or])
    | none => exact hverbs q w (by rw [hbq, hq, Option.none_or])

theorem isVerbNode_updateFrom (h : updateFrom acc vals = .ok m)
    (hnode : isVerbNode (.attrs m) = true) :
    isVerbNode (.attrs acc) = true ∨ ∃ v ∈ vals, isVerbNode v = true := by
  induction vals generalizing acc with
  | nil =>
    cases h
    exact .inl hnode
  | cons v rest ih =>
    cases v with
    | attrs b =>
      rcases ih h with hacc | ⟨u, hu, hunode⟩
      · rcases isVerbNode_update hacc with ha | hb
        · exact .inl ha
        · exact .inr ⟨_, mem_cons_self, hb⟩
      · exact .inr ⟨u, mem_cons_of_mem _ hu, hunode⟩
    | list _ | bool _ | other _ _ => nomatch h

/-! ## Updates and concatenations in groups -/

theorem updateFrom_append (acc : Attrs Name (Value α)) (xs ys : List (Value α)) :
    updateFrom acc (xs ++ ys) = (updateFrom acc xs).bind fun a => updateFrom a ys := by
  induction xs generalizing acc with
  | nil => rfl
  | cons v rest ih =>
    cases v with
    | attrs b => exact ih _
    | list _ | bool _ | other _ _ => rfl

theorem updateFrom_update (h : updateFrom a vals = .ok m) :
    updateFrom (acc.update a) vals = .ok (acc.update m) := by
  induction vals generalizing a with
  | nil =>
    cases h
    rfl
  | cons v rest ih =>
    cases v with
    | attrs b =>
      rw [updateFrom, update_assoc]
      exact ih h
    | list _ | bool _ | other _ _ => nomatch h

/-- A group updated by itself first. -/
theorem updateFrom_group (hne : vals ≠ []) (h : updateFrom [] vals = .ok m) :
    updateFrom acc vals = .ok (acc.update m) := by
  cases vals with
  | nil => exact absurd rfl hne
  | cons v rest =>
    cases v with
    | attrs b =>
      rw [updateFrom, ← update_nil_update]
      exact updateFrom_update h
    | list _ | bool _ | other _ _ => nomatch h

theorem updateFrom_regroup {vx vy vz : List (Value α)} (hne : vy ≠ [])
    (hm : updateFrom [] vy = .ok m) (h : updateFrom acc (vx ++ vy ++ vz) = .ok r) :
    updateFrom acc (vx ++ .attrs m :: vz) = .ok r := by
  rw [append_assoc, updateFrom_append] at h
  rw [updateFrom_append]
  cases hx : updateFrom acc vx with
  | error e =>
    rw [hx] at h
    nomatch h
  | ok a =>
    rw [hx, Except.bind, updateFrom_append, updateFrom_group hne hm] at h
    exact h

theorem concatLists_append {xs ys elems : List (Value α)} :
    concatLists name (xs ++ ys) = .ok elems ↔
      ∃ a b, concatLists name xs = .ok a ∧ concatLists name ys = .ok b ∧ elems = a ++ b := by
  induction xs generalizing elems with
  | nil => simp [concatLists]
  | cons v rest ih =>
    cases v with
    | list first =>
      simp only [cons_append, concatLists, map_eq_ok, ih]
      constructor
      · rintro ⟨c, ⟨a, b, ha, hb, rfl⟩, rfl⟩
        exact ⟨first ++ a, b, ⟨a, ha, rfl⟩, hb, (append_assoc ..).symm⟩
      · rintro ⟨c, b, ⟨a, ha, rfl⟩, hb, rfl⟩
        exact ⟨a ++ b, ⟨a, b, ha, hb, rfl⟩, (append_assoc ..).symm⟩
    | attrs _ | bool _ | other _ _ => simp [concatLists]

theorem concatLists_regroup {vx vy vz m r : List (Value α)} (hm : concatLists name vy = .ok m)
    (h : concatLists name (vx ++ vy ++ vz) = .ok r) :
    concatLists name (vx ++ .list m :: vz) = .ok r := by
  obtain ⟨xy, c, hxy, hc, rfl⟩ := concatLists_append.mp h
  obtain ⟨a, b, ha, hb, rfl⟩ := concatLists_append.mp hxy
  obtain rfl : m = b := Except.ok.inj (hm.symm.trans hb)
  refine concatLists_append.mpr ⟨a, m ++ c, ha, ?_, append_assoc ..⟩
  rw [concatLists, hc]
  rfl

/-- What is concatenated has no verb node and no `true` in it. -/
theorem shape_of_concatLists {elems : List (Value α)} (h : concatLists name vals = .ok elems) :
    ∀ v ∈ vals, isVerbNode v = false ∧ v.isTrue = false := by
  induction vals generalizing elems with
  | nil => simp
  | cons v rest ih =>
    cases v with
    | list first =>
      obtain ⟨others, hothers, -⟩ := map_eq_ok.mp h
      exact forall_mem_cons.mpr ⟨⟨rfl, rfl⟩, ih hothers⟩
    | attrs _ | bool _ | other _ _ => nomatch h

/-! ## One name, in groups -/

def AllOrNone (vals : List (Value α)) : Prop :=
  (∀ v ∈ vals, isVerbNode v = true) ∨ ∀ v ∈ vals, isVerbNode v = false

section

variable {name : Name} {vx vy vz : List (Value α)} {v w : Value α}

theorem subtrees_append (xs ys : List (Value α)) :
    subtrees (xs ++ ys) = subtrees xs ++ subtrees ys := filterMap_append

theorem subtrees_ne_nil {vals : List (Value α)} (hne : vals ≠ [])
    (h : ∀ v ∈ vals, v.isAttrs = true) : subtrees vals ≠ [] := by
  obtain ⟨v, hv⟩ := exists_mem_of_ne_nil _ hne
  obtain ⟨a, rfl⟩ := isAttrs_iff.mp (h v hv)
  exact ne_nil_of_mem (mem_subtrees.mpr hv)

theorem rule_of_nodes (hverb : (roleOf name).isVerb = true)
    (hall : ∀ u ∈ vy, isVerbNode u = true) : ruleFor name vy = .mergeTrees := by
  have hall' : vy.all isVerbNode = true := all_eq_true.mpr hall
  rw [ruleFor_eq]
  cases hrole : roleOf name <;> simp_all [Role.rule, Role.isVerb]

theorem mergeField_of_nodes (hverb : (roleOf name).isVerb = true) (hne : vy ≠ [])
    (hall : ∀ u ∈ vy, isVerbNode u = true) (hv : mergeField mergeTrees name vy = .ok v) :
    isVerbNode v = true := by
  rw [mergeField_mergeTrees (rule_of_nodes hverb hall)] at hv
  obtain ⟨m, hm, rfl⟩ := map_eq_ok.mp hv
  have hsub := subtrees_ne_nil hne fun u hu => isAttrs_of_isVerbNode (hall u hu)
  exact isVerbNode_mergeTrees hsub (fun a ha => hall _ (mem_subtrees.mp ha)) hm

theorem all_isVerbNode_of_mem {vals : List (Value α)} {u : Value α} (hu : u ∈ vals)
    (h : isVerbNode u = false) : vals.all isVerbNode = false :=
  all_eq_false.mpr ⟨u, hu, by simp [h]⟩

/-- A verb's merged value is a verb node only for one of two reasons. -/
theorem of_isVerbNode_mergeField (hverb : (roleOf name).isVerb = true)
    (hv : mergeField mergeTrees name vy = .ok v) (hnode : isVerbNode v = true) :
    (∀ u ∈ vy, isVerbNode u = true) ∨
      (roleOf name = .set ∨ roleOf name = .merge) ∧ ∃ u ∈ vy, isVerbNode u = true := by
  cases hall : vy.all isVerbNode with
  | true => exact .inl (all_eq_true.mp hall)
  | false =>
    have hrule := ruleFor_eq name vy
    cases hrole : roleOf name with
    | set =>
      simp only [hrole, Role.rule, hall, Bool.false_eq_true, if_false] at hrule
      have hlast := (mergeField_last hrule).mp hv
      exact .inr ⟨.inl rfl, v, mem_of_getLast? hlast, hnode⟩
    | merge =>
      simp only [hrole, Role.rule, hall, Bool.false_eq_true, if_false] at hrule
      rw [mergeField_update hrule] at hv
      obtain ⟨m, hm, rfl⟩ := map_eq_ok.mp hv
      rcases isVerbNode_updateFrom hm hnode with hempty | hsome
      · nomatch hempty
      · exact .inr ⟨.inr rfl, hsome⟩
    | listVerb =>
      simp only [hrole, Role.rule, hall, Bool.false_eq_true, if_false] at hrule
      rw [mergeField_concatLists hrule] at hv
      obtain ⟨elems, -, rfl⟩ := map_eq_ok.mp hv
      nomatch hnode
    | remove =>
      simp only [hrole, Role.rule, hall, Bool.false_eq_true, if_false] at hrule
      split_ifs at hrule with hany
      · rw [mergeField_true hrule] at hv
        cases hv
        nomatch hnode
      · rw [mergeField_concatLists hrule] at hv
        obtain ⟨elems, -, rfl⟩ := map_eq_ok.mp hv
        nomatch hnode
    | edit | features | field => simp [hrole, Role.isVerb] at hverb

/-- A field's merged value is `true` exactly when a `remove` has a `true`. -/
theorem isTrue_mergeField (hrole : roleOf name = .remove)
    (hv : mergeField mergeTrees name vy = .ok v) : v.isTrue = vy.any isTrue := by
  have hrule := ruleFor_eq name vy
  simp only [hrole, Role.rule] at hrule
  split_ifs at hrule with hall hany
  · rw [mergeField_mergeTrees hrule] at hv
    obtain ⟨m, -, rfl⟩ := map_eq_ok.mp hv
    have hany : vy.any isTrue = false := by
      rw [any_eq_false]
      intro u hu
      obtain ⟨a, rfl⟩ := isAttrs_iff.mp (isAttrs_of_isVerbNode (all_eq_true.mp hall u hu))
      nofun
    exact hany.symm
  · rw [mergeField_true hrule] at hv
    cases hv
    exact hany.symm
  · rw [mergeField_concatLists hrule] at hv
    obtain ⟨elems, -, rfl⟩ := map_eq_ok.mp hv
    exact (Bool.eq_false_iff.mpr hany).symm

/-- A plain field takes sets only, and merges them to a set. -/
theorem isAttrs_mergeField (hrole : roleOf name = .field)
    (hv : mergeField mergeTrees name vy = .ok v) :
    vy.all isAttrs = true ∧ v.isAttrs = true := by
  have hrule := ruleFor_eq name vy
  simp only [hrole, Role.rule] at hrule
  split_ifs at hrule with hall
  · rw [mergeField_mergeTrees hrule] at hv
    obtain ⟨m, -, rfl⟩ := map_eq_ok.mp hv
    exact ⟨hall, rfl⟩
  · exact absurd hv (mergeField_conflicting hrule)

variable (hsettled : roleOf name = .set ∨ roleOf name = .merge → AllOrNone (vx ++ vy ++ vz))
  (hne : vy ≠ []) (hw : mergeField mergeTrees name (vx ++ vy ++ vz) = .ok w)

include hsettled hne hw

/-- A group takes the rule of the whole list, unless a `true` elsewhere ends it all. -/
theorem rule_of_group (htrue : ruleFor name (vx ++ vy ++ vz) ≠ .true) :
    ruleFor name vy = ruleFor name (vx ++ vy ++ vz) := by
  obtain ⟨u, hu⟩ := exists_mem_of_ne_nil _ hne
  have hsub : ∀ t ∈ vy, t ∈ vx ++ vy ++ vz := by simp_all
  by_cases hnodes : (roleOf name).isVerb = true ∧ ∀ t ∈ vx ++ vy ++ vz, isVerbNode t = true
  · rw [rule_of_nodes hnodes.1 hnodes.2, rule_of_nodes hnodes.1 fun t ht => hnodes.2 t (hsub t ht)]
  have hboth : isVerbNode u = false → vy.all isVerbNode = false ∧
      (vx ++ vy ++ vz).all isVerbNode = false := fun h =>
    ⟨all_isVerbNode_of_mem hu h, all_isVerbNode_of_mem (hsub u hu) h⟩
  have hlists : ruleFor name (vx ++ vy ++ vz) = .concatLists →
      ∀ t ∈ vx ++ vy ++ vz, isVerbNode t = false ∧ t.isTrue = false := by
    intro hrule
    rw [mergeField_concatLists hrule] at hw
    obtain ⟨elems, helems, -⟩ := map_eq_ok.mp hw
    exact shape_of_concatLists helems
  rw [ruleFor_eq] at hlists htrue ⊢
  rw [ruleFor_eq]
  have hnot : (roleOf name).isVerb = true → (vx ++ vy ++ vz).all isVerbNode = false := by
    intro hverb
    rw [Bool.eq_false_iff]
    exact fun hall => hnodes ⟨hverb, all_eq_true.mp hall⟩
  cases hrole : roleOf name with
  | set =>
    rw [hrole] at hnodes
    rcases hsettled (.inl hrole) with hall | hnone
    · exact absurd ⟨rfl, hall⟩ hnodes
    · have hfalse := hboth (hnone u (hsub u hu))
      simp only [Role.rule, hfalse]
  | merge =>
    rw [hrole] at hnodes
    rcases hsettled (.inr hrole) with hall | hnone
    · exact absurd ⟨rfl, hall⟩ hnodes
    · have hfalse := hboth (hnone u (hsub u hu))
      simp only [Role.rule, hfalse]
  | listVerb =>
    rw [hrole] at hlists hnot
    have hshape := hlists (by simp only [Role.rule, hnot rfl, Bool.false_eq_true, if_false])
    have hfalse := hboth (hshape u (hsub u hu)).1
    simp only [Role.rule, hfalse]
  | remove =>
    rw [hrole] at hlists hnot htrue
    have hany : (vx ++ vy ++ vz).any isTrue = false := by
      rw [Bool.eq_false_iff]
      intro hany
      exact htrue (by simp only [Role.rule, hnot rfl, hany, Bool.false_eq_true, if_false, if_true])
    have hshape := hlists (by simp only [Role.rule, hnot rfl, hany, Bool.false_eq_true, if_false])
    have hfalse := hboth (hshape u (hsub u hu)).1
    have hanyGroup : vy.any isTrue = false := by
      rw [any_eq_false]
      intro t ht
      simp [(hshape t (hsub t ht)).2]
    simp only [Role.rule, hfalse, hany, hanyGroup]
  | edit | features => rfl
  | field =>
    have hall := (isAttrs_mergeField hrole hw).1
    have hgroup : vy.all isAttrs = true :=
      all_eq_true.mpr fun t ht => all_eq_true.mp hall t (hsub t ht)
    rw [Role.rule, Role.rule, if_pos hall, if_pos hgroup]

variable (hv : mergeField mergeTrees name vy = .ok v)

include hv

omit hw in
/-- The group's value is a verb node for a verb when every value of the list is. -/
theorem isVerbNode_of_group (hverb : (roleOf name).isVerb = true) :
    (∀ u ∈ vx ++ v :: vz, isVerbNode u = true) ↔
      ∀ u ∈ vx ++ vy ++ vz, isVerbNode u = true := by
  constructor
  · intro hall
    have hvnode : isVerbNode v = true := hall v (by simp)
    rcases of_isVerbNode_mergeField hverb hv hvnode with hgroup | ⟨hrole, t, ht, htnode⟩
    · intro u hu
      rcases mem_append.mp hu with hu | hu
      · rcases mem_append.mp hu with hu | hu
        · exact hall u (by simp [hu])
        · exact hgroup u hu
      · exact hall u (by simp [hu])
    · rcases hsettled hrole with hall | hnone
      · exact hall
      · have hfalse := hnone t (by simp [ht])
        exact absurd (hfalse.symm.trans htnode) Bool.false_ne_true
  · intro hall u hu
    rcases mem_append.mp hu with hu | hu
    · exact hall u (by simp [hu])
    · rcases mem_cons.mp hu with rfl | hu
      · exact mergeField_of_nodes hverb hne (fun t ht => hall t (by simp [ht])) hv
      · exact hall u (by simp [hu])

/-- With the group's value in the group's place the rule is the same. -/
theorem rule_regroup : ruleFor name (vx ++ v :: vz) = ruleFor name (vx ++ vy ++ vz) := by
  have hnodes : (roleOf name).isVerb = true →
      (vx ++ v :: vz).all isVerbNode = (vx ++ vy ++ vz).all isVerbNode := by
    intro hverb
    rw [Bool.eq_iff_iff, all_eq_true, all_eq_true]
    exact isVerbNode_of_group hsettled hne hv hverb
  rw [ruleFor_eq, ruleFor_eq]
  cases hrole : roleOf name with
  | set | listVerb | merge =>
    rw [hrole] at hnodes
    simp only [Role.rule, hnodes rfl]
  | remove =>
    rw [hrole] at hnodes
    have hany : (vx ++ v :: vz).any isTrue = (vx ++ vy ++ vz).any isTrue := by
      rw [append_assoc, any_append, any_append, any_cons, any_append,
        isTrue_mergeField hrole hv]
    simp only [Role.rule, hnodes rfl, hany]
  | edit | features => rfl
  | field =>
    have hall := (isAttrs_mergeField hrole hw).1
    have hregrouped : (vx ++ v :: vz).all isAttrs = true := by
      simp only [all_append, all_cons, Bool.and_eq_true] at hall ⊢
      exact ⟨hall.1.1, (isAttrs_mergeField hrole hv).2, hall.2⟩
    rw [Role.rule, Role.rule, if_pos hall, if_pos hregrouped]

/-- The values below a name where the merge goes on, group and whole list alike. -/
theorem subtree_of_group (hrule : ruleFor name (vx ++ vy ++ vz) = .mergeTrees) :
    ∃ m r, v = .attrs m ∧ w = .attrs r ∧ mergeTrees (subtrees vy) = .ok m ∧
      mergeTrees (subtrees vx ++ subtrees vy ++ subtrees vz) = .ok r := by
  have hgroup := rule_of_group hsettled hne hw (by rw [hrule]; nofun)
  rw [hrule] at hgroup
  rw [mergeField_mergeTrees hgroup] at hv
  rw [mergeField_mergeTrees hrule, subtrees_append, subtrees_append] at hw
  obtain ⟨m, hm, rfl⟩ := map_eq_ok.mp hv
  obtain ⟨r, hr, rfl⟩ := map_eq_ok.mp hw
  exact ⟨m, r, rfl, rfl, hm, hr⟩

/-- With the group's value in the group's place the value is the same, if it is so below. -/
theorem mergeField_regroup (hbelow : ∀ m r, mergeTrees (subtrees vy) = .ok m →
      mergeTrees (subtrees vx ++ subtrees vy ++ subtrees vz) = .ok r →
      ruleFor name (vx ++ vy ++ vz) = .mergeTrees →
      mergeTrees (subtrees vx ++ m :: subtrees vz) = .ok r) :
    mergeField mergeTrees name (vx ++ v :: vz) = .ok w := by
  have hsame := rule_regroup hsettled hne hw hv
  have hgroup := rule_of_group hsettled hne hw
  cases hrule : ruleFor name (vx ++ vy ++ vz) with
  | mergeTrees =>
    obtain ⟨m, r, rfl, rfl, hm, hr⟩ := subtree_of_group hsettled hne hw hv hrule
    rw [mergeField_mergeTrees (hsame.trans hrule), subtrees_append]
    have hcons : subtrees (.attrs m :: vz) = m :: subtrees vz := rfl
    rw [hcons, hbelow m r hm hr hrule]
    rfl
  | last =>
    have hlast := (mergeField_last ((hgroup (by rw [hrule]; nofun)).trans hrule)).mp hv
    rw [mergeField_last (hsame.trans hrule)]
    rw [mergeField_last hrule] at hw
    rw [← hw]
    simp only [getLast?_append, getLast?_cons, hlast, Option.some_or]
    cases vz.getLast? <;> simp
  | update =>
    rw [mergeField_update ((hgroup (by rw [hrule]; nofun)).trans hrule)] at hv
    rw [mergeField_update hrule] at hw
    rw [mergeField_update (hsame.trans hrule)]
    obtain ⟨m, hm, rfl⟩ := map_eq_ok.mp hv
    obtain ⟨r, hr, rfl⟩ := map_eq_ok.mp hw
    rw [updateFrom_regroup hne hm hr]
    rfl
  | true =>
    rw [mergeField_true hrule] at hw
    rw [mergeField_true (hsame.trans hrule), hw]
  | concatLists =>
    rw [mergeField_concatLists ((hgroup (by rw [hrule]; nofun)).trans hrule)] at hv
    rw [mergeField_concatLists hrule] at hw
    rw [mergeField_concatLists (hsame.trans hrule)]
    obtain ⟨m, hm, rfl⟩ := map_eq_ok.mp hv
    obtain ⟨r, hr, rfl⟩ := map_eq_ok.mp hw
    rw [concatLists_regroup hm hr]
    rfl
  | conflicting => exact absurd hw (mergeField_conflicting hrule)

end

/-! ## Whole trees, in groups -/

/-- The merge of `trees` comes to merge the trees `place` somewhere below. -/
inductive Reaches : List (Attrs Name (Value α)) → List (Attrs Name (Value α)) → Prop
  | here (trees : List (Attrs Name (Value α))) : Reaches trees trees
  | under {trees place : List (Attrs Name (Value α))} (name : Name)
      (hrule : ruleFor name (valuesOf name trees) = .mergeTrees)
      (hplace : Reaches (subtrees (valuesOf name trees)) place) : Reaches trees place

/-- Wherever the merge comes to, what is under `set` is verb nodes throughout or not at all,
and so what is under `merge`. -/
def Uniform (trees : List (Attrs Name (Value α))) : Prop :=
  ∀ place, Reaches trees place →
    ∀ name ∈ [ascii "set", ascii "merge"], AllOrNone (valuesOf name place)

theorem Uniform.settled (h : Uniform trees) (hrole : roleOf name = .set ∨ roleOf name = .merge) :
    AllOrNone (valuesOf name trees) := by
  apply h trees (.here trees)
  revert hrole
  apply roleOf_cases (P := fun name role =>
    role = .set ∨ role = .merge → name ∈ [ascii "set", ascii "merge"])
  case set | merge => simp
  case append | prepend | remove | edit | features => simp
  case field => simp

theorem Uniform.below (h : Uniform trees)
    (hrule : ruleFor name (valuesOf name trees) = .mergeTrees) :
    Uniform (subtrees (valuesOf name trees)) :=
  fun place hplace => h place (.under name hrule hplace)

theorem Uniform.intro
    (here : ∀ name ∈ [ascii "set", ascii "merge"], AllOrNone (valuesOf name trees))
    (below : ∀ name, ruleFor name (valuesOf name trees) = .mergeTrees →
      Uniform (subtrees (valuesOf name trees))) : Uniform trees := by
  intro place hplace
  cases hplace with
  | here => exact here
  | under name hrule hplace => exact below name hrule place hplace

/-- `Uniform`, looked up at the names that are bound, `d` levels down. -/
def uniformWithin : Nat → List (Attrs Name (Value α)) → Bool
  | 0, _ => true
  | d + 1, trees =>
    ([ascii "set", ascii "merge"].all fun name =>
      (valuesOf name trees).all isVerbNode || !(valuesOf name trees).any isVerbNode) &&
    (names trees).all fun name =>
      ruleFor name (valuesOf name trees) != .mergeTrees ||
        uniformWithin d (subtrees (valuesOf name trees))

theorem uniform_of_valuesOf_nil (h : ∀ name, valuesOf name trees = []) : Uniform trees := by
  intro place hplace
  induction hplace with
  | here trees => exact fun name _ => .inl (by simp [h])
  | under name hrule hplace ih => exact ih fun q => by simp [h, subtrees]

theorem uniform_of_within {d : Nat} (hd : height trees ≤ d) (h : uniformWithin d trees = true) :
    Uniform trees := by
  induction d generalizing trees with
  | zero => exact uniform_of_valuesOf_nil (valuesOf_of_height_zero (Nat.le_zero.mp hd))
  | succ d ih =>
    rw [uniformWithin, Bool.and_eq_true, all_eq_true, all_eq_true] at h
    apply Uniform.intro
    · intro name hname
      have hhere := h.1 name hname
      rw [Bool.or_eq_true, all_eq_true, Bool.not_eq_true', any_eq_false] at hhere
      simpa [AllOrNone] using hhere
    · intro name hrule
      by_cases hname : name ∈ names trees
      · have hbelow := h.2 name hname
        rw [hrule, bne_self_eq_false, Bool.false_or] at hbelow
        exact ih (height_subtrees hd) hbelow
      · rw [valuesOf_eq_nil_iff.mpr hname]
        exact uniform_of_valuesOf_nil fun q => rfl

/-- The merge sees only what each name is bound to. -/
theorem mergeTrees_congr {xs ys : List (Attrs Name (Value α))}
    (h : ∀ name, valuesOf name xs = valuesOf name ys) (hr : mergeTrees xs = .ok r) :
    mergeTrees ys = .ok r := by
  rw [mergeTrees_eq_ok] at hr ⊢
  simp only [← h]
  exact hr

theorem valuesOf_regroup {xs zs : List (Attrs Name (Value α))} (hget : m.get name = some v) :
    valuesOf name (xs ++ m :: zs) =
      valuesOf name xs ++ v :: valuesOf name zs := by
  rw [valuesOf_append, valuesOf_cons, hget]
  rfl

/-- What stays at a name when the group `vy` of the values is replaced by its value `v`. -/
structure Regrouped (name : Name) (vx vz : List (Value α)) (v w : Value α) : Prop where
  value : mergeField mergeTrees name (vx ++ v :: vz) = .ok w
  allOrNone : roleOf name = .set ∨ roleOf name = .merge → AllOrNone (vx ++ v :: vz)
  uniform : ruleFor name (vx ++ v :: vz) = .mergeTrees → Uniform (subtrees (vx ++ v :: vz))

theorem regrouped {vx vy vz : List (Value α)} {w : Value α}
    (hsettled : roleOf name = .set ∨ roleOf name = .merge → AllOrNone (vx ++ vy ++ vz))
    (hne : vy ≠ []) (hw : mergeField mergeTrees name (vx ++ vy ++ vz) = .ok w)
    (hv : mergeField mergeTrees name vy = .ok v) (hbelow : ∀ m r, mergeTrees (subtrees vy) = .ok m →
      mergeTrees (subtrees vx ++ subtrees vy ++ subtrees vz) = .ok r →
      ruleFor name (vx ++ vy ++ vz) = .mergeTrees →
      mergeTrees (subtrees vx ++ m :: subtrees vz) = .ok r ∧
        Uniform (subtrees vx ++ m :: subtrees vz)) :
    Regrouped name vx vz v w := by
  refine ⟨?_, fun hrole => ?_, fun hrule => ?_⟩
  · apply mergeField_regroup hsettled hne hw hv
    exact fun m r hm hr hrule => (hbelow m r hm hr hrule).1
  · have hverb : (roleOf name).isVerb = true := by rcases hrole with h | h <;> rw [h] <;> rfl
    rcases hsettled hrole with hall | hnone
    · exact .inl ((isVerbNode_of_group hsettled hne hv hverb).mpr hall)
    · right
      intro u hu
      rcases mem_append.mp hu with hu | hu
      · exact hnone u (by simp [hu])
      rcases mem_cons.mp hu with rfl | hu
      · rw [Bool.eq_false_iff]
        intro hnode
        have hsome : ∃ t ∈ vy, isVerbNode t = true := by
          rcases of_isVerbNode_mergeField hverb hv hnode with hall | ⟨-, hsome⟩
          · obtain ⟨t, ht⟩ := exists_mem_of_ne_nil _ hne
            exact ⟨t, ht, hall t ht⟩
          · exact hsome
        obtain ⟨t, ht, htnode⟩ := hsome
        exact absurd ((hnone t (by simp [ht])).symm.trans htnode) Bool.false_ne_true
      · exact hnone u (by simp [hu])
  · rw [rule_regroup hsettled hne hw hv] at hrule
    obtain ⟨m, r, rfl, -, hm, hr⟩ := subtree_of_group hsettled hne hw hv hrule
    rw [subtrees_append]
    exact (hbelow m r hm hr hrule).2

/-- A group merged by itself first: the whole list still merges to the same tree. -/
theorem mergeTrees_regroup {xs ys zs : List (Attrs Name (Value α))}
    (huniform : Uniform (xs ++ ys ++ zs)) (hm : mergeTrees ys = .ok m)
    (hr : mergeTrees (xs ++ ys ++ zs) = .ok r) :
    mergeTrees (xs ++ m :: zs) = .ok r ∧ Uniform (xs ++ m :: zs) := by
  generalize htrees : xs ++ ys ++ zs = trees at huniform hr
  induction trees using trees_induction generalizing xs ys zs m r with
  | step trees ih =>
    subst htrees
    obtain ⟨-, hmat⟩ := mergeTrees_eq_ok.mp hm
    obtain ⟨hsorted, hrat⟩ := mergeTrees_eq_ok.mp hr
    -- a name the group does not bind: the values there are as they were
    have hskip : ∀ name, valuesOf name ys = [] →
        valuesOf name (xs ++ m :: zs) = valuesOf name (xs ++ ys ++ zs) := by
      intro name hnil
      simp [valuesOf_cons, (hmat name).1 hnil, hnil]
    -- a name the group binds: below it the group is merged first as well
    have hgroup : ∀ name, valuesOf name ys ≠ [] → ∃ v w, m.get name = some v ∧
        r.get name = some w ∧
          Regrouped name (valuesOf name xs) (valuesOf name zs) v w := by
      intro name hne
      have hflat : valuesOf name (xs ++ ys ++ zs) ≠ [] := by simp [hne]
      obtain ⟨v, hv, hfield⟩ := (hmat name).2 hne
      obtain ⟨w, hw, hwhole⟩ := (hrat name).2 hflat
      have hsettled := @Uniform.settled α _ name huniform
      have hbelow := @Uniform.below α _ name huniform
      have ihname := @ih name hflat
      simp only [valuesOf_append, subtrees_append] at hwhole hsettled hbelow ihname
      exact ⟨v, w, hv, hw, regrouped hsettled hne hwhole hfield fun m' r' hm' hr' hrule =>
        ihname hm' rfl (hbelow hrule) hr'⟩
    constructor
    · refine mergeTrees_eq_ok.mpr ⟨hsorted, fun name => ?_⟩
      by_cases hnil : valuesOf name ys = []
      · rw [hskip name hnil]
        exact hrat name
      · obtain ⟨v, w, hv, hw, hre⟩ := hgroup name hnil
        rw [valuesOf_regroup hv]
        exact ⟨fun h => absurd h (by simp), fun _ => ⟨w, hw, hre.value⟩⟩
    · apply Uniform.intro
      · intro name hname
        by_cases hnil : valuesOf name ys = []
        · rw [hskip name hnil]
          exact huniform _ (.here _) name hname
        · obtain ⟨v, w, hv, hw, hre⟩ := hgroup name hnil
          rw [valuesOf_regroup hv]
          apply hre.allOrNone
          rcases mem_pair.mp hname with rfl | rfl
          · exact .inl rfl
          · exact .inr rfl
      · intro name hrule
        by_cases hnil : valuesOf name ys = []
        · rw [hskip name hnil] at hrule ⊢
          exact huniform.below hrule
        · obtain ⟨v, w, hv, hw, hre⟩ := hgroup name hnil
          rw [valuesOf_regroup hv] at hrule ⊢
          exact hre.uniform hrule

/-! ## One tree -/

theorem isAttrs_of_rule (h : ruleFor name vals = .mergeTrees) : ∀ v ∈ vals, v.isAttrs = true := by
  have hnodes : vals.all isVerbNode = true → ∀ v ∈ vals, v.isAttrs = true :=
    fun hall v hv => isAttrs_of_isVerbNode (all_eq_true.mp hall v hv)
  rw [ruleFor_eq] at h
  cases hrole : roleOf name with
  | set | listVerb | merge | remove =>
    simp only [hrole, Role.rule] at h
    split_ifs at h with hall
    exact hnodes hall
  | edit | features => simp [hrole, Role.rule] at h
  | field =>
    simp only [hrole, Role.rule] at h
    split_ifs at h with hall
    exact all_eq_true.mp hall

theorem isTrue_of_rule (h : ruleFor name [v] = .true) :
    v = .bool true := by
  have hany : [v].any isTrue = true := by
    rw [ruleFor_eq] at h
    cases hrole : roleOf name with
    | remove =>
      simp only [hrole, Role.rule] at h
      split_ifs at h with hall hany
      exact hany
    | set | listVerb | merge | field =>
      simp only [hrole, Role.rule] at h
      split_ifs at h
    | edit | features =>
      rw [hrole] at h
      nomatch h
  cases v with
  | bool b => simpa [Value.isTrue] using hany
  | attrs _ | list _ | other _ _ => nomatch hany

theorem mergeField_singleton {w : Value α} (hcanonical : v.canonical = true)
    (hbelow : ∀ a r, v = .attrs a → mergeTrees [a] = .ok r → r = a)
    (h : mergeField mergeTrees name [v] = .ok w) : w = v := by
  cases hrule : ruleFor name [v] with
  | mergeTrees =>
    obtain ⟨a, rfl⟩ := isAttrs_iff.mp (isAttrs_of_rule hrule v mem_cons_self)
    rw [mergeField_mergeTrees hrule] at h
    obtain ⟨r, hr, rfl⟩ := map_eq_ok.mp h
    rw [hbelow a r rfl hr]
  | last => exact (Option.some.inj ((mergeField_last hrule).mp h)).symm
  | update =>
    rw [mergeField_update hrule] at h
    obtain ⟨m, hm, rfl⟩ := map_eq_ok.mp h
    cases v with
    | attrs a =>
      cases hm
      rw [nil_update (canonical_attrs_iff.mp hcanonical).1]
    | list _ | bool _ | other _ _ => nomatch hm
  | true =>
    rw [mergeField_true hrule] at h
    rw [isTrue_of_rule hrule, ← Except.ok.inj h]
  | concatLists =>
    rw [mergeField_concatLists hrule] at h
    obtain ⟨elems, helems, rfl⟩ := map_eq_ok.mp h
    cases v with
    | list first =>
      cases helems
      exact congrArg list (append_nil first)
    | attrs _ | bool _ | other _ _ => nomatch helems
  | conflicting => exact absurd h (mergeField_conflicting hrule)

theorem mergeTrees_singleton (hcanonical : (attrs a).canonical = true)
    (h : mergeTrees [a] = .ok r) : r = a := by
  generalize htrees : [a] = trees at h
  induction trees using trees_induction generalizing a r with
  | step trees ih =>
    subst htrees
    obtain ⟨hsorted, hat⟩ := mergeTrees_eq_ok.mp h
    obtain ⟨hasorted, hvalues⟩ := canonical_attrs_iff.mp hcanonical
    apply hsorted.ext hasorted
    intro name
    cases hget : a.get name with
    | none => exact (hat name).1 (by simp [valuesOf_cons, hget])
    | some v =>
      have hvals : valuesOf name [a] = [v] := by simp [valuesOf_cons, hget]
      have ihname := @ih name
      rw [hvals] at ihname
      obtain ⟨w, hw, hfield⟩ := (hat name).2 (by simp [hvals])
      rw [hvals] at hfield
      rw [hw]
      congr 1
      apply mergeField_singleton (hvalues name v hget) _ hfield
      rintro b s rfl hs
      exact ihname (by simp) (hvalues name _ hget) rfl hs

/-! ## Lists of trees -/

namespace Tree

/-- Every group merged first, one after the other. -/
theorem merge_groups {groups : List (List (Tree α))} {merged : List (Tree α)} {r : Tree α}
    (hgroups : List.Forall₂ (fun group m => merge group = .ok m) groups merged)
    (before : List (Tree α)) (huniform : Uniform (bindingsOf (before ++ groups.flatten)))
    (hr : merge (before ++ groups.flatten) = .ok r) : merge (before ++ merged) = .ok r := by
  induction hgroups generalizing before with
  | nil => exact hr
  | @cons group m groups merged hm hgroups ih =>
    rw [merge_eq_ok] at hr hm
    simp only [bindingsOf, flatten_cons, ← append_assoc, map_append] at hr huniform hm
    obtain ⟨hmerged, hstill⟩ := mergeTrees_regroup huniform hm hr
    have hnext := ih (before ++ [m])
    simp only [merge_eq_ok, bindingsOf, append_assoc, map_append, map_cons,
      cons_append, nil_append] at hnext ⊢
    exact hnext hstill hmerged

/-- However a list of trees is grouped, its groups merge to the tree the list merges to, when
the values under `set` and under `merge` are verb nodes throughout or not at all. -/
theorem merge_grouping :
    (∀ a b c ab bc abc : Tree α, Uniform (bindingsOf [a, b, c]) → merge [a, b] = .ok ab →
      merge [b, c] = .ok bc → merge [a, b, c] = .ok abc →
      merge [ab, c] = .ok abc ∧ merge [a, bc] = .ok abc) ∧
    (∀ a r : Tree α, merge [a] = .ok r →
      r = a ∧ merge [empty, a] = .ok a ∧ merge [a, empty] = .ok a) ∧
    ∀ (groups : List (List (Tree α))) (merged : List (Tree α)) (r : Tree α),
      Uniform (bindingsOf groups.flatten) →
      List.Forall₂ (fun group m => merge group = .ok m) groups merged →
      merge groups.flatten = .ok r → merge merged = .ok r := by
  refine ⟨?_, ?_, ?_⟩
  · intro a b c ab bc abc huniform hab hbc habc
    rw [merge_eq_ok] at hab hbc habc
    rw [merge_eq_ok, merge_eq_ok]
    have hleft := @mergeTrees_regroup α _ _ [] (bindingsOf [a, b]) [c.bindings] huniform hab habc
    have hright := @mergeTrees_regroup α _ _ [a.bindings] (bindingsOf [b, c]) [] huniform hbc habc
    exact ⟨hleft.1, hright.1⟩
  · intro a r hr
    rw [merge_eq_ok] at hr
    have hra : r.bindings = a.bindings := mergeTrees_singleton a.canonical hr
    rw [hra] at hr
    rw [merge_eq_ok, merge_eq_ok]
    refine ⟨Tree.ext hra, ?_, ?_⟩
    · exact mergeTrees_congr (fun name => by simp [bindingsOf, valuesOf_cons, empty]) hr
    · exact mergeTrees_congr (fun name => by simp [bindingsOf, valuesOf_cons, empty]) hr
  · exact fun groups merged r huniform hgroups hr => merge_groups hgroups [] huniform hr

theorem canonicalList_ints (ns : List Nat) :
    Value.canonicalList (ns.map (.other .int)) = true := by
  simp [Value.canonicalList_iff, Value.canonical]

def jqEdits (flags : List Nat) (version : Nat) : Tree Nat where
  bindings := [(ascii "jq", .attrs
    [(ascii "flags", .attrs [(ascii "append", .list (flags.map (.other .int)))]),
     (ascii "version", .attrs [(ascii "set", .other .int version)])])]
  canonical := by
    simp only [Value.canonical, Value.canonicalAttrs, canonicalList_ints, Bool.and_true]
    rfl

theorem merge_grouping_jqEdits :
    merge [jqEdits [1] 1, jqEdits [2] 2, jqEdits [3] 3] = .ok (jqEdits [1, 2, 3] 3) ∧
      merge [jqEdits [1, 2] 2, jqEdits [3] 3] = .ok (jqEdits [1, 2, 3] 3) ∧
      merge [jqEdits [1] 1, jqEdits [2, 3] 3] = .ok (jqEdits [1, 2, 3] 3) := by
  have hall : merge [jqEdits [1] 1, jqEdits [2] 2, jqEdits [3] 3] = .ok (jqEdits [1, 2, 3] 3) :=
    merge_eq_ok.mpr rfl
  have huniform : Uniform (bindingsOf [jqEdits [1] 1, jqEdits [2] 2, jqEdits [3] 3]) :=
    uniform_of_within le_rfl rfl
  exact ⟨hall, merge_grouping.1 _ _ _ _ _ _ huniform (merge_eq_ok.mpr rfl)
    (merge_eq_ok.mpr rfl) hall⟩

def versionNode (ns : List Nat) : Tree Nat where
  bindings := [(ascii "jq", .attrs [(ascii "version", .attrs [(ascii "set",
    .attrs [(ascii "append", .list (ns.map (.other .int)))])])])]
  canonical := by
    simp only [Value.canonical, Value.canonicalAttrs, canonicalList_ints, Bool.and_true]
    rfl

def versionPlain (n : Nat) : Tree Nat :=
  ⟨[(ascii "jq", .attrs [(ascii "version", .attrs [(ascii "set", .other .int n)])])], rfl⟩

/-- Two arguments of `set` that read like verb nodes, after a plain one: in the whole list the
last wins, but in either grouping the two come to be merged as nodes. -/
theorem set_argument_like_node_regroups :
    merge [versionPlain 5, versionNode [1], versionNode [2]] = .ok (versionNode [2]) ∧
      merge [versionPlain 5, versionNode [1]] = .ok (versionNode [1]) ∧
      merge [versionNode [1], versionNode [2]] = .ok (versionNode [1, 2]) ∧
      merge [versionPlain 5, versionNode [1, 2]] = .ok (versionNode [1, 2]) ∧
      versionNode [1, 2] ≠ versionNode [2] := by
  refine ⟨merge_eq_ok.mpr rfl, merge_eq_ok.mpr rfl, merge_eq_ok.mpr rfl, merge_eq_ok.mpr rfl, ?_⟩
  intro h
  have hbindings := congrArg Tree.bindings h
  simp [versionNode] at hbindings

end Tree

end Corepkgs.Nix
