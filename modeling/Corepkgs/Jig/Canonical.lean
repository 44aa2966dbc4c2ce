import Corepkgs.Jig.Derivation
import Corepkgs.Lib.Results
/-!
# Which documents have one text

The daemon takes `inputSrcs`, the output names of an input derivation and the
references of a text as sets.  The program sorts them, but keeps what is repeated.

* `Json.Same`: equal up to the order of members, at any depth;
* `Varies`: the same derivation, the set-valued lists related by a given relation;
* `aterm_canonical_iff`: with the same elements in those lists, the texts are equal exactly
  if every element occurs as often;
* `aterm_determines_derivation`: documents with the same text have the same fields.
-/

namespace Corepkgs.Jig.NixStore

open Lib List Except
open scoped Lib.Attrs

/-! ## Documents up to the order of members -/

variable {β γ : Type} {ps : List (Bytes × β)}

theorem sorted_toMap (members : List (Bytes × β)) : (toMap members).Sorted := by
  unfold toMap
  induction members using reverseRecOn with
  | nil => exact List.Pairwise.nil
  | append_singleton members e _ =>
    rw [foldl_append]
    exact Attrs.sorted_update _ _

theorem get_toMap (members : List (Bytes × β)) (key : Bytes) :
    (toMap members).get key = lastOf members key := by
  unfold toMap
  induction members using reverseRecOn with
  | nil => rfl
  | append_singleton members e ih =>
    rw [foldl_append, foldl_cons, foldl_nil, Attrs.get_update, ih, lastOf_concat,
      Attrs.get_cons, Attrs.get_nil]
    by_cases he : key = e.1
    · rw [if_pos he, if_pos he.symm, Option.some_or]
    · rw [if_neg he, if_neg (Ne.symm he), Option.none_or]

namespace Json

/-- Equal up to the order of members. -/
inductive Same : Json → Json → Prop where
  | refl (j : Json) : Same j j
  | array {xs ys : List Json} (h : List.Forall₂ Same xs ys) : Same (.array xs) (.array ys)
  | object {ms ms' : List (Bytes × Json)}
      (h : ∀ key, Option.Rel Same (lookup ms key) (lookup ms' key)) :
        Same (.object ms) (.object ms')

variable {j j' : Json} {js : List Json}

theorem Same.getString (h : Same j j') : j.getString = j'.getString := by
  cases h <;> rfl

theorem Same.getEach {xs ys : List Json} (h : List.Forall₂ Same xs ys) :
    Json.getEach xs = Json.getEach ys := by
  induction h with
  | nil => rfl
  | cons hxy _ ih => rw [Json.getEach, Json.getEach, hxy.getString, ih]

theorem Same.getStrings (h : Same j j') : j.getStrings = j'.getStrings := by
  cases h with
  | refl => rfl
  | array h => exact Same.getEach h
  | object h => rfl

theorem Same.readVariable (h : Same j j') : readVariable j = readVariable j' := by
  cases h <;> rfl

theorem Same.stringAt (h : Same j j') (key : Bytes) :
    j.stringAt key = j'.stringAt key := by
  cases h with
  | refl | array _ => rfl
  | object h =>
    have hkey := h key
    simp only [Json.stringAt]
    revert hkey
    generalize lookup _ key = v, lookup _ key = v'
    intro hkey
    cases hkey with
    | none => rfl
    | some hv => exact hv.getString

theorem Same.items (h : Same j j') :
    List.Forall₂ (fun p p' => p.1 = p'.1 ∧ Same p.2 p'.2) j.items j'.items := by
  have hrefl : ∀ ps : List (Bytes × Json),
      List.Forall₂ (fun p p' => p.1 = p'.1 ∧ Same p.2 p'.2) ps ps :=
    fun ps => forall₂_same.mpr fun p _ => ⟨rfl, .refl p.2⟩
  cases h with
  | refl => exact hrefl _
  | object h => exact (sorted_toMap _).forall₂ (sorted_toMap _) h
  | array h =>
    simp only [Json.items, forall₂_map_left_iff, forall₂_map_right_iff]
    rw [forall₂_iff_get] at h ⊢
    refine ⟨by simpa using h.1, fun i hi hi' => ?_⟩
    simp only [get_eq_getElem, getElem_zipIdx]
    exact ⟨trivial, h.2 i (by simpa using hi) (by simpa using hi')⟩

/-! ## Lists with the same elements -/

def SameElems (xs ys : List Json) : Prop :=
  (∀ x ∈ xs, ∃ y ∈ ys, Same x y) ∧ ∀ y ∈ ys, ∃ x ∈ xs, Same x y

def SameCounts (xs ys : List Json) : Prop := ∃ zs, xs.Perm zs ∧ List.Forall₂ Same zs ys

/-- The same value, or arrays whose elements are related by `L`. -/
def Alike (L : List Json → List Json → Prop) (v v' : Json) : Prop :=
  Same v v' ∨ ∃ xs ys, v = .array xs ∧ v' = .array ys ∧ L xs ys

variable {xs : List Bytes}

theorem getEach_eq_ok :
    getEach js = .ok xs ↔ js = xs.map .string := by
  induction js generalizing xs with
  | nil => cases xs <;> simp [getEach]
  | cons j js ih =>
    constructor
    · intro h
      obtain ⟨s, hs, h⟩ := bind_eq_ok.mp h
      obtain ⟨rest, hrest, h⟩ := bind_eq_ok.mp h
      cases h
      cases j <;> cases hs
      rw [ih.mp hrest, map_cons]
    · intro h
      cases xs with
      | nil => cases h
      | cons x xs =>
        obtain ⟨rfl, hjs⟩ := cons.inj h
        rw [getEach, ih.mpr hjs]
        rfl

theorem getEach_error {e : Stop} (h : getEach js = .error e) : e = .aborted := by
  induction js with
  | nil => cases h
  | cons j js ih =>
    cases j with
    | string s =>
      cases hrest : getEach js with
      | ok rest =>
        rw [getEach, hrest] at h
        cases h
      | error e' =>
        rw [getEach, hrest] at h
        cases h
        exact ih hrest
    | null | bool _ | number _ | array _ | object _ =>
      cases h
      rfl

theorem getStrings_error {e : Stop} (h : j.getStrings = .error e) : e = .aborted := by
  cases j with
  | array xs => exact getEach_error h
  | null | bool _ | number _ | string _ | object _ =>
    cases h
    rfl

theorem same_string {s : Bytes} : Same (.string s) j ↔ j = .string s := by
  constructor
  · intro h
    cases h
    rfl
  · rintro rfl
    exact .refl _

theorem same_string_right {s : Bytes} : Same j (.string s) ↔ j = .string s := by
  constructor
  · intro h
    cases h
    rfl
  · rintro rfl
    exact .refl _

theorem exists_strings (h : ∀ j ∈ js, ∃ s, j = .string s) :
    ∃ xs : List Bytes, js = xs.map .string := by
  induction js with
  | nil => exact ⟨[], rfl⟩
  | cons j js ih =>
    obtain ⟨s, rfl⟩ := h j mem_cons_self
    obtain ⟨xs, rfl⟩ := ih fun j hj => h j (mem_cons_of_mem _ hj)
    exact ⟨s :: xs, rfl⟩

theorem sameElems_strings (h : SameElems (xs.map .string) js) :
    ∃ ys : List Bytes, js = ys.map .string := by
  apply exists_strings
  intro j hj
  obtain ⟨x, hx, hsame⟩ := h.2 j hj
  obtain ⟨s, -, rfl⟩ := mem_map.mp hx
  exact ⟨s, same_string.mp hsame⟩

theorem strings_of_sameElems_right {ys : List Bytes} (h : SameElems js (ys.map .string)) :
    ∃ xs : List Bytes, js = xs.map .string := by
  apply exists_strings
  intro j hj
  obtain ⟨y, hy, hsame⟩ := h.1 j hj
  obtain ⟨s, -, rfl⟩ := mem_map.mp hy
  exact ⟨s, same_string_right.mp hsame⟩

theorem sameCounts_strings {ys : List Bytes} :
    SameCounts (xs.map .string) (ys.map .string) ↔ xs.Perm ys := by
  have hinj : Function.Injective Json.string := fun _ _ h => Json.string.inj h
  have hsame : ∀ {zs : List Json} {ys : List Bytes}, List.Forall₂ Same zs (ys.map .string) →
      zs = ys.map .string := by
    intro zs ys h
    induction ys generalizing zs with
    | nil =>
      cases h
      rfl
    | cons y ys ih =>
      cases h with
      | cons hz hzs => rw [same_string_right.mp hz, ih hzs, map_cons]
  constructor
  · rintro ⟨zs, hperm, hzs⟩
    rw [hsame hzs] at hperm
    exact (map_perm_map_iff hinj).mp hperm
  · intro h
    exact ⟨_, h.map _, forall₂_same.mpr fun j _ => .refl j⟩

/-- Lists with the same elements are both read or both refused. -/
theorem Alike.getStrings {v v' : Json} (h : Alike SameElems v v') :
    (v.getStrings = .error .aborted ∧ v'.getStrings = .error .aborted) ∨
      ∃ xs ys, v.getStrings = .ok xs ∧ v'.getStrings = .ok ys ∧
        (Alike SameCounts v v' ↔ xs.Perm ys) := by
  rcases h with hsame | ⟨js, js', rfl, rfl, helems⟩
  · have heq := hsame.getStrings
    cases hread : v.getStrings with
    | error e =>
      rw [hread] at heq
      rw [getStrings_error hread] at heq ⊢
      exact .inl ⟨rfl, heq.symm⟩
    | ok xs =>
      rw [hread] at heq
      exact .inr ⟨xs, xs, rfl, heq.symm, iff_of_true (.inl hsame) (.refl xs)⟩
  · change (getEach js = _ ∧ getEach js' = _) ∨ ∃ xs ys, getEach js = _ ∧ getEach js' = _ ∧ _
    cases hread : getEach js with
    | ok xs =>
      obtain rfl := getEach_eq_ok.mp hread
      obtain ⟨ys, rfl⟩ := sameElems_strings helems
      refine .inr ⟨xs, ys, rfl, getEach_eq_ok.mpr rfl, ?_⟩
      rw [← sameCounts_strings]
      constructor
      · rintro (hsame | ⟨_, _, ⟨⟩, ⟨⟩, hcounts⟩)
        · have heq := hsame.getStrings
          have hys : getEach (ys.map .string) = .ok ys := getEach_eq_ok.mpr rfl
          change getEach _ = getEach _ at heq
          rw [hread, hys] at heq
          cases heq
          exact sameCounts_strings.mpr (.refl _)
        · exact hcounts
      · exact fun hcounts => .inr ⟨_, _, rfl, rfl, hcounts⟩
    | error e =>
      rw [getEach_error hread]
      refine .inl ⟨rfl, ?_⟩
      cases hread' : getEach js' with
      | ok ys =>
        obtain rfl := getEach_eq_ok.mp hread'
        obtain ⟨xs, rfl⟩ := strings_of_sameElems_right helems
        rw [getEach_eq_ok.mpr rfl] at hread
        cases hread
      | error e' => rw [getEach_error hread']

end Json

open Json

/-! ## Reading related documents -/

/-- Items with the same keys, their values related by `R`. -/
abbrev ItemsRel {β γ : Type} (R : β → γ → Prop) : List (Bytes × β) → List (Bytes × γ) → Prop :=
  List.Forall₂ fun p p' => p.1 = p'.1 ∧ R p.2 p'.2

variable {ps' : List (Bytes × γ)} {R : β → γ → Prop}

theorem keys_of_itemsRel (h : ItemsRel R ps ps') :
    ps.map Prod.fst = ps'.map Prod.fst := by
  induction h with
  | nil => rfl
  | cons hp _ ih => rw [map_cons, map_cons, hp.1, ih]

theorem eachItem_congr {f : β → Except Stop γ} {ps' : List (Bytes × β)}
    (h : ItemsRel (fun v v' => f v = f v') ps ps') : eachItem f ps = eachItem f ps' := by
  induction h with
  | nil => rfl
  | @cons p p' ps ps' hp _ ih =>
    obtain ⟨key, v⟩ := p
    obtain ⟨key', v'⟩ := p'
    obtain ⟨rfl, hv⟩ : key = key' ∧ f v = f v' := hp
    rw [eachItem, eachItem, hv, ih]

theorem itemsRel_of_eachItem {f : β → Except Stop γ} {rs : List (Bytes × γ)}
    (h : eachItem f ps = .ok rs) : ItemsRel (fun v c => f v = .ok c) ps rs := by
  induction ps generalizing rs with
  | nil =>
    cases h
    exact .nil
  | cons p ps ih =>
    obtain ⟨c, hc, h⟩ := bind_eq_ok.mp (show (f p.2 >>= _) = _ from h)
    obtain ⟨cs, hcs, h⟩ := bind_eq_ok.mp h
    cases h
    exact .cons ⟨rfl, hc⟩ (ih hcs)

theorem eachItem_readNames {ps ps' : List (Bytes × Json)} (h : ItemsRel (Alike SameElems) ps ps') :
    (eachItem readNames ps = .error .aborted ∧ eachItem readNames ps' = .error .aborted) ∨
      ∃ rs rs', eachItem readNames ps = .ok rs ∧ eachItem readNames ps' = .ok rs' ∧
        (ItemsRel (Alike SameCounts) ps ps' ↔ rs = rs') := by
  induction h with
  | nil => exact .inr ⟨[], [], rfl, rfl, iff_of_true .nil rfl⟩
  | @cons p p' ps ps' hp _ ih =>
    obtain ⟨key, v⟩ := p
    obtain ⟨key', v'⟩ := p'
    obtain ⟨rfl, hv⟩ : key = key' ∧ Alike SameElems v v' := hp
    rcases hv.getStrings with ⟨hread, hread'⟩ | ⟨xs, ys, hread, hread', hcounts⟩
    · refine .inl ⟨?_, ?_⟩
      · rw [eachItem, readNames, hread]
        rfl
      · rw [eachItem, readNames, hread']
        rfl
    · rcases ih with ⟨hrest, hrest'⟩ | ⟨rs, rs', hrest, hrest', hiff⟩
      · refine .inl ⟨?_, ?_⟩
        · rw [eachItem, readNames, hread, hrest]
          rfl
        · rw [eachItem, readNames, hread', hrest']
          rfl
      · refine .inr ⟨(key, sorted xs) :: rs, (key, sorted ys) :: rs', ?_, ?_, ?_⟩
        · rw [eachItem, readNames, hread, hrest]
          rfl
        · rw [eachItem, readNames, hread', hrest']
          rfl
        · refine forall₂_cons.trans ?_
          rw [cons.injEq, Prod.mk.injEq, sorted, sorted, insertionSort_eq_iff_perm]
          exact and_congr (and_congr Iff.rfl hcounts) hiff

namespace Derivation

/-- The same derivation, but for the lists that stand for sets, which are related by `L`. -/
structure Varies (L : List Json → List Json → Prop) (get get' : Bytes → Option Json) : Prop where
  inputSrcs : Option.Rel (Alike L) (get (ascii "inputSrcs")) (get' (ascii "inputSrcs"))
  inputDrvs : ItemsRel (Alike L) (itemsOf (get (ascii "inputDrvs")))
    (itemsOf (get' (ascii "inputDrvs")))
  rest : ∀ key, key ≠ ascii "inputSrcs" → key ≠ ascii "inputDrvs" →
    Option.Rel Same (get key) (get' key)

theorem stringsOf_alike {v v' : Option Json} (h : Option.Rel (Alike SameElems) v v') :
    (stringsOf v = .error .aborted ∧ stringsOf v' = .error .aborted) ∨
      ∃ xs ys, stringsOf v = .ok xs ∧ stringsOf v' = .ok ys ∧
        (Option.Rel (Alike SameCounts) v v' ↔ xs.Perm ys) := by
  cases h with
  | none => exact .inr ⟨[], [], rfl, rfl, iff_of_true .none (.refl [])⟩
  | some h =>
    simp only [Option.rel_some_some]
    exact h.getStrings

theorem stringsOf_same {v v' : Option Json} (h : Option.Rel Same v v') :
    stringsOf v = stringsOf v' := by
  cases h with
  | none => rfl
  | some h => exact h.getStrings

theorem stringOf_same {v v' : Option Json} (h : Option.Rel Same v v') :
    stringOf v = stringOf v' := by
  cases h with
  | none => rfl
  | some h => exact h.getString

theorem itemsOf_same {v v' : Option Json} (h : Option.Rel Same v v') :
    ItemsRel Same (itemsOf v) (itemsOf v') := by
  cases h with
  | none => exact (Same.refl _).items
  | some h => exact h.items

end Derivation

/-! ## The keys of items -/

theorem decimal_injective : Function.Injective decimal := by
  intro m n h
  have hvalue := congrArg (digitsValue 10) h
  rwa [← numeral_ten, ← numeral_ten, digitsValue_numeral (by decide) le_rfl,
    digitsValue_numeral (by decide) le_rfl] at hvalue

theorem nodup_items (j : Json) : (j.items.map Prod.fst).Nodup := by
  cases j with
  | null => exact nodup_nil
  | object ms => exact (sorted_toMap ms).imp fun h => h.ne
  | array xs =>
    have hkeys : (Json.array xs).items.map Prod.fst = (range xs.length).map decimal := by
      simp only [Json.items, map_map, Function.comp_def, range_eq_range',
        ← zipIdx_map_snd 0 xs, map_map]
    rw [hkeys]
    exact nodup_range.map decimal_injective
  | bool _ | number _ | string _ => exact nodup_singleton _

theorem lastOf_rel (h : ItemsRel R ps ps') (key : Bytes)
    :
    Option.Rel R (lastOf ps key) (lastOf ps' key) := by
  have hfold : ∀ found found', Option.Rel R found found' →
      Option.Rel R (ps.foldl (fun found e => if e.1 = key then some e.2 else found) found)
        (ps'.foldl (fun found e => if e.1 = key then some e.2 else found) found') := by
    induction h with
    | nil => exact fun _ _ h => h
    | @cons p p' ps ps' hp _ ih =>
      intro found found' hfound
      rw [foldl_cons, foldl_cons]
      apply ih
      rw [hp.1]
      split
      · exact .some hp.2
      · exact hfound
  exact hfold none none .none

theorem itemsRel_toMap (h : ItemsRel R ps ps') :
    ItemsRel R (toMap ps) (toMap ps') := by
  refine (sorted_toMap ps).forall₂ (sorted_toMap ps') fun key => ?_
  rw [get_toMap, get_toMap]
  exact lastOf_rel h key

/-- Bindings of the same different keys, in the same order, are told apart by their map. -/
theorem toMap_inj {rs rs' : List (Bytes × β)} (hkeys : rs.map Prod.fst = rs'.map Prod.fst)
    (hnodup : (rs.map Prod.fst).Nodup) (h : toMap rs = toMap rs') : rs = rs' := by
  have hlen : rs.length = rs'.length := by
    have hlen := congrArg length hkeys
    simpa using hlen
  refine ext_getElem hlen fun i hi hi' => ?_
  have hkey : rs[i].1 = rs'[i].1 := by
    have hat := congrArg (·[i]?) hkeys
    simpa [hi, hi'] using hat
  have hv : lastOf rs rs[i].1 = some rs[i].2 := lastOf_of_mem hnodup (getElem_mem hi)
  have hv' : lastOf rs' rs'[i].1 = some rs'[i].2 :=
    lastOf_of_mem (hkeys ▸ hnodup) (getElem_mem hi')
  rw [← get_toMap, h, get_toMap, hkey, hv'] at hv
  exact Prod.ext hkey (Option.some.inj hv).symm

namespace Derivation

variable {get : Bytes → Option Json} {xs : List Bytes}

theorem readFrom_varies {get' : Bytes → Option Json} (h : Varies SameElems get get') :
    (∃ e, readFrom get = .error e ∧ readFrom get' = .error e) ∨
      ∃ d d', readFrom get = .ok d ∧ readFrom get' = .ok d' ∧
        (d = d' ↔ Varies SameCounts get get') := by
  have hrest : ∀ key, key ≠ ascii "inputSrcs" → key ≠ ascii "inputDrvs" →
      Option.Rel Same (get key) (get' key) := h.rest
  have henv : eachItem readVariable (itemsOf (get (ascii "env"))) =
      eachItem readVariable (itemsOf (get' (ascii "env"))) :=
    eachItem_congr ((itemsOf_same (hrest _ (by decide) (by decide))).imp
      fun _ _ hp => ⟨hp.1, hp.2.readVariable⟩)
  have hargs := stringsOf_same (hrest (ascii "args") (by decide) (by decide))
  have houtputs : eachItem readOutput (toMap (itemsOf (get (ascii "outputs")))) =
      eachItem readOutput (toMap (itemsOf (get' (ascii "outputs")))) := by
    refine eachItem_congr ((itemsRel_toMap (itemsOf_same
      (hrest (ascii "outputs") (by decide) (by decide)))).imp fun _ _ hp => ⟨hp.1, ?_⟩)
    simp only [readOutput, hp.2.stringAt]
  have hsystem := stringOf_same (hrest (ascii "system") (by decide) (by decide))
  have hbuilder := stringOf_same (hrest (ascii "builder") (by decide) (by decide))
  unfold readFrom
  rw [henv, hargs, houtputs, hsystem, hbuilder]
  rcases eachItem_readNames h.inputDrvs with ⟨hdrvs, hdrvs'⟩ | ⟨rs, rs', hdrvs, hdrvs', hsame⟩
  · rw [hdrvs, hdrvs']
    exact .inl ⟨_, rfl, rfl⟩
  · rcases stringsOf_alike h.inputSrcs with ⟨hsrcs, hsrcs'⟩ | ⟨xs, ys, hsrcs, hsrcs', hcounts⟩
    · rw [hdrvs, hdrvs', hsrcs, hsrcs']
      exact .inl ⟨_, rfl, rfl⟩
    · have hkeys : rs.map Prod.fst = rs'.map Prod.fst := by
        rw [← keys_of_itemsRel (itemsRel_of_eachItem hdrvs),
          ← keys_of_itemsRel (itemsRel_of_eachItem hdrvs')]
        exact keys_of_itemsRel h.inputDrvs
      have hnodup : (rs.map Prod.fst).Nodup := by
        rw [← keys_of_itemsRel (itemsRel_of_eachItem hdrvs)]
        exact nodup_items _
      have hvaries : Varies SameCounts get get' ↔
          toMap rs = toMap rs' ∧ sorted xs = sorted ys := by
        rw [sorted, sorted, insertionSort_eq_iff_perm, ← hcounts]
        constructor
        · intro hv
          exact ⟨congrArg toMap (hsame.mp hv.inputDrvs), hv.inputSrcs⟩
        · rintro ⟨hmap, hsrcs⟩
          exact ⟨hsrcs, hsame.mpr (toMap_inj hkeys hnodup hmap), h.rest⟩
      rw [hdrvs, hdrvs', hsrcs, hsrcs', hvaries]
      simp only [bind, bind, pure, pure]
      cases eachItem readVariable (itemsOf (get' (ascii "env"))) with
      | error e => exact .inl ⟨e, rfl, rfl⟩
      | ok env =>
        cases stringsOf (get' (ascii "args")) with
        | error e => exact .inl ⟨e, rfl, rfl⟩
        | ok args =>
          cases eachItem readOutput (toMap (itemsOf (get' (ascii "outputs")))) with
          | error e => exact .inl ⟨e, rfl, rfl⟩
          | ok outputs =>
            cases stringOf (get' (ascii "system")) with
            | error e => exact .inl ⟨e, rfl, rfl⟩
            | ok system =>
              cases stringOf (get' (ascii "builder")) with
              | error e => exact .inl ⟨e, rfl, rfl⟩
              | ok builder =>
                refine .inr ⟨_, _, rfl, rfl, ?_⟩
                simp

theorem rel_of_eq {v v' : Option Json} (h : v = v') : Option.Rel Same v v' := by
  rw [h]
  cases v' with
  | none => exact .none
  | some v => exact .some (.refl v)

/-- The order of members never matters. -/
theorem varies_of_same {L : List Json → List Json → Prop} {ms ms' : List (Bytes × Json)}
    (h : Same (.object ms) (.object ms')) : Varies L (Json.lookup ms) (Json.lookup ms') := by
  have hkey : ∀ key, Option.Rel Same (Json.lookup ms key) (Json.lookup ms' key) := by
    intro key
    cases h with
    | object h => exact h key
    | refl => exact rel_of_eq rfl
  refine ⟨?_, (itemsOf_same (hkey _)).imp fun _ _ hp => ⟨hp.1, .inl hp.2⟩,
    fun key _ _ => hkey key⟩
  have hsrcs := hkey (ascii "inputSrcs")
  revert hsrcs
  generalize Json.lookup ms (ascii "inputSrcs") = v, Json.lookup ms' (ascii "inputSrcs") = v'
  intro hsrcs
  cases hsrcs with
  | none => exact .none
  | some hv => exact .some (.inl hv)

/-- Documents that differ in the elements of `inputSrcs` only. -/
theorem varies_inputSrcs {L : List Json → List Json → Prop} {xs ys : List Json} (h : L xs ys)
    (front : List (Bytes × Json)) {back : List (Bytes × Json)}
    (hback : ∀ e ∈ back, e.1 ≠ ascii "inputSrcs") :
    Varies L (Json.lookup (front ++ (ascii "inputSrcs", .array xs) :: back))
      (Json.lookup (front ++ (ascii "inputSrcs", .array ys) :: back)) := by
  have hlookup : ∀ (zs : List Json) (key : Bytes),
      Json.lookup (front ++ (ascii "inputSrcs", .array zs) :: back) key =
        (lastOf back key).or
        (if ascii "inputSrcs" = key then some (.array zs) else lastOf front key) := by
    intro zs key
    have hsplit : front ++ (ascii "inputSrcs", .array zs) :: back =
        (front ++ [(ascii "inputSrcs", .array zs)]) ++ back := by simp
    rw [Json.lookup, get_toMap, hsplit, lastOf_append, lastOf_concat]
  have hother : ∀ key, key ≠ ascii "inputSrcs" →
      Json.lookup (front ++ (ascii "inputSrcs", .array xs) :: back) key =
        Json.lookup (front ++ (ascii "inputSrcs", .array ys) :: back) key := by
    intro key hkey
    rw [hlookup, hlookup, if_neg (Ne.symm hkey), if_neg (Ne.symm hkey)]
  refine ⟨?_, ?_, fun key hkey _ => rel_of_eq (hother key hkey)⟩
  · rw [hlookup, hlookup, lastOf_eq_none.mpr hback, if_pos rfl, if_pos rfl]
    exact .some (.inr ⟨xs, ys, rfl, rfl, h⟩)
  · exact (itemsOf_same (rel_of_eq (hother _ (by decide)))).imp fun _ _ hp => ⟨hp.1, .inl hp.2⟩

def Increasing (d : Derivation) : Prop :=
  d.inputSrcs.Pairwise (· < ·) ∧ ∀ e ∈ d.inputDrvs, e.2.Pairwise (· < ·)

def NoRepeats (get : Bytes → Option Json) : Prop :=
  (∀ xs : List Bytes, get (ascii "inputSrcs") = some (.array (xs.map .string)) → xs.Nodup) ∧
    ∀ e ∈ itemsOf (get (ascii "inputDrvs")), ∀ xs : List Bytes,
      e.2 = .array (xs.map .string) → xs.Nodup

theorem pairwise_sorted_iff : (sorted xs).Pairwise (· < ·) ↔ xs.Nodup := by
  have hperm : (sorted xs).Perm xs := perm_insertionSort (· ≤ ·) xs
  have hle : (sorted xs).Pairwise (· ≤ ·) := pairwise_insertionSort (· ≤ ·) xs
  rw [← hperm.nodup_iff]
  constructor
  · exact fun h => h.imp fun hlt => hlt.ne
  · exact fun h => (hle.and h).imp fun hxy => lt_of_le_of_ne hxy.1 hxy.2

theorem getStrings_eq_ok {v : Json} :
    v.getStrings = .ok xs ↔ v = .array (xs.map .string) := by
  cases v with
  | array js => exact getEach_eq_ok.trans (by rw [Json.array.injEq])
  | null | bool _ | number _ | string _ | object _ =>
    constructor <;> intro h <;> cases h

theorem readNames_eq_ok {v : Json} {names : List Bytes} :
    readNames v = .ok names ↔ ∃ xs : List Bytes, v = .array (xs.map .string) ∧
      names = sorted xs := by
  constructor
  · intro h
    obtain ⟨ys, hys, h⟩ := bind_eq_ok.mp h
    cases h
    exact ⟨ys, getStrings_eq_ok.mp hys, rfl⟩
  · rintro ⟨xs, hxs, rfl⟩
    rw [readNames, getStrings_eq_ok.mpr hxs]
    rfl

/-- The fields of a derivation that was read, each by its own reader. -/
theorem readFrom_eq_ok {d : Derivation} (h : readFrom get = .ok d) :
    ∃ drvs srcs vars, eachItem readNames (itemsOf (get (ascii "inputDrvs"))) = .ok drvs ∧
      stringsOf (get (ascii "inputSrcs")) = .ok srcs ∧
      eachItem readVariable (itemsOf (get (ascii "env"))) = .ok vars ∧
      stringsOf (get (ascii "args")) = .ok d.args ∧
      eachItem readOutput (toMap (itemsOf (get (ascii "outputs")))) = .ok d.outputs ∧
      stringOf (get (ascii "system")) = .ok d.system ∧
      stringOf (get (ascii "builder")) = .ok d.builder ∧
      d.inputDrvs = toMap drvs ∧ d.inputSrcs = sorted srcs ∧ d.env = toMap vars := by
  obtain ⟨drvs, hdrvs, h⟩ := bind_eq_ok.mp h
  obtain ⟨srcs, hsrcs, h⟩ := bind_eq_ok.mp h
  obtain ⟨vars, hvars, h⟩ := bind_eq_ok.mp h
  obtain ⟨args, hargs, h⟩ := bind_eq_ok.mp h
  obtain ⟨outputs, houtputs, h⟩ := bind_eq_ok.mp h
  obtain ⟨system, hsystem, h⟩ := bind_eq_ok.mp h
  obtain ⟨builder, hbuilder, h⟩ := bind_eq_ok.mp h
  cases h
  exact ⟨drvs, srcs, vars, hdrvs, hsrcs, hvars, hargs, houtputs, hsystem, hbuilder, rfl, rfl, rfl⟩

theorem stringsOf_nodup_iff {v : Option Json} (h : stringsOf v = .ok xs) :
    xs.Nodup ↔ ∀ ys : List Bytes, v = some (.array (ys.map .string)) → ys.Nodup := by
  cases v with
  | none =>
    cases h
    simp
  | some j =>
    have hj : j = .array (xs.map .string) := getStrings_eq_ok.mp h
    constructor
    · intro hnodup ys hys
      have hread : j.getStrings = .ok ys := getStrings_eq_ok.mpr (Option.some.inj hys)
      rw [getStrings_eq_ok.mpr hj] at hread
      cases hread
      exact hnodup
    · exact fun hall => hall xs (congrArg some hj)

theorem mem_toMap_iff {β : Type} {rs : List (Bytes × β)} (hnodup : (rs.map Prod.fst).Nodup)
    {e : Bytes × β} : e ∈ toMap rs ↔ e ∈ rs := by
  obtain ⟨key, v⟩ := e
  rw [(sorted_toMap rs).mem_iff, get_toMap]
  exact ⟨mem_of_lastOf, lastOf_of_mem hnodup⟩

theorem increasing_iff {d : Derivation} (h : readFrom get = .ok d) :
    d.Increasing ↔ NoRepeats get := by
  obtain ⟨rs, xs, -, hdrvs, hsrcs, -, -, -, -, -, hd, hs, -⟩ := readFrom_eq_ok h
  have hitems := itemsRel_of_eachItem hdrvs
  have hnodup : (rs.map Prod.fst).Nodup := by
    rw [← keys_of_itemsRel hitems]
    exact nodup_items _
  unfold Increasing NoRepeats
  rw [hs, pairwise_sorted_iff, stringsOf_nodup_iff hsrcs, hd]
  refine and_congr Iff.rfl ?_
  simp only [mem_toMap_iff hnodup]
  clear * - hitems
  generalize itemsOf (get (ascii "inputDrvs")) = ps at hitems ⊢
  induction hitems with
  | nil => simp
  | @cons p r ps rs hp _ ih =>
    obtain ⟨ys, hys, hr⟩ := readNames_eq_ok.mp hp.2
    rw [forall_mem_cons, forall_mem_cons, ih, hr, pairwise_sorted_iff, hys]
    refine and_congr ⟨fun hn zs hzs => ?_, fun hall => hall ys rfl⟩ Iff.rfl
    have hmap := Json.array.inj hzs
    rw [← (map_injective_iff.mpr fun _ _ h => Json.string.inj h) hmap]
    exact hn

end Derivation

open NixStore.Derivation in
/-- Documents that are the same but for the order of members and for the lists that stand for sets,
in which the same elements occur: they have the same text exactly if every element occurs as
often; those lists are strictly increasing exactly if no string is repeated in them; and two lists
of references have the same path whatever the digest exactly if they make the same type, which
references without a colon do only if every one occurs as often. -/
theorem aterm_canonical_iff (ms ms' : List (Bytes × Json)) (storeDir name contents : Bytes)
    (xs ys : List Bytes) :
    (Varies SameElems (Json.lookup ms) (Json.lookup ms') →
      (derivationToATerm (.object ms) = derivationToATerm (.object ms') ↔
        ((∃ text, derivationToATerm (.object ms) = .ok text) →
          Varies SameCounts (Json.lookup ms) (Json.lookup ms')))) ∧
    (Same (.object ms) (.object ms') →
      derivationToATerm (.object ms) = derivationToATerm (.object ms')) ∧
    (∀ d, Derivation.read (.object ms) = .ok d → (d.Increasing ↔ NoRepeats (Json.lookup ms))) ∧
    ((∀ sha, textPath sha storeDir name xs contents = textPath sha storeDir name ys contents) ↔
      textType xs = textType ys) ∧
    ((∀ x ∈ xs, 58 ∉ x) → (∀ y ∈ ys, 58 ∉ y) → (textType xs = textType ys ↔ xs.Perm ys)) := by
  have hmain : Varies SameElems (Json.lookup ms) (Json.lookup ms') →
      (derivationToATerm (.object ms) = derivationToATerm (.object ms') ↔
        ((∃ text, derivationToATerm (.object ms) = .ok text) →
          Varies SameCounts (Json.lookup ms) (Json.lookup ms'))) := by
    intro hv
    unfold derivationToATerm
    rcases readFrom_varies hv with ⟨e, hread, hread'⟩ | ⟨d, d', hread, hread', hiff⟩
    · simp [Derivation.read, hread, hread', Except.map]
    · simp only [Derivation.read, hread, hread', Except.map, Except.ok.injEq, exists_eq',
        forall_const]
      rw [Derivation.render_injective.eq_iff, hiff]
  refine ⟨hmain, fun h => (hmain (varies_of_same h)).mpr fun _ => varies_of_same h,
    fun d h => increasing_iff h, textPath_eq_iff storeDir name contents xs ys,
    fun hx hy => textType_perm_iff hx hy⟩

/-- A source that is named twice, and a reference that is. -/
theorem repeated_source_changes_text :
    Derivation.Varies SameElems (Json.lookup (exampleDrv ["/s1", "/s1"] ["out"]))
        (Json.lookup (exampleDrv ["/s1"] ["out"])) ∧
      derivationToATerm (.object (exampleDrv ["/s1", "/s1"] ["out"])) ≠
        derivationToATerm (.object (exampleDrv ["/s1"] ["out"])) ∧
      textPath sha256 (ascii "/nix/store") (ascii "x") [ascii "/nix/store/a"] [] ≠
        textPath sha256 (ascii "/nix/store") (ascii "x")
          [ascii "/nix/store/a", ascii "/nix/store/a"] [] := by
  refine ⟨?_, by decide +kernel, by decide +kernel⟩
  have helems : SameElems [.string (ascii "/s1"), .string (ascii "/s1")]
    [.string (ascii "/s1")] := by
    simp [SameElems, Same.refl]
  exact Derivation.varies_inputSrcs helems ((exampleDrv [] ["out"]).take 5) (by decide)

/-! ## What a document says -/

namespace Json

/-- The values of a document under their names.  An element of an array has its position for a
name, and what is neither object nor array the empty name. -/
def named : Json → List (Bytes × Json)
  | .null => []
  | .object ms => ms
  | .array xs => xs.zipIdx.map fun e => (decimal e.2, e.1)
  | j => [([], j)]

/-- The last value of a name. -/
def value (j : Json) (name : Bytes) : Option Json := lastOf j.named name

def text : Option Json → Bytes
  | some (.string s) => s
  | _ => []

def texts : Option Json → List Bytes
  | some (.array xs) => xs.map fun x => text (some x)
  | _ => []

end Json

/-- What the daemon is told of a derivation.  The lists that are sorted are given by how often
each string is in them. -/
structure Fields where
  outputs : Bytes → Option Output
  inputDrvs : Bytes → Option (Multiset Bytes)
  inputSrcs : Multiset Bytes
  system : Bytes
  builder : Bytes
  args : List Bytes
  env : Bytes → Option Bytes

def Json.fields (drv : Json) : Fields where
  outputs name := ((drv.value (ascii "outputs")).bind (·.value name)).map fun spec =>
    ⟨text (spec.value (ascii "path")), text (spec.value (ascii "hashAlgo")),
      text (spec.value (ascii "hash"))⟩
  inputDrvs path := ((drv.value (ascii "inputDrvs")).bind (·.value path)).map fun v =>
    texts (some v)
  inputSrcs := texts (drv.value (ascii "inputSrcs"))
  system := text (drv.value (ascii "system"))
  builder := text (drv.value (ascii "builder"))
  args := texts (drv.value (ascii "args"))
  env name := ((drv.value (ascii "env")).bind (·.value name)).map fun v => text (some v)

namespace Derivation

variable {v : Option Json}

theorem lastOf_toMap (ps : List (Bytes × β)) (name : Bytes) :
    lastOf (toMap ps) name = lastOf ps name := by
  refine Option.ext fun c => ?_
  rw [← get_toMap ps, ← (sorted_toMap ps).mem_iff]
  exact ⟨mem_of_lastOf, lastOf_of_mem ((sorted_toMap ps).imp fun h => h.ne)⟩

theorem lastOf_itemsOf (v : Option Json) (name : Bytes) :
    lastOf (itemsOf v) name = v.bind (·.value name) := by
  rcases v with _ | j
  · rfl
  · cases j with
    | object ms => exact lastOf_toMap ms name
    | null | bool _ | number _ | string _ | array _ => rfl

/-- What is made of the values of all items, by name. -/
theorem lastOf_of_eachItem {δ : Type} {f : β → Except Stop γ} {g : β → δ} {k : γ → δ}
    (hg : ∀ {v c}, f v = .ok c → k c = g v) {rs : List (Bytes × γ)} (h : eachItem f ps = .ok rs)
    (name : Bytes) : (lastOf rs name).map k = (lastOf ps name).map g := by
  have hrel := lastOf_rel (itemsRel_of_eachItem h) name
  generalize lastOf ps name = found at hrel ⊢
  generalize lastOf rs name = made at hrel ⊢
  cases hrel with
  | none => rfl
  | some hv => exact congrArg some (hg hv)

theorem text_of_stringOf {s : Bytes} (h : stringOf v = .ok s) : s = text v := by
  rcases v with _ | j
  · cases h
    rfl
  · cases j <;> cases h
    rfl

theorem texts_of_stringsOf {xs : List Bytes} (h : stringsOf v = .ok xs) : xs = texts v := by
  rcases v with _ | j
  · cases h
    rfl
  · rw [getStrings_eq_ok.mp h, texts, map_map]
    exact (map_id xs).symm

theorem text_of_stringAt {j : Json} {key s : Bytes} (h : j.stringAt key = .ok s) :
    s = text (j.value key) := by
  cases j with
  | object ms =>
    refine text_of_stringOf (v := lastOf ms key) ?_
    rw [← get_toMap]
    rw [stringAt, Json.lookup] at h
    cases hv : (toMap ms).get key <;> rw [hv] at h <;> exact h
  | null | bool _ | number _ | string _ | array _ => cases h

theorem readOutput_eq_ok {spec : Json} {o : Output} (h : readOutput spec = .ok o) :
    o = ⟨text (spec.value (ascii "path")), text (spec.value (ascii "hashAlgo")),
      text (spec.value (ascii "hash"))⟩ := by
  obtain ⟨path, hpath, h⟩ := bind_eq_ok.mp h
  obtain ⟨hashAlgo, halgo, h⟩ := bind_eq_ok.mp h
  obtain ⟨hash, hhash, h⟩ := bind_eq_ok.mp h
  cases h
  rw [text_of_stringAt hpath, text_of_stringAt halgo, text_of_stringAt hhash]

theorem coe_of_readNames {j : Json} {names : List Bytes} (h : readNames j = .ok names) :
    (names : Multiset Bytes) = texts (some j) := by
  obtain ⟨xs, rfl, rfl⟩ := readNames_eq_ok.mp h
  rw [← texts_of_stringsOf (v := some (.array (xs.map .string))) (getStrings_eq_ok.mpr rfl)]
  exact Multiset.coe_eq_coe.mpr (perm_insertionSort _ xs)

theorem fields_of_read {drv : Json} {d : Derivation} (h : read drv = .ok d) :
    drv.fields = ⟨lastOf d.outputs, fun path => (d.inputDrvs.get path).map Multiset.ofList,
      d.inputSrcs,
      d.system, d.builder, d.args, d.env.get⟩ := by
  cases drv with
  | object ms =>
    have hget : ∀ key, Json.lookup ms key = (Json.object ms).value key := get_toMap ms
    obtain ⟨drvs, srcs, vars, hdrvs, hsrcs, hvars, hargs, houtputs, hsystem, hbuilder, hd,
      hs, he⟩ :=
      readFrom_eq_ok h
    simp only [hget] at hdrvs hsrcs hvars hargs houtputs hsystem hbuilder
    rw [Json.fields, Fields.mk.injEq]
    refine ⟨funext fun name => ?_, funext fun path => ?_, ?_, (text_of_stringOf hsystem).symm,
      (text_of_stringOf hbuilder).symm, (texts_of_stringsOf hargs).symm, funext fun name => ?_⟩
    · rw [← lastOf_itemsOf, ← lastOf_toMap,
        ← lastOf_of_eachItem (k := id) readOutput_eq_ok houtputs, Option.map_id]
      rfl
    · rw [hd, get_toMap, ← lastOf_itemsOf]
      exact (lastOf_of_eachItem coe_of_readNames hdrvs path).symm
    · rw [hs, texts_of_stringsOf hsrcs]
      exact Multiset.coe_eq_coe.mpr (perm_insertionSort _ _).symm
    · rw [he, get_toMap, ← lastOf_itemsOf, ← lastOf_of_eachItem (k := id) ?_ hvars, Option.map_id]
      · rfl
      · intro v c hv
        cases v <;> cases hv
        rfl
  | null | bool _ | number _ | string _ | array _ => cases h

end Derivation

/-- Two documents with the same text say the same. -/
theorem aterm_determines_derivation {drv drv' : Json} {text : Bytes}
    (h : derivationToATerm drv = .ok text) (h' : derivationToATerm drv' = .ok text) :
    drv.fields = drv'.fields := by
  obtain ⟨d, hd, hrender⟩ := map_eq_ok.mp h
  obtain ⟨d', hd', hrender'⟩ := map_eq_ok.mp h'
  have hsame : d = d' := Derivation.render_injective (hrender.trans hrender'.symm)
  rw [Derivation.fields_of_read hd, Derivation.fields_of_read hd', hsame]

theorem aterm_determines_derivation_reversed :
    (Json.object (exampleDrv ["/s2", "/s1"] ["out", "dev"])).fields =
      (Json.object (exampleDrv ["/s1", "/s2"] ["dev", "out"]).reverse).fields :=
  aterm_determines_derivation derivationToATerm_example (by decide +kernel)

end Corepkgs.Jig.NixStore
