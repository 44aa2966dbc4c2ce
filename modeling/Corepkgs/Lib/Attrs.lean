import Corepkgs.Lib.Bytes
import Mathlib.Data.List.Lex
import Mathlib.Data.List.Sort
/-!
# Attribute sets

A Nix attribute set is a list of bindings in the order of their names, each name
once.  This module has the two builtins that put sets together: `zipAttrsWith`,
with a function that can throw, and the update operator `//`.  Both are
characterised pointwise: what the result binds at a name follows from what the
sets bind there.
-/

namespace Corepkgs.Lib

open List Option

/-- The bindings of an attribute set. -/
abbrev Attrs (κ β : Type) := List (κ × β)

namespace Attrs

/-- Names are ordered by their bytes. -/
scoped instance linearOrderUInt8 : LinearOrder UInt8 where
  le_refl := UInt8.le_refl
  le_trans _ _ _ := UInt8.le_trans
  lt_iff_le_not_ge _ _ := by
    rw [UInt8.lt_iff_le_and_ne, UInt8.not_le, UInt8.lt_iff_le_and_ne]
    grind
  le_antisymm _ _ := UInt8.le_antisymm
  le_total := UInt8.le_total
  toDecidableLE := inferInstance

variable {κ β γ ε : Type} [LinearOrder κ]

def keys (a : Attrs κ β) : List κ := a.map Prod.fst

def get (k : κ) : Attrs κ β → Option β
  | [] => none
  | (q, v) :: rest => if k = q then some v else get k rest

/-- Names in order, each once: what tells a set from any list of bindings. -/
def Sorted (a : Attrs κ β) : Prop := a.keys.Pairwise (· < ·)

instance (a : Attrs κ β) : Decidable a.Sorted :=
  inferInstanceAs (Decidable (a.keys.Pairwise (· < ·)))

variable (k : κ)

@[simp] theorem get_nil : get k ([] : Attrs κ β) = none := rfl

theorem get_cons (q : κ) (v : β) (rest : Attrs κ β) :
    get k ((q, v) :: rest) = if k = q then some v else get k rest := rfl

variable {a : Attrs κ β} {k : κ} {v : β} {sets : List (Attrs κ β)}

theorem mem_of_get (h : get k a = some v) : (k, v) ∈ a := by
  induction a with
  | nil => simp at h
  | cons p rest ih =>
    rw [get_cons] at h
    split_ifs at h with hk
    · rw [hk, ← some.inj h]
      exact mem_cons_self
    · exact mem_cons_of_mem _ (ih h)

theorem get_eq_none_iff : get k a = none ↔ k ∉ a.keys := by
  induction a with
  | nil => simp [keys]
  | cons p rest ih =>
    rw [get_cons]
    split_ifs with hk
    · simp [keys, hk]
    · rw [ih]
      simp [keys, hk]

theorem mem_keys_of_get (h : get k a = some v) : k ∈ a.keys :=
  mem_map_of_mem (f := Prod.fst) (mem_of_get h)

theorem Sorted.get_of_mem (ha : a.Sorted) (h : (k, v) ∈ a) :
    get k a = some v := by
  induction a with
  | nil => simp at h
  | cons p rest ih =>
    have hcons := pairwise_cons.mp ha
    rw [get_cons]
    rcases mem_cons.mp h with rfl | hmem
    · rw [if_pos rfl]
    · have hlt : p.1 < k := hcons.1 k (mem_map_of_mem (f := Prod.fst) hmem)
      rw [if_neg hlt.ne']
      exact ih hcons.2 hmem

theorem Sorted.mem_iff (ha : a.Sorted) :
    (k, v) ∈ a ↔ get k a = some v :=
  ⟨ha.get_of_mem, mem_of_get⟩

/-- Sets that bind the same are the same list. -/
theorem Sorted.ext {b : Attrs κ β} (ha : a.Sorted) (hb : b.Sorted) (h : ∀ k, get k a = get k b) :
    a = b := by
  have : Std.Irrefl (fun p q : κ × β => p.1 < q.1) := ⟨fun p => lt_irrefl p.1⟩
  have : Std.Antisymm (fun p q : κ × β => p.1 < q.1) :=
    ⟨fun _ _ hpq hqp => absurd hqp hpq.asymm⟩
  apply List.Pairwise.eq_of_mem_iff (pairwise_map.mp ha) (pairwise_map.mp hb)
  rintro ⟨k, v⟩
  rw [ha.mem_iff, hb.mem_iff, h]

/-! ## Names of several sets -/

theorem Sorted.get_of_lt {l : κ} {w : β} {b : Attrs κ β} (hb : Sorted ((l, w) :: b)) (h : k < l) :
    get k ((l, w) :: b) = none := by
  rw [get_eq_none_iff]
  intro hmem
  rcases mem_cons.mp hmem with rfl | hin
  · exact lt_irrefl _ h
  · exact lt_asymm h ((pairwise_cons.mp hb).1 k hin)

/-- Two sets that bind related values bind them in the same order. -/
theorem Sorted.forall₂ {R : β → γ → Prop} {b : Attrs κ γ} (ha : a.Sorted) (hb : b.Sorted)
    (h : ∀ k, Option.Rel R (get k a) (get k b)) :
    List.Forall₂ (fun p q => p.1 = q.1 ∧ R p.2 q.2) a b := by
  induction a generalizing b with
  | nil =>
    cases b with
    | nil => exact .nil
    | cons q b =>
      have hq := h q.1
      rw [get_nil, get_cons, if_pos rfl] at hq
      cases hq
  | cons p a ih =>
    obtain ⟨k, v⟩ := p
    cases b with
    | nil =>
      have hk := h k
      rw [get_nil, get_cons, if_pos rfl] at hk
      cases hk
    | cons q b =>
      obtain ⟨l, w⟩ := q
      have ha' := pairwise_cons.mp ha
      have hb' := pairwise_cons.mp hb
      -- the least name of the one is the least name of the other
      have hkl : k = l := by
        rcases lt_trichotomy k l with hlt | heq | hlt
        · have hk := h k
          rw [hb.get_of_lt hlt, get_cons, if_pos rfl] at hk
          cases hk
        · exact heq
        · have hl := h l
          rw [ha.get_of_lt hlt, get_cons, if_pos rfl] at hl
          cases hl
      subst hkl
      have hvw := h k
      rw [get_cons, if_pos rfl, get_cons, if_pos rfl, rel_some_some] at hvw
      refine .cons ⟨rfl, hvw⟩ (ih ha'.2 hb'.2 fun q => ?_)
      by_cases hq : q = k
      · have hna : get q a = none := get_eq_none_iff.mpr fun hmem =>
          absurd (ha'.1 q hmem) (by rw [hq]; exact lt_irrefl k)
        have hnb : get q b = none := get_eq_none_iff.mpr fun hmem =>
          absurd (hb'.1 q hmem) (by rw [hq]; exact lt_irrefl k)
        rw [hna, hnb]
        exact .none
      · have hrest := h q
        rwa [get_cons, if_neg hq, get_cons, if_neg hq] at hrest

def insertName (k : κ) : List κ → List κ
  | [] => [k]
  | q :: qs => if k < q then k :: q :: qs else if k = q then q :: qs else q :: insertName k qs

def names (sets : List (Attrs κ β)) : List κ := (sets.flatMap keys).foldr insertName []

theorem mem_insertName {q : κ} {qs : List κ} : q ∈ insertName k qs ↔ q = k ∨ q ∈ qs := by
  induction qs with
  | nil => simp [insertName]
  | cons p ps ih =>
    rw [insertName]
    split_ifs with hlt heq
    · simp
    · simp [heq]
    · rw [mem_cons, ih, mem_cons]
      exact or_left_comm

theorem pairwise_insertName {qs : List κ} (h : qs.Pairwise (· < ·)) :
    (insertName k qs).Pairwise (· < ·) := by
  induction qs with
  | nil => simp [insertName]
  | cons p ps ih =>
    have hcons := pairwise_cons.mp h
    rw [insertName]
    split_ifs with hlt heq
    · refine pairwise_cons.mpr ⟨fun q hq => ?_, h⟩
      rcases mem_cons.mp hq with rfl | hq
      · exact hlt
      · exact hlt.trans (hcons.1 q hq)
    · exact h
    · refine pairwise_cons.mpr ⟨fun q hq => ?_, ih hcons.2⟩
      rcases mem_insertName.mp hq with rfl | hq
      · exact lt_of_le_of_ne (not_lt.mp hlt) (Ne.symm heq)
      · exact hcons.1 q hq

theorem mem_names :
    k ∈ names sets ↔ ∃ a ∈ sets, k ∈ a.keys := by
  have hmem : ∀ ks : List κ, k ∈ ks.foldr insertName [] ↔ k ∈ ks := by
    intro ks
    induction ks with
    | nil => simp
    | cons q qs ih => rw [foldr_cons, mem_insertName, ih, mem_cons]
  rw [names, hmem, mem_flatMap]

theorem pairwise_names (sets : List (Attrs κ β)) : (names sets).Pairwise (· < ·) := by
  unfold names
  induction sets.flatMap keys with
  | nil => simp
  | cons q qs ih => exact pairwise_insertName ih

def valuesOf (k : κ) (sets : List (Attrs κ β)) : List β := sets.filterMap (get k)

@[simp] theorem valuesOf_append (xs ys : List (Attrs κ β)) :
    valuesOf k (xs ++ ys) = valuesOf k xs ++ valuesOf k ys := filterMap_append

theorem valuesOf_cons (a : Attrs κ β) (sets : List (Attrs κ β)) :
    valuesOf k (a :: sets) = (get k a).toList ++ valuesOf k sets := by
  rw [valuesOf, filterMap_cons]
  cases get k a <;> rfl

@[simp] theorem valuesOf_nil : valuesOf k ([] : List (Attrs κ β)) = [] := rfl

theorem mem_valuesOf :
    v ∈ valuesOf k sets ↔ ∃ a ∈ sets, get k a = some v := mem_filterMap

theorem valuesOf_eq_nil_iff :
    valuesOf k sets = [] ↔ k ∉ names sets := by
  rw [valuesOf, filterMap_eq_nil_iff, mem_names]
  simp [get_eq_none_iff]

/-! ## zipAttrsWith -/

def collect (f : κ → Except ε γ) : List κ → Except ε (Attrs κ γ)
  | [] => .ok []
  | k :: ks => do
    let v ← f k
    let rest ← collect f ks
    .ok ((k, v) :: rest)

def zipAttrsWith (f : κ → List β → Except ε γ) (sets : List (Attrs κ β)) :
    Except ε (Attrs κ γ) :=
  collect (fun k => f k (valuesOf k sets)) (names sets)

omit [LinearOrder κ] in
theorem collect_eq_ok {f : κ → Except ε γ} {ks : List κ} {r : Attrs κ γ} :
    collect f ks = .ok r ↔ r.keys = ks ∧ ∀ p ∈ r, f p.1 = .ok p.2 := by
  induction ks generalizing r with
  | nil =>
    constructor
    · intro h
      cases h
      simp [keys]
    · rintro ⟨hkeys, -⟩
      rw [map_eq_nil_iff.mp hkeys]
      rfl
  | cons k ks ih =>
    constructor
    · intro h
      rw [collect] at h
      cases hk : f k with
      | error e => simp [hk, bind, Except.bind] at h
      | ok v =>
        cases hrest : collect f ks with
        | error e => simp [hk, hrest, bind, Except.bind] at h
        | ok rest =>
          simp only [hk, hrest, bind, Except.bind, Except.ok.injEq] at h
          have hspec := ih.mp hrest
          subst h
          simp [keys, hk] at hspec ⊢
          exact hspec
    · rintro ⟨hkeys, hf⟩
      cases r with
      | nil => simp [keys] at hkeys
      | cons p rest =>
        have hsplit := cons.inj hkeys
        have hhead : f k = .ok p.2 := hsplit.1 ▸ hf p mem_cons_self
        have htail : collect f ks = .ok rest :=
          ih.mpr ⟨hsplit.2, fun q hq => hf q (mem_cons_of_mem _ hq)⟩
        rw [collect, hhead, htail, ← hsplit.1]
        rfl

/-- What a set bound before, it binds to `f` of all the values there; nothing else is bound. -/
theorem zipAttrsWith_eq_ok {f : κ → List β → Except ε γ} {r : Attrs κ γ} :
    zipAttrsWith f sets = .ok r ↔
      r.Sorted ∧ ∀ k, (valuesOf k sets = [] → get k r = none) ∧
        (valuesOf k sets ≠ [] → ∃ v, get k r = some v ∧ f k (valuesOf k sets) = .ok v) := by
  rw [zipAttrsWith, collect_eq_ok]
  constructor
  · rintro ⟨hkeys, hf⟩
    have hsorted : r.Sorted := by
      rw [Sorted, hkeys]
      exact pairwise_names sets
    refine ⟨hsorted, fun k => ⟨fun hnil => ?_, fun hne => ?_⟩⟩
    · rw [get_eq_none_iff, hkeys, ← valuesOf_eq_nil_iff]
      exact hnil
    · have hmem : k ∈ r.keys := by
        rw [hkeys]
        exact not_not.mp (mt valuesOf_eq_nil_iff.mpr hne)
      cases hget : get k r with
      | none => exact absurd hmem (get_eq_none_iff.mp hget)
      | some v => exact ⟨v, rfl, hf _ (mem_of_get hget)⟩
  · rintro ⟨hsorted, hat⟩
    have hmem : ∀ k, k ∈ r.keys ↔ k ∈ names sets := by
      intro k
      by_cases hnil : valuesOf k sets = []
      · simp [get_eq_none_iff.mp ((hat k).1 hnil), valuesOf_eq_nil_iff.mp hnil]
      · obtain ⟨v, hget, -⟩ := (hat k).2 hnil
        simp [mem_keys_of_get hget, not_not.mp (mt valuesOf_eq_nil_iff.mpr hnil)]
    refine ⟨hsorted.eq_of_mem_iff (pairwise_names sets) hmem, ?_⟩
    rintro ⟨k, v⟩ hp
    have hget := hsorted.get_of_mem hp
    have hne : valuesOf k sets ≠ [] := by
      intro hnil
      rw [(hat k).1 hnil] at hget
      nomatch hget
    obtain ⟨w, hw, hf⟩ := (hat k).2 hne
    rw [hget] at hw
    rw [some.inj hw]
    exact hf

theorem zipAttrsWith_congr {f g : κ → List β → Except ε γ}
    (h : ∀ k, f k (valuesOf k sets) = g k (valuesOf k sets)) :
    zipAttrsWith f sets = zipAttrsWith g sets := by
  rw [zipAttrsWith, zipAttrsWith, funext h]

/-! ## Update -/

def update (a b : Attrs κ β) : Attrs κ β :=
  (names [a, b]).filterMap fun k => ((get k b).or (get k a)).map fun v => (k, v)

theorem keys_update (a b : Attrs κ β) : (update a b).keys = names [a, b] := by
  have hbound : ∀ k ∈ names [a, b],
      (((get k b).or (get k a)).map fun v => (k, v)).map Prod.fst = some k := by
    intro k hk
    cases hb : get k b with
    | some v => rfl
    | none =>
      cases ha : get k a with
      | some v => rfl
      | none =>
        rw [mem_names] at hk
        simp [get_eq_none_iff.mp ha, get_eq_none_iff.mp hb] at hk
  rw [keys, update, map_filterMap]
  exact (filterMap_congr hbound).trans filterMap_some

theorem sorted_update (a b : Attrs κ β) : (update a b).Sorted := by
  rw [Sorted, keys_update]
  exact pairwise_names _

@[simp] theorem get_update (a b : Attrs κ β) :
    get k (update a b) = (get k b).or (get k a) := by
  cases hboth : (get k b).or (get k a) with
  | none =>
    have hnone := or_eq_none_iff.mp hboth
    rw [get_eq_none_iff, keys_update, mem_names]
    simp [get_eq_none_iff.mp hnone.1, get_eq_none_iff.mp hnone.2]
  | some v =>
    apply (sorted_update a b).get_of_mem
    refine mem_filterMap.mpr ⟨k, ?_, by rw [hboth]; rfl⟩
    rw [mem_names]
    cases hb : get k b with
    | some w => exact ⟨b, by simp, mem_keys_of_get hb⟩
    | none =>
      rw [hb, none_or] at hboth
      exact ⟨a, by simp, mem_keys_of_get hboth⟩

theorem update_assoc (a b c : Attrs κ β) : update (update a b) c = update a (update b c) :=
  (sorted_update _ _).ext (sorted_update _ _) fun k => by simp [Option.or_assoc]

theorem nil_update (ha : a.Sorted) : update [] a = a :=
  (sorted_update _ _).ext ha fun k => by simp

theorem update_nil_update (a b : Attrs κ β) : update a (update [] b) = update a b :=
  (sorted_update _ _).ext (sorted_update _ _) fun k => by simp

/-! ## Removal -/

def removeAttrs (a : Attrs κ β) (ks : List κ) : Attrs κ β := a.filter fun p => !ks.contains p.1

theorem get_removeAttrs (a : Attrs κ β) (ks : List κ) :
    get k (removeAttrs a ks) = if k ∈ ks then none else get k a := by
  induction a with
  | nil => simp [removeAttrs]
  | cons p rest ih =>
    obtain ⟨q, v⟩ := p
    rw [removeAttrs] at ih ⊢
    rw [filter_cons, get_cons]
    by_cases hq : q ∈ ks
    · rw [if_neg (by simpa using hq), ih]
      by_cases hk : k = q
      · rw [if_pos (hk ▸ hq), if_pos (hk ▸ hq)]
      · rw [if_neg hk]
    · rw [if_pos (by simpa using hq), get_cons, ih]
      by_cases hk : k = q
      · rw [if_pos hk, if_pos hk, if_neg (hk ▸ hq)]
      · rw [if_neg hk, if_neg hk]

end Attrs

end Corepkgs.Lib
