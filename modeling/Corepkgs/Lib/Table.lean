import Mathlib.Data.List.AList
import Mathlib.Data.List.Induction
import Mathlib.Algebra.BigOperators.Group.List.Basic
import Mathlib.Algebra.BigOperators.Group.Finset.Basic
import Mathlib.Tactic.Ring
/-!
# Tables

A Go `map` and a C++ `std::map` with values of one type, as an association list
without repeated keys.  What a table holds is said by `lookup`; sums over its
values follow single insertions and removals.
-/

namespace Corepkgs.Lib

open List

abbrev Table (α β : Type*) := AList fun _ : α => β

namespace Table

variable {α β : Type*} [DecidableEq α]

variable (t : Table α β)

theorem lookup_insert (a : α) (b : β) (q : α) :
    (AList.insert a b t).lookup q = if q = a then some b else t.lookup q := by
  split
  · rename_i h
    rw [h, AList.lookup_insert]
  · rename_i h
    exact AList.lookup_insert_ne h

theorem lookup_erase (a q : α) :
    (t.erase a).lookup q = if q = a then none else t.lookup q := by
  split
  · rename_i h
    rw [h, AList.lookup_erase]
  · rename_i h
    exact AList.lookup_erase_ne h

def pairs : List (α × β) := t.entries.map fun e => (e.1, e.2)

variable {a : α} {b : β}

theorem mem_pairs {t : Table α β} : (a, b) ∈ t.pairs ↔ t.lookup a = some b := by
  rw [← Option.mem_def, AList.mem_lookup_iff, pairs, mem_map]
  constructor
  · rintro ⟨e, he, heq⟩
    cases heq
    exact he
  · intro h
    exact ⟨_, h, rfl⟩

def keep (p : α → β → Bool) (t : Table α β) : Table α β :=
  ⟨t.entries.filter fun e => p e.1 e.2, t.nodupKeys.sublist filter_sublist⟩

theorem lookup_keep (p : α → β → Bool) (t : Table α β) (a : α) :
    (t.keep p).lookup a = (t.lookup a).filter (p a) := by
  ext b
  rw [← Option.mem_def, AList.mem_lookup_iff, Option.filter_eq_some_iff, ← Option.mem_def,
    AList.mem_lookup_iff]
  exact mem_filter

/-! ## Folds -/

section

variable {ε : Type*} {step : Table α β → ε → Table α β} {key : ε → α} {val : ε → Option β}
  (hstep : ∀ t e q, (step t e).lookup q = if q = key e then val e else t.lookup q)
include hstep

theorem lookup_foldl_of_notMem {es : List ε} {q : α} (h : q ∉ es.map key) (t : Table α β) :
    (es.foldl step t).lookup q = t.lookup q := by
  induction es generalizing t with
  | nil => rfl
  | cons e es ih =>
    rw [map_cons, mem_cons, not_or] at h
    rw [foldl_cons, ih h.2, hstep, if_neg h.1]

theorem of_lookup_foldl {es : List ε} {t : Table α β} {q : α} {v : β}
    (h : (es.foldl step t).lookup q = some v) :
    t.lookup q = some v ∨ ∃ e ∈ es, q = key e ∧ val e = some v := by
  induction es generalizing t with
  | nil => exact .inl h
  | cons e es ih =>
    rcases ih h with hlook | ⟨e', hmem, he'⟩
    · rw [hstep] at hlook
      split_ifs at hlook with hq
      · exact .inr ⟨e, mem_cons_self, hq, hlook⟩
      · exact .inl hlook
    · exact .inr ⟨e', mem_cons_of_mem _ hmem, he'⟩

/-- Steps that each set a key of their own. -/
theorem lookup_foldl_of_mem {es : List ε} (hnodup : (es.map key).Nodup) {e : ε} (h : e ∈ es)
    (t : Table α β) : (es.foldl step t).lookup (key e) = val e := by
  induction es generalizing t with
  | nil => simp at h
  | cons e' es ih =>
    rw [map_cons, nodup_cons] at hnodup
    rw [foldl_cons]
    rcases mem_cons.mp h with rfl | h
    · rw [lookup_foldl_of_notMem hstep hnodup.1, hstep, if_pos rfl]
    · exact ih hnodup.2 h _

end

/-! ## Sums -/

def total (f : α → β → Int) (t : Table α β) : Int := (t.entries.map fun e => f e.1 e.2).sum

theorem total_erase (f : α → β → Int) (t : Table α β) (a : α) :
    total f (t.erase a) = total f t - ((t.lookup a).elim 0 (f a)) := by
  cases h : t.lookup a with
  | none =>
    have hnot : a ∉ t.entries.keys := AList.lookup_eq_none.mp h
    have herase : (t.erase a).entries = t.entries := kerase_of_notMem_keys hnot
    simp [total, herase]
  | some b =>
    have hmem : a ∈ t.entries.keys := AList.lookup_isSome.mp (by simp [h])
    obtain ⟨b', front, back, hfront, hall, herase⟩ := exists_of_kerase hmem
    have hb : b' = b := by
      have hin : (⟨a, b'⟩ : Sigma fun _ : α => β) ∈ t.entries := by simp [hall]
      have hb' := AList.mem_lookup_iff.mpr hin
      rw [h] at hb'
      exact (Option.some.inj hb').symm
    have herase' : (t.erase a).entries = front ++ back := herase
    simp only [total, herase', hall, map_append, map_cons, sum_append,
      sum_cons, hb, Option.elim_some]
    ring

theorem total_insert (f : α → β → Int) (t : Table α β) (a : α) (b : β) :
    total f (AList.insert a b t) = total f t - ((t.lookup a).elim 0 (f a)) + f a b := by
  have hcons : (AList.insert a b t).entries = ⟨a, b⟩ :: (t.erase a).entries := AList.entries_insert
  rw [← total_erase]
  simp only [total, hcons, map_cons, sum_cons]
  ring

/-- The sum over any finite set that has all keys. -/
theorem total_eq_sum (f : α → β → Int) (t : Table α β) {S : Finset α}
    (hS : ∀ a, (t.lookup a).isSome → a ∈ S) :
    total f t = ∑ a ∈ S, (t.lookup a).elim 0 (f a) := by
  have hsub : t.keys.toFinset ⊆ S := by
    intro a ha
    rw [mem_toFinset, ← AList.mem_keys, ← AList.lookup_isSome] at ha
    exact hS a ha
  have hrest : ∀ a ∈ S, a ∉ t.keys.toFinset → (t.lookup a).elim 0 (f a) = 0 := by
    intro a _ ha
    rw [mem_toFinset, ← AList.mem_keys] at ha
    rw [AList.lookup_eq_none.mpr ha, Option.elim_none]
  have hentries : t.keys.map (fun a => (t.lookup a).elim 0 (f a)) =
      t.entries.map fun e => f e.1 e.2 := by
    rw [AList.keys, keys, map_map]
    apply map_congr_left
    intro e he
    have hlook : t.lookup e.1 = some e.2 := AList.mem_lookup_iff.mpr he
    rw [Function.comp_apply, hlook, Option.elim_some]
  have hnodup : t.keys.Nodup := t.nodupKeys
  rw [← Finset.sum_subset hsub hrest, sum_toFinset _ hnodup, hentries, total]

/-- Tables whose lookups count the same have the same sum. -/
theorem total_congr {f g : α → β → Int} {t u : Table α β}
    (h : ∀ a, (t.lookup a).elim 0 (f a) = (u.lookup a).elim 0 (g a)) :
    total f t = total g u := by
  have hkeys : ∀ (v : Table α β) (a : α), (v.lookup a).isSome → a ∈ v.keys.toFinset := by
    intro v a ha
    rw [mem_toFinset, ← AList.mem_keys, ← AList.lookup_isSome]
    exact ha
  have ht := total_eq_sum f t fun a ha => Finset.mem_union_left u.keys.toFinset (hkeys t a ha)
  have hu := total_eq_sum g u fun a ha => Finset.mem_union_right t.keys.toFinset (hkeys u a ha)
  rw [ht, hu]
  exact Finset.sum_congr rfl fun a _ => h a

theorem total_single (f : β → Int) (t : Table α β) (a : α) :
    total (fun q b => if q = a then f b else 0) t = (t.lookup a).elim 0 f := by
  have hrest : total (fun q b => if q = a then f b else 0) (t.erase a) = 0 := by
    apply sum_eq_zero
    intro x hx
    obtain ⟨e, he, rfl⟩ := mem_map.mp hx
    apply if_neg
    rintro rfl
    exact (AList.mem_erase.mp (AList.mem_keys.mpr (mem_map_of_mem he))).1 rfl
  rw [total_erase, sub_eq_zero] at hrest
  simpa using hrest

end Table

/-! ## The last binding of a list -/

section LastOf

variable {α β : Type*} [DecidableEq α]

/-- The value bound to `a` by the last pair of `es` that binds it. -/
def lastOf (es : List (α × β)) (a : α) : Option β :=
  es.foldl (fun found e => if e.1 = a then some e.2 else found) none

@[simp] theorem lastOf_nil (a : α) : lastOf ([] : List (α × β)) a = none := rfl

theorem lastOf_concat (es : List (α × β)) (e : α × β) (a : α) :
    lastOf (es ++ [e]) a = if e.1 = a then some e.2 else lastOf es a := by
  simp [lastOf]

theorem lastOf_append (es fs : List (α × β)) (a : α) :
    lastOf (es ++ fs) a = (lastOf fs a).or (lastOf es a) := by
  induction fs using reverseRecOn with
  | nil => simp
  | append_singleton fs f ih =>
    rw [← append_assoc, lastOf_concat, lastOf_concat, ih]
    split <;> simp

variable {es : List (α × β)} {a : α} {b : β}

theorem lastOf_eq_none :
    lastOf es a = none ↔ ∀ e ∈ es, e.1 ≠ a := by
  induction es using reverseRecOn with
  | nil => simp
  | append_singleton es e ih =>
    rw [lastOf_concat]
    by_cases h : e.1 = a
    · simp only [h, if_true, reduceCtorEq, mem_append, mem_singleton, false_iff]
      exact fun hall => hall e (.inr rfl) h
    · rw [if_neg h, ih]
      constructor
      · intro hall e' he'
        rcases mem_append.mp he' with he' | he'
        · exact hall e' he'
        · rw [mem_singleton.mp he']
          exact h
      · exact fun hall e' he' => hall e' (mem_append_left _ he')

theorem mem_of_lastOf (h : lastOf es a = some b) :
    (a, b) ∈ es := by
  induction es using reverseRecOn with
  | nil => cases h
  | append_singleton es e ih =>
    rw [lastOf_concat] at h
    split at h
    · rename_i he
      cases h
      subst he
      simp
    · exact mem_append_left _ (ih h)

/-- Where keys are not repeated every pair is the last one of its key. -/
theorem lastOf_of_mem (hnodup : (es.map Prod.fst).Nodup)
    (h : (a, b) ∈ es) : lastOf es a = some b := by
  obtain ⟨front, back, rfl⟩ := append_of_mem h
  have hback : lastOf back a = none := by
    rw [lastOf_eq_none]
    intro e he hea
    rw [map_append, map_cons] at hnodup
    have htail := (nodup_append.mp hnodup).2.1
    exact (nodup_cons.mp htail).1 (mem_map.mpr ⟨e, he, hea⟩)
  have hsplit : front ++ (a, b) :: back = (front ++ [(a, b)]) ++ back := by simp
  rw [hsplit, lastOf_append, hback, lastOf_concat]
  simp

end LastOf

end Corepkgs.Lib
