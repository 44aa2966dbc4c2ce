import Mathlib
import Corepkgs.Jig.ElfWrites
/-!
# Fixing an ELF file twice

The second run finds the RUNPATH of the first with no room behind it.  An entry leads back to its
directory, so it is spelled the same or with a separator more; a NEEDED that would become a path
takes more than its directory gives back.  What differs from the RUNPATH that is there is longer.
-/

namespace Corepkgs.Jig.Elf

open Lib Jig.Fixup NormalPath List Nat

/-! ## An entry again -/

/-- An entry that was made with `RelativeTo` for an absolute directory. -/
def Made (here : NormalPath) (entry : Bytes) : Prop :=
  ∃ t : NormalPath, t.root = true ∧ entry = relativeTo here.text t.text origin

def again (here entry : Bytes) : Bytes := relativeTo here (resolveOrigin here entry) origin

theorem origin_isPrefixOf_relativeTo (here target : Bytes) :
    relativeTo here target origin = origin ∨
      (origin ++ [47]).isPrefixOf (relativeTo here target origin) = true := by
  rw [relativeTo, if_neg (by decide)]
  split_ifs
  · exact .inl rfl
  · refine .inr (List.isPrefixOf_iff_prefix.mpr ?_)
    exact ⟨_, by rw [append_assoc, singleton_append]⟩

theorem relativeTo_ne_nil (here target : Bytes) : relativeTo here target origin ≠ [] := by
  rw [relativeTo, if_neg (by decide)]
  split_ifs
  · decide
  · simp

variable {n : Nat} {entries : List Bytes} {r : List RunpathDir} {needed : List Needed}
  {s : Selection}

theorem relText_slash (h : n ≠ 0) : relText n [] true = relText n [] false ++ [47] := by
  have hne : replicate n dotdot ≠ [] := by simpa using h
  have hsome : ¬(n = 0 ∧ ([] : List Bytes) = []) := fun hnone => h hnone.1
  rw [relText, relText, if_neg hsome, if_neg hsome, if_pos rfl, append_nil,
    intercalate_concat hne]
  simp

variable {here : NormalPath}

theorem again_of_made (hhere : here.root = true) {entry : Bytes} (h : Made here entry) :
    (again here.text entry = entry ∨ again here.text entry = entry ++ [47]) ∧
      resolveOrigin here.text (again here.text entry) = resolveOrigin here.text entry := by
  obtain ⟨t, ht, rfl⟩ := h
  rw [again, resolveOrigin_relativeTo hhere ht]
  by_cases hup : t.names <+: here.names
  · rw [if_pos hup, resolveOrigin_relativeTo hhere (show (closed t).root = true from ht),
      if_pos (show (closed t).names <+: here.names from hup)]
    refine ⟨?_, rfl⟩
    by_cases hslash : t.slash = (closed t).slash
    · left
      rw [show closed t = t from NormalPath.ext rfl rfl rfl hslash.symm]
    · obtain ⟨ds, hds⟩ := hup
      have hfalse : t.slash = false := by
        by_contra htrue
        rw [Bool.not_eq_false] at htrue
        exact hslash (htrue.trans (decide_eq_true (t.slash_names htrue)).symm)
      have htrue : (closed t).slash = true := by
        rw [hfalse] at hslash
        simpa using Ne.symm hslash
      have hpart : ∀ a ∈ ([] : List Bytes).head?, a ∉ ds.head? := by simp
      have hrel := lexicallyRelative_of_root ht hhere (append_nil _).symm hds.symm hpart
      have hrel' := lexicallyRelative_of_root (t := closed t) ht hhere (append_nil _).symm
        hds.symm hpart
      have horigin : origin ≠ [] := by decide
      rw [relativeTo, relativeTo, lexicallyNormal_text, lexicallyNormal_text, hrel, hrel', hfalse,
        htrue, if_neg horigin, if_neg horigin]
      by_cases hhere : ds.length = 0
      · -- the file's own directory
        left
        rw [hhere, relText_nil, relText_nil]
      · right
        have hdot : ∀ slash, relText ds.length [] slash ≠ dot := fun slash hdot =>
          hhere ((relText_eq_dot_iff (by simp) slash).mp hdot).1
        rw [if_neg (hdot true), if_neg (hdot false), relText_slash hhere]
        simp
  · rw [if_neg hup]
    refine ⟨.inl rfl, ?_⟩
    rw [resolveOrigin_relativeTo hhere ht, if_neg hup]

/-! ## Lists of entries -/

/-- Entries that the next run takes as they are: one piece each, in the store, and each for another
directory. -/
structure Settled (storeDir here : Bytes) (entries : List Bytes) : Prop where
  colon : ∀ entry ∈ entries, 58 ∉ entry
  zero : ∀ entry ∈ entries, 0 ∉ entry
  store : ∀ entry ∈ entries, isStorePath storeDir (resolveOrigin here entry) = true
  nodup : (entries.map (resolveOrigin here)).Nodup

theorem join_eq_intercalate (h : ∀ entry ∈ entries, entry ≠ []) (sep : Bytes) :
    join entries sep = sep.intercalate entries := by
  have hfold : ∀ (out : Bytes) (entries : List Bytes), out ≠ [] →
      entries.foldl (fun out part => (if out = [] then out else out ++ sep) ++ part) out =
        sep.intercalate (out :: entries) := by
    intro out entries
    induction entries generalizing out with
    | nil => simp
    | cons entry entries ih =>
      intro hout
      rw [foldl_cons, if_neg hout, ih _ (by simp [hout]), intercalate_cons_cons]
      cases entries <;> simp
  cases entries with
  | nil => rfl
  | cons entry entries =>
    rw [join, foldl_cons, if_pos rfl, nil_append]
    exact hfold entry entries (h entry (by simp))

theorem length_join (h : ∀ entry ∈ entries, entry ≠ []) (hne : entries ≠ []) :
    (join entries [58]).length + 1 = namesLength entries := by
  rw [join_eq_intercalate h, length_intercalate 58 hne]

theorem split_join (hne : ∀ entry ∈ entries, entry ≠ []) (hcolon : ∀ entry ∈ entries, 58 ∉ entry) :
    split (join entries [58]) 58 = entries := by
  rw [split, Text.pieces, join_eq_intercalate hne]
  cases entries with
  | nil => simp
  | cons entry entries =>
    rw [splitOn_intercalate 58 hcolon (by simp)]
    exact filter_eq_self.mpr fun e he => by simpa using hne e he

/-- Entries that became longer, or to which others were added, take more room. -/
theorem join_settles (extra : List Bytes) {f : Bytes → Bytes}
    (hf : ∀ entry ∈ entries, f entry = entry ∨ f entry = entry ++ [47])
    (hne : ∀ entry ∈ entries, entry ≠ []) (hextra : ∀ entry ∈ extra, entry ≠ []) :
    join (entries.map f ++ extra) [58] = join entries [58] ∨
      (join entries [58]).length < (join (entries.map f ++ extra) [58]).length := by
  have hgrow : entries.map f = entries ∨ namesLength entries < namesLength (entries.map f) := by
    clear hne
    induction entries with
    | nil => exact .inl rfl
    | cons entry entries ih =>
      rw [forall_mem_cons] at hf
      rw [map_cons, namesLength_cons, namesLength_cons]
      rcases hf.1 with hsame | hmore <;> rcases ih hf.2 with hrest | hrest
      · left
        rw [hsame, hrest]
      · right
        rw [hsame]
        omega
      · right
        rw [hmore, hrest, length_append, length_singleton]
        omega
      · right
        rw [hmore, length_append, length_singleton]
        omega
  have hmapped : ∀ entry ∈ entries.map f ++ extra, entry ≠ [] := by
    intro entry hentry
    rcases mem_append.mp hentry with hentry | hentry
    · obtain ⟨e, he, rfl⟩ := mem_map.mp hentry
      rcases hf e he with h | h
      · rw [h]
        exact hne e he
      · rw [h]
        simp
    · exact hextra entry hentry
  by_cases hall : entries.map f ++ extra = entries
  · exact .inl (by rw [hall])
  · right
    have hlonger : namesLength entries < namesLength (entries.map f ++ extra) := by
      rw [namesLength_append]
      rcases hgrow with hsame | hlonger
      · cases extra with
        | nil => exact absurd (by rw [hsame, append_nil]) hall
        | cons e extra =>
          rw [hsame, namesLength_cons]
          omega
      · omega
    have hnonempty : entries.map f ++ extra ≠ [] := by
      intro hnil
      rw [hnil] at hlonger
      exact absurd hlonger (not_lt_zero _)
    have hlen := length_join hmapped hnonempty
    by_cases hnil : entries = []
    · -- what is added is not empty
      subst hnil
      have hpos : 0 < (join ([].map f ++ extra) [58]).length := by
        obtain ⟨e, rest, hextraCons⟩ := exists_cons_of_ne_nil hnonempty
        have hfirst := length_pos_iff.mpr (hmapped e (by rw [hextraCons]; simp))
        rw [hextraCons] at hlen ⊢
        rw [namesLength_cons] at hlen
        omega
      exact hpos
    · have hold := length_join hne hnil
      omega

/-! ## What is kept -/

theorem getElem?_setKeep (keep : Bool) (index : Nat) (r : List RunpathDir) (i : Nat) :
    (setKeep keep index r)[i]? =
      r[i]?.map fun d => if index = i then { d with keep := keep } else d := by
  rw [setKeep, getElem?_modify]
  rfl

/-- What follows only adds entries. -/
theorem keptEntries_append (xs ys : List RunpathDir) :
    ∃ extra, keptEntries (xs ++ ys) = keptEntries xs ++ extra ∧
      ∀ entry ∈ extra, entry ∈ ys.map (·.entry) := by
  have hfold : ∀ kept : List Bytes, ∃ extra,
      ys.foldl (fun kept d => if d.keep ∧ d.entry ∉ kept then kept ++ [d.entry] else kept) kept =
        kept ++ extra ∧ ∀ entry ∈ extra, entry ∈ ys.map (·.entry) := by
    induction ys with
    | nil => exact fun kept => ⟨[], by simp, by simp⟩
    | cons d ys ih =>
      intro kept
      rw [foldl_cons, map_cons]
      split_ifs
      · obtain ⟨extra, hextra, hmem⟩ := ih (kept ++ [d.entry])
        refine ⟨d.entry :: extra, by rw [hextra]; simp, ?_⟩
        intro entry hentry
        rcases mem_cons.mp hentry with rfl | hentry
        · exact mem_cons_self
        · exact mem_cons_of_mem _ (hmem entry hentry)
      · obtain ⟨extra, hextra, hmem⟩ := ih kept
        exact ⟨extra, hextra, fun entry hentry => mem_cons_of_mem _ (hmem entry hentry)⟩
  obtain ⟨extra, hextra, hmem⟩ := hfold (keptEntries xs)
  refine ⟨extra, ?_, hmem⟩
  rw [keptEntries, foldl_append]
  exact hextra

theorem keptEntries_of_nodup (h : ((r.filter (·.keep)).map (·.entry)).Nodup) :
    keptEntries r = (r.filter (·.keep)).map (·.entry) := by
  induction r using reverseRecOn with
  | nil => rfl
  | append_singleton r d ih =>
    rw [filter_append, map_append] at h ⊢
    rw [keptEntries, foldl_append, ← keptEntries, ih h.of_append_left]
    by_cases hd : d.keep = true
    · rw [filter_cons_of_pos hd, filter_nil] at h ⊢
      rw [foldl_cons, foldl_nil, if_pos]
      · rfl
      · refine ⟨hd, fun hmem => ?_⟩
        exact (nodup_append'.mp h).2.2 hmem (by simp)
    · rw [filter_cons_of_neg hd, foldl_cons, foldl_nil,
        if_neg fun hkeep => hd hkeep.1]
      simp

theorem namesLength_filter (r : List RunpathDir) :
    namesLength (r.map (·.entry)) = namesLength ((r.filter (·.keep)).map (·.entry)) +
      namesLength ((r.filter fun d => !d.keep).map (·.entry)) := by
  induction r with
  | nil => rfl
  | cons d r ih =>
    cases hd : d.keep
    · simp [hd, ih]
      omega
    · simp [hd, ih]
      omega

theorem namesLength_le_of_nodup {xs ys : List Bytes} (h : xs.Nodup) (hsub : xs ⊆ ys) :
    namesLength xs ≤ namesLength ys := by
  obtain ⟨zs, hperm, hsublist⟩ := subperm_of_subset h hsub
  calc namesLength xs = namesLength zs := (hperm.symm.map _).sum_eq
    _ ≤ namesLength ys := namesLength_le_of_sublist hsublist

/-! ## The selection and its directories -/

/-- What the loop over the NEEDED keeps up: of the first `n` directories those that are no longer
kept serve a NEEDED. -/
structure Tracked (n : Nat) (r : List RunpathDir) (needed : List Needed) (s : Selection) :
    Prop where
  rekept : Rekept n r s.runpath
  freed : ∀ i < n, ∀ d, s.runpath[i]? = some d → d.keep = false → ∃ x ∈ s.direct, x.index = i
  found : ∀ x ∈ s.direct, ∃ d, s.runpath[x.index]? = some d ∧ d.entry = x.entry
  libs : ∀ x ∈ s.direct, x.lib ∈ needed

theorem Tracked.visit {host : Host} {old : Bytes} (h : Tracked n r needed s) {lib : Needed}
    (hlib : lib ∈ needed) : Tracked n r needed (s.visit host old lib) := by
  unfold Selection.visit
  split_ifs
  · exact h
  · cases hfind : s.runpath.zipIdx.find? fun d => host.existing (appendPath d.1.dir lib.name) with
    | none => exact ⟨h.rekept, h.freed, h.found, h.libs⟩
    | some found =>
      obtain ⟨d, index⟩ := found
      dsimp only
      split_ifs
      · exact h
      · obtain ⟨hd, -, -⟩ := find?_zipIdx
          (fun d => host.existing (appendPath d.dir lib.name)) hfind
        refine ⟨h.rekept.setKeep_false index, ?_, ?_, ?_⟩
        · intro i hi d' hd' hkeep
          by_cases hindex : index = i
          · exact ⟨_, mem_append_right _ (mem_singleton_self _), hindex⟩
          · rw [getElem?_setKeep, Option.map_eq_some_iff] at hd'
            obtain ⟨d'', hd'', rfl⟩ := hd'
            rw [if_neg hindex] at hkeep
            obtain ⟨x, hx, hxi⟩ := h.freed i hi d'' hd'' hkeep
            exact ⟨x, mem_append_left _ hx, hxi⟩
        · intro x hx
          have hfound : ∃ d, s.runpath[x.index]? = some d ∧ d.entry = x.entry := by
            rcases mem_append.mp hx with hx | hx
            · exact h.found x hx
            · rw [mem_singleton.mp hx]
              exact ⟨d, hd, rfl⟩
          obtain ⟨d', hd', hentry⟩ := hfound
          dsimp only
          rw [getElem?_setKeep, hd', Option.map_some]
          refine ⟨_, rfl, ?_⟩
          split_ifs <;> exact hentry
        · intro x hx
          rcases mem_append.mp hx with hx | hx
          · exact h.libs x hx
          · rw [mem_singleton.mp hx]
            exact hlib

variable (old : Bytes)

theorem Tracked.foldl_visit {host : Host} {libs : List Needed}
    (h : Tracked n r needed s) (hlibs : ∀ lib ∈ libs, lib ∈ needed) :
    Tracked n r needed (libs.foldl (Selection.visit host old) s) := by
  induction libs generalizing s with
  | nil => exact h
  | cons lib libs ih =>
    rw [forall_mem_cons] at hlibs
    exact ih (h.visit hlibs.1) hlibs.2

def restored (s : Selection) : List RunpathDir :=
  s.direct.foldl (fun r d => setKeep true d.index r) s.runpath

theorem map_foldl_setKeep (direct : List Direct) (r : List RunpathDir) :
    (direct.foldl (fun r d => setKeep true d.index r) r).map (fun d => (d.entry, d.dir)) =
      r.map fun d => (d.entry, d.dir) := by
  induction direct generalizing r with
  | nil => rfl
  | cons d direct ih => rw [foldl_cons, ih, map_setKeep]

theorem keep_foldl_setKeep {direct : List Direct} {i : Nat} {d : RunpathDir}
    (hd : (direct.foldl (fun r d => setKeep true d.index r) r)[i]? = some d)
    (h : (∃ x ∈ direct, x.index = i) ∨ ∀ d', r[i]? = some d' → d'.keep = true) :
    d.keep = true := by
  induction direct generalizing r with
  | nil =>
    rcases h with ⟨x, hx, -⟩ | h
    · cases hx
    · exact h d hd
  | cons y direct ih =>
    apply ih hd
    by_cases hy : y.index = i
    · right
      intro d' hd'
      rw [getElem?_setKeep, Option.map_eq_some_iff] at hd'
      obtain ⟨d'', -, rfl⟩ := hd'
      rw [if_pos hy]
    · rcases h with ⟨x, hx, hxi⟩ | h
      · left
        rcases mem_cons.mp hx with rfl | hx
        · exact absurd hxi hy
        · exact ⟨x, hx, hxi⟩
      · right
        intro d' hd'
        rw [getElem?_setKeep, Option.map_eq_some_iff] at hd'
        obtain ⟨d'', hd'', rfl⟩ := hd'
        rw [if_neg hy]
        exact h d'' hd''

theorem Tracked.keptEntries_restored (h : Tracked n r needed s)
    (hnodup : ((r.take n).map (·.entry)).Nodup) :
    ∃ extra, keptEntries (restored s) = (r.take n).map (·.entry) ++ extra ∧
      ∀ entry ∈ extra, entry ∈ r.map (·.entry) := by
  have hsame : (restored s).map (·.entry) = r.map (·.entry) :=
    map_entry_eq ((map_foldl_setKeep s.direct s.runpath).trans h.rekept.same)
  have hfirst : ((restored s).take n).map (·.entry) = (r.take n).map (·.entry) := by
    rw [map_take, hsame, ← map_take]
  have hall : ((restored s).take n).filter (·.keep) = (restored s).take n := by
    apply filter_eq_self.mpr
    intro d hd
    obtain ⟨i, hi⟩ := mem_iff_getElem?.mp hd
    rw [getElem?_take] at hi
    split_ifs at hi with hin
    apply keep_foldl_setKeep hi
    by_cases hkept : ∀ d', s.runpath[i]? = some d' → d'.keep = true
    · exact .inr hkept
    · push Not at hkept
      obtain ⟨d', hd', hkeep⟩ := hkept
      exact .inl (h.freed i hin d' hd' (by simpa using hkeep))
  obtain ⟨extra, hextra, hmem⟩ := keptEntries_append ((restored s).take n) ((restored s).drop n)
  rw [take_append_drop] at hextra
  refine ⟨extra, ?_, ?_⟩
  · rw [hextra, keptEntries_of_nodup (by rw [hall, hfirst]; exact hnodup), hall, hfirst]
  · intro entry hentry
    rw [← hsame]
    obtain ⟨d, hd, rfl⟩ := mem_map.mp (hmem entry hentry)
    exact mem_map_of_mem (mem_of_mem_drop hd)

/-- A directory that is no longer kept is paid for by the NEEDED it serves. -/
theorem Tracked.namesLength_le (h : Tracked n r needed s)
    (hnodup : ((r.take n).map (·.entry)).Nodup) :
    namesLength ((r.take n).map (·.entry)) ≤
      namesLength (keptEntries s.runpath) + namesLength (s.direct.map (·.entry)) := by
  have hsame := map_entry_eq h.rekept.same
  have hfirst : (s.runpath.take n).map (·.entry) = (r.take n).map (·.entry) := by
    rw [map_take, hsame, ← map_take]
  have hfilter := h.rekept.filter_keep
  have hkept : keptEntries s.runpath = ((s.runpath.take n).filter (·.keep)).map (·.entry) := by
    rw [← hfilter]
    apply keptEntries_of_nodup
    rw [hfilter]
    exact (hfirst ▸ hnodup).sublist (filter_sublist.map _)
  have hfreed : namesLength (((s.runpath.take n).filter fun d => !d.keep).map (·.entry)) ≤
      namesLength (s.direct.map (·.entry)) := by
    apply namesLength_le_of_nodup
    · exact (hfirst ▸ hnodup).sublist (filter_sublist.map _)
    · intro entry hentry
      obtain ⟨d, hd, rfl⟩ := mem_map.mp hentry
      obtain ⟨hd, hkeep⟩ := mem_filter.mp hd
      obtain ⟨i, hi⟩ := mem_iff_getElem?.mp hd
      rw [getElem?_take] at hi
      split_ifs at hi with hin
      obtain ⟨x, hx, hxi⟩ := h.freed i hin d hi (by simpa using hkeep)
      obtain ⟨d', hd', hentry⟩ := h.found x hx
      rw [hxi, hi, Option.some.injEq] at hd'
      rw [hd', hentry]
      exact mem_map_of_mem hx
  rw [← hfirst, namesLength_filter, ← hkept]
  omega

theorem length_targets (direct : List Direct) :
    namesLength (direct.map (·.entry)) + direct.length ≤
      (direct.flatMap fun d => 0 :: d.target).length := by
  induction direct with
  | nil => exact le_refl _
  | cons d direct ih =>
    rw [map_cons, namesLength_cons, flatMap_cons, length_append, length_cons,
      length_cons, Direct.target, length_append, length_cons]
    omega

/-- Without room to spare the list is rendered with all of the first directories. -/
theorem Tracked.layout_full (h : Tracked n r needed s) (hnodup : ((r.take n).map (·.entry)).Nodup)
    (hne : ∀ entry ∈ r.map (·.entry), entry ≠ []) (old : Bytes)
    (hold : old.length ≤ (join ((r.take n).map (·.entry)) [58]).length) :
    ∃ extra, (layout old s).blob = join ((r.take n).map (·.entry) ++ extra) [58] ∧
      ∀ entry ∈ extra, entry ≠ [] := by
  obtain ⟨extra, hextra, hmem⟩ := h.keptEntries_restored hnodup
  refine ⟨extra, ?_, fun entry hentry => hne entry (hmem entry hentry)⟩
  rw [← hextra]
  have hfirst : ∀ entry ∈ (r.take n).map (·.entry), entry ≠ [] := by
    intro entry hentry
    obtain ⟨d, hd, rfl⟩ := mem_map.mp hentry
    exact hne _ (mem_map_of_mem (mem_of_mem_take hd))
  unfold layout
  dsimp only
  split_ifs with hlong
  · rfl
  · by_cases hdirect : s.direct = []
    · rw [restored, hdirect]
      simp [renderRunpath]
    · -- the paths take more than was there
      exfalso
      apply hlong
      have hpos : 0 < s.direct.length := length_pos_iff.mpr hdirect
      have htargets := length_targets s.direct
      have hpay := h.namesLength_le hnodup
      have hkept : namesLength (keptEntries s.runpath) ≤ (renderRunpath s.runpath).length + 1 := by
        by_cases hnil : keptEntries s.runpath = []
        · rw [hnil]
          exact zero_le _
        · refine (length_join ?_ hnil).ge
          intro entry hentry
          obtain ⟨d, hd, rfl⟩ := mem_map.mp ((keptEntries_sublist s.runpath).subset hentry)
          apply hne
          rw [← map_entry_eq h.rekept.same]
          exact mem_map_of_mem (mem_of_mem_filter hd)
      rw [length_append]
      by_cases hnil : (r.take n).map (·.entry) = []
      · rw [hnil] at hold
        have hzero : old.length = 0 := le_zero.mp hold
        omega
      · have hlen := length_join hfirst hnil
        omega

/-! ## The RUNPATH of a run -/

def selection (host : Host) (storeDir : Bytes) (ctx : FixupContext) (path old : Bytes)
    (needed : List Needed) (complaints : List Complaint) : Selection :=
  needed.foldl (Selection.visit host old)
    ⟨relativizeRunpath storeDir ctx old (parentPath path), [], complaints⟩

def newEntries (old : Bytes) (s : Selection) : List Bytes :=
  keptEntries (if old.length < (renderRunpath s.runpath ++
    s.direct.flatMap fun d => 0 :: d.target).length then restored s else s.runpath)

theorem relativizeRunpath_append (storeDir : Bytes) (ctx : FixupContext) (old here : Bytes) :
    ∃ own, relativizeRunpath storeDir ctx old here =
        (split old 58).filterMap (relativizeEntry storeDir ctx (ctx.final here)) ++ own ∧
      (∀ d ∈ own, d.keep = false) ∧
      ∀ d ∈ own, ∃ dir ∈ ctx.ownLibDirs, d.entry =
        relativeTo (ctx.final here) (ctx.final dir) origin
    := by
  refine ⟨_, rfl, ?_, ?_⟩
  · intro d hd
    obtain ⟨dir, -, rfl⟩ := mem_map.mp hd
    rfl
  · intro d hd
    obtain ⟨dir, hdir, rfl⟩ := mem_map.mp hd
    exact ⟨dir, hdir, rfl⟩

theorem relativizeEntry_eq_some {storeDir : Bytes} {ctx : FixupContext} {finalHere entry : Bytes}
    {d : RunpathDir} (h : relativizeEntry storeDir ctx finalHere entry = some d) :
    d.keep = true ∧ ∃ dir, isStorePath storeDir dir = true ∧
      d.entry = relativeTo finalHere dir origin := by
  unfold relativizeEntry at h
  dsimp only at h
  split_ifs at h with hstore
  cases h
  exact ⟨rfl, _, hstore, rfl⟩

theorem tracked_selection (host : Host) (storeDir : Bytes) (ctx : FixupContext) (path old : Bytes)
    (needed : List Needed) (complaints : List Complaint) :
    Tracked ((split old 58).filterMap
        (relativizeEntry storeDir ctx (ctx.final (parentPath path)))).length
      (relativizeRunpath storeDir ctx old (parentPath path)) needed
      (selection host storeDir ctx path old needed complaints) := by
  obtain ⟨own, hrunpath, hown, -⟩ := relativizeRunpath_append storeDir ctx old (parentPath path)
  refine Tracked.foldl_visit old ⟨⟨rfl, ?_⟩, ?_, by simp, by simp⟩ fun _ hlib => hlib
  · rw [hrunpath, drop_left]
    exact hown
  · intro i hi d hd hkeep
    dsimp only at hd
    rw [hrunpath, getElem?_append_left hi] at hd
    obtain ⟨entry, -, hentry⟩ := mem_filterMap.mp (mem_of_getElem? hd)
    rw [(relativizeEntry_eq_some hentry).1] at hkeep
    cases hkeep

theorem relativizeRunpath_ne_nil (storeDir : Bytes) (ctx : FixupContext) (old here : Bytes) :
    ∀ entry ∈ (relativizeRunpath storeDir ctx old here).map (·.entry), entry ≠ [] := by
  obtain ⟨own, hrunpath, -, hown⟩ := relativizeRunpath_append storeDir ctx old here
  intro entry hentry
  obtain ⟨d, hd, rfl⟩ := mem_map.mp hentry
  rw [hrunpath] at hd
  rcases mem_append.mp hd with hd | hd
  · obtain ⟨e, -, he⟩ := mem_filterMap.mp hd
    obtain ⟨-, dir, -, hdir⟩ := relativizeEntry_eq_some he
    rw [hdir]
    exact relativeTo_ne_nil _ _
  · obtain ⟨dir, -, hdir⟩ := hown d hd
    rw [hdir]
    exact relativeTo_ne_nil _ _

theorem made_of_root (here : NormalPath) {dir : Bytes} (h : dir.head? = some 47) :
    Made here (relativeTo here.text dir origin) := by
  have hne : dir ≠ [] := by
    rintro rfl
    cases h
  refine ⟨of dir, by rw [← beq_iff_eq] at h; exact h, ?_⟩
  rw [relativeTo, relativeTo, lexicallyNormal_text, lexicallyNormal_eq hne]

section

variable {host : Host} {storeDir : Bytes} {ctx : FixupContext} {path : Bytes} {here : NormalPath}

theorem made_of_mem_newEntries (hstore : storeDir.head? = some 47)
    (hown : ∀ own ∈ ctx.ownLibDirs, (ctx.final own).head? = some 47)
    (hfinal : ctx.final (parentPath path) = here.text) {old : Bytes} {needed : List Needed}
    {complaints : List Complaint} :
    ∀ entry ∈ newEntries old (selection host storeDir ctx path old needed complaints),
      Made here entry := by
  set s := selection host storeDir ctx path old needed complaints with hs
  obtain ⟨own, hrunpath, -, hownDirs⟩ := relativizeRunpath_append storeDir ctx old (parentPath path)
  have hsame := (tracked_selection host storeDir ctx path old needed complaints).rekept.same
  have hentries : ∀ r : List RunpathDir, r = s.runpath ∨ r = restored s →
      r.map (·.entry) = (relativizeRunpath storeDir ctx old (parentPath path)).map (·.entry) := by
    rintro r (rfl | rfl)
    · exact map_entry_eq hsame
    · exact map_entry_eq ((map_foldl_setKeep s.direct s.runpath).trans hsame)
  intro entry hentry
  have hmem : entry ∈ (relativizeRunpath storeDir ctx old (parentPath path)).map (·.entry) := by
    unfold newEntries at hentry
    obtain ⟨d, hd, rfl⟩ := mem_map.mp ((keptEntries_sublist _).subset hentry)
    have hd := mem_map_of_mem (f := RunpathDir.entry) (mem_of_mem_filter hd)
    split_ifs at hd
    · rwa [hentries _ (.inr rfl)] at hd
    · rwa [hentries _ (.inl rfl)] at hd
  obtain ⟨d, hd, rfl⟩ := mem_map.mp hmem
  rw [hrunpath, hfinal] at hd
  rcases mem_append.mp hd with hd | hd
  · obtain ⟨e, -, he⟩ := mem_filterMap.mp hd
    obtain ⟨-, dir, hdir, hentry⟩ := relativizeEntry_eq_some he
    rw [hentry]
    apply made_of_root
    obtain ⟨rest, rfl⟩ := isPrefixOf_iff_prefix.mp hdir
    obtain ⟨tail, rfl⟩ := head?_eq_some_iff.mp hstore
    rfl
  · obtain ⟨dir, hdir, hentry⟩ := hownDirs d hd
    rw [hentry, hfinal]
    exact made_of_root here (hown dir hdir)

/-- The RUNPATH of a run is what the next one makes of it, or that would be longer. -/
theorem layout_again (hhere : here.root = true) (hfinal : ctx.final (parentPath path) = here.text)
    {entries : List Bytes} (hmade : ∀ entry ∈ entries, Made here entry)
    (hsettled : Settled storeDir here.text entries) (needed : List Needed)
    (complaints : List Complaint) :
    (layout (join entries [58]) (selection host storeDir ctx path (join entries [58]) needed
        complaints)).blob = join entries [58] ∨
      (join entries [58]).length < (layout (join entries [58]) (selection host storeDir ctx path
        (join entries [58]) needed complaints)).blob.length := by
  have hne : ∀ entry ∈ entries, entry ≠ [] := by
    intro entry hentry
    obtain ⟨t, -, rfl⟩ := hmade entry hentry
    exact relativeTo_ne_nil _ _
  have hagain : ∀ entry ∈ entries, again here.text entry = entry ∨
      again here.text entry = entry ++ [47] := fun entry hentry =>
    (again_of_made hhere (hmade entry hentry)).1
  -- every entry is one of the directories of the next run
  have hentries : ∃ dirs : List RunpathDir, dirs.map (·.entry) = entries.map (again here.text) ∧
      entries.filterMap (relativizeEntry storeDir ctx here.text) = dirs := by
    refine ⟨entries.map fun entry => ⟨again here.text entry,
      ctx.onDisk (resolveOrigin here.text entry), true⟩, by rw [map_map]; rfl, ?_⟩
    rw [← filterMap_eq_map]
    apply filterMap_congr
    intro entry hentry
    obtain ⟨t, -, hmade⟩ := hmade entry hentry
    have hdir : runpathDir ctx here.text entry = resolveOrigin here.text entry := by
      apply if_pos
      rw [hmade]
      exact origin_isPrefixOf_relativeTo _ _
    rw [relativizeEntry, hdir]
    exact if_pos (hsettled.store entry hentry)
  obtain ⟨dirs, hdirs, hfilter⟩ := hentries
  have htracked := tracked_selection host storeDir ctx path (join entries [58]) needed complaints
  obtain ⟨own, hrunpath, -, -⟩ :=
    relativizeRunpath_append storeDir ctx (join entries [58]) (parentPath path)
  have hne' := relativizeRunpath_ne_nil storeDir ctx (join entries [58]) (parentPath path)
  rw [split_join hne hsettled.colon, hfinal, hfilter] at htracked hrunpath
  have hfirst : ((relativizeRunpath storeDir ctx (join entries [58]) (parentPath path)).take
      dirs.length).map (·.entry) = entries.map (again here.text) := by
    rw [hrunpath, take_left, hdirs]
  have hnodup : (entries.map (again here.text)).Nodup := by
    apply List.Nodup.of_map (resolveOrigin here.text)
    have hsame : (entries.map (again here.text)).map (resolveOrigin here.text) =
        entries.map (resolveOrigin here.text) := by
      rw [map_map]
      exact map_congr_left fun entry hentry => (again_of_made hhere (hmade entry hentry)).2
    rw [hsame]
    exact hsettled.nodup
  have hroom : (join entries [58]).length ≤ (join (entries.map (again here.text)) [58]).length := by
    have h := join_settles [] hagain hne (by simp)
    rw [append_nil] at h
    rcases h with h | h
    · rw [h]
    · omega
  obtain ⟨extra, hblob, hextra⟩ := htracked.layout_full
    (by rw [hfirst]; exact hnodup) hne' (join entries [58]) (by rw [hfirst]; exact hroom)
  rw [hblob, hfirst]
  exact join_settles extra hagain hne hextra

end

/-! ## What `FixRunpath` leaves -/

section

variable {host : Host} {storeDir : Bytes} {ctx : FixupContext} {path : Bytes}
  {sections : List Section} {fuel : Nat} {p p' : Progress} {dynamic : DynamicInfo}

theorem layout_blob (s : Selection) :
    (layout old s).neu = join (newEntries old s) [58] ∧
      ∃ tail, (layout old s).blob = join (newEntries old s) [58] ++ tail ∧
        (tail = [] ∨ tail.head? = some 0) := by
  unfold layout newEntries
  dsimp only
  split_ifs
  · exact ⟨rfl, [], (append_nil _).symm, .inl rfl⟩
  · refine ⟨rfl, _, rfl, ?_⟩
    cases s.direct with
    | nil => exact .inl rfl
    | cons d direct => exact .inr rfl

theorem layout_direct_subset (s : Selection) :
    ∀ d ∈ (layout old s).direct, d ∈ s.direct := by
  unfold layout
  dsimp only
  split_ifs
  · simp
  · exact fun d hd => hd

/-- When `FixRunpath` goes on: there is no RUNPATH, or it stays, or it was written. -/
theorem fixRunpath_true (hdynamic : readDynamic p.bytes sections fuel = .ok dynamic)
    (h : fixRunpath host storeDir ctx path sections fuel p = .ok (true, p')) :
    dynamic.runpathOffset = none ∧ p' = p ∨
    ∃ off old l, dynamic.runpathOffset = some off ∧ cString p.bytes off = .ok old ∧
      l = layout old (selection host storeDir ctx path old dynamic.needed p.complaints) ∧
      (l.blob = old ∧ p'.bytes = p.bytes ∧ p'.dirty = p.dirty ∨
        l.blob ≠ old ∧ ∃ bytes str, writePadded p.bytes off (old.length + 1) l.blob =
          (true, bytes) ∧
          p'.bytes = writeNames str bytes l.direct) := by
  rw [fixRunpath, hdynamic] at h
  simp only [bind, Except.bind] at h
  cases hoff : dynamic.runpathOffset with
  | none =>
    rw [hoff] at h
    cases h
    exact .inl ⟨rfl, rfl⟩
  | some off =>
    rw [hoff] at h
    simp only [cString_eq] at h
    refine .inr ⟨off, _, _, rfl, cString_eq _ _, rfl, ?_⟩
    rw [selection]
    set old := (p.bytes.drop off).takeWhile (· ≠ 0) with hold
    split_ifs at h with hsame
    · cases h
      exact .inl ⟨hsame, rfl, rfl⟩
    · right
      cases hsym : symbolInside p.bytes sections off (wrap (off + old.length)) fuel with
      | error fault =>
        rw [hsym] at h
        cases h
      | ok found =>
        rw [hsym] at h
        cases found with
        | some sym => cases h
        | none =>
          dsimp only at h
          split at h
          · cases h
          · rename_i bytes hplaced
            cases h
            exact ⟨hsame, bytes, _, hplaced, rfl⟩

theorem notMem_join {entries : List Bytes} (h : ∀ entry ∈ entries, 0 ∉ entry) :
    0 ∉ join entries [58] := by
  have hfold : ∀ (entries : List Bytes) (out : Bytes), (∀ entry ∈ entries, 0 ∉ entry) → 0 ∉ out →
      0 ∉ entries.foldl (fun out part => (if out = [] then out else out ++ [58]) ++ part) out := by
    intro entries
    induction entries with
    | nil => exact fun out _ hout => hout
    | cons entry entries ih =>
      intro out hentries hout
      rw [forall_mem_cons] at hentries
      refine ih _ hentries.2 ?_
      dsimp only
      split_ifs <;> simp [hout, hentries.1]
  exact hfold entries [] h (by simp)

variable {bytes : Bytes}

theorem cString_writePadded {bytes' text tail : Bytes} {off capacity : Nat}
    (hzero : 0 ∉ text) (htail : tail = [] ∨ tail.head? = some 0)
    (h : writePadded bytes off capacity (text ++ tail) = (true, bytes')) :
    cString bytes' off = .ok text := by
  obtain ⟨hfits, hroom, hbytes⟩ := writePadded_eq_true h
  have hlen : (bytes.take off).length = off := by
    rw [length_take]
    omega
  obtain ⟨k, hk⟩ : ∃ k, capacity - (text ++ tail).length = k + 1 :=
    ⟨capacity - (text ++ tail).length - 1, by omega⟩
  have hafter : ∃ rest, tail ++ replicate (k + 1) 0 = 0 :: rest := by
    rcases htail with rfl | htail
    · exact ⟨replicate k 0, rfl⟩
    · obtain ⟨tail, rfl⟩ := head?_eq_some_iff.mp htail
      exact ⟨_, rfl⟩
  obtain ⟨rest, hrest⟩ := hafter
  have hdrop : ∃ more, bytes'.drop off = text ++ 0 :: more := by
    rw [hbytes, overwriteAt, hk, append_assoc, drop_append_of_le_length hlen.ge,
      drop_of_length_le hlen.le, nil_append, append_assoc, append_assoc,
      ← append_assoc tail, hrest]
    exact ⟨_, rfl⟩
  obtain ⟨more, hmore⟩ := hdrop
  rw [cString_eq, hmore, takeWhile_append_of_pos, takeWhile_cons_of_neg (by simp),
    append_nil]
  intro c hc
  rw [decide_eq_true_iff]
  rintro rfl
  exact hzero hc

/-- The bytes that `FixRunpath` may change, and what it leaves as the RUNPATH. -/
theorem fixRunpath_leaves (hdynamic : readDynamic p.bytes sections fuel = .ok dynamic)
    (hslot : Separate (valRanges dynamic.needed ++ vnFileRanges dynamic.needed)
      (slotRange p.bytes dynamic))
    (hzero : ∀ off old, dynamic.runpathOffset = some off → cString p.bytes off = .ok old →
      ∀ entry ∈ newEntries old (selection host storeDir ctx path old dynamic.needed p.complaints),
        0 ∉ entry)
    (h : fixRunpath host storeDir ctx path sections fuel p = .ok (true, p')) :
    AgreeOff (covered (slotRange p.bytes dynamic ++
      (valRanges dynamic.needed ++ vnFileRanges dynamic.needed))) p.bytes p'.bytes ∧
    ∀ off, dynamic.runpathOffset = some off → ∃ old, cString p.bytes off = .ok old ∧
      cString p'.bytes off = .ok (join (newEntries old
        (selection host storeDir ctx path old dynamic.needed p.complaints)) [58]) ∧
      (join (newEntries old
        (selection host storeDir ctx path old dynamic.needed p.complaints)) [58]).length ≤
          old.length := by
  rcases fixRunpath_true hdynamic h with ⟨hnone, rfl⟩ | ⟨off, old, l, hoff, hold, rfl, hcases⟩
  · refine ⟨.refl _ _, fun off hoff => ?_⟩
    rw [hnone] at hoff
    cases hoff
  have hzero := hzero off old hoff hold
  set s := selection host storeDir ctx path old dynamic.needed p.complaints with hs
  obtain ⟨-, tail, hblob, htail⟩ := layout_blob old s
  have hjoin : 0 ∉ join (newEntries old s) [58] := notMem_join hzero
  have hslotEq : slotRange p.bytes dynamic = [(off, old.length + 1)] := by
    rw [cString_eq, Except.ok.injEq] at hold
    rw [slotRange, hoff]
    dsimp only
    rw [hold]
  rcases hcases with ⟨hsame, hbytes, -⟩ | ⟨-, bytes, str, hplaced, hbytes⟩
  · -- the string that is there has no terminator in it, so no path is behind it
    have hnone : tail = [] := by
      rcases htail with htail | htail
      · exact htail
      · exfalso
        have hmem : 0 ∈ old := by
          rw [← hsame, hblob]
          exact mem_append_right _ (mem_of_mem_head? htail)
        rw [cString_eq, Except.ok.injEq] at hold
        rw [← hold] at hmem
        have hnonzero := mem_takeWhile_imp (p := fun c : UInt8 => decide (c ≠ 0)) hmem
        simp at hnonzero
    rw [hnone, append_nil] at hblob
    rw [hbytes]
    refine ⟨.refl _ _, fun off' hoff' => ?_⟩
    rw [hoff, Option.some.injEq] at hoff'
    subst hoff'
    refine ⟨old, hold, ?_, ?_⟩
    · rw [hold, ← hblob, hsame]
    · rw [← hblob, hsame]
  · have hagreeSlot : AgreeOff (covered (slotRange p.bytes dynamic)) p.bytes bytes := by
      have hw := agreeOff_writePadded p.bytes off (old.length + 1) (layout old s).blob
      rwa [hplaced, ← hslotEq] at hw
    have hagreeNames : AgreeOff
        (covered (valRanges dynamic.needed ++ vnFileRanges dynamic.needed)) bytes p'.bytes := by
      rw [hbytes]
      apply agreeOff_writeNames
      intro d hd
      exact (tracked_selection host storeDir ctx path old dynamic.needed p.complaints).libs d
        (layout_direct_subset old s d hd)
    have hlen : (join (newEntries old s) [58]).length ≤ old.length := by
      obtain ⟨hfits, -, -⟩ := writePadded_eq_true hplaced
      have hblobLen := congrArg length hblob
      rw [length_append] at hblobLen
      omega
    refine ⟨(hagreeSlot.mono (covered_mono fun r hr => mem_append_left _ hr)).trans
      (hagreeNames.mono (covered_mono fun r hr => mem_append_right _ hr)), ?_⟩
    intro off' hoff'
    rw [hoff, Option.some.injEq] at hoff'
    subst hoff'
    refine ⟨old, hold, ?_, hlen⟩
    rw [hblob] at hplaced
    apply cString_agree hagreeNames (cString_writePadded hjoin htail hplaced)
    rw [hslotEq] at hslot
    apply hslot.symm.within
    intro x hx
    rw [mem_singleton.mp hx]
    exact ⟨_, mem_singleton_self _, le_refl _, by dsimp only; omega⟩

/-- A RUNPATH that the next run takes as it is stays. -/
theorem fixRunpath_settled (hhere : here.root = true)
    (hfinal : ctx.final (parentPath path) = here.text)
    (hdynamic : readDynamic p.bytes sections fuel = .ok dynamic)
    (hentries : ∀ off, dynamic.runpathOffset = some off → ∃ entries,
      cString p.bytes off = .ok (join entries [58]) ∧ (∀ entry ∈ entries, Made here entry) ∧
      Settled storeDir here.text entries)
    (h : fixRunpath host storeDir ctx path sections fuel p = .ok (true, p')) :
    p'.bytes = p.bytes ∧ p'.dirty = p.dirty := by
  rcases fixRunpath_true hdynamic h with ⟨-, rfl⟩ | ⟨off, old, l, hoff, hold, rfl, hcases⟩
  · exact ⟨rfl, rfl⟩
  obtain ⟨entries, hstring, hmade, hsettled⟩ := hentries off hoff
  rw [hstring, Except.ok.injEq] at hold
  subst hold
  rcases hcases with ⟨-, hbytes, hdirty⟩ | ⟨hother, bytes, str, hplaced, -⟩
  · exact ⟨hbytes, hdirty⟩
  · -- whatever is not the same does not fit
    obtain ⟨hfits, -, -⟩ := writePadded_eq_true hplaced
    rcases layout_again hhere hfinal hmade hsettled dynamic.needed p.complaints with h | h
    · exact absurd h hother
    · omega

end

/-! ## The whole file -/

def fixedFile (host : Host) (storeDir : Bytes) (ctx : FixupContext) (path : Bytes) (fuel : Nat)
    (bytes : Bytes) : Bytes :=
  match fixElf host storeDir ctx path bytes fuel with
  | .ok outcome => outcome.written.getD bytes
  | .error _ => bytes

/-- The tables of the file do not overlap, and the RUNPATH it gets is taken as it is. -/
structure Repeatable (host : Host) (storeDir : Bytes) (ctx : FixupContext) (path : Bytes)
    (here : NormalPath) (bytes : Bytes) (fuel : Nat) : Prop where
  apart : ∀ ehdr sections dynamic, readEhdr bytes = .ok (some ehdr) →
    readSections bytes ehdr = .ok sections → readDynamic bytes sections fuel = .ok dynamic →
    Disentangled bytes ehdr sections dynamic
  settled : ∀ ehdr sections dynamic off old, readEhdr bytes = .ok (some ehdr) →
    readSections bytes ehdr = .ok sections → readDynamic bytes sections fuel = .ok dynamic →
    dynamic.runpathOffset = some off → cString bytes off = .ok old →
    Settled storeDir here.text
      (newEntries old (selection host storeDir ctx path old dynamic.needed []))

section

variable {host : Host} {storeDir final bytes path : Bytes} {ctx : FixupContext} {fuel : Nat}

theorem fixElf_written {outcome : Outcome}
    (h : fixElf host storeDir ctx path bytes fuel = .ok outcome)
    (hwritten : outcome.written = some final) :
    ∃ ehdr sections p p', readEhdr bytes = .ok (some ehdr) ∧
      readSections bytes ehdr = .ok sections ∧
      fixRunpath host storeDir ctx path sections fuel
        ⟨bytes, [], [host.relative path ctx.prefixDir], false⟩ = .ok (true, p) ∧
      fixInterp storeDir ctx path ehdr sections fuel p = .ok (true, p') ∧
      p'.dirty = true ∧ p'.bytes = final := by
  unfold fixElf at h
  split_ifs at h
  · cases h
    cases hwritten
  obtain ⟨ehdr, hehdr, h⟩ := bind_eq_ok.mp h
  cases ehdr with
  | none =>
    cases h
    cases hwritten
  | some ehdr =>
    dsimp only at h
    split_ifs at h
    · cases h
      cases hwritten
    obtain ⟨sections, hsections, h⟩ := bind_eq_ok.mp h
    obtain ⟨⟨fine, p⟩, hrunpath, h⟩ := bind_eq_ok.mp h
    cases fine with
    | false =>
      cases h
      cases hwritten
    | true =>
      obtain ⟨⟨fine, p'⟩, hinterp, h⟩ := bind_eq_ok.mp h
      cases fine with
      | false =>
        cases h
        cases hwritten
      | true =>
        dsimp only at h
        by_cases hback : p'.dirty = true ∧ host.writeBack path p'.bytes = false
        · rw [if_pos hback] at h
          cases h
          cases hwritten
        · rw [if_neg hback] at h
          obtain ⟨leak, -, h⟩ := bind_eq_ok.mp h
          cases h
          dsimp only at hwritten
          split_ifs at hwritten with hdirty
          cases hwritten
          exact ⟨ehdr, sections, p, p', hehdr, hsections, hrunpath, hinterp, hdirty, rfl⟩

/-- The bytes that `FixInterp` may change; if there is no stub, none, and else no interpreter is
left. -/
theorem fixInterp_leaves {ehdr : Ehdr} {sections : List Section} {p p' : Progress}
    (hapart : HeadersApart p.bytes ehdr) (hheader : slice p.bytes 0 64 = ehdr.raw)
    (h : fixInterp storeDir ctx path ehdr sections fuel p = .ok (true, p')) :
    AgreeOff (covered (headerRange ++ phdrRanges ehdr ++ interpRanges p.bytes ehdr)) p.bytes
      p'.bytes ∧
    SameTables ehdr ⟨slice p'.bytes 0 64⟩ ∧
    (findRelocStart p.bytes ehdr sections fuel = .ok none ∧ p'.bytes = p.bytes ∨
      NoInterp p'.bytes ehdr) := by
  obtain ⟨stub, hstub, hloop⟩ := bind_eq_ok.mp h
  cases stub with
  | none =>
    have hbytes := (interpLoop_noStub hloop).1
    rw [hbytes, hheader]
    exact ⟨.refl _ _, .refl _, .inl ⟨hstub, rfl⟩⟩
  | some entry =>
    obtain ⟨j, hhanded, hnone⟩ := interpLoop_handed hapart (p := p) (i := 0)
      ⟨.refl _ _, .inl hheader, fun j hj => absurd hj (not_lt_zero j), fun _ _ _ => rfl⟩
      (zero_add _) hloop
    refine ⟨hhanded.agree, ?_, .inr hnone⟩
    rcases hhanded.header with hsame | hentry
    · rw [hsame]
      exact .refl _
    · rw [hentry]
      exact sameTables_withEntry hapart.raw entry

theorem valRanges_within {sections : List Section} {needed : List Needed}
    (h : ∀ lib ∈ needed, ∃ s, sections.find? (·.type = shtDynamic) = some s ∧
      NeededAt bytes s.offset (sectionEnd bytes s) lib) :
    ∀ x ∈ valRanges needed, ∃ y ∈ dynamicRanges bytes sections, y.1 ≤ x.1 ∧
      x.1 + x.2 ≤ y.1 + y.2 := by
  intro x hx
  obtain ⟨lib, hlib, rfl⟩ := mem_map.mp hx
  obtain ⟨s, hs, k, hk, hval, -⟩ := h lib hlib
  refine ⟨(s.offset + 16 * k, 16), ?_, ?_, ?_⟩
  · rw [dynamicRanges, hs]
    exact mem_entryRanges hk
  · dsimp only
    omega
  · dsimp only
    omega

theorem interpRanges_agree {ranges : List (Nat × Nat)} {a b : Bytes} {ehdr : Ehdr}
    (h : AgreeOff (covered ranges) a b) (hsep : Separate (phdrRanges ehdr) ranges) :
    interpRanges b ehdr = interpRanges a ehdr := by
  rw [interpRanges, interpRanges]
  apply flatMap_congr
  intro i hi
  have hslice : slice a (phdrAt ehdr i) 56 = slice b (phdrAt ehdr i) 56 :=
    h.slice_of_separate (hsep.mono (by simpa using mem_phdrRanges (mem_range.mp hi)))
  rw [interpRange, interpRange, readPhdr_eq, readPhdr_eq, h.length, hslice]

def runpathWrites (bytes : Bytes) (dynamic : DynamicInfo) : List (Nat × Nat) :=
  slotRange bytes dynamic ++ (valRanges dynamic.needed ++ vnFileRanges dynamic.needed)

def interpWrites (bytes : Bytes) (ehdr : Ehdr) : List (Nat × Nat) :=
  headerRange ++ phdrRanges ehdr ++ interpRanges bytes ehdr

structure Rewritten (host : Host) (storeDir : Bytes) (ctx : FixupContext) (path : Bytes)
    (fuel : Nat) (bytes : Bytes) (ehdr : Ehdr) (sections : List Section) (dynamic : DynamicInfo)
    (final : Bytes) : Prop where
  agree : AgreeOff (covered (runpathWrites bytes dynamic ++ interpWrites bytes ehdr)) bytes final
  tables : SameTables ehdr ⟨slice final 0 64⟩
  runpath : ∀ off, dynamic.runpathOffset = some off → ∃ old, cString bytes off = .ok old ∧
    cString final off = .ok (join (newEntries old
      (selection host storeDir ctx path old dynamic.needed [])) [58])
  interp : findRelocStart final ehdr sections fuel = .ok none ∧ slice final 0 64 = ehdr.raw ∨
    NoInterp final ehdr

section

variable {ehdr : Ehdr} {sections : List Section} {dynamic : DynamicInfo}

variable (h : Disentangled bytes ehdr sections dynamic)

include h

theorem Disentangled.pairs :
    (Separate headerRange (phdrRanges ehdr) ∧ Separate headerRange (shdrRanges ehdr) ∧
      Separate headerRange (dynamicRanges bytes sections) ∧
      Separate headerRange (slotRange bytes dynamic)) ∧
    (Separate (phdrRanges ehdr) (shdrRanges ehdr) ∧
      Separate (phdrRanges ehdr) (dynamicRanges bytes sections) ∧
      Separate (phdrRanges ehdr) (slotRange bytes dynamic)) ∧
    (Separate (shdrRanges ehdr) (dynamicRanges bytes sections) ∧
      Separate (shdrRanges ehdr) (slotRange bytes dynamic)) ∧
    Separate (dynamicRanges bytes sections) (slotRange bytes dynamic) := by
  simpa [tableRanges] using h.tables

theorem Disentangled.phdrs_apart {i j : Nat}
    (hi : i < ehdr.phnum) (hj : j < ehdr.phnum) (hne : i ≠ j) :
    Separate [(phdrAt ehdr i, 56)] [(phdrAt ehdr j, 56)] := by
  have hlt : ∀ i j, i < j → j < ehdr.phnum →
      Separate [(phdrAt ehdr i, 56)] [(phdrAt ehdr j, 56)] := by
    intro i j hij hj
    have hphdrs := pairwise_iff_getElem.mp h.phdrs i j
      (by simp [phdrRanges]; omega) (by simpa [phdrRanges] using hj) hij
    simpa [phdrRanges] using hphdrs
  rcases lt_or_gt_of_ne hne with hij | hji
  · exact hlt i j hij hj
  · exact (hlt j i hji hi).symm

variable {table : List (Nat × Nat)}

/-- A table is apart from the `vn_file` fields and from the names of the interpreters. -/
theorem Disentangled.table_strings (htable : table ∈ tableRanges bytes ehdr sections dynamic) :
    Separate table (vnFileRanges dynamic.needed) ∧ Separate table (interpRanges bytes ehdr) := by
  have hstrings := h.strings table htable
  exact ⟨(hstrings.mono fun _ hr => mem_append_left _ hr).symm,
    (hstrings.mono fun _ hr => mem_append_right _ hr).symm⟩

omit h in
theorem separate_valRanges (hneeded : ∀ lib ∈ dynamic.needed, ∃ s,
      sections.find? (·.type = shtDynamic) = some s ∧
      NeededAt bytes s.offset (sectionEnd bytes s) lib)
    (h : Separate table (dynamicRanges bytes sections)) :
    Separate table (valRanges dynamic.needed) :=
  (h.symm.within (valRanges_within hneeded)).symm

theorem Disentangled.runpathWrites
    (hneeded : ∀ lib ∈ dynamic.needed, ∃ s, sections.find? (·.type = shtDynamic) = some s ∧
      NeededAt bytes s.offset (sectionEnd bytes s) lib)
    (htable : table ∈ tableRanges bytes ehdr sections dynamic)
    (hslot : Separate table (slotRange bytes dynamic))
    (hdyn : Separate table (dynamicRanges bytes sections)) :
    Separate table (runpathWrites bytes dynamic) :=
  (hslot.symm.append ((separate_valRanges hneeded hdyn).symm.append
    (h.table_strings htable).1.symm)).symm

theorem Disentangled.interpWrites (htable : table ∈ tableRanges bytes ehdr sections dynamic)
    (hheader : Separate table headerRange) (hphdrs : Separate table (phdrRanges ehdr)) :
    Separate table (interpWrites bytes ehdr) :=
  ((hheader.symm.append hphdrs.symm).append (h.table_strings htable).2.symm).symm

theorem rewritten_of_fixElf
    (hfits : bytes.length < 2 ^ 63) (hehdr : readEhdr bytes = .ok (some ehdr))
    (hdynamic : readDynamic bytes sections fuel = .ok dynamic)
    (hzero : ∀ off old, dynamic.runpathOffset = some off → cString bytes off = .ok old →
      ∀ entry ∈ newEntries old (selection host storeDir ctx path old dynamic.needed []), 0 ∉ entry)
    {log : List Bytes} {p p' : Progress}
    (hrunpath : fixRunpath host storeDir ctx path sections fuel ⟨bytes, [], log, false⟩ =
      .ok (true, p))
    (hinterp : fixInterp storeDir ctx path ehdr sections fuel p = .ok (true, p')) :
    Rewritten host storeDir ctx path fuel bytes ehdr sections dynamic p'.bytes := by
  have hneeded := readDynamic_needed hfits hdynamic
  obtain ⟨⟨hhp, -, hhd, hhl⟩, ⟨-, hpd, hpl⟩, -, hdl⟩ := h.pairs
  have hslotTable : slotRange bytes dynamic ∈ tableRanges bytes ehdr sections dynamic := by
    simp [tableRanges]
  -- the first half
  obtain ⟨hagree₁, hslot⟩ := fixRunpath_leaves hdynamic
    ((separate_valRanges hneeded hdl.symm).symm.append (h.table_strings hslotTable).1.symm)
    hzero hrunpath
  change AgreeOff (covered (Elf.runpathWrites bytes dynamic)) bytes p.bytes at hagree₁
  rw [readEhdr_eq, Except.ok.injEq] at hehdr
  split_ifs at hehdr with hroom
  have hraw : ehdr.raw = slice bytes 0 64 := by rw [← Option.some.inj hehdr]
  have hheaderTable : headerRange ∈ tableRanges bytes ehdr sections dynamic := by
    simp [tableRanges]
  have hheader : slice p.bytes 0 64 = ehdr.raw := by
    rw [hraw]
    exact (hagree₁.slice_of_separate (h.runpathWrites hneeded hheaderTable hhl hhd)).symm
  have hphdrTable : phdrRanges ehdr ∈ tableRanges bytes ehdr sections dynamic := by
    simp [tableRanges]
  have hinterps : interpRanges p.bytes ehdr = interpRanges bytes ehdr :=
    interpRanges_agree hagree₁ (h.runpathWrites hneeded hphdrTable hpl hpd)
  have hapart : HeadersApart p.bytes ehdr := by
    refine ⟨?_, by rw [← hagree₁.length]; exact hroom, hhp.symm,
      fun i j hi hj hne => h.phdrs_apart hi hj hne, ?_, ?_⟩
    · rw [hraw, slice, length_take, length_drop]
      omega
    · rw [hinterps]
      exact (h.table_strings hphdrTable).2
    · rw [hinterps]
      exact (h.table_strings hheaderTable).2.symm
  -- the second half
  obtain ⟨hagree₂, htables, hleft⟩ := fixInterp_leaves hapart hheader hinterp
  rw [hinterps] at hagree₂
  refine ⟨(hagree₁.mono (covered_mono fun _ hr => mem_append_left _ hr)).trans
    (hagree₂.mono (covered_mono fun _ hr => mem_append_right _ hr)), htables, ?_, ?_⟩
  · intro off hoff
    obtain ⟨old, hold, hstring, hshort⟩ := hslot off hoff
    refine ⟨old, hold, cString_agree hagree₂ hstring ?_⟩
    refine (h.interpWrites hslotTable hhl.symm hpl.symm).within fun x hx => ?_
    dsimp only at hold hshort
    rw [cString_eq, Except.ok.injEq] at hold
    rw [mem_singleton.mp hx, slotRange, hoff]
    dsimp only
    rw [hold]
    exact ⟨_, mem_singleton_self _, le_refl _, by dsimp only; omega⟩
  · rcases hleft with ⟨hnostub, hbytes⟩ | hnone
    · rw [hbytes]
      exact .inl ⟨hnostub, hheader⟩
    · exact .inr hnone

omit h in
theorem Rewritten.runpathOffset {dynamic' : DynamicInfo}
    (hrew : Rewritten host storeDir ctx path fuel bytes ehdr sections dynamic final)
    (h : Disentangled bytes ehdr sections dynamic) (hfits : bytes.length < 2 ^ 63)
    (hdynamic : readDynamic bytes sections fuel = .ok dynamic)
    (hdynamic' : readDynamic final sections fuel = .ok dynamic') :
    dynamic'.runpathOffset = dynamic.runpathOffset := by
  have hneeded := readDynamic_needed hfits hdynamic
  obtain ⟨⟨-, -, hhd, -⟩, ⟨-, hpd, -⟩, -, hdl⟩ := h.pairs
  have htable : dynamicRanges bytes sections ∈ tableRanges bytes ehdr sections dynamic := by
    simp [tableRanges]
  refine readDynamic_runpathOffset hfits hrew.agree.length (fun s hs => ?_) hdynamic hdynamic'
  have hagree : AgreeOff (covered (valRanges dynamic.needed ++ (slotRange bytes dynamic ++
      vnFileRanges dynamic.needed ++ Elf.interpWrites bytes ehdr))) bytes final := by
    refine hrew.agree.mono (covered_mono fun r hr => ?_)
    simp only [Elf.runpathWrites, mem_append] at hr ⊢
    tauto
  apply sameEntries_of_agree hagree
  · intro lib hlib
    obtain ⟨s', hs', hat⟩ := hneeded lib hlib
    rw [hs, Option.some.injEq] at hs'
    rwa [hs']
  · have hentries : dynamicRanges bytes sections = entryRanges s.offset (sectionEnd bytes s) := by
      rw [dynamicRanges, hs]
    rw [← hentries]
    exact ((hdl.symm.append (h.table_strings htable).1.symm).append
      (h.interpWrites htable hhd.symm hpd.symm).symm).symm

omit h in
theorem Rewritten.not_dirty
    (hrew : Rewritten host storeDir ctx path fuel bytes ehdr sections dynamic final)
    (h : Disentangled bytes ehdr sections dynamic) (hfits : bytes.length < 2 ^ 63)
    (hfuel : bytes.length + 1 < fuel) (hsections : readSections bytes ehdr = .ok sections)
    (hdynamic : readDynamic bytes sections fuel = .ok dynamic) (hhere : here.root = true)
    (hfinal : ctx.final (parentPath path) = here.text) (hstore : storeDir.head? = some 47)
    (hown : ∀ own ∈ ctx.ownLibDirs, (ctx.final own).head? = some 47)
    (hsettled : ∀ off old, dynamic.runpathOffset = some off → cString bytes off = .ok old →
      Settled storeDir here.text
        (newEntries old (selection host storeDir ctx path old dynamic.needed [])))
    {ehdr' : Ehdr} {sections' : List Section} {log : List Bytes} {q q' : Progress}
    (hehdr' : readEhdr final = .ok (some ehdr'))
    (hsections' : readSections final ehdr' = .ok sections')
    (hrunpath : fixRunpath host storeDir ctx path sections' fuel ⟨final, [], log, false⟩ =
      .ok (true, q))
    (hinterp : fixInterp storeDir ctx path ehdr' sections' fuel q = .ok (true, q')) :
    q'.dirty = false := by
  have hneeded := readDynamic_needed hfits hdynamic
  obtain ⟨⟨-, hhs, -, -⟩, ⟨hps, -, -⟩, ⟨hsd, hsl⟩, -⟩ := h.pairs
  have hlen := hrew.agree.length
  have hsame : ehdr' = ⟨slice final 0 64⟩ := by
    rw [readEhdr_eq, Except.ok.injEq] at hehdr'
    split_ifs at hehdr'
    exact (Option.some.inj hehdr').symm
  have htables : SameTables ehdr ehdr' := hsame ▸ hrew.tables
  -- the same sections
  have hsecs : sections' = sections := by
    have htable : shdrRanges ehdr ∈ tableRanges bytes ehdr sections dynamic := by
      simp [tableRanges]
    have hread := readSections_agree hrew.agree htables
      ((h.runpathWrites hneeded htable hsl hsd).symm.append
        (h.interpWrites htable hhs.symm hps.symm).symm).symm
    rw [hsections, hsections'] at hread
    exact Except.ok.inj hread
  subst hsecs
  -- the same RUNPATH
  obtain ⟨dynamic', hdynamic'⟩ := readDynamic_ok (show final.length < 2 ^ 63 by omega) sections'
    (show final.length + 1 < fuel by omega)
  have hoffset := hrew.runpathOffset h hfits hdynamic hdynamic'
  obtain ⟨hbytes, hclean⟩ := fixRunpath_settled hhere hfinal hdynamic' (fun off hoff => by
    rw [hoffset] at hoff
    obtain ⟨old, hold, hstring⟩ := hrew.runpath off hoff
    exact ⟨_, hstring, made_of_mem_newEntries hstore hown hfinal, hsettled off old hoff hold⟩)
    hrunpath
  dsimp only at hbytes hclean
  -- the same stub, or no interpreter
  obtain ⟨stub, hstub, hloop⟩ := bind_eq_ok.mp hinterp
  rcases hrew.interp with ⟨hnostub, hheader⟩ | hnointerp
  · have hehdrSame : ehdr' = ehdr := by rw [hsame, hheader]
    rw [hbytes, hehdrSame, hnostub, Except.ok.injEq] at hstub
    subst hstub
    rw [(interpLoop_noStub hloop).2, hclean]
  · have hnointerp' : NoInterp q.bytes ehdr' := by
      intro j hj hread
      rw [hbytes] at hread ⊢
      rw [htables.phdrAt]
      refine hnointerp j (by rw [← htables.phnum]; exact hj) fun k hk => ?_
      rw [← htables.phdrAt]
      exact hread k hk
    rw [interpLoop_noInterp hnointerp' (zero_add _)
      (fun k hk => absurd hk (not_lt_zero k)) hloop, hclean]

end

theorem fixElf_again (hhere : here.root = true)
    (hfinal : ctx.final (parentPath path) = here.text) (hstore : storeDir.head? = some 47)
    (hown : ∀ own ∈ ctx.ownLibDirs, (ctx.final own).head? = some 47)
    (hfits : bytes.length < 2 ^ 63) (hfuel : bytes.length + 1 < fuel)
    (hrep : Repeatable host storeDir ctx path here bytes fuel) {outcome : Outcome}
    (hfirst : fixElf host storeDir ctx path bytes fuel = .ok outcome)
    (hwritten : outcome.written = some final) :
    bytes.length = final.length ∧ ∀ outcome',
      fixElf host storeDir ctx path final fuel = .ok outcome' → outcome'.written = none := by
  obtain ⟨ehdr, sections, p, p', hehdr, hsections, hrunpath, hinterp, -, rfl⟩ :=
    fixElf_written hfirst hwritten
  obtain ⟨dynamic, hdynamic⟩ := readDynamic_ok hfits sections hfuel
  have hdis := hrep.apart ehdr sections dynamic hehdr hsections hdynamic
  have hsettled : ∀ off old, _ → _ → _ := fun off old =>
    hrep.settled ehdr sections dynamic off old hehdr hsections hdynamic
  have hrew := rewritten_of_fixElf hdis hfits hehdr hdynamic
    (fun off old hoff hold => (hsettled off old hoff hold).zero) hrunpath hinterp
  refine ⟨hrew.agree.length, fun outcome' hsecond => ?_⟩
  by_contra hsome
  obtain ⟨final', hfinal'⟩ := Option.ne_none_iff_exists'.mp hsome
  obtain ⟨ehdr', sections', q, q', hehdr', hsections', hrunpath', hinterp', hdirty, -⟩ :=
    fixElf_written hsecond hfinal'
  rw [hrew.not_dirty hdis hfits hfuel hsections hdynamic hhere hfinal hstore hown hsettled hehdr'
    hsections' hrunpath' hinterp'] at hdirty
  cases hdirty

end

/-- `FixElf` over a file that it fixed changes no byte, also where NEEDED stayed sonames: if the
tables of the file do not overlap, and the entries its RUNPATH gets have no colon, are in the store
and stand for different directories once a separator behind a way up is disregarded. -/
theorem fixedFile_idempotent (host : Host) (storeDir : Bytes) (ctx : FixupContext) (path : Bytes)
    (here : NormalPath) (image : BinaryImage) (fuel : Nat) (hfuel : image.bytes.length + 1 < fuel)
    (hhere : here.root = true) (hfinal : ctx.final (parentPath path) = here.text)
    (hstore : storeDir.head? = some 47)
    (hown : ∀ own ∈ ctx.ownLibDirs, (ctx.final own).head? = some 47)
    (hrep : Repeatable host storeDir ctx path here image.bytes fuel) :
    fixedFile host storeDir ctx path fuel (fixedFile host storeDir ctx path fuel image.bytes) =
        fixedFile host storeDir ctx path fuel image.bytes ∧
      fixElf host storeDir ctx path (fixedFile host storeDir ctx path fuel image.bytes) fuel ≠
        .error .spin := by
  have hends : ∀ bytes : Bytes, bytes.length = image.bytes.length →
      fixElf host storeDir ctx path bytes fuel ≠ .error .spin := by
    intro bytes hlen
    have hfits := image.fits
    rcases fixElf_cases host storeDir ctx path (show bytes.length < 2 ^ 63 by omega)
        (show bytes.length + 1 < fuel by omega) with ⟨-, h⟩ | ⟨-, outcome, h⟩
    · rw [h]
      simp
    · rw [h]
      simp
  cases hfirst : fixElf host storeDir ctx path image.bytes fuel with
  | error fault =>
    have hsame : fixedFile host storeDir ctx path fuel image.bytes = image.bytes := by
      rw [fixedFile, hfirst]
    rw [hsame]
    exact ⟨hsame, hends _ rfl⟩
  | ok outcome =>
    cases hwritten : outcome.written with
    | none =>
      have hsame : fixedFile host storeDir ctx path fuel image.bytes = image.bytes := by
        rw [fixedFile, hfirst]
        dsimp only
        rw [hwritten, Option.getD_none]
      rw [hsame]
      exact ⟨hsame, hends _ rfl⟩
    | some final =>
      have hfile : fixedFile host storeDir ctx path fuel image.bytes = final := by
        rw [fixedFile, hfirst]
        dsimp only
        rw [hwritten, Option.getD_some]
      obtain ⟨hlen, hagain⟩ := fixElf_again hhere hfinal hstore hown image.fits hfuel hrep
        hfirst hwritten
      rw [hfile]
      refine ⟨?_, hends final hlen.symm⟩
      rw [fixedFile]
      cases hsecond : fixElf host storeDir ctx path final fuel with
      | error fault => rfl
      | ok outcome' =>
        dsimp only
        rw [hagain outcome' hsecond, Option.getD_none]

def libraryHost : Host :=
  ⟨fun path => path = ascii "/nix/store/y/lib/libz.so", fun path _ => path, fun _ _ => true⟩

/-- A program that was linked with a library, and with a directory it may open others from. -/
def linkedProgram : Bytes :=
  let runpath := RunpathList.render ⟨[], [ascii "/nix/store/y/lib", ascii "/nix/store/z/lib"]⟩ 1
  sharedObject [(dtNeeded, runpath.length + 1), (dtRunpath, 0), (dtNull, 0)]
    (runpath ++ [0] ++ ascii "libz.so" ++ [0])

def linkedDynamic : DynamicInfo := ⟨[⟨ascii "libz.so", 200, []⟩], 240, some 240⟩

theorem repeatable_linkedProgram :
    Repeatable libraryHost (ascii "/nix/store") ⟨ascii "/nix/store/x", ascii "/nix/store/x", []⟩
      (ascii "/nix/store/x/bin/a")
      (absolutePath [ascii "nix", ascii "store", ascii "x", ascii "bin"] (by decide))
      linkedProgram 1000 := by
  have hreads : ∀ ehdr sections dynamic, readEhdr linkedProgram = .ok (some ehdr) →
      readSections linkedProgram ehdr = .ok sections →
      readDynamic linkedProgram sections 1000 = .ok dynamic →
      ehdr = ⟨slice linkedProgram 0 64⟩ ∧ sections = [⟨3, 240, 223, 0, 0, by decide⟩,
        ⟨shtDynamic, 192, 48, 0, 16, by decide⟩] ∧ dynamic = linkedDynamic := by
    intro ehdr sections dynamic hehdr hsections hdynamic
    have hehdr' : readEhdr linkedProgram = .ok (some ⟨slice linkedProgram 0 64⟩) := by
      decide +kernel
    obtain rfl := Option.some.inj (Except.ok.inj (hehdr'.symm.trans hehdr))
    have hsections' : readSections linkedProgram ⟨slice linkedProgram 0 64⟩ =
        .ok [⟨3, 240, 223, 0, 0, by decide⟩, ⟨shtDynamic, 192, 48, 0, 16, by decide⟩] := by
      decide +kernel
    obtain rfl := Except.ok.inj (hsections'.symm.trans hsections)
    have hdynamic' : readDynamic linkedProgram [⟨3, 240, 223, 0, 0, by decide⟩,
        ⟨shtDynamic, 192, 48, 0, 16, by decide⟩] 1000 = .ok linkedDynamic := by
      decide +kernel
    exact ⟨rfl, rfl, Except.ok.inj (hdynamic.symm.trans hdynamic')⟩
  constructor
  · intro ehdr sections dynamic hehdr hsections hdynamic
    obtain ⟨rfl, rfl, rfl⟩ := hreads ehdr sections dynamic hehdr hsections hdynamic
    exact ⟨by decide +kernel, by decide +kernel, by decide +kernel⟩
  · intro ehdr sections dynamic off old hehdr hsections hdynamic hoff hold
    obtain ⟨rfl, rfl, rfl⟩ := hreads ehdr sections dynamic hehdr hsections hdynamic
    obtain rfl : 240 = off := Option.some.inj hoff
    rw [cString_eq, Except.ok.injEq] at hold
    subst hold
    exact ⟨by decide +kernel, by decide +kernel, by decide +kernel, by decide +kernel⟩

theorem linkedProgram_fixed_twice :
    fixedFile libraryHost (ascii "/nix/store") ⟨ascii "/nix/store/x", ascii "/nix/store/x", []⟩
        (ascii "/nix/store/x/bin/a") 1000 linkedProgram ≠ linkedProgram ∧
      fixedFile libraryHost (ascii "/nix/store") ⟨ascii "/nix/store/x", ascii "/nix/store/x", []⟩
        (ascii "/nix/store/x/bin/a") 1000
        (fixedFile libraryHost (ascii "/nix/store")
          ⟨ascii "/nix/store/x", ascii "/nix/store/x", []⟩ (ascii "/nix/store/x/bin/a") 1000
          linkedProgram) =
      fixedFile libraryHost (ascii "/nix/store") ⟨ascii "/nix/store/x", ascii "/nix/store/x", []⟩
        (ascii "/nix/store/x/bin/a") 1000 linkedProgram := by
  refine ⟨by decide +kernel, ?_⟩
  exact (fixedFile_idempotent libraryHost (ascii "/nix/store")
    ⟨ascii "/nix/store/x", ascii "/nix/store/x", []⟩ (ascii "/nix/store/x/bin/a")
    (absolutePath [ascii "nix", ascii "store", ascii "x", ascii "bin"] (by decide))
    ⟨linkedProgram, by decide +kernel⟩ 1000 (by decide +kernel) rfl (by decide +kernel)
    (by decide) (by simp) repeatable_linkedProgram).1

/-- A directory of the RUNPATH with a separator behind it and without: the first run writes a way
up for each, the second takes both for the same. -/
theorem separator_lost_twice :
    (fixElf emptyHost (ascii "/nix/store") ⟨ascii "/build/p", ascii "/nix/store/x", []⟩
        (ascii "/build/p/bin/a") (sharedObject [(dtRunpath, 0), (dtNull, 0)]
          (ascii "/nix/store/x:/nix/store/x/:/_________" ++ [0])) 1000).map
        (fun outcome => (outcome.handled, outcome.complaints)) = .ok (true, []) ∧
      fixedFile emptyHost (ascii "/nix/store") ⟨ascii "/build/p", ascii "/nix/store/x", []⟩
        (ascii "/build/p/bin/a") 1000
        (fixedFile emptyHost (ascii "/nix/store") ⟨ascii "/build/p", ascii "/nix/store/x", []⟩
          (ascii "/build/p/bin/a") 1000 (sharedObject [(dtRunpath, 0), (dtNull, 0)]
            (ascii "/nix/store/x:/nix/store/x/:/_________" ++ [0]))) ≠
      fixedFile emptyHost (ascii "/nix/store") ⟨ascii "/build/p", ascii "/nix/store/x", []⟩
        (ascii "/build/p/bin/a") 1000 (sharedObject [(dtRunpath, 0), (dtNull, 0)]
          (ascii "/nix/store/x:/nix/store/x/:/_________" ++ [0])) := by
  decide +kernel

end Corepkgs.Jig.Elf
