import Mathlib
import Corepkgs.Jig.Paths
/-!
# Where a tree ends up

The paths of `fixup_mode.cc`: a target spelled relative to a directory, and the two maps between
the tree that is being fixed and the place it will be moved to.
-/

namespace Corepkgs.Jig.Fixup

open Lib List

/-! ## The maps -/

/-- `RelativeTo`; an empty anchor leaves the bare relative path. -/
def relativeTo (dir target anchor : Bytes) : Bytes :=
  let rel := lexicallyRelative (lexicallyNormal target) dir
  if anchor = [] then rel else if rel = dot then anchor else anchor ++ 47 :: rel

/-- `from/x` as `to/x`, any other path as it is. -/
def moveTree (source target path : Bytes) : Bytes :=
  let rel := lexicallyRelative (lexicallyNormal path) source
  if rel = [] ∨ dotdot.isPrefixOf rel then path else lexicallyNormal (appendPath target rel)

structure FixupContext where
  prefixDir : Bytes
  dest : Bytes
  ownLibDirs : List Bytes

def FixupContext.final (ctx : FixupContext) (path : Bytes) : Bytes :=
  moveTree ctx.prefixDir ctx.dest path

def FixupContext.onDisk (ctx : FixupContext) (path : Bytes) : Bytes :=
  moveTree ctx.dest ctx.prefixDir path

def origin : Bytes := ascii "$ORIGIN"

/-- The directory `RelativizeRunpath` takes an entry with `$ORIGIN` for. -/
def resolveOrigin (here entry : Bytes) : Bytes :=
  lexicallyNormal (appendPath here (entry.drop (min entry.length (origin.length + 1))))

/-! ## Relative texts -/

open NormalPath

/-- With a separator at the end, unless there is no name for it to stand behind. -/
def closed (p : NormalPath) : NormalPath where
  root := p.root
  ups := p.ups
  names := p.names
  slash := p.names ≠ []
  proper := p.proper
  root_ups := p.root_ups
  slash_names := of_decide_eq_true

def moved (base : NormalPath) (rest : List Bytes) (slash : Bool) (h : ∀ name ∈ rest, Proper name) :
    NormalPath where
  root := base.root
  ups := base.ups
  names := base.names ++ rest
  slash := base.names ++ rest ≠ [] ∧ (rest = [] ∨ slash = true)
  proper := fun name hn => (mem_append.mp hn).elim (base.proper name) (h name)
  root_ups := base.root_ups
  slash_names := fun hs => (of_decide_eq_true hs).1

variable {n : Nat} {rest : List Bytes} {source p : NormalPath}

theorem relText_eq_dot_iff (h : ∀ name ∈ rest, Proper name) (slash : Bool) :
    relText n rest slash = dot ↔ n = 0 ∧ rest = [] := by
  constructor
  · intro heq
    by_contra hnone
    have hsplit := splitOn_relText (n := n) h slash
    rw [heq, if_neg hnone] at hsplit
    have hmem : dot ∈ replicate n dotdot ++ rest ++ if slash = true then [[]] else [] := by
      rw [← hsplit]
      decide
    rcases mem_append.mp hmem with hmem | hmem
    · rcases mem_append.mp hmem with hmem | hmem
      · exact absurd (eq_of_mem_replicate hmem) (by decide)
      · exact (h dot hmem).ne_dot rfl
    · split_ifs at hmem
      · exact absurd (mem_singleton.mp hmem) (by decide)
      · cases hmem
  · rintro ⟨rfl, rfl⟩
    exact relText_nil slash

theorem relText_eq_append (slash : Bool) (h : ¬(n = 0 ∧ rest = [])) :
    ∃ first tail, relText n rest slash = first ++ tail ∧ (tail = [] ∨ tail.head? = some 47) ∧
      (0 < n ∧ first = dotdot ∨ n = 0 ∧ rest.head? = some first) := by
  have hjoin : ∀ (c : Bytes) (cs : List Bytes), ∃ tail,
      [47].intercalate (c :: cs) = c ++ tail ∧ (tail = [] ∨ tail.head? = some 47) := by
    intro c cs
    cases cs with
    | nil => exact ⟨[], by simp, .inl rfl⟩
    | cons c' cs => exact ⟨47 :: [47].intercalate (c' :: cs), by simp, .inr rfl⟩
  rw [relText, if_neg h]
  cases n with
  | zero =>
    obtain ⟨r, rest, rfl⟩ := exists_cons_of_ne_nil fun hr => h ⟨rfl, hr⟩
    obtain ⟨tail, htail, hcut⟩ := hjoin r (rest ++ if slash = true then [[]] else [])
    exact ⟨r, tail, htail, hcut, .inr ⟨rfl, rfl⟩⟩
  | succ n =>
    obtain ⟨tail, htail, hcut⟩ :=
      hjoin dotdot (replicate n dotdot ++ rest ++ if slash = true then [[]] else [])
    exact ⟨dotdot, tail, htail, hcut, .inl ⟨Nat.succ_pos n, rfl⟩⟩

theorem head?_relText (h : ∀ name ∈ rest, Proper name) (slash : Bool) :
    relText n rest slash ≠ [] ∧ (relText n rest slash).head? ≠ some 47 := by
  by_cases hnone : n = 0 ∧ rest = []
  · rw [hnone.1, hnone.2, relText_nil]
    decide
  · obtain ⟨first, tail, htext, -, hfirst⟩ := relText_eq_append slash hnone
    have hne : first ≠ [] ∧ 47 ∉ first := by
      rcases hfirst with ⟨-, rfl⟩ | ⟨-, hr⟩
      · decide
      · have hp := h first (mem_of_mem_head? hr)
        exact ⟨hp.ne_nil, hp.notMem⟩
    rw [htext]
    refine ⟨by simp [hne.1], ?_⟩
    rw [head?_append_of_ne_nil _ hne.1]
    exact fun hc => hne.2 (mem_of_mem_head? hc)

/-- A relative text starts with two dots if it goes up, or if its first name does. -/
theorem dotdot_isPrefixOf_relText (h : ∀ name ∈ rest, Proper name) (slash : Bool) :
    dotdot.isPrefixOf (relText n rest slash) = true ↔
      0 < n ∨ ∃ name ∈ rest.head?, dotdot.isPrefixOf name = true := by
  by_cases hnone : n = 0 ∧ rest = []
  · rw [hnone.1, hnone.2, relText_nil]
    exact iff_of_false (by decide) (by simp)
  · obtain ⟨first, tail, htext, hcut, hfirst⟩ := relText_eq_append slash hnone
    rw [htext]
    rcases hfirst with ⟨hn, rfl⟩ | ⟨rfl, hr⟩
    · exact iff_of_true (List.isPrefixOf_iff_prefix.mpr (prefix_append _ _)) (.inl hn)
    · have hp := h first (mem_of_mem_head? hr)
      have hcore : dotdot.isPrefixOf (first ++ tail) = true ↔ dotdot.isPrefixOf first = true := by
        match first, hp with
        | [], hp => exact absurd rfl hp.ne_nil
        | [b], hp =>
          -- a name of one character is followed by a separator or by nothing
          refine iff_of_false ?_ (by simp [dotdot, ascii])
          rcases hcut with rfl | hcut
          · simp [dotdot, ascii]
          · obtain ⟨tail, rfl⟩ := head?_eq_some_iff.mp hcut
            simp [dotdot, ascii]
        | b :: c :: first, _ => simp [dotdot, ascii]
      rw [hcore, hr]
      simp

theorem appendPath_relText (d : NormalPath) (h : ∀ name ∈ rest, Proper name) (slash : Bool) :
    lexicallyNormal (appendPath d.text (relText n rest slash)) =
      (of (joinPath d.text (relText n rest slash))).text := by
  have hne : joinPath d.text (relText n rest slash) ≠ [] := by
    unfold joinPath
    split_ifs <;> simp [d.text_ne_nil]
  rw [appendPath, if_neg (head?_relText h slash).2, lexicallyNormal_eq hne]

/-! ## Back to the target -/

/-- What an entry made by `RelativeTo` stands for: the target, with a separator behind it if the
way there ends going up. -/
theorem resolveOrigin_relativeTo {d t : NormalPath} (hd : d.root = true) (ht : t.root = true) :
    resolveOrigin d.text (relativeTo d.text t.text origin) =
      if t.names <+: d.names then (closed t).text else t.text := by
  obtain ⟨com, ts, ds, htn, hdn, hpart⟩ := exists_common t.names d.names
  have hts : ∀ name ∈ ts, Proper name := fun name h => t.proper name (by simp [htn, h])
  have hupward : t.names <+: d.names ↔ ts = [] := by
    rw [htn, hdn, prefix_append_right_inj]
    constructor
    · rintro ⟨back, hback⟩
      cases ts with
      | nil => rfl
      | cons b ts =>
        rw [← hback] at hpart
        exact absurd rfl (hpart b rfl)
    · rintro rfl
      exact nil_prefix
  have hrel : lexicallyRelative (lexicallyNormal t.text) d.text = relText ds.length ts t.slash := by
    rw [lexicallyNormal_text, lexicallyRelative_of_root ht hd htn hdn hpart]
  -- the entry behind its anchor is the relative text or, for the directory itself, nothing
  have hresolve : resolveOrigin d.text (relativeTo d.text t.text origin) =
      (of (joinPath d.text (relText ds.length ts t.slash))).text := by
    rw [relativeTo, hrel, if_neg (by decide)]
    by_cases hdot : relText ds.length ts t.slash = dot
    · rw [if_pos hdot, hdot]
      have hdrop : origin.drop (min origin.length (origin.length + 1)) = [] := by decide
      rw [resolveOrigin, hdrop, appendPath, if_neg (by simp)]
      have hne : joinPath d.text [] ≠ [] := by
        unfold joinPath
        split_ifs <;> simp [d.text_ne_nil]
      have hsame : of (joinPath d.text []) = of (joinPath d.text dot) := by
        obtain ⟨hroot, hwalk, hslash⟩ := d.of_joinPath []
        obtain ⟨hroot', hwalk', hslash'⟩ := d.of_joinPath dot
        have hnil : (([] : Bytes).splitOn 47).foldl (pushPart d.root) (d.ups, d.names) =
            (d.ups, d.names) := by simp [pushPart]
        have hone : (dot.splitOn 47).foldl (pushPart d.root) (d.ups, d.names) =
            (d.ups, d.names) := by
          rw [show dot.splitOn 47 = [dot] by decide]
          simp [pushPart]
        rw [hnil, Prod.mk.injEq] at hwalk
        rw [hone, Prod.mk.injEq] at hwalk'
        apply NormalPath.ext
        · rw [hroot, hroot']
        · rw [hwalk.1, hwalk'.1]
        · rw [hwalk.2, hwalk'.2]
        · rw [Bool.eq_iff_iff, hslash, hslash', hwalk.2, hwalk'.2]
          exact and_congr_right fun _ => iff_of_true (by decide) (by decide)
      rw [lexicallyNormal_eq hne, hsame]
    · rw [if_neg hdot]
      have hdrop : (origin ++ 47 :: relText ds.length ts t.slash).drop
          (min (origin ++ 47 :: relText ds.length ts t.slash).length (origin.length + 1)) =
          relText ds.length ts t.slash := by
        rw [Nat.min_eq_right (by rw [length_append, length_cons]; omega),
          drop_length_add_append]
        rfl
      rw [resolveOrigin, hdrop, appendPath_relText d hts]
  obtain ⟨hroot, hups, hnames, hslash⟩ :=
    d.of_joinPath_relText (n := ds.length) hts t.slash (.inr hd)
  have hback : d.names.take (d.names.length - ds.length) ++ ts = t.names := by
    rw [hdn, length_append, Nat.add_sub_cancel, take_left, htn]
  rw [hback] at hnames hslash
  rw [hresolve]
  have hupsT : d.ups = t.ups := by rw [d.root_ups hd, t.root_ups ht]
  split_ifs with hpre
  · congr 1
    apply NormalPath.ext
    · rw [hroot, hd]
      exact ht.symm
    · rw [hups, hupsT]
      rfl
    · exact hnames
    · rw [Bool.eq_iff_iff, hslash]
      exact ⟨fun h => decide_eq_true h.1, fun h => ⟨of_decide_eq_true h, .inl (hupward.mp hpre)⟩⟩
  · congr 1
    apply NormalPath.ext
    · rw [hroot, hd, ht]
    · rw [hups, hupsT]
    · exact hnames
    · rw [Bool.eq_iff_iff, hslash]
      constructor
      · rintro ⟨-, h | h⟩
        · exact absurd (hupward.mpr h) hpre
        · exact h
      · exact fun h => ⟨t.slash_names h, .inr h⟩

/-- The text depends on what is below a common parent only. -/
theorem relativeTo_moved {d t d' t' : NormalPath} (hd : d.root = true) (ht : t.root = true)
    (hd' : d'.root = true) (ht' : t'.root = true) (hslash : t.slash = t'.slash)
    {parent parent' x y : List Bytes} (hdn : d.names = parent ++ x) (htn : t.names = parent ++ y)
    (hdn' : d'.names = parent' ++ x) (htn' : t'.names = parent' ++ y) (anchor : Bytes) :
    relativeTo d.text t.text anchor = relativeTo d'.text t'.text anchor := by
  obtain ⟨com, ts, ds, rfl, rfl, hpart⟩ := exists_common y x
  rw [← append_assoc] at hdn htn hdn' htn'
  rw [relativeTo, relativeTo, lexicallyNormal_text, lexicallyNormal_text,
    lexicallyRelative_of_root ht hd htn hdn hpart,
    lexicallyRelative_of_root ht' hd' htn' hdn' hpart,
    hslash]

/-! ## The tree and the place it will be moved to -/

def Under (base p : NormalPath) : Prop :=
  p.root = base.root ∧ p.ups = base.ups ∧ ∃ rest, rest ≠ [] ∧ p.names = base.names ++ rest

/-- What `Final` and `OnDisk` take for a path in the tree: the first name behind `base` does not
start with two dots. -/
def Inside (base p : NormalPath) : Prop :=
  p.root = base.root ∧ p.ups = base.ups ∧
    ∃ rest, p.names = base.names ++ rest ∧ ∀ name ∈ rest.head?, ¬dotdot.isPrefixOf name = true

variable {t : Bytes}

theorem moveTree_of_names (ht : lexicallyNormal t = p.text) (target : NormalPath)
    (hroot : p.root = source.root) (hups : p.ups = source.ups)
    (hnames : p.names = source.names ++ rest) (hrest : ∀ name ∈ rest, Proper name) :
    moveTree source.text target.text t =
      if ∃ name ∈ rest.head?, dotdot.isPrefixOf name = true then t
      else (moved target rest p.slash hrest).text := by
  rw [moveTree, ht, lexicallyRelative_of_names hroot hups hnames]
  simp only [(head?_relText hrest p.slash).1, false_or, dotdot_isPrefixOf_relText hrest,
    Nat.lt_irrefl]
  split_ifs
  · rfl
  · rw [appendPath_relText target hrest]
    congr 1
    obtain ⟨h1, h2, h3, h4⟩ := target.of_joinPath_relText (n := 0) hrest p.slash (.inl rfl)
    rw [Nat.sub_zero, take_length] at h3 h4
    refine NormalPath.ext (y := moved target rest p.slash hrest) h1 h2 h3 ?_
    rw [Bool.eq_iff_iff, h4]
    exact decide_eq_true_iff.symm

theorem moveTree_of_inside (ht : lexicallyNormal t = p.text) (target : NormalPath)
    (h : Inside source p) :
    ∃ rest, ∃ hrest : ∀ name ∈ rest, Proper name, p.names = source.names ++ rest ∧
      (∀ name ∈ rest.head?, ¬dotdot.isPrefixOf name = true) ∧
      moveTree source.text target.text t = (moved target rest p.slash hrest).text := by
  obtain ⟨hroot, hups, rest, hnames, hfirst⟩ := h
  have hrest : ∀ name ∈ rest, Proper name := fun name hn => p.proper name (by simp [hnames, hn])
  refine ⟨rest, hrest, hnames, hfirst, ?_⟩
  rw [moveTree_of_names ht target hroot hups hnames hrest,
    if_neg fun ⟨name, hn, hdots⟩ => hfirst name hn hdots]

/-- Of absolute paths those that are not inside are left alone. -/
theorem moveTree_of_not_inside (ht : lexicallyNormal t = p.text) (hp : p.root = true)
    (h : ¬Inside source p) (target : Bytes) :
    moveTree source.text target t = t := by
  rw [moveTree, ht]
  by_cases hs : source.root = true
  · obtain ⟨com, ts, ds, htn, hdn, hpart⟩ := exists_common p.names source.names
    have hts : ∀ name ∈ ts, Proper name := fun name h => p.proper name (by simp [htn, h])
    rw [lexicallyRelative_of_root hp hs htn hdn hpart]
    apply if_pos
    refine .inr ((dotdot_isPrefixOf_relText hts p.slash).mpr ?_)
    by_contra hno
    rw [not_or] at hno
    have hds : ds = [] := length_eq_zero_iff.mp (by omega)
    rw [hds, append_nil] at hdn
    refine h ⟨hp.trans hs.symm, by rw [p.root_ups hp, source.root_ups hs], ts, ?_, ?_⟩
    · rw [htn, hdn]
    · exact fun name hn hdots => hno.2 ⟨name, hn, hdots⟩
  · have hdiff : (p.text.head? = some 47) ≠ (source.text.head? = some 47) := by
      rw [ne_eq, eq_iff_iff, head?_text, head?_text]
      simp [hp, hs]
    rw [lexicallyRelative, if_pos hdiff]
    rfl

variable {base : NormalPath}

theorem moved_under {slash : Bool} {hrest : ∀ name ∈ rest, Proper name}
    (hne : rest ≠ []) : Under base (moved base rest slash hrest) :=
  ⟨rfl, rfl, rest, hne, rfl⟩

/-- Behind more names the separator is the path's own. -/
theorem moved_slash {slash : Bool} {hrest : ∀ name ∈ rest, Proper name} (hne : rest ≠ []) :
    (moved base rest slash hrest).slash = slash := by
  rw [Bool.eq_iff_iff]
  show decide _ = true ↔ _
  simp [hne]

theorem eq_moved (hroot : p.root = base.root) (hups : p.ups = base.ups)
    (hne : rest ≠ []) (hnames : p.names = base.names ++ rest) (hrest : ∀ name ∈ rest, Proper name) :
    p = moved base rest p.slash hrest :=
  NormalPath.ext hroot hups hnames (moved_slash hne).symm

/-- There and back for a path in the tree. -/
theorem moveTree_moveTree (target : NormalPath) (hunder : Under source p) (h : Inside source p) :
    ∃ q, Under target q ∧ moveTree source.text target.text p.text = q.text ∧
      moveTree target.text source.text q.text = p.text := by
  obtain ⟨rest, hrest, hnames, hfirst, hmove⟩ :=
    moveTree_of_inside (lexicallyNormal_text p) target h
  have hne : rest ≠ [] := by
    rintro rfl
    obtain ⟨-, -, rest', hne', hnames'⟩ := hunder
    rw [hnames, append_nil] at hnames'
    exact hne' (by simpa using hnames'.symm)
  refine ⟨_, moved_under hne, hmove, ?_⟩
  have hmoved : Under target (moved target rest p.slash hrest) := moved_under hne
  have hback := moveTree_of_names (lexicallyNormal_text _) source hmoved.1 hmoved.2.1
    (show _ = _ ++ rest from rfl) hrest
  rw [hback, if_neg fun ⟨name, hn, hdots⟩ => hfirst name hn hdots]
  congr 1
  rw [moved_slash hne]
  exact (eq_moved hunder.1 hunder.2.1 hne hnames hrest).symm

/-- A path that is in one tree by the test of the other but not by its own is moved away. -/
theorem moveTree_ne {target : NormalPath} (hunder : Under target p) (hout : ¬Inside target p)
    (hin : Inside source p) :
    moveTree source.text target.text p.text ≠ p.text := by
  intro h
  obtain ⟨rest, hrest, -, hfirst, hmove⟩ := moveTree_of_inside (lexicallyNormal_text p) target hin
  have heq := text_injective (hmove.symm.trans h)
  refine hout ⟨hunder.1, hunder.2.1, rest, ?_, hfirst⟩
  rw [← heq]
  rfl

/-- A path spelled relative to a directory leads back to it, up to a separator at the end, and its
text is the same below any common parent.  A path under the tree is mapped to one under its
destination and back exactly if its first name below the tree does not start with two dots, or if
it is under both and the destination's test fails as well; and likewise from the destination. -/
theorem relative_paths_iff (prefixDir dest : NormalPath) (ownLibDirs : List Bytes)
    (hdest : dest.root = true) :
    (∀ d t : NormalPath, d.root = true → t.root = true →
      resolveOrigin d.text (relativeTo d.text t.text origin) =
        if t.names <+: d.names then (closed t).text else t.text) ∧
    (∀ d t d' t' : NormalPath, d.root = true → t.root = true → d'.root = true → t'.root = true →
      t.slash = t'.slash → ∀ parent parent' x y, d.names = parent ++ x → t.names = parent ++ y →
      d'.names = parent' ++ x → t'.names = parent' ++ y →
      ∀ anchor, relativeTo d.text t.text anchor = relativeTo d'.text t'.text anchor) ∧
    (∀ p, Under prefixDir p →
      ((∃ q, Under dest q ∧
          (FixupContext.mk prefixDir.text dest.text ownLibDirs).final p.text = q.text ∧
          (FixupContext.mk prefixDir.text dest.text ownLibDirs).onDisk q.text = p.text) ↔
        Inside prefixDir p ∨ Under dest p ∧ ¬Inside dest p)) ∧
    ∀ q, Under dest q →
      ((FixupContext.mk prefixDir.text dest.text ownLibDirs).final
          ((FixupContext.mk prefixDir.text dest.text ownLibDirs).onDisk q.text) = q.text ↔
        Inside dest q ∨ ¬Inside prefixDir q) := by
  refine ⟨fun d t hd ht => resolveOrigin_relativeTo hd ht, ?_, ?_, ?_⟩
  · intro d t d' t' hd ht hd' ht' hslash parent parent' x y hdn htn hdn' htn' anchor
    exact relativeTo_moved hd ht hd' ht' hslash hdn htn hdn' htn' anchor
  · intro p hunder
    by_cases hin : Inside prefixDir p
    · exact iff_of_true (moveTree_moveTree dest hunder hin) (.inl hin)
    · -- `Final` leaves the path where it is
      obtain ⟨hroot, hups, rest, hne, hnames⟩ := hunder
      have hrest : ∀ name ∈ rest, Proper name := fun name hn =>
        p.proper name (by simp [hnames, hn])
      have hfinal : moveTree prefixDir.text dest.text p.text = p.text := by
        rw [moveTree_of_names (lexicallyNormal_text p) dest hroot hups hnames hrest, if_pos]
        by_contra hno
        exact hin ⟨hroot, hups, rest, hnames, fun name hn hdots => hno ⟨name, hn, hdots⟩⟩
      constructor
      · rintro ⟨q, hq, hpq, hback⟩
        have heq := text_injective (hfinal.symm.trans hpq)
        subst heq
        refine .inr ⟨hq, fun hdin => ?_⟩
        exact moveTree_ne ⟨hroot, hups, rest, hne, hnames⟩ hin hdin hback
      · rintro (h | ⟨hq, hdout⟩)
        · exact absurd h hin
        · exact ⟨p, hq, hfinal,
            moveTree_of_not_inside (lexicallyNormal_text p) (hq.1.trans hdest) hdout _⟩
  · intro q hunder
    by_cases hin : Inside dest q
    · obtain ⟨p, -, hmove, hback⟩ := moveTree_moveTree prefixDir hunder hin
      refine iff_of_true ?_ (.inl hin)
      rw [FixupContext.onDisk, hmove]
      exact hback
    · have hroot : q.root = true := hunder.1.trans hdest
      have hondisk : moveTree dest.text prefixDir.text q.text = q.text :=
        moveTree_of_not_inside (lexicallyNormal_text q) hroot hin _
      rw [FixupContext.onDisk, hondisk, FixupContext.final]
      constructor
      · exact fun h => .inr fun hpin => moveTree_ne hunder hin hpin h
      · rintro (h | h)
        · exact absurd h hin
        · exact moveTree_of_not_inside (lexicallyNormal_text q) hroot h _

def absolutePath (names : List Bytes) (h : ∀ name ∈ names, Proper name) : NormalPath :=
  ⟨true, 0, names, false, h, fun _ => rfl, by simp⟩

def examplePrefix : NormalPath := absolutePath [ascii "build", ascii "prefix"] (by decide)

def exampleDest : NormalPath := absolutePath [ascii "nix", ascii "store", ascii "x"] (by decide)

/-- The library directory of a tree that is built elsewhere. -/
theorem relative_paths_lib :
    exampleDest.root = true ∧
      (∃ q, Under exampleDest q ∧
        (FixupContext.mk examplePrefix.text exampleDest.text []).final
          (absolutePath [ascii "build", ascii "prefix", ascii "lib"] (by decide)).text = q.text ∧
        (FixupContext.mk examplePrefix.text exampleDest.text []).onDisk q.text =
          (absolutePath [ascii "build", ascii "prefix", ascii "lib"] (by decide)).text) := by
  refine ⟨rfl, ?_⟩
  have h := (relative_paths_iff examplePrefix exampleDest [] rfl).2.2.1
    (absolutePath [ascii "build", ascii "prefix", ascii "lib"] (by decide))
    ⟨rfl, rfl, [ascii "lib"], by decide, rfl⟩
  refine h.mpr (.inl ⟨rfl, rfl, [ascii "lib"], rfl, ?_⟩)
  intro name hname
  rw [head?_cons, Option.mem_some_iff] at hname
  rw [← hname]
  decide

/-- A directory whose name starts with two dots is left where it is, on both ways. -/
theorem dotted_name_left_behind :
    (FixupContext.mk (ascii "/build/prefix") (ascii "/nix/store/x") []).final
        (ascii "/build/prefix/..data/lib") = ascii "/build/prefix/..data/lib" ∧
      (FixupContext.mk (ascii "/build/prefix") (ascii "/nix/store/x") []).final
        (ascii "/build/prefix/data/lib") = ascii "/nix/store/x/data/lib" ∧
      (FixupContext.mk (ascii "/build/prefix") (ascii "/nix/store/x") []).onDisk
        (ascii "/nix/store/x/..data/lib") = ascii "/nix/store/x/..data/lib" := by
  decide +kernel

end Corepkgs.Jig.Fixup
