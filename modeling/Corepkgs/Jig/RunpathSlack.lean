import Mathlib
import Corepkgs.Jig.ElfFixup
/-!
# The slack of a RUNPATH

`RunpathList::Render` of `driver.cc` pads the RUNPATH at link time; `RelativizeRunpath` spells its
entries relative to the file.  What an entry takes then is bounded by the way from the file's
directory to its own: three bytes for each step up, a name and a separator for each step down.
-/

namespace Corepkgs.Jig.Elf

open Lib Jig.Fixup NormalPath List Nat Text

/-! ## The way from one directory to another -/

def namesLength (names : List Bytes) : Nat := (names.map fun name => name.length + 1).sum

@[simp] theorem namesLength_nil : namesLength [] = 0 := rfl

@[simp] theorem namesLength_cons (name : Bytes) (names : List Bytes) :
    namesLength (name :: names) = name.length + 1 + namesLength names := by
  simp [namesLength]

@[simp] theorem namesLength_append (xs ys : List Bytes) :
    namesLength (xs ++ ys) = namesLength xs + namesLength ys := by
  simp [namesLength]

def wayLength : List Bytes → List Bytes → Nat
  | x :: xs, y :: ys => if x = y then wayLength xs ys
      else 3 * (ys.length + 1) + namesLength (x :: xs)
  | xs, ys => 3 * ys.length + namesLength xs

theorem wayLength_nil_left (ys : List Bytes) : wayLength [] ys = 3 * ys.length := by
  simp [wayLength]

theorem wayLength_nil_right (xs : List Bytes) : wayLength xs [] = namesLength xs := by
  cases xs <;> simp [wayLength]

theorem wayLength_append (com xs ys : List Bytes) :
    wayLength (com ++ xs) (com ++ ys) = wayLength xs ys := by
  induction com with
  | nil => rfl
  | cons c com ih => rw [cons_append, cons_append, wayLength, if_pos rfl, ih]

theorem wayLength_of_ne {xs ys : List Bytes} (h : ∀ a ∈ xs.head?, a ∉ ys.head?) :
    wayLength xs ys = 3 * ys.length + namesLength xs := by
  match xs, ys with
  | [], ys => rw [wayLength_nil_left]; rfl
  | xs, [] => rw [wayLength_nil_right, length_nil, mul_zero, zero_add]
  | x :: xs, y :: ys =>
    have hne : x ≠ y := by
      rintro rfl
      exact h x rfl rfl
    rw [wayLength, if_neg hne, length_cons]

theorem wayLength_le (xs ys : List Bytes) : wayLength xs ys ≤ 3 * ys.length + namesLength xs := by
  obtain ⟨com, ts, ds, rfl, rfl, hpart⟩ := exists_common xs ys
  rw [wayLength_append, wayLength_of_ne hpart, length_append, namesLength_append]
  omega

theorem wayLength_concat_le (xs ys : List Bytes) (name : Bytes) :
    wayLength (xs ++ [name]) ys ≤ wayLength xs ys + (name.length + 1) := by
  obtain ⟨com, ts, ds, rfl, rfl, hpart⟩ := exists_common xs ys
  rw [append_assoc, wayLength_append, wayLength_append, wayLength_of_ne hpart]
  have hle := wayLength_le (ts ++ [name]) ds
  rw [namesLength_append, namesLength_cons, namesLength_nil] at hle
  omega

/-- A step up takes a name off the way or adds one step to it. -/
theorem wayLength_dropLast_le (xs ys : List Bytes) :
    wayLength xs.dropLast ys ≤ wayLength xs ys + 3 := by
  obtain ⟨com, ts, ds, rfl, rfl, hpart⟩ := exists_common xs ys
  rcases eq_nil_or_concat ts with rfl | ⟨front, last, rfl⟩
  · rcases eq_nil_or_concat com with rfl | ⟨com, last, rfl⟩
    · exact le_add_right _ _
    · rw [append_nil, concat_eq_append, dropLast_concat]
      have hup := wayLength_append com [] (last :: ds)
      have hhere := wayLength_append (com ++ [last]) [] ds
      rw [append_nil] at hup hhere
      rw [append_assoc, singleton_append, hup]
      rw [append_assoc, singleton_append] at hhere
      rw [hhere, wayLength_nil_left, wayLength_nil_left, length_cons]
      omega
  · rw [concat_eq_append] at hpart ⊢
    rw [← append_assoc, dropLast_concat, append_assoc, wayLength_append,
      wayLength_append, wayLength_of_ne hpart, namesLength_append]
    have hle := wayLength_le front ds
    omega

/-- What a walk adds to the way is no longer than the pieces it is made of. -/
theorem wayLength_foldl_le (st : Nat × List Bytes) (pieces ys : List Bytes) :
    wayLength (pieces.foldl (pushPart true) st).2 ys ≤ wayLength st.2 ys + namesLength pieces := by
  induction pieces generalizing st with
  | nil => exact le_add_right _ _
  | cons piece pieces ih =>
    have hstep : wayLength (pushPart true st piece).2 ys ≤
        wayLength st.2 ys + (piece.length + 1) := by
      unfold pushPart
      split_ifs with hskip hup hnone hroot
      · exact le_add_right _ _
      · exact le_add_right _ _
      · exact absurd rfl hroot
      · rw [hup]
        exact wayLength_dropLast_le st.2 ys
      · exact wayLength_concat_le st.2 ys piece
    have hrest := ih (pushPart true st piece)
    rw [foldl_cons, namesLength_cons]
    omega

theorem length_intercalate (sep : UInt8) {cs : List Bytes} (hcs : cs ≠ []) :
    ([sep].intercalate cs).length + 1 = namesLength cs := by
  induction cs with
  | nil => exact absurd rfl hcs
  | cons c cs ih =>
    cases cs with
    | nil => simp
    | cons c' cs =>
      rw [intercalate_cons_cons, namesLength_cons, ← ih (by simp)]
      simp only [length_append, length_singleton]
      omega

theorem namesLength_splitOn (t : Bytes) : namesLength (t.splitOn 47) = t.length + 1 := by
  rw [← length_intercalate 47 (splitOn_ne_nil 47 t), intercalate_splitOn]

variable {n : Nat} {store : NormalPath} {r r' : List RunpathDir}

theorem length_relText_le {rest : List Bytes} (slash : Bool) (h : ¬(n = 0 ∧ rest = [])) :
    (relText n rest slash).length ≤ 3 * n + namesLength rest := by
  have hups : namesLength (replicate n dotdot) = 3 * n := by
    rw [namesLength, map_replicate, sum_replicate, smul_eq_mul, mul_comm]
    rfl
  have hend : namesLength (if slash = true then [[]] else []) ≤ 1 := by
    split_ifs <;> simp
  have hne : replicate n dotdot ++ rest ++ (if slash = true then [[]] else []) ≠ [] := by
    rintro hnil
    rw [append_eq_nil_iff, append_eq_nil_iff] at hnil
    exact h ⟨by simpa using hnil.1.1, hnil.1.2⟩
  have hlen := length_intercalate 47 hne
  rw [namesLength_append, namesLength_append, hups] at hlen
  rw [relText, if_neg h]
  omega

theorem length_relativeTo_le {d t : NormalPath} (hd : d.root = true) (ht : t.root = true)
    {target : Bytes} (htarget : lexicallyNormal target = t.text) :
    (relativeTo d.text target origin).length ≤ 8 + wayLength t.names d.names := by
  obtain ⟨com, ts, ds, htn, hdn, hpart⟩ := exists_common t.names d.names
  have hts : ∀ name ∈ ts, Proper name := fun name h => t.proper name (by simp [htn, h])
  rw [relativeTo, htarget, lexicallyRelative_of_root ht hd htn hdn hpart, if_neg (by decide), htn,
    hdn, wayLength_append, wayLength_of_ne hpart]
  by_cases hdot : relText ds.length ts t.slash = dot
  · rw [if_pos hdot]
    have horigin : origin.length = 7 := by decide
    omega
  · rw [if_neg hdot, length_append, length_cons]
    have hle := length_relText_le (n := ds.length) t.slash
      fun hnone => hdot ((relText_eq_dot_iff hts t.slash).mpr hnone)
    have horigin : origin.length = 7 := by decide
    omega

/-! ## What an entry takes -/

def linked (dir : Bytes) : Bytes := dir ++ ascii "/."

theorem chunks_of_root {p : NormalPath} (h : p.root = true) :
    p.chunks = [] :: (p.names ++ if p.slash ∨ p.names = [] then [[]] else []) := if_pos h

theorem of_linked (hstore : store.root = true) {dir : Bytes}
    (hdir : isStorePath store.text dir = true) :
    (of (linked dir)).root = true ∧ lexicallyNormal (linked dir) = (of (linked dir)).text ∧
    (∀ ys, wayLength (of (linked dir)).names ys + store.text.length ≤
      wayLength store.names ys + dir.length) ∧
    namesLength (of (linked dir)).names ≤ dir.length := by
  obtain ⟨rest, rfl⟩ := isPrefixOf_iff_prefix.mp hdir
  have htext : linked (store.text ++ [47] ++ rest) = store.text ++ 47 :: (rest ++ 47 :: dot) := by
    simp [linked, dot, ascii]
  have hhead : (linked (store.text ++ [47] ++ rest)).head? = some 47 := by
    rw [htext, head?_append_of_ne_nil _ store.text_ne_nil]
    exact (head?_text store).mpr hstore
  have hnames : (of (linked (store.text ++ [47] ++ rest))).names =
      ((rest.splitOn 47).foldl (pushPart true) (store.ups, store.names)).2 := by
    have hchunks := store.foldl_chunks
    rw [← splitOn_text, hstore] at hchunks
    have hdot : ∀ st, pushPart true st dot = st := fun st => if_pos (.inr rfl)
    show ((splitOn 47 _).foldl (pushPart (_ == some 47)) (0, [])).2 = _
    rw [hhead, htext, splitOn_append_cons_self, splitOn_append_cons_self,
      show dot.splitOn 47 = [dot] by decide, beq_self_eq_true, foldl_append, hchunks,
      foldl_append, foldl_cons, foldl_nil, hdot]
  have hway : ∀ ys, wayLength (of (linked (store.text ++ [47] ++ rest))).names ys +
      store.text.length ≤ wayLength store.names ys + (store.text ++ [47] ++ rest).length := by
    intro ys
    have hle : _ ≤ wayLength store.names ys + _ :=
      wayLength_foldl_le (store.ups, store.names) (rest.splitOn 47) ys
    rw [namesLength_splitOn] at hle
    rw [hnames, length_append, length_append, length_singleton]
    omega
  have hstoreLen : namesLength store.names ≤ store.text.length := by
    have hsplit := namesLength_splitOn store.text
    rw [splitOn_text, chunks_of_root hstore, namesLength_cons, namesLength_append,
      length_nil] at hsplit
    omega
  refine ⟨?_, lexicallyNormal_eq ?_, hway, ?_⟩
  · show (_ == some 47) = true
    rw [hhead]
    rfl
  · simp [linked, ascii]
  · have hle := hway []
    rw [wayLength_nil_right, wayLength_nil_right] at hle
    omega

/-- A normal path in the store has the store's names in front. -/
theorem names_of_isStorePath {q : NormalPath} (hstore : store.root = true)
    (hslash : store.slash = false) (hq : isStorePath store.text q.text = true) :
    q.root = true ∧ namesLength store.names = store.text.length ∧
      ∃ rest, q.names = store.names ++ rest := by
  obtain ⟨tail, htail⟩ := isPrefixOf_iff_prefix.mp hq
  have hroot : q.root = true := by
    rw [← head?_text, ← htail, append_assoc,
      head?_append_of_ne_nil _ store.text_ne_nil]
    exact (head?_text store).mpr hstore
  have hchunks : q.chunks = store.chunks ++ tail.splitOn 47 := by
    rw [← splitOn_text, ← splitOn_text, ← htail, append_assoc, singleton_append,
      splitOn_append_cons_self]
  have hne : store.names ≠ [] := by
    intro hnil
    -- two separators one behind the other
    rw [chunks_of_root hroot, chunks_of_root hstore, hnil, hslash] at hchunks
    simp only [nil_append, or_true, if_true, cons_append, cons.injEq, true_and]
      at hchunks
    cases hqn : q.names with
    | nil =>
      rw [hqn] at hchunks
      simp only [or_true, if_true, nil_append, cons.injEq, true_and] at hchunks
      exact splitOn_ne_nil 47 tail hchunks.symm
    | cons first names =>
      rw [hqn, cons_append, cons.injEq] at hchunks
      exact (q.proper first (by simp [hqn])).ne_nil hchunks.1
  have hstoreChunks : store.chunks = [] :: store.names := by
    rw [chunks_of_root hstore, hslash, if_neg (by simp [hne]), append_nil]
  refine ⟨hroot, ?_, ?_⟩
  · have hsplit := namesLength_splitOn store.text
    rw [splitOn_text, hstoreChunks, namesLength_cons, length_nil] at hsplit
    omega
  · rw [hstoreChunks, chunks_of_root hroot, cons_append, cons.injEq] at hchunks
    have hpre : store.names <+: q.names ++ if q.slash ∨ q.names = [] then [[]] else [] :=
      ⟨_, hchunks.2.symm⟩
    -- a name cannot be the empty piece at the end
    have hfilter := hpre.filter (· ≠ [])
    have hend : (if q.slash ∨ q.names = [] then [([] : Bytes)] else []).filter (· ≠ []) = [] := by
      split_ifs <;> rfl
    rw [filter_append, hend, append_nil, filter_names, filter_names] at hfilter
    obtain ⟨rest, hrest⟩ := hfilter
    exact ⟨rest, hrest.symm⟩

theorem runpathDir_of_root (ctx : FixupContext) (finalHere : Bytes) {entry : Bytes}
    (h : entry.head? = some 47) : runpathDir ctx finalHere entry = ctx.final entry := by
  apply if_neg
  obtain ⟨tail, rfl⟩ := head?_eq_some_iff.mp h
  rintro (heq | hpre)
  · exact absurd (congrArg head? heq) (by simp [origin, ascii])
  · simp [origin, ascii] at hpre

/-- Where the directories of a list are after the move: in the store at no greater length, or as
close to the file as before. -/
def MovesShort (store prefixDir dest here : NormalPath) (dirs : List Bytes) : Prop :=
  (∀ dir ∈ dirs, ¬Inside prefixDir (of (linked dir))) ∨
  namesLength dest.names ≤ namesLength prefixDir.names ∨
  (store.names <+: prefixDir.names ∧ store.names <+: dest.names ∧ dest.names <+: here.names)

variable {dirs : List Bytes}

theorem length_relativizeEntry_le {prefixDir dest here : NormalPath} {below : List Bytes}
    (hstore : store.root = true) (hslash : store.slash = false) (hhere : here.root = true)
    (hbelow : here.names = store.names ++ below) (hk : 3 * below.length ≤ 42 + store.text.length)
    (hmoves : MovesShort store prefixDir dest here dirs) {dir : Bytes}
    (hmem : dir ∈ dirs) (hdir : isStorePath store.text dir = true) (ownLibDirs : List Bytes)
    {d : RunpathDir}
    (hd : relativizeEntry store.text ⟨prefixDir.text, dest.text, ownLibDirs⟩ here.text
      (linked dir) = some d) :
    d.entry.length + 1 ≤ dir.length + 51 := by
  obtain ⟨hroot, hnormal, hway, hlen⟩ := of_linked hstore hdir
  have hhead : (linked dir).head? = some 47 := beq_iff_eq.mp hroot
  set p := of (linked dir) with hp
  rw [relativizeEntry, runpathDir_of_root _ _ hhead, FixupContext.final] at hd
  dsimp only at hd
  by_cases hin : Inside prefixDir p
  · -- the directory is moved
    obtain ⟨rest, hrest, hnames, -, hmove⟩ := moveTree_of_inside hnormal dest hin
    rw [hmove] at hd
    set q := moved dest rest p.slash hrest with hq
    split_ifs at hd with hstorePath
    obtain ⟨hqroot, hstoreLen, x, hx⟩ := names_of_isStorePath hstore hslash hstorePath
    have hentry := length_relativeTo_le hhere hqroot (lexicallyNormal_text q)
    cases hd
    have hqnames : q.names = dest.names ++ rest := rfl
    suffices h : wayLength q.names here.names + store.text.length ≤
        3 * below.length + dir.length by
      dsimp only
      omega
    rcases hmoves with hout | hshort | ⟨⟨y, hy⟩, ⟨z, hz⟩, ⟨b, hb⟩⟩
    · exact absurd hin (hout dir hmem)
    · have hcount : namesLength q.names ≤ namesLength p.names := by
        rw [hqnames, hnames, namesLength_append, namesLength_append]
        omega
      have hle := wayLength_le x below
      rw [hx, namesLength_append] at hcount
      rw [hx, hbelow, wayLength_append]
      omega
    · have hle := wayLength_le rest b
      have hpay := hway store.names
      have hsame := wayLength_append store.names (y ++ rest) []
      have hzero := wayLength_append store.names [] []
      rw [append_nil, wayLength_nil_right, namesLength_append, ← append_assoc, hy,
        ← hnames] at hsame
      rw [append_nil, wayLength_nil_right, namesLength_nil] at hzero
      have hlevels : b.length ≤ below.length := by
        have h := congrArg length (hb.trans hbelow)
        rw [← hz, length_append, length_append, length_append] at h
        omega
      rw [hqnames, ← hb, wayLength_append]
      omega
  · rw [moveTree_of_not_inside hnormal hroot hin] at hd
    split_ifs at hd
    cases hd
    have hentry := length_relativeTo_le hhere hroot hnormal
    have hpay := hway here.names
    have hup := wayLength_append store.names [] below
    rw [append_nil, wayLength_nil_left, ← hbelow] at hup
    dsimp only
    omega

/-! ## The rendered list -/

/-- The entry that only takes up room. -/
def pad (count libs : Nat) : Bytes :=
  47 :: replicate (max count 1 * kRunpathSlack + libs * kNeededSlack - 1) 95

theorem render_eq (dirs : List Bytes) (libs : Nat) :
    RunpathList.render ⟨[], dirs⟩ libs =
      lines 58 (dirs.map linked) ++ pad dirs.length libs := by
  have hline : ∀ dir : Bytes, dir ++ ascii "/.:" = linked dir ++ [58] := by
    intro dir
    simp [linked, ascii]
  simp only [RunpathList.render, hline, lines, flatMap_map, pad]
  simp [ascii]

theorem split_render (h : ∀ dir ∈ dirs, 58 ∉ dir) (libs : Nat) :
    split (RunpathList.render ⟨[], dirs⟩ libs) 58 =
      dirs.map linked ++ [pad dirs.length libs] := by
  have hpad : pieces 58 (pad dirs.length libs) = [pad dirs.length libs] := by
    rw [pieces, splitOn_eq_singleton (by simp [pad])]
    simp [pad]
  rw [split, render_eq, pieces_lines_append, hpad]
  intro l hl
  obtain ⟨dir, hdir, rfl⟩ := mem_map.mp hl
  simp [linked, ascii, h dir hdir]

/-- The tree is not `/` and not the pad. -/
def NotPad (prefixDir : NormalPath) (count libs : Nat) : Prop :=
  prefixDir.root = true → prefixDir.names ≠ [] ∧ prefixDir.names.map (47 :: ·) ≠ [pad count libs]

theorem relativizeEntry_pad {prefixDir : NormalPath} (hstore : store.root = true) {count libs : Nat}
    (hnotPad : NotPad prefixDir count libs) (dest : Bytes) (ownLibDirs : List Bytes)
    (finalHere : Bytes) :
    relativizeEntry store.text ⟨prefixDir.text, dest, ownLibDirs⟩ finalHere (pad count libs) =
      none := by
  set n := max count 1 * kRunpathSlack + libs * kNeededSlack - 1 with hn
  have hpos : 0 < n := by
    have h := le_max_right count 1
    rw [hn, kRunpathSlack]
    omega
  have hpad : pad count libs = 47 :: replicate n 95 := rfl
  have hproper : Proper (replicate n 95) := by
    obtain ⟨m, hm⟩ : ∃ m, n = m + 1 := ⟨n - 1, by omega⟩
    rw [hm, replicate_succ]
    refine ⟨by simp, by simp [dot, ascii], by simp [dotdot, ascii], by simp⟩
  -- the pad is a normal path of one name
  have hnormal : pad count libs =
    (absolutePath [replicate n 95] (by simpa using hproper)).text := by
    rw [hpad, NormalPath.text, chunks_of_root rfl]
    simp [absolutePath]
  have hout : ¬Inside prefixDir (absolutePath [replicate n 95] (by simpa using hproper)) := by
    rintro ⟨hroot, -, rest, hnames, -⟩
    obtain ⟨hne, hother⟩ := hnotPad hroot.symm
    rcases append_eq_singleton_iff.mp hnames.symm with ⟨hnil, -⟩ | ⟨hone, -⟩
    · exact hne hnil
    · exact hother (by rw [hone]; rfl)
  rw [relativizeEntry, runpathDir_of_root _ _ (by simp [pad]), FixupContext.final, hnormal,
    moveTree_of_not_inside (lexicallyNormal_text _) rfl hout, ← hnormal]
  apply if_neg
  intro hin
  -- the separator behind the store directory is not in the pad
  obtain ⟨tail, htail⟩ := isPrefixOf_iff_prefix.mp hin
  obtain ⟨first, hfirst⟩ := head?_eq_some_iff.mp ((head?_text store).mpr hstore)
  rw [hfirst, hpad, cons_append, cons_append, cons.injEq] at htail
  have hmem : (47 : UInt8) ∈ replicate n 95 := by
    rw [← htail.2]
    simp
  exact absurd (eq_of_mem_replicate hmem) (by decide)

theorem length_join_le (parts : List Bytes) (sep : UInt8) :
    (join parts [sep]).length ≤ namesLength parts := by
  have hfold : ∀ out : Bytes, (parts.foldl
      (fun out part => (if out = [] then out else out ++ [sep]) ++ part) out).length ≤
      out.length + namesLength parts := by
    induction parts with
    | nil => simp
    | cons part parts ih =>
      intro out
      have hrest := ih ((if out = [] then out else out ++ [sep]) ++ part)
      have hone : ((if out = [] then out else out ++ [sep]) ++ part).length ≤
          out.length + (part.length + 1) := by
        split_ifs <;> simp only [length_append, length_singleton] <;> omega
      rw [foldl_cons, namesLength_cons]
      omega
  have h := hfold []
  rwa [length_nil, zero_add] at h

theorem keptEntries_sublist (runpath : List RunpathDir) :
    (keptEntries runpath).Sublist ((runpath.filter (·.keep)).map (·.entry)) := by
  have hfold : ∀ kept : List Bytes, ∃ more,
      runpath.foldl (fun kept d => if d.keep ∧ d.entry ∉ kept then kept ++ [d.entry] else kept)
        kept = kept ++ more ∧ more.Sublist ((runpath.filter (·.keep)).map (·.entry)) := by
    induction runpath with
    | nil => exact fun kept => ⟨[], by simp, .slnil⟩
    | cons d runpath ih =>
      intro kept
      rw [foldl_cons]
      by_cases hd : d.keep = true
      · rw [filter_cons_of_pos hd, map_cons]
        by_cases hnew : d.entry ∉ kept
        · obtain ⟨more, hmore, hsub⟩ := ih (kept ++ [d.entry])
          rw [if_pos ⟨hd, hnew⟩, hmore]
          exact ⟨d.entry :: more, by simp, hsub.cons_cons _⟩
        · obtain ⟨more, hmore, hsub⟩ := ih kept
          rw [if_neg fun h => hnew h.2, hmore]
          exact ⟨more, rfl, hsub.cons _⟩
      · obtain ⟨more, hmore, hsub⟩ := ih kept
        rw [filter_cons_of_neg hd, if_neg fun h => hd h.1, hmore]
        exact ⟨more, rfl, hsub⟩
  obtain ⟨more, hmore, hsub⟩ := hfold []
  rw [keptEntries, hmore]
  exact hsub

theorem namesLength_le_of_sublist {xs ys : List Bytes} (h : xs.Sublist ys) :
    namesLength xs ≤ namesLength ys :=
  (h.map _).sum_le_sum fun _ _ => zero_le _

theorem length_renderRunpath_le (runpath : List RunpathDir) :
    (renderRunpath runpath).length ≤
      namesLength ((runpath.filter (·.keep)).map (·.entry)) :=
  (length_join_le _ _).trans (namesLength_le_of_sublist (keptEntries_sublist runpath))

theorem length_render (hne : dirs ≠ []) (libs : Nat) :
    (RunpathList.render ⟨[], dirs⟩ libs).length =
      (dirs.map fun dir => dir.length + 51).sum + 80 * libs := by
  have hlines : ∀ dirs : List Bytes,
      (lines 58 (dirs.map linked)).length + 48 * dirs.length =
        (dirs.map fun dir => dir.length + 51).sum := by
    intro dirs
    induction dirs with
    | nil => rfl
    | cons dir dirs ih =>
      have hlinked : (linked dir).length = dir.length + 2 := by simp [linked, ascii]
      rw [map_cons, lines_cons, length_append, length_cons, hlinked,
        map_cons, sum_cons, ← ih, length_cons]
      omega
  have hcount : 0 < dirs.length := length_pos_iff.mpr hne
  rw [render_eq, length_append, ← hlines, pad, length_cons, length_replicate,
    max_eq_left hcount, kRunpathSlack, kNeededSlack]
  omega

theorem namesLength_relativized_le (dirs : List Bytes) {relativize : Bytes → Option RunpathDir}
    (h : ∀ dir ∈ dirs, ∀ d, relativize (linked dir) = some d →
      d.entry.length + 1 ≤ dir.length + 51) :
    namesLength (((dirs.map linked).filterMap relativize).map (·.entry)) ≤
      (dirs.map fun dir => dir.length + 51).sum := by
  induction dirs with
  | nil => simp
  | cons dir dirs ih =>
    rw [forall_mem_cons] at h
    have hrest := ih h.2
    rw [map_cons, map_cons, sum_cons, filterMap_cons]
    cases hone : relativize (linked dir) with
    | none =>
      dsimp only
      omega
    | some d =>
      have hd := h.1 d hone
      dsimp only
      rw [map_cons, namesLength_cons]
      omega

/-! ## The selection -/

/-- The same directories, with those from `n` on not kept. -/
structure Rekept (n : Nat) (r r' : List RunpathDir) : Prop where
  same : r'.map (fun d => (d.entry, d.dir)) = r.map fun d => (d.entry, d.dir)
  dropped : ∀ d ∈ r'.drop n, d.keep = false

theorem map_setKeep (keep : Bool) (index : Nat) (r : List RunpathDir) :
    (setKeep keep index r).map (fun d => (d.entry, d.dir)) = r.map fun d => (d.entry, d.dir) := by
  apply ext_getElem?
  intro i
  rw [getElem?_map, getElem?_map, setKeep, getElem?_modify]
  cases r[i]? with
  | none => rfl
  | some d => by_cases h : index = i <;> simp [h]

theorem Rekept.setKeep_false (h : Rekept n r r') (index : Nat) :
    Rekept n r (setKeep false index r') := by
  refine ⟨(map_setKeep false index r').trans h.same, ?_⟩
  intro d hd
  obtain ⟨j, hj⟩ := mem_iff_getElem?.mp hd
  rw [setKeep, getElem?_drop, getElem?_modify, Option.map_eq_map, Option.map_eq_some_iff]
    at hj
  obtain ⟨d', hd', rfl⟩ := hj
  by_cases hindex : index = n + j
  · rw [if_pos hindex]
  · rw [if_neg hindex]
    exact h.dropped d' (mem_iff_getElem?.mpr ⟨j, by rwa [getElem?_drop]⟩)

theorem Rekept.setKeep_true (h : Rekept n r r') {index : Nat} (hindex : index < n) :
    Rekept n r (setKeep true index r') := by
  refine ⟨(map_setKeep true index r').trans h.same, ?_⟩
  rw [setKeep, drop_modify_of_lt _ _ _ _ hindex]
  exact h.dropped

theorem map_entry_eq {r r' : List RunpathDir}
    (h : r'.map (fun d => (d.entry, d.dir)) = r.map fun d => (d.entry, d.dir)) :
    r'.map (·.entry) = r.map (·.entry) := by
  have hmap := congrArg (map Prod.fst) h
  rwa [map_map, map_map] at hmap

theorem Rekept.filter_keep (h : Rekept n r r') :
    r'.filter (·.keep) = (r'.take n).filter (·.keep) := by
  have hnone : (r'.drop n).filter (·.keep) = [] :=
    filter_eq_nil_iff.mpr fun d hd => by rw [h.dropped d hd]; decide
  rw [← append_nil ((r'.take n).filter (·.keep)), ← hnone, ← filter_append, take_append_drop]

theorem Rekept.namesLength_le (h : Rekept n r r') :
    namesLength ((r'.filter (·.keep)).map (·.entry)) ≤ namesLength ((r.take n).map (·.entry)) := by
  rw [h.filter_keep]
  calc namesLength (((r'.take n).filter (·.keep)).map (·.entry))
      ≤ namesLength ((r'.take n).map (·.entry)) :=
        namesLength_le_of_sublist (filter_sublist.map _)
    _ = namesLength ((r.take n).map (·.entry)) := by
        rw [map_take, map_entry_eq h.same, ← map_take]

theorem find?_zipIdx (found : RunpathDir → Bool) {d : RunpathDir} {index : Nat}
    (h : r.zipIdx.find? (fun d => found d.1) = some (d, index)) :
    r[index]? = some d ∧ found d = true ∧
      ∀ (j : Nat) (d' : RunpathDir), j < index → r[j]? = some d' → found d' = false := by
  obtain ⟨hfound, i, hi, hpair, hbefore⟩ := find?_eq_some_iff_getElem.mp h
  have hir : i < r.length := by rwa [length_zipIdx] at hi
  rw [getElem_zipIdx, zero_add, Prod.mk.injEq] at hpair
  obtain ⟨rfl, rfl⟩ := hpair
  refine ⟨getElem?_eq_getElem hir, hfound, ?_⟩
  intro j d' hj hd'
  have hjr : j < r.length := by omega
  rw [getElem?_eq_getElem hjr, Option.some.injEq] at hd'
  have hnot := hbefore j hj
  rw [getElem_zipIdx] at hnot
  rw [← hd']
  simpa using hnot

/-- A NEEDED is found in the first `n` directories if it is found at all. -/
def FoundBefore (host : Host) (n : Nat) (r : List RunpathDir) (lib : Needed) : Prop :=
  lib.searched = true → (∃ d ∈ r.drop n, host.existing (appendPath d.dir lib.name) = true) →
    ∃ d ∈ r.take n, host.existing (appendPath d.dir lib.name) = true

structure Selected (n : Nat) (r : List RunpathDir) (complaints : List Complaint)
    (s : Selection) : Prop where
  rekept : Rekept n r s.runpath
  index_lt : ∀ d ∈ s.direct, d.index < n
  complaint : ∀ c ∈ s.complaints, c ∈ complaints ∨ ∃ name old, c = .neededNotFound name old

variable {complaints : List Complaint} {host : Host} {old : Bytes} {s : Selection}

theorem Selected.visit
    (h : Selected n r complaints s) {lib : Needed} (hlib : FoundBefore host n r lib) :
    Selected n r complaints (s.visit host old lib) := by
  unfold Selection.visit
  split_ifs with hskip
  · exact h
  · cases hfind : s.runpath.zipIdx.find? fun d => host.existing (appendPath d.1.dir lib.name) with
    | none =>
      refine ⟨h.rekept, h.index_lt, ?_⟩
      intro c hc
      rcases mem_append.mp hc with hc | hc
      · exact h.complaint c hc
      · exact .inr ⟨_, _, mem_singleton.mp hc⟩
    | some found =>
      obtain ⟨d, index⟩ := found
      dsimp only
      split_ifs
      · exact h
      · obtain ⟨hd, hexists, hbefore⟩ := find?_zipIdx
          (fun d => host.existing (appendPath d.dir lib.name)) hfind
        refine ⟨h.rekept.setKeep_false index, ?_, h.complaint⟩
        intro d' hd'
        rcases mem_append.mp hd' with hd' | hd'
        · exact h.index_lt d' hd'
        · rw [mem_singleton.mp hd']
          show index < n
          by_contra hlate
          -- the list has the same directories as `r`, so an earlier one would have been taken
          have hsame : ∀ i : Nat, s.runpath[i]?.map (·.dir) = r[i]?.map (·.dir) := by
            intro i
            have hmap := congrArg (fun l => (l.map Prod.snd)[i]?) h.rekept.same
            simpa only [map_map, getElem?_map, Function.comp_def] using hmap
          have hlateMem : ∃ d ∈ r.drop n, host.existing (appendPath d.dir lib.name) = true := by
            have hi := hsame index
            rw [hd, Option.map_some, eq_comm, Option.map_eq_some_iff] at hi
            obtain ⟨d₀, hd₀, hdir⟩ := hi
            refine ⟨d₀, mem_iff_getElem?.mpr ⟨index - n, ?_⟩, by rwa [hdir]⟩
            rw [getElem?_drop, Nat.add_sub_cancel' (Nat.not_lt.mp hlate), hd₀]
          obtain ⟨d₁, hd₁, hexists₁⟩ := hlib (by simpa using hskip) hlateMem
          obtain ⟨j, hj⟩ := mem_iff_getElem?.mp hd₁
          rw [getElem?_take] at hj
          split_ifs at hj with hjn
          have hi := hsame j
          rw [hj, Option.map_some, Option.map_eq_some_iff] at hi
          obtain ⟨d₂, hd₂, hdir⟩ := hi
          have hnot := hbefore j d₂ (by omega) hd₂
          rw [hdir, hexists₁] at hnot
          exact Bool.noConfusion hnot

theorem Selected.foldl_visit (old : Bytes) (h : Selected n r complaints s) {needed : List Needed}
    (hneeded : ∀ lib ∈ needed, FoundBefore host n r lib) :
    Selected n r complaints (needed.foldl (Selection.visit host old) s) := by
  induction needed generalizing s with
  | nil => exact h
  | cons lib needed ih =>
    rw [forall_mem_cons] at hneeded
    exact ih (h.visit hneeded.1) hneeded.2

theorem Rekept.foldl_setKeep (h : Rekept n r r') {direct : List Direct}
    (hdirect : ∀ d ∈ direct, d.index < n) :
    Rekept n r (direct.foldl (fun r d => setKeep true d.index r) r') := by
  induction direct generalizing r' with
  | nil => exact h
  | cons d direct ih =>
    rw [forall_mem_cons] at hdirect
    exact ih (h.setKeep_true hdirect.1) hdirect.2

/-- Whatever is chosen takes no more room than the first directories. -/
theorem Selected.length_layout_le (h : Selected n r complaints s)
    (hroom : namesLength ((r.take n).map (·.entry)) ≤ old.length) :
    (layout old s).blob.length ≤ old.length := by
  unfold layout
  dsimp only
  split_ifs with hlong
  · have hkept := (h.rekept.foldl_setKeep h.index_lt).namesLength_le
    exact (length_renderRunpath_le _).trans (hkept.trans hroom)
  · exact not_lt.mp hlong

/-- A string with its terminator can be replaced by one that is no longer. -/
theorem writePadded_fits {bytes text : Bytes} {off capacity : Nat} (htext : text.length ≤ capacity)
    (hin : off + capacity < bytes.length) :
    ∃ bytes', writePadded bytes off (capacity + 1) text = (true, bytes') := by
  rw [writePadded, if_neg (by omega)]
  exact ⟨_, rfl⟩

def NoMisfit (complaints complaints' : List Complaint) : Prop :=
  ∀ size capacity neu, .runpathDoesNotFit size capacity neu ∈ complaints' →
    .runpathDoesNotFit size capacity neu ∈ complaints

theorem fixRunpath_noMisfit {storeDir : Bytes} {ctx : FixupContext} {path : Bytes}
    {sections : List Section} {fuel : Nat} {p p' : Progress} {fine : Bool} {dynamic : DynamicInfo}
    {off : Nat} (hdynamic : readDynamic p.bytes sections fuel = .ok dynamic)
    (hoff : dynamic.runpathOffset = some off) (hold : cString p.bytes off = .ok old)
    (hin : off + old.length < p.bytes.length)
    (hown : ∀ d ∈ (relativizeRunpath storeDir ctx old (parentPath path)).drop n, d.keep = false)
    (hroom : namesLength (((relativizeRunpath storeDir ctx old (parentPath path)).take n).map
      (·.entry)) ≤ old.length)
    (hneeded : ∀ lib ∈ dynamic.needed,
      FoundBefore host n (relativizeRunpath storeDir ctx old (parentPath path)) lib)
    (h : fixRunpath host storeDir ctx path sections fuel p = .ok (fine, p')) :
    NoMisfit p.complaints p'.complaints := by
  have hselected := Selected.foldl_visit old (s :=
    ⟨relativizeRunpath storeDir ctx old (parentPath path), [], p.complaints⟩)
    ⟨⟨rfl, hown⟩, by simp, fun c hc => .inl hc⟩ hneeded
  set s := dynamic.needed.foldl (Selection.visit host old)
    ⟨relativizeRunpath storeDir ctx old (parentPath path), [], p.complaints⟩ with hs
  obtain ⟨bytes', hfits⟩ := writePadded_fits (hselected.length_layout_le hroom) hin
  have hselection : NoMisfit p.complaints s.complaints := by
    intro size capacity neu hmem
    rcases hselected.complaint _ hmem with hmem | ⟨name, old, hname⟩
    · exact hmem
    · cases hname
  rw [fixRunpath, hdynamic] at h
  simp only [bind, Except.bind, hoff, hold] at h
  rw [← hs, hfits] at h
  split_ifs at h
  · cases h
    exact hselection
  · cases hsym : symbolInside p.bytes sections off (wrap (off + old.length)) fuel with
    | error fault =>
      rw [hsym] at h
      cases h
    | ok found =>
      rw [hsym] at h
      cases found with
      | none =>
        cases h
        exact hselection
      | some sym =>
        cases h
        intro size capacity neu hmem
        rcases mem_append.mp hmem with hmem | hmem
        · exact hselection size capacity neu hmem
        · cases mem_singleton.mp hmem

/-- The slack of a link suffices at fixup time: for directories in the store without a colon, and
a file whose final directory is `k` levels below the store directory with `3k` at most 42 more than
its length, the list made relative is no longer than what was linked, and `FixRunpath` finds room
for it if it uses no other directories.  The directories may be moved if the move does not lengthen
them, or keeps them beside the file. -/
theorem runpath_slack_suffices (host : Host) (store prefixDir dest here : NormalPath)
    (ownLibDirs : List Bytes) (path : Bytes) (below dirs : List Bytes) (libs : Nat)
    (hstore : store.root = true) (hslash : store.slash = false)
    (hfinal : (FixupContext.mk prefixDir.text dest.text ownLibDirs).final (parentPath path) =
      here.text)
    (hhere : here.root = true) (hbelow : here.names = store.names ++ below)
    (hk : 3 * below.length ≤ 42 + store.text.length) (hne : dirs ≠ [])
    (hdirs : ∀ dir ∈ dirs, isStorePath store.text dir = true ∧ 58 ∉ dir)
    (hmoves : MovesShort store prefixDir dest here dirs)
    (hnotPad : NotPad prefixDir dirs.length libs) :
    (renderRunpath (relativizeRunpath store.text ⟨prefixDir.text, dest.text, ownLibDirs⟩
      (RunpathList.render ⟨[], dirs⟩ libs) (parentPath path))).length ≤
        (RunpathList.render ⟨[], dirs⟩ libs).length ∧
    ∀ (sections : List Section) (fuel : Nat) (p p' : Progress) (fine : Bool)
      (dynamic : DynamicInfo) (off : Nat),
      readDynamic p.bytes sections fuel = .ok dynamic → dynamic.runpathOffset = some off →
      cString p.bytes off = .ok (RunpathList.render ⟨[], dirs⟩ libs) →
      off + (RunpathList.render ⟨[], dirs⟩ libs).length < p.bytes.length →
      (∀ lib ∈ dynamic.needed, lib.searched = true →
        (∃ own ∈ ownLibDirs, host.existing (appendPath own lib.name) = true) →
        ∃ d ∈ (dirs.map linked).filterMap
            (relativizeEntry store.text ⟨prefixDir.text, dest.text, ownLibDirs⟩ here.text),
          host.existing (appendPath d.dir lib.name) = true) →
      fixRunpath host store.text ⟨prefixDir.text, dest.text, ownLibDirs⟩ path sections fuel p =
        .ok (fine, p') →
      NoMisfit p.complaints p'.complaints := by
  set ctx : FixupContext := ⟨prefixDir.text, dest.text, ownLibDirs⟩ with hctx
  set old := RunpathList.render ⟨[], dirs⟩ libs with hold
  set entries := (dirs.map linked).filterMap
    (relativizeEntry store.text ctx here.text) with hentries
  have hrunpath : relativizeRunpath store.text ctx old (parentPath path) = entries ++
      ownLibDirs.map fun own => ⟨relativeTo here.text (ctx.final own) origin, own, false⟩ := by
    rw [relativizeRunpath, hfinal, hold, split_render (fun dir hdir => (hdirs dir hdir).2),
      filterMap_append, filterMap_cons, relativizeEntry_pad hstore hnotPad,
      filterMap_nil, append_nil]
  have hown : ∀ d ∈ (entries ++ ownLibDirs.map fun own =>
      (⟨relativeTo here.text (ctx.final own) origin, own, false⟩ : RunpathDir)).drop entries.length,
      d.keep = false := by
    intro d hd
    rw [drop_left] at hd
    obtain ⟨own, -, rfl⟩ := mem_map.mp hd
    rfl
  have hroom : namesLength (entries.map (·.entry)) ≤ old.length := by
    have hle := namesLength_relativized_le dirs
      fun dir hdir d hd => length_relativizeEntry_le hstore hslash hhere hbelow hk hmoves hdir
        (hdirs dir hdir).1 ownLibDirs hd
    rw [hold, length_render hne]
    exact hle.trans (le_add_right _ _)
  constructor
  · rw [hrunpath]
    have hkept := (Rekept.mk rfl hown).namesLength_le
    rw [take_left] at hkept
    exact (length_renderRunpath_le _).trans (hkept.trans hroom)
  · intro sections fuel p p' fine dynamic off hdynamic hoff hcstring hin hneeded h
    apply fixRunpath_noMisfit (n := entries.length) hdynamic hoff hcstring hin _ _ _ h
    · rw [hrunpath]
      exact hown
    · rw [hrunpath, take_left]
      exact hroom
    · intro lib hlib hsearched
      rw [hrunpath, take_left, drop_left]
      rintro ⟨d, hd, hexists⟩
      obtain ⟨own, hown, rfl⟩ := mem_map.mp hd
      exact hneeded lib hlib hsearched ⟨own, hown, hexists⟩

def sharedObjectSections (entries : List (Nat × Nat)) (strings : Bytes) : List Section :=
  [⟨3, 192 + 16 * entries.length, strings.length, 0, 0, by decide⟩,
    ⟨shtDynamic, 192, 16 * entries.length, 0, 16, by decide⟩]

/-- A program in a store path that was linked against another one. -/
theorem runpath_slack_program :
    (renderRunpath (relativizeRunpath (ascii "/nix/store")
      ⟨ascii "/nix/store/x", ascii "/nix/store/x", []⟩
      (RunpathList.render ⟨[], [ascii "/nix/store/y/lib"]⟩ 1)
      (parentPath (ascii "/nix/store/x/bin/a")))).length ≤
        (RunpathList.render ⟨[], [ascii "/nix/store/y/lib"]⟩ 1).length ∧
    ∃ fine p', fixRunpath emptyHost (ascii "/nix/store")
        ⟨ascii "/nix/store/x", ascii "/nix/store/x", []⟩ (ascii "/nix/store/x/bin/a")
        (sharedObjectSections [(dtRunpath, 0), (dtNull, 0)]
          (RunpathList.render ⟨[], [ascii "/nix/store/y/lib"]⟩ 1 ++ [0])) 1000
        ⟨sharedObject [(dtRunpath, 0), (dtNull, 0)]
          (RunpathList.render ⟨[], [ascii "/nix/store/y/lib"]⟩ 1 ++ [0]), [], [], false⟩ =
        .ok (fine, p') ∧ NoMisfit [] p'.complaints := by
  have h := runpath_slack_suffices emptyHost
    (absolutePath [ascii "nix", ascii "store"] (by decide))
    (absolutePath [ascii "nix", ascii "store", ascii "x"] (by decide))
    (absolutePath [ascii "nix", ascii "store", ascii "x"] (by decide))
    (absolutePath [ascii "nix", ascii "store", ascii "x", ascii "bin"] (by decide)) []
    (ascii "/nix/store/x/bin/a") [ascii "x", ascii "bin"] [ascii "/nix/store/y/lib"] 1 rfl rfl
    (by decide +kernel) rfl rfl (by decide) (by decide) (by decide) (.inr (.inl (le_refl _)))
    (fun _ => ⟨by decide, by decide⟩)
  refine ⟨h.1, ?_⟩
  obtain ⟨fine, p', hfix, -⟩ := fixRunpath_ok emptyHost (ascii "/nix/store")
    ⟨ascii "/nix/store/x", ascii "/nix/store/x", []⟩ (ascii "/nix/store/x/bin/a")
    (sharedObjectSections [(dtRunpath, 0), (dtNull, 0)]
      (RunpathList.render ⟨[], [ascii "/nix/store/y/lib"]⟩ 1 ++ [0]))
    (p := ⟨sharedObject [(dtRunpath, 0), (dtNull, 0)]
      (RunpathList.render ⟨[], [ascii "/nix/store/y/lib"]⟩ 1 ++ [0]), [], [], false⟩)
    (by decide +kernel) (show _ + 1 < 1000 by decide +kernel)
  refine ⟨fine, p', hfix, h.2 _ 1000 _ p' fine ⟨[], 224, some 224⟩ 224 ?_ rfl ?_ ?_ ?_ hfix⟩
  · decide +kernel
  · decide +kernel
  · decide +kernel
  · simp

/-- Two directories in the place of one, and a tree that has the store in it. -/
theorem slack_too_short :
    (FixupContext.mk (ascii "/nix/store/x") (ascii "/nix/store/x") []).final
        (ascii "/nix/store/x/1/2/3/4/5/6/7/8/9") = ascii "/nix/store/x/1/2/3/4/5/6/7/8/9" ∧
      (RunpathList.render ⟨[], [ascii "/nix/store/a:/nix/store/b"]⟩ 0).length <
        (renderRunpath (relativizeRunpath (ascii "/nix/store")
          ⟨ascii "/nix/store/x", ascii "/nix/store/x", []⟩
          (RunpathList.render ⟨[], [ascii "/nix/store/a:/nix/store/b"]⟩ 0)
          (ascii "/nix/store/x/1/2/3/4/5/6/7/8/9"))).length ∧
      (FixupContext.mk (ascii "/") (ascii "/nix/store/x") []).final
        (ascii "/1/2/3/4/5/6/7/8/9/10/11/12/13/14/15") =
        ascii "/nix/store/x/1/2/3/4/5/6/7/8/9/10/11/12/13/14/15" ∧
      (RunpathList.render ⟨[], [ascii "/nix/store/y/lib"]⟩ 0).length <
        (renderRunpath (relativizeRunpath (ascii "/nix/store")
          ⟨ascii "/", ascii "/nix/store/x", []⟩
          (RunpathList.render ⟨[], [ascii "/nix/store/y/lib"]⟩ 0)
          (ascii "/1/2/3/4/5/6/7/8/9/10/11/12/13/14/15"))).length := by
  decide +kernel

end Corepkgs.Jig.Elf
