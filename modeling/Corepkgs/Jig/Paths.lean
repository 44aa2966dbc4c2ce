import Mathlib
import Corepkgs.Jig.CcMode
/-!
# Lexical paths

What `std::filesystem::path` does with texts alone: appending, iterating over the elements, the
normal form and the path from one to another.  Normal forms are also given as a structure, with
the names they are made of; `lexicallyNormal` maps every text to the text of one of them and leaves
those texts as they are.
-/

namespace Corepkgs.Jig

open Lib List Text

/-! ## The operations -/

def dot : Bytes := ascii "."

def dotdot : Bytes := ascii ".."

def appendPath (p q : Bytes) : Bytes := if q.head? = some 47 then q else joinPath p q

/-- The elements an iteration over a path goes through: the root directory, the names, and an
empty one for a separator at the end. -/
def elements (p : Bytes) : List Bytes :=
  (if p.head? = some 47 then [[47]] else []) ++ pieces 47 p ++
    if pieces 47 p ≠ [] ∧ p.getLast? = some 47 then [[]] else []

def mismatch : List Bytes → List Bytes → List Bytes × List Bytes
  | a :: as, b :: bs => if a = b then mismatch as bs else (a :: as, b :: bs)
  | as, bs => (as, bs)

/-- The names among the elements less the dot-dots. -/
def elementCount (es : List Bytes) : Int :=
  (es.map fun e => if e = dotdot then -1 else if e = dot ∨ e = [] then 0 else (1 : Int)).sum

/-- `fs::path(p).lexically_relative(base)` -/
def lexicallyRelative (p base : Bytes) : Bytes :=
  if (p.head? = some 47) ≠ (base.head? = some 47) then []
  else
    let m := mismatch (elements p) (elements base)
    let n := elementCount m.2
    if m.1 = [] ∧ m.2 = [] then dot
    else if n < 0 then []
    else if n = 0 ∧ (m.1 = [] ∨ m.1.head? = some []) then dot
    else (replicate n.toNat dotdot ++ m.1).foldl appendPath []

/-! ## Normal forms -/

structure Proper (name : Bytes) : Prop where
  ne_nil : name ≠ []
  ne_dot : name ≠ dot
  ne_dotdot : name ≠ dotdot
  notMem : 47 ∉ name

instance (name : Bytes) : Decidable (Proper name) :=
  decidable_of_iff (name ≠ [] ∧ name ≠ dot ∧ name ≠ dotdot ∧ 47 ∉ name)
    ⟨fun ⟨h1, h2, h3, h4⟩ => ⟨h1, h2, h3, h4⟩, fun h => ⟨h.ne_nil, h.ne_dot, h.ne_dotdot, h.notMem⟩⟩

/-- What is left of a path: dot-dots only in front and only of a relative path, then names, then
maybe a separator. -/
@[ext] structure NormalPath where
  root : Bool
  ups : Nat
  names : List Bytes
  slash : Bool
  proper : ∀ name ∈ names, Proper name
  root_ups : root = true → ups = 0
  slash_names : slash = true → names ≠ []

variable {cs : List Bytes}

theorem intercalate_concat (hcs : cs ≠ []) (c : Bytes) :
    [47].intercalate (cs ++ [c]) = [47].intercalate cs ++ 47 :: c := by
  induction cs with
  | nil => exact absurd rfl hcs
  | cons b cs ih =>
    cases cs with
    | nil => simp
    | cons b' cs =>
      rw [cons_append, cons_append, intercalate_cons_cons, ← cons_append,
        ih (by simp), intercalate_cons_cons]
      simp

namespace NormalPath

def parts (p : NormalPath) : List Bytes := replicate p.ups dotdot ++ p.names

def chunks (p : NormalPath) : List Bytes :=
  if p.root then [] :: (p.names ++ if p.slash ∨ p.names = [] then [[]] else [])
  else if p.parts = [] then [dot]
  else p.parts ++ if p.slash then [[]] else []

def text (p : NormalPath) : Bytes := [47].intercalate p.chunks

variable (p : NormalPath)

theorem chunks_ne_nil : p.chunks ≠ [] := by
  unfold chunks
  split_ifs <;> simp_all

theorem notMem_parts {p : NormalPath} {part : Bytes} (h : part ∈ p.parts) : 47 ∉ part := by
  rcases mem_append.mp h with h | h
  · rw [eq_of_mem_replicate h]
    decide
  · exact (p.proper part h).notMem

theorem ne_nil_of_mem_parts {p : NormalPath} {part : Bytes} (h : part ∈ p.parts) : part ≠ [] := by
  rcases mem_append.mp h with h | h
  · rw [eq_of_mem_replicate h]
    decide
  · exact (p.proper part h).ne_nil

theorem notMem_chunks {p : NormalPath} {chunk : Bytes} (h : chunk ∈ p.chunks) : 47 ∉ chunk := by
  unfold chunks at h
  split_ifs at h
  · rcases mem_cons.mp h with h | h
    · simp [h]
    · rcases mem_append.mp h with h | h
      · exact (p.proper chunk h).notMem
      · simp_all
  · rcases mem_cons.mp h with h | h
    · simp [h]
    · exact (p.proper chunk (by simpa using h)).notMem
  · rw [mem_singleton.mp h]
    decide
  · rcases mem_append.mp h with h | h
    · exact notMem_parts h
    · simp_all
  · exact notMem_parts (by simpa using h)

theorem splitOn_text : p.text.splitOn 47 = p.chunks :=
  splitOn_intercalate 47 (fun _ h => notMem_chunks h) p.chunks_ne_nil

theorem text_ne_nil : p.text ≠ [] := by
  intro h
  have hsplit := p.splitOn_text
  rw [h] at hsplit
  have hchunks : p.chunks = [[]] := hsplit.symm
  by_cases hroot : p.root = true
  · rw [chunks, if_pos hroot, cons.injEq, append_eq_nil_iff] at hchunks
    simp [hchunks.2.1] at hchunks
  · rw [chunks, if_neg hroot] at hchunks
    split_ifs at hchunks with hparts
    · cases hchunks
    all_goals
      have hmem : ([] : Bytes) ∈ p.parts := by
        obtain ⟨c, cs, hcs⟩ := exists_cons_of_ne_nil hparts
        rw [hcs, cons_append, cons.injEq] at hchunks
        rw [hcs, hchunks.1]
        exact mem_cons_self
      exact ne_nil_of_mem_parts hmem rfl

/-- A text starts with a separator exactly if its first chunk is empty and not the only one. -/
theorem head?_text : p.text.head? = some 47 ↔ p.root = true := by
  have hhead : ∀ {c : Bytes} {cs : List Bytes}, c ≠ [] → 47 ∉ c →
      ([47].intercalate (c :: cs)).head? ≠ some 47 := by
    intro c cs hc hmem h
    cases c with
    | nil => exact hc rfl
    | cons b c =>
      cases cs <;> simp_all
  constructor
  · intro h
    by_contra hroot
    rw [text, chunks, if_neg hroot] at h
    split_ifs at h with hparts hslash
    · exact hhead (by decide) (by decide) h
    all_goals
      obtain ⟨c, cs, hcs⟩ := exists_cons_of_ne_nil hparts
      have hmem : c ∈ p.parts := by rw [hcs]; simp
      rw [hcs] at h
      exact hhead (ne_nil_of_mem_parts hmem) (notMem_parts hmem) h
  · intro hroot
    rw [text, chunks, if_pos hroot]
    have hne : p.names ++ (if p.slash = true ∨ p.names = [] then [[]] else []) ≠ [] := by
      split_ifs <;> simp_all
    obtain ⟨c, cs, hcs⟩ := exists_cons_of_ne_nil hne
    rw [hcs]
    simp

end NormalPath

/-! ## Normalisation, name by name -/

/-- One more piece of a path onto the dot-dots and names before it. -/
def pushPart (root : Bool) (st : Nat × List Bytes) (piece : Bytes) : Nat × List Bytes :=
  if piece = [] ∨ piece = dot then st
  else if piece = dotdot then
    if st.2 = [] then (if root then st else (st.1 + 1, [])) else (st.1, st.2.dropLast)
  else (st.1, st.2 ++ [piece])

structure WalkOk (root : Bool) (st : Nat × List Bytes) : Prop where
  proper : ∀ name ∈ st.2, Proper name
  root_ups : root = true → st.1 = 0

variable {root : Bool} {st : Nat × List Bytes}

theorem WalkOk.pushPart (h : WalkOk root st) {piece : Bytes} (hpiece : 47 ∉ piece) :
    WalkOk root (pushPart root st piece) := by
  unfold Jig.pushPart
  split_ifs with hskip hup hempty hroot
  · exact h
  · exact h
  · exact ⟨by simp, fun hr => absurd hr hroot⟩
  · exact ⟨fun name hn => h.proper name (mem_of_mem_dropLast hn), h.root_ups⟩
  · rw [not_or] at hskip
    refine ⟨?_, h.root_ups⟩
    intro name hn
    rcases mem_append.mp hn with hn | hn
    · exact h.proper name hn
    · rw [mem_singleton.mp hn]
      exact ⟨hskip.1, hskip.2, hup, hpiece⟩

theorem WalkOk.foldl (h : WalkOk root st) (pieces : List Bytes)
    (hpieces : ∀ piece ∈ pieces, 47 ∉ piece) :
    WalkOk root (pieces.foldl (Jig.pushPart root) st) := by
  induction pieces generalizing st with
  | nil => exact h
  | cons piece pieces ih =>
    rw [forall_mem_cons] at hpieces
    exact ih (h.pushPart hpieces.1) hpieces.2

theorem pushName_eq (h : WalkOk root st) (piece : Bytes) :
    pushName root (st.2.reverse ++ replicate st.1 dotdot) piece =
      (pushPart root st piece).2.reverse ++ replicate (pushPart root st piece).1 dotdot := by
  have hdot : ascii "." = dot := rfl
  have hdotdot : ascii ".." = dotdot := rfl
  simp only [pushName, pushPart, hdot, hdotdot]
  by_cases hskip : piece = [] ∨ piece = dot
  · rw [if_pos hskip, if_pos hskip]
  · rw [if_neg hskip, if_neg hskip]
    by_cases hup : piece = dotdot
    · rw [if_pos hup, if_pos hup]
      obtain ⟨k, names⟩ := st
      rcases eq_nil_or_concat names with rfl | ⟨names, name, rfl⟩
      · cases k with
        | zero => cases root <;> simp
        | succ k =>
          have hroot : root = false := by
            cases root with
            | false => rfl
            | true => exact absurd (h.root_ups rfl) (by simp)
          simp [hroot, replicate_succ]
      · have hname := (h.proper name (by simp)).ne_dotdot
        simp [hname]
    · rw [if_neg hup, if_neg hup]
      simp

theorem foldl_pushName (h : WalkOk root st) (pieces : List Bytes)
    (hpieces : ∀ piece ∈ pieces, 47 ∉ piece) :
    pieces.foldl (pushName root) (st.2.reverse ++ replicate st.1 dotdot) =
      (pieces.foldl (pushPart root) st).2.reverse ++
        replicate (pieces.foldl (pushPart root) st).1 dotdot := by
  induction pieces generalizing st with
  | nil => rfl
  | cons piece pieces ih =>
    rw [forall_mem_cons] at hpieces
    rw [foldl_cons, foldl_cons, pushName_eq h, ih (h.pushPart hpieces.1) hpieces.2]

theorem notMem_splitOn {t piece : Bytes} (h : piece ∈ t.splitOn 47) : 47 ∉ piece := by
  induction hn : t.length using Nat.strong_induction_on generalizing t with
  | _ n ih =>
    by_cases hmem : 47 ∈ t
    · obtain ⟨front, back, rfl, hfront⟩ := eq_append_cons_of_mem hmem
      rw [splitOn_append_cons_self, splitOn_eq_singleton hfront] at h
      rcases mem_append.mp h with h | h
      · rwa [mem_singleton.mp h]
      · refine ih back.length ?_ h rfl
        rw [length_append, length_cons] at hn
        omega
    · rw [splitOn_eq_singleton hmem, mem_singleton] at h
      rwa [h]

namespace NormalPath

theorem WalkOk_start (root : Bool) : WalkOk root (0, []) := ⟨by simp, fun _ => rfl⟩

variable {names : List Bytes}

theorem foldl_names {root : Bool} {k : Nat} {before : List Bytes}
    (h : ∀ name ∈ names, Proper name) :
    names.foldl (pushPart root) (k, before) = (k, before ++ names) := by
  induction names generalizing before with
  | nil => simp
  | cons name names ih =>
    rw [forall_mem_cons] at h
    rw [foldl_cons, pushPart, if_neg (not_or.mpr ⟨h.1.ne_nil, h.1.ne_dot⟩),
      if_neg h.1.ne_dotdot, ih h.2]
    simp

theorem foldl_ups (k n : Nat) :
    (replicate n dotdot).foldl (pushPart false) (k, []) = (k + n, []) := by
  induction n generalizing k with
  | zero => rfl
  | succ n ih =>
    have hpush : pushPart false (k, []) dotdot = (k + 1, []) := by
      rw [pushPart, if_neg (by decide), if_pos rfl]
      rfl
    rw [replicate_succ, foldl_cons, hpush, ih, show k + 1 + n = k + (n + 1) by omega]

variable (p : NormalPath)

theorem foldl_chunks :
    p.chunks.foldl (pushPart p.root) (0, []) = (p.ups, p.names) := by
  have hend : ∀ (b : Prop) [Decidable b] (st : Nat × List Bytes),
      (if b then [([] : Bytes)] else []).foldl (pushPart p.root) st = st := by
    intro b _ st
    split_ifs <;> simp [pushPart]
  unfold chunks
  by_cases hroot : p.root = true
  · rw [if_pos hroot, foldl_cons, foldl_append, hend]
    rw [show pushPart p.root (0, []) [] = (0, []) by simp [pushPart], foldl_names p.proper,
      p.root_ups hroot, nil_append]
  · have hfalse : p.root = false := by simpa using hroot
    rw [if_neg hroot]
    by_cases hparts : p.parts = []
    · rw [if_pos hparts]
      obtain ⟨hups, hnames⟩ := append_eq_nil_iff.mp hparts
      rw [hnames, show p.ups = 0 by simpa using hups]
      simp [pushPart, dot]
    · rw [if_neg hparts, foldl_append, hend, parts, foldl_append, hfalse, foldl_ups,
        foldl_names p.proper, Nat.zero_add, nil_append]

/-- The last piece of a text that ends in a separator, or may be taken for one that does. -/
def Ends (piece : Option Bytes) : Prop := piece ∈ [some [], some dot, some dotdot]

instance (piece : Option Bytes) : Decidable (Ends piece) := by unfold Ends; infer_instance

def of (t : Bytes) : NormalPath where
  root := t.head? == some 47
  ups := ((t.splitOn 47).foldl (pushPart (t.head? == some 47)) (0, [])).1
  names := ((t.splitOn 47).foldl (pushPart (t.head? == some 47)) (0, [])).2
  slash := ((t.splitOn 47).foldl (pushPart (t.head? == some 47)) (0, [])).2 ≠ [] ∧
    Ends (t.splitOn 47).getLast?
  proper := ((WalkOk_start _).foldl _ fun _ h => notMem_splitOn h).proper
  root_ups := ((WalkOk_start _).foldl _ fun _ h => notMem_splitOn h).root_ups
  slash_names := fun h => (of_decide_eq_true h).1

theorem text_eq :
    p.text =
      let normal := (if p.root then [47] else []) ++ [47].intercalate p.parts ++
        if p.slash then [47] else []
      if normal = [] then dot else normal := by
  have hlead : ∀ {cs : List Bytes}, cs ≠ [] →
      [47].intercalate ([] :: cs) = 47 :: [47].intercalate cs := by
    intro cs hcs
    obtain ⟨c, cs, rfl⟩ := exists_cons_of_ne_nil hcs
    simp
  rw [text, chunks]
  by_cases hroot : p.root = true
  · have hparts : p.parts = p.names := by rw [parts, p.root_ups hroot]; rfl
    rw [if_pos hroot, if_pos hroot, hparts]
    by_cases hnames : p.names = []
    · have hslash : p.slash = false := by
        have := p.slash_names
        simp_all
      rw [hnames, hslash]
      simp
    · by_cases hslash : p.slash = true
      · rw [if_pos (.inl hslash), hlead (by simp), intercalate_concat hnames, if_pos hslash]
        simp
      · rw [if_neg (not_or.mpr ⟨hslash, hnames⟩), hlead (by simpa using hnames), if_neg hslash]
        simp
  · rw [if_neg hroot, if_neg hroot]
    by_cases hparts : p.parts = []
    · have hslash : p.slash = false := by
        have := p.slash_names
        have := (append_eq_nil_iff.mp hparts).2
        simp_all
      rw [if_pos hparts, hparts, hslash]
      simp
    · have hne : [47].intercalate p.parts ≠ [] := by
        intro h
        have hsplit := splitOn_intercalate 47 (fun _ hc => notMem_parts hc) hparts
        rw [h] at hsplit
        exact ne_nil_of_mem_parts (p := p) (by rw [← hsplit]; exact mem_singleton_self _) rfl
      by_cases hslash : p.slash = true
      · rw [if_neg hparts, if_pos hslash, intercalate_concat hparts, if_pos hslash]
        simp
      · rw [if_neg hparts, if_neg hslash, if_neg hslash]
        simp [hne]

theorem lexicallyNormal_eq {t : Bytes} (ht : t ≠ []) : lexicallyNormal t = (of t).text := by
  have hfold := foldl_pushName (WalkOk_start (t.head? == some 47))
    (t.splitOn 47) fun _ h => notMem_splitOn h
  rw [reverse_nil, nil_append, replicate_zero] at hfold
  rw [lexicallyNormal, if_neg ht, text_eq]
  dsimp only
  rw [hfold]
  have hok := (WalkOk_start (t.head? == some 47)).foldl (t.splitOn 47)
    fun _ h => notMem_splitOn h
  set st := (t.splitOn 47).foldl (pushPart (t.head? == some 47)) (0, []) with hst
  have hparts : (of t).parts = replicate st.1 dotdot ++ st.2 := rfl
  have hslash : (st.2.reverse ++ replicate st.1 dotdot ≠ [] ∧
      (st.2.reverse ++ replicate st.1 dotdot).head? ≠ some (ascii "..") ∧
      (t.splitOn 47).getLast? ∈ [some [], some (ascii "."), some (ascii "..")]) ↔
      (of t).slash = true := by
    have hof : (of t).slash = true ↔ st.2 ≠ [] ∧ Ends (t.splitOn 47).getLast? :=
      decide_eq_true_iff
    rw [hof]
    rcases eq_nil_or_concat st.2 with hnil | ⟨names, name, hnames⟩
    · rw [hnil]
      cases st.1 <;> simp [replicate_succ, dotdot]
    · have hname := (hok.proper name (by rw [hnames]; simp)).ne_dotdot
      rw [dotdot] at hname
      rw [hnames]
      simp [hname, Ends, dot, dotdot]
  rw [hparts]
  simp only [hslash, reverse_append, reverse_replicate, reverse_reverse]
  rfl

theorem not_ends_of_proper {name : Bytes} (h : Proper name) : ¬Ends (some name) := by
  simp only [Ends, mem_cons, Option.some.injEq, not_mem_nil, or_false, not_or]
  exact ⟨h.ne_nil, h.ne_dot, h.ne_dotdot⟩

theorem not_ends_names (hne : names ≠ []) (h : ∀ name ∈ names, Proper name) :
    ¬Ends names.getLast? := by
  rw [getLast?_eq_some_getLast hne]
  exact not_ends_of_proper (h _ (getLast_mem hne))

theorem ends_chunks {p : NormalPath} (hnames : p.names ≠ []) :
    Ends p.chunks.getLast? ↔ p.slash = true := by
  have hlast : ∀ front : List Bytes,
      Ends (front ++ p.names ++ if p.slash = true then [[]] else []).getLast? ↔
        p.slash = true := by
    intro front
    by_cases hslash : p.slash = true
    · simp [hslash, Ends]
    · rw [if_neg hslash, append_nil, getLast?_append_of_ne_nil _ hnames]
      exact iff_of_false (not_ends_names hnames p.proper) hslash
  unfold chunks
  by_cases hroot : p.root = true
  · have h := hlast [[]]
    simp only [hnames, or_false]
    rw [if_pos hroot]
    simpa using h
  · have hparts : p.parts ≠ [] := by simp [parts, hnames]
    rw [if_neg hroot, if_neg hparts]
    exact hlast _

theorem of_text : of p.text = p := by
  have hroot : (p.text.head? == some 47) = p.root := by
    rw [Bool.eq_iff_iff, beq_iff_eq, head?_text]
  have hwalk : (p.text.splitOn 47).foldl (pushPart (p.text.head? == some 47)) (0, []) =
      (p.ups, p.names) := by
    rw [hroot, splitOn_text, foldl_chunks]
  apply NormalPath.ext
  · exact hroot
  · exact congrArg Prod.fst hwalk
  · exact congrArg Prod.snd hwalk
  · have hof : (of p.text).slash = true ↔ p.names ≠ [] ∧ Ends p.chunks.getLast? := by
      have hnames : ((p.text.splitOn 47).foldl (pushPart (p.text.head? == some 47)) (0, [])).2 =
          p.names := congrArg Prod.snd hwalk
      rw [← splitOn_text, ← hnames]
      exact decide_eq_true_iff
    rw [Bool.eq_iff_iff, hof]
    constructor
    · rintro ⟨hnames, hends⟩
      exact (ends_chunks hnames).mp hends
    · intro hslash
      exact ⟨p.slash_names hslash, (ends_chunks (p.slash_names hslash)).mpr hslash⟩

/-- The texts of normal paths are normal. -/
theorem lexicallyNormal_text : lexicallyNormal p.text = p.text := by
  rw [lexicallyNormal_eq p.text_ne_nil, of_text]

theorem text_injective {p q : NormalPath} (h : p.text = q.text) : p = q := by
  rw [← of_text p, h, of_text]

/-! ### Appending -/

variable (d : NormalPath)

theorem splitOn_joinPath (rel : Bytes) :
    ∃ front, (joinPath d.text rel).splitOn 47 = front ++ rel.splitOn 47 ∧
      front.foldl (pushPart d.root) (0, []) = (d.ups, d.names) := by
  have hchunks := d.foldl_chunks
  rw [← splitOn_text] at hchunks
  by_cases hlast : d.text.getLast? = some 47
  · -- the separator is there already, and the empty piece behind it is skipped
    obtain ⟨front, hfront⟩ := getLast?_eq_some_iff.mp hlast
    refine ⟨front.splitOn 47, ?_, ?_⟩
    · rw [joinPath, if_pos (.inr hlast), hfront, append_assoc, singleton_append,
        splitOn_append_cons_self]
    · rw [hfront, splitOn_append_cons_self, foldl_append] at hchunks
      rw [← hchunks]
      simp [splitOn, pushPart]
  · refine ⟨d.text.splitOn 47, ?_, hchunks⟩
    rw [joinPath, if_neg (not_or.mpr ⟨d.text_ne_nil, hlast⟩), splitOn_append_cons_self]

theorem of_joinPath (rel : Bytes) :
    (of (joinPath d.text rel)).root = d.root ∧
    ((of (joinPath d.text rel)).ups, (of (joinPath d.text rel)).names) =
      (rel.splitOn 47).foldl (pushPart d.root) (d.ups, d.names) ∧
    ((of (joinPath d.text rel)).slash = true ↔
      (of (joinPath d.text rel)).names ≠ [] ∧ Ends (rel.splitOn 47).getLast?) := by
  have hne := d.text_ne_nil
  have hhead : (joinPath d.text rel).head? = d.text.head? := by
    unfold joinPath
    split_ifs <;> rw [head?_append_of_ne_nil _ hne]
  have hroot : ((joinPath d.text rel).head? == some 47) = d.root := by
    rw [hhead, Bool.eq_iff_iff, beq_iff_eq, head?_text]
  obtain ⟨front, hsplit, hfront⟩ := d.splitOn_joinPath rel
  have hlast : ((joinPath d.text rel).splitOn 47).getLast? = (rel.splitOn 47).getLast? := by
    rw [hsplit, getLast?_append_of_ne_nil _ (splitOn_ne_nil _ _)]
  have hwalk : ((joinPath d.text rel).splitOn 47).foldl
      (pushPart ((joinPath d.text rel).head? == some 47)) (0, []) =
      (rel.splitOn 47).foldl (pushPart d.root) (d.ups, d.names) := by
    rw [hroot, hsplit, foldl_append, hfront]
  refine ⟨hroot, hwalk, ?_⟩
  rw [← hlast]
  exact decide_eq_true_iff

/-! ### Elements -/

/-- The element a separator at the end counts as. -/
def tail (p : NormalPath) : List Bytes := if p.slash then [[]] else []

def body (p : NormalPath) : List Bytes :=
  if p.root then [47] :: p.names else if p.parts = [] then [dot] else p.parts

theorem filter_parts : p.parts.filter (· ≠ []) = p.parts :=
  filter_eq_self.mpr fun _ h => decide_eq_true (ne_nil_of_mem_parts h)

theorem filter_names : p.names.filter (· ≠ []) = p.names :=
  filter_eq_self.mpr fun name h => decide_eq_true (p.proper name h).ne_nil

theorem pieces_text :
    pieces 47 p.text =
      if p.root then p.names else if p.parts = [] then [dot] else p.parts := by
  have hend : ∀ (b : Prop) [Decidable b], (if b then [([] : Bytes)] else []).filter (· ≠ []) =
    [] := by
    intro b _
    split_ifs <;> rfl
  rw [pieces, splitOn_text, chunks]
  by_cases hroot : p.root = true
  · rw [if_pos hroot, if_pos hroot, filter_cons_of_neg (by simp), filter_append,
      filter_names, hend, append_nil]
  · rw [if_neg hroot, if_neg hroot]
    by_cases hparts : p.parts = []
    · rw [if_pos hparts, if_pos hparts]
      rfl
    · rw [if_neg hparts, if_neg hparts, filter_append, filter_parts, hend, append_nil]

theorem getLast?_text {p : NormalPath} (h : pieces 47 p.text ≠ []) :
    p.text.getLast? = some 47 ↔ p.slash = true := by
  constructor
  · intro hlast
    obtain ⟨front, hfront⟩ := getLast?_eq_some_iff.mp hlast
    have hchunks : p.chunks.getLast? = some [] := by
      rw [← splitOn_text, hfront, splitOn_append_cons_self]
      simp
    by_contra hslash
    by_cases hnames : p.names = []
    · -- nothing but dots is left, and none of them is empty
      have hroot : ¬p.root = true := by
        intro hroot
        rw [pieces_text, if_pos hroot] at h
        exact h hnames
      have hmem : ([] : Bytes) ∈ p.parts ∨ ([] : Bytes) = dot := by
        rw [chunks, if_neg hroot, if_neg hslash, append_nil] at hchunks
        split_ifs at hchunks
        · exact .inr (by simpa using hchunks.symm)
        · exact .inl (mem_of_getLast? hchunks)
      rcases hmem with hmem | hmem
      · exact ne_nil_of_mem_parts hmem rfl
      · exact absurd hmem (by decide)
    · exact hslash ((ends_chunks hnames).mp (by rw [hchunks]; decide))
  · intro hslash
    rw [text_eq, hslash]
    simp

theorem elements_text : elements p.text = p.body ++ p.tail := by
  have hbody : (if p.text.head? = some 47 then [[47]] else []) ++ pieces 47 p.text = p.body := by
    rw [pieces_text, body]
    by_cases hroot : p.root = true
    · rw [if_pos ((head?_text p).mpr hroot), if_pos hroot, if_pos hroot]
      rfl
    · rw [if_neg (mt (head?_text p).mp hroot), if_neg hroot, if_neg hroot, nil_append]
  rw [elements, hbody, tail]
  congr 1
  by_cases hpieces : pieces 47 p.text = []
  · have hslash : ¬p.slash = true := by
      intro hslash
      have hnames := p.slash_names hslash
      rw [pieces_text] at hpieces
      split_ifs at hpieces
      · exact hnames hpieces
      · exact hnames (append_eq_nil_iff.mp hpieces).2
    rw [if_neg (fun h => h.1 hpieces), if_neg hslash]
  · simp only [hpieces, ne_eq, not_false_iff, true_and, getLast?_text hpieces]

/-! ### From one path to another -/

def relText (n : Nat) (names : List Bytes) (slash : Bool) : Bytes :=
  if n = 0 ∧ names = [] then dot
  else [47].intercalate (replicate n dotdot ++ names ++ if slash then [[]] else [])

theorem relText_nil (slash : Bool) : relText 0 [] slash = dot := if_pos ⟨rfl, rfl⟩

theorem mismatch_append (com xs ys : List Bytes) :
    mismatch (com ++ xs) (com ++ ys) = mismatch xs ys := by
  induction com with
  | nil => rfl
  | cons c com ih => rw [cons_append, cons_append, mismatch, if_pos rfl, ih]

theorem mismatch_of_ne {xs ys : List Bytes} (h : ∀ x ∈ xs.head?, x ∉ ys.head?) :
    mismatch xs ys = (xs, ys) := by
  match xs, ys with
  | [], _ => rfl
  | _ :: _, [] => rfl
  | x :: xs, y :: ys =>
    have hne : x ≠ y := by
      rintro rfl
      exact h x rfl rfl
    rw [mismatch, if_neg hne]

theorem elementCount_names (h : ∀ name ∈ names, Proper name) (b : Bool) :
    elementCount (names ++ if b then [[]] else []) = names.length := by
  have hone : names.map
    (fun e => if e = dotdot then -1 else if e = dot ∨ e = [] then 0 else (1 : Int)) =
      names.map fun _ => 1 := by
    apply map_congr_left
    intro name hname
    have hp := h name hname
    rw [if_neg hp.ne_dotdot, if_neg (not_or.mpr ⟨hp.ne_dot, hp.ne_nil⟩)]
  have hnil : ([] : Bytes) ≠ dotdot := by decide
  rw [elementCount, map_append, sum_append, hone]
  cases b <;> simp [hnil]

theorem appendPath_nil {c : Bytes} (h : 47 ∉ c) : appendPath [] c = c := by
  have hhead : c.head? ≠ some 47 := fun hc => h (mem_of_mem_head? hc)
  rw [appendPath, if_neg hhead, joinPath, if_pos (.inl rfl), nil_append]

theorem appendPath_concat {front c : Bytes} (hfront : front ≠ []) (hlast : front.getLast? ≠ some 47)
    (h : 47 ∉ c) : appendPath front c = front ++ 47 :: c := by
  have hhead : c.head? ≠ some 47 := fun hc => h (mem_of_mem_head? hc)
  rw [appendPath, if_neg hhead, joinPath, if_neg (not_or.mpr ⟨hfront, hlast⟩)]

/-- Elements one after the other make the text with separators between them. -/
theorem foldl_appendPath (hcs : cs ≠ []) (h : ∀ c ∈ cs, c ≠ [] ∧ 47 ∉ c) :
    cs.foldl appendPath [] = [47].intercalate cs ∧ [47].intercalate cs ≠ [] ∧
      ([47].intercalate cs).getLast? ≠ some 47 := by
  induction cs using reverseRecOn with
  | nil => exact absurd rfl hcs
  | append_singleton cs c ih =>
    obtain ⟨hne, hc⟩ := h c (by simp)
    have hlast : ∀ front : Bytes, (front ++ c).getLast? ≠ some 47 := by
      intro front hl
      rw [getLast?_append_of_ne_nil _ hne] at hl
      exact hc (mem_of_getLast? hl)
    by_cases hempty : cs = []
    · subst hempty
      rw [nil_append, intercalate_singleton, foldl_cons, foldl_nil,
        appendPath_nil hc]
      exact ⟨rfl, hne, hlast []⟩
    · obtain ⟨hfold, hfront, hl⟩ := ih hempty fun d hd => h d (by simp [hd])
      rw [foldl_append, foldl_cons, foldl_nil, hfold,
        appendPath_concat hfront hl hc, intercalate_concat hempty]
      refine ⟨rfl, by simp, ?_⟩
      have := hlast ([47].intercalate cs ++ [47])
      rwa [append_assoc, singleton_append] at this

theorem foldl_appendPath_tail (hcs : cs ≠ []) (h : ∀ c ∈ cs, c ≠ [] ∧ 47 ∉ c) (b : Bool) :
    (cs ++ if b then [[]] else []).foldl appendPath [] =
      [47].intercalate (cs ++ if b then [[]] else []) := by
  obtain ⟨hfold, hfront, hlast⟩ := foldl_appendPath hcs h
  cases b with
  | false =>
    rw [if_neg (by simp), append_nil]
    exact hfold
  | true =>
    rw [if_pos rfl, foldl_append, foldl_cons, foldl_nil, hfold,
      appendPath_concat hfront hlast (by simp), intercalate_concat hcs]

/-- The path between two texts whose elements part after `com`. -/
theorem lexicallyRelative_eq {t d : NormalPath} (hroot : t.root = d.root) (com : List Bytes)
    {ts ds : List Bytes}
    (ht : t.body = com ++ ts) (hd : d.body = com ++ ds) (hts : ∀ name ∈ ts, Proper name)
    (hds : ∀ name ∈ ds, Proper name) (hpart : ∀ a ∈ ts.head?, a ∉ ds.head?) :
    lexicallyRelative t.text d.text = relText ds.length ts t.slash := by
  have hsame : ¬(t.text.head? = some 47) ≠ (d.text.head? = some 47) := by
    rw [not_not, eq_iff_iff, head?_text, head?_text, hroot]
  have hm : mismatch (elements t.text) (elements d.text) =
    mismatch (ts ++ t.tail) (ds ++ d.tail) := by
    rw [elements_text, elements_text, ht, hd, append_assoc, append_assoc,
      mismatch_append]
  rw [lexicallyRelative, if_neg hsame, hm]
  by_cases hnone : ts = [] ∧ ds = []
  · -- at most the separators at the end are left
    have hrel : relText ds.length ts t.slash = dot := by
      rw [hnone.1, hnone.2, length_nil, relText_nil]
    rw [hrel, hnone.1, hnone.2]
    unfold tail
    cases t.slash <;> cases d.slash <;> decide
  · have hsplit : mismatch (ts ++ t.tail) (ds ++ d.tail) = (ts ++ t.tail, ds ++ d.tail) := by
      apply mismatch_of_ne
      cases ts with
      | nil =>
        obtain ⟨a, ds, rfl⟩ := exists_cons_of_ne_nil fun h => hnone ⟨rfl, h⟩
        intro x hx hy
        have ha : x = a := by simpa using hy.symm
        have hx' : x = [] := by
          unfold tail at hx
          split_ifs at hx
          · simpa using hx.symm
          · simp at hx
        exact (hds a (by simp)).ne_nil (ha.symm.trans hx')
      | cons b ts =>
        intro x hx hy
        have hb : x = b := by simpa using hx.symm
        cases ds with
        | nil =>
          have hx' : x = [] := by
            unfold tail at hy
            split_ifs at hy
            · simpa using hy.symm
            · simp at hy
          exact (hts b (by simp)).ne_nil (hb.symm.trans hx')
        | cons a ds => exact hpart x (by simp [hb]) (by simpa using hy)
    have hcount : elementCount (ds ++ d.tail) = ds.length := elementCount_names hds d.slash
    have hrel : relText ds.length ts t.slash =
        [47].intercalate (replicate ds.length dotdot ++ ts ++ t.tail) := by
      rw [relText, if_neg (by rw [length_eq_zero_iff]; exact fun h => hnone ⟨h.2, h.1⟩)]
      rfl
    have hne : ¬(ts ++ t.tail = [] ∧ ds ++ d.tail = []) := fun h =>
      hnone ⟨(append_eq_nil_iff.mp h.1).1, (append_eq_nil_iff.mp h.2).1⟩
    have hdown : ¬((ds.length : Int) = 0 ∧
      (ts ++ t.tail = [] ∨ (ts ++ t.tail).head? = some [])) := by
      rintro ⟨hlen, h⟩
      have hds0 : ds = [] := length_eq_zero_iff.mp (by omega)
      obtain ⟨b, ts, rfl⟩ := exists_cons_of_ne_nil fun h => hnone ⟨h, hds0⟩
      rcases h with h | h
      · simp at h
      · exact (hts b (by simp)).ne_nil (by simpa using h)
    rw [hsplit, hrel]
    dsimp only
    rw [hcount, if_neg hne, if_neg (by omega), if_neg hdown, Int.toNat_natCast, ← append_assoc]
    apply foldl_appendPath_tail
    · intro h
      obtain ⟨hups, hts0⟩ := append_eq_nil_iff.mp h
      exact hnone ⟨hts0, length_eq_zero_iff.mp (by simpa using hups)⟩
    · intro c hc
      rcases mem_append.mp hc with hc | hc
      · rw [eq_of_mem_replicate hc]
        decide
      · exact ⟨(hts c hc).ne_nil, (hts c hc).notMem⟩

theorem exists_common (xs ys : List Bytes) :
    ∃ com ts ds, xs = com ++ ts ∧ ys = com ++ ds ∧ ∀ a ∈ ts.head?, a ∉ ds.head? := by
  induction xs generalizing ys with
  | nil => exact ⟨[], [], ys, rfl, rfl, by simp⟩
  | cons x xs ih =>
    cases ys with
    | nil => exact ⟨[], x :: xs, [], rfl, rfl, by simp⟩
    | cons y ys =>
      by_cases hxy : x = y
      · obtain ⟨com, ts, ds, rfl, rfl, hpart⟩ := ih ys
        exact ⟨x :: com, ts, ds, rfl, by rw [hxy]; rfl, hpart⟩
      · refine ⟨[], x :: xs, y :: ys, rfl, rfl, ?_⟩
        intro a ha hb
        simp only [head?_cons, Option.mem_some_iff] at ha hb
        exact hxy (ha.trans hb.symm)

/-- Between absolute paths, by the names behind those they share. -/
theorem lexicallyRelative_of_root {t d : NormalPath} (ht : t.root = true) (hd : d.root = true)
    {com ts ds : List Bytes} (htn : t.names = com ++ ts) (hdn : d.names = com ++ ds)
    (hpart : ∀ a ∈ ts.head?, a ∉ ds.head?) :
    lexicallyRelative t.text d.text = relText ds.length ts t.slash := by
  have hts : ∀ name ∈ ts, Proper name := fun name h => t.proper name (by simp [htn, h])
  have hds : ∀ name ∈ ds, Proper name := fun name h => d.proper name (by simp [hdn, h])
  apply lexicallyRelative_eq (ht.trans hd.symm) ([47] :: com) _ _ hts hds hpart
  · rw [body, if_pos ht, htn, cons_append]
  · rw [body, if_pos hd, hdn, cons_append]

variable {rest : List Bytes}

/-- A path with more names than another that is otherwise the same. -/
theorem lexicallyRelative_of_names {p base : NormalPath} (hroot : p.root = base.root)
    (hups : p.ups = base.ups) (hnames : p.names = base.names ++ rest) :
    lexicallyRelative p.text base.text = relText 0 rest p.slash := by
  have hrest : ∀ name ∈ rest, Proper name := fun name h => p.proper name (by simp [hnames, h])
  have hparts : p.parts = base.parts ++ rest := by rw [parts, parts, hups, hnames, append_assoc]
  by_cases hdot : base.root = false ∧ base.parts = []
  · have hbase : base.text = dot := by
      rw [text, chunks, if_neg (by rw [hdot.1]; simp), if_pos hdot.2, intercalate_singleton]
    have hproot : ¬p.root = true := by rw [hroot, hdot.1]; simp
    have hhead : ¬p.text.head? = some 47 := mt (head?_text p).mp hproot
    have hbody : elements p.text = (if rest = [] then [dot] else rest) ++ p.tail := by
      rw [elements_text, body, if_neg hproot, hparts, hdot.2, nil_append]
    have hdothead : ¬dot.head? = some 47 := by decide
    rw [lexicallyRelative, hbase, if_neg (by simp [hhead, hdothead]), hbody]
    by_cases hempty : rest = []
    · have hslash : ¬p.slash = true := by
        intro hs
        apply p.slash_names hs
        rw [hnames, hempty, (append_eq_nil_iff.mp hdot.2).2, nil_append]
      rw [hempty, if_pos rfl, tail, if_neg hslash, relText_nil]
      decide
    · obtain ⟨r, rest, rfl⟩ := exists_cons_of_ne_nil hempty
      have hr := hrest r (by simp)
      have hm : mismatch (r :: rest ++ p.tail) (elements dot) = (r :: rest ++ p.tail, [dot]) := by
        rw [show elements dot = [dot] by decide, cons_append, mismatch, if_neg hr.ne_dot]
      have hdown : ¬((0 : Int) = 0 ∧ (r :: rest ++ p.tail = [] ∨
          (r :: rest ++ p.tail).head? = some [])) := by
        simp [hr.ne_nil]
      have hjoin : (replicate (Int.toNat 0) dotdot ++ (r :: rest ++ p.tail)).foldl
          appendPath [] = relText 0 (r :: rest) p.slash := by
        rw [relText, if_neg (by simp)]
        apply foldl_appendPath_tail (by simp)
        intro c hc
        exact ⟨(hrest c hc).ne_nil, (hrest c hc).notMem⟩
      rw [if_neg hempty, hm]
      dsimp only
      rw [show elementCount [dot] = 0 by decide, if_neg (by simp), if_neg (by omega),
        if_neg hdown, hjoin]
  · have hbody : p.body = base.body ++ rest := by
      unfold body
      by_cases hr : base.root = true
      · rw [hroot, if_pos hr, if_pos hr, hnames, cons_append]
      · have hbp : base.parts ≠ [] := fun h => hdot ⟨by simpa using hr, h⟩
        rw [hroot, if_neg hr, if_neg hr, if_neg hbp, if_neg (by rw [hparts]; simp [hbp]), hparts]
    exact lexicallyRelative_eq hroot base.body hbody (append_nil _).symm hrest (by simp) (by simp)

/-! ### And back -/

theorem splitOn_relText {n : Nat} (h : ∀ name ∈ rest, Proper name) (slash : Bool) :
    (relText n rest slash).splitOn 47 =
      if n = 0 ∧ rest = [] then [dot]
      else replicate n dotdot ++ rest ++ if slash then [[]] else [] := by
  unfold relText
  by_cases hnone : n = 0 ∧ rest = []
  · rw [if_pos hnone, if_pos hnone]
    decide
  · rw [if_neg hnone, if_neg hnone]
    apply splitOn_intercalate
    · intro c hc
      rcases mem_append.mp hc with hc | hc
      · rcases mem_append.mp hc with hc | hc
        · rw [eq_of_mem_replicate hc]
          decide
        · exact (h c hc).notMem
      · cases slash <;> simp_all
    · intro hempty
      obtain ⟨hups, hrest⟩ := append_eq_nil_iff.mp (append_eq_nil_iff.mp hempty).1
      exact hnone ⟨by simpa using hups, hrest⟩

theorem foldl_ups_root (n : Nat) (names : List Bytes) :
    (replicate n dotdot).foldl (pushPart true) (0, names) =
      (0, names.take (names.length - n)) := by
  induction n generalizing names with
  | zero => simp
  | succ n ih =>
    have hpush : pushPart true (0, names) dotdot = (0, names.dropLast) := by
      rw [pushPart, if_neg (by decide), if_pos rfl]
      by_cases hnil : names = [] <;> simp [hnil]
    rw [replicate_succ, foldl_cons, hpush, ih, length_dropLast,
      dropLast_eq_take, take_take, Nat.min_eq_left (by omega),
      show names.length - 1 - n = names.length - (n + 1) by omega]

/-- Going up from a directory and down again. -/
theorem of_joinPath_relText {n : Nat}
    (hrest : ∀ name ∈ rest, Proper name) (slash : Bool) (hn : n = 0 ∨ d.root = true) :
    (of (joinPath d.text (relText n rest slash))).root = d.root ∧
    (of (joinPath d.text (relText n rest slash))).ups = d.ups ∧
    (of (joinPath d.text (relText n rest slash))).names =
      d.names.take (d.names.length - n) ++ rest ∧
    ((of (joinPath d.text (relText n rest slash))).slash = true ↔
      d.names.take (d.names.length - n) ++ rest ≠ [] ∧ (rest = [] ∨ slash = true)) := by
  obtain ⟨hroot, hwalk, hslash⟩ := d.of_joinPath (relText n rest slash)
  have hup : (replicate n dotdot).foldl (pushPart d.root) (d.ups, d.names) =
      (d.ups, d.names.take (d.names.length - n)) := by
    rcases hn with rfl | hr
    · simp
    · rw [hr, d.root_ups hr, foldl_ups_root]
  have hend : ∀ st : Nat × List Bytes,
      (if slash = true then [([] : Bytes)] else []).foldl (pushPart d.root) st = st := by
    intro st
    split_ifs <;> simp [pushPart]
  have hfold : ((relText n rest slash).splitOn 47).foldl (pushPart d.root) (d.ups, d.names) =
      (d.ups, d.names.take (d.names.length - n) ++ rest) := by
    rw [splitOn_relText hrest]
    by_cases hnone : n = 0 ∧ rest = []
    · rw [if_pos hnone, hnone.1, hnone.2]
      simp [pushPart]
    · rw [if_neg hnone, foldl_append, hend, foldl_append, hup, foldl_names hrest]
  have hends : Ends ((relText n rest slash).splitOn 47).getLast? ↔ rest = [] ∨ slash = true := by
    rw [splitOn_relText hrest]
    by_cases hempty : rest = []
    · subst hempty
      refine iff_of_true ?_ (.inl rfl)
      by_cases hzero : n = 0
      · rw [if_pos ⟨hzero, rfl⟩]
        decide
      · rw [if_neg (fun h => hzero h.1), append_nil]
        cases slash with
        | false =>
          rw [if_neg (by simp), append_nil, getLast?_replicate, if_neg hzero]
          decide
        | true =>
          rw [if_pos rfl, getLast?_append_of_ne_nil _ (by simp)]
          decide
    · rw [if_neg (fun h => hempty h.2)]
      cases slash with
      | false =>
        rw [if_neg (by simp), append_nil, getLast?_append_of_ne_nil _ hempty]
        exact iff_of_false (not_ends_names hempty hrest) (by simp [hempty])
      | true =>
        rw [if_pos rfl, getLast?_append_of_ne_nil _ (by simp)]
        exact iff_of_true (by decide) (.inr rfl)
  rw [hfold, Prod.mk.injEq] at hwalk
  rw [hwalk.2, hends] at hslash
  exact ⟨hroot, hwalk.1, hwalk.2, hslash⟩

end NormalPath

end Corepkgs.Jig
