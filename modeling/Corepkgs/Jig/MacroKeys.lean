import Corepkgs.Jig.RequestKey
import Corepkgs.Jig.Spelling
/-!
# Macro definitions in request keys

Two command lines that differ in one `-D` or `-U`.  Written as one word the
definition is keyed as it is but for what `Key` masks.  Written as two, the second
word is read and spelled like any other word of the command line: as a source, an
object, or a path.

* `chunks_macro` — what `ParseInvocation` makes of the words of a definition;
* `keyList_ne_iff` — when the key arguments of the two command lines differ.
-/

namespace Corepkgs.Jig

open Lib List

/-! ## The loop over the words -/

theorem chunksFrom_fuel {n m : Nat} {args : List Bytes} (hn : args.length ≤ n)
    (hm : args.length ≤ m) : chunksFrom n args = chunksFrom m args := by
  induction n generalizing m args with
  | zero =>
    rw [length_eq_zero_iff.mp (Nat.le_zero.mp hn)]
    cases m <;> rfl
  | succ n ih =>
    cases args with
    | nil => cases m <;> rfl
    | cons arg rest =>
      cases m with
      | zero => simp at hm
      | succ m =>
        obtain ⟨more, -, hrest⟩ := taken_takeChunk arg rest
        have hlen := congrArg length hrest
        rw [length_append] at hlen
        rw [length_cons] at hn hm
        rw [chunksFrom, chunksFrom, ih (m := m) (by omega) (by omega)]

theorem chunks_cons (arg : Bytes) (rest : List Bytes) :
    chunks (arg :: rest) = (takeChunk arg rest).1 :: chunks (takeChunk arg rest).2 := by
  obtain ⟨more, -, hrest⟩ := taken_takeChunk arg rest
  have hlen := congrArg length hrest
  rw [length_append] at hlen
  rw [chunks, length_cons, chunksFrom]
  congr 1
  exact chunksFrom_fuel (by omega) (Nat.le_refl _)

/-- No option at the end of the words waits for its value. -/
def Closed (args : List Bytes) : Prop := ∀ rest, chunks (args ++ rest) = chunks args ++ chunks rest

/-! ## A definition -/

/-- `-D<text>` or `-D <text>`, or the same with `-U`. -/
structure MacroForm where
  define : Bool
  joined : Bool

namespace MacroForm

variable (f : MacroForm)

def flag : Bytes := ascii (if f.define then "-D" else "-U")

def carrier (text : Bytes) : Bytes := if f.joined then f.flag ++ text else text

def front : List Bytes := if f.joined then [] else [f.flag]

def words (text : Bytes) : List Bytes := f.front ++ [f.carrier text]

end MacroForm

/-- A text begins with the name of the macro, not with a dash, and as a word of its own it is not
taken for a source or an object. -/
structure MacroForm.Fits (f : MacroForm) (text : Bytes) : Prop where
  named : ∃ c rest, text = c :: rest ∧ c ≠ 45
  other : f.joined = false → isSourceFile text = false ∧ isObjectInput text = false

variable {text : Bytes}

/-- A word without a dash is a source, an object or something else. -/
theorem takeChunk_plain (h : text.head? ≠ some 45) (rest : List Bytes) :
    takeChunk text rest =
      (if isSourceFile text then .source text
        else if isObjectInput text then .object text else .other text, rest) := by
  have hne : ∀ {w : Bytes}, w.head? = some 45 → text ≠ w := fun hw heq => h (heq ▸ hw)
  have hdepfile : takeDepfileOption text rest = none := by
    simp [takeDepfileOption, hne (w := ascii "-MF") rfl, hne (w := ascii "-MT") rfl,
      hne (w := ascii "-MQ") rfl, hne (w := ascii "-MD") rfl, hne (w := ascii "-MMD") rfl,
      hne (w := ascii "-MP") rfl, startsWith_dash h (s := "-Wp,-MD,") rfl,
      startsWith_dash h (s := "-Wp,-MMD,") rfl]
  have hpch : takePchOption text rest = none := by
    simp [takePchOption, hne (w := ascii "-include-pch") rfl]
  have hquery : isNoOutputOption text = false := by
    simp [isNoOutputOption, hne (w := ascii "-M") rfl, hne (w := ascii "-MM") rfl,
      hne (w := ascii "-") rfl, hne (w := ascii "-v") rfl, hne (w := ascii "-V") rfl,
      hne (w := ascii "--version") rfl, hne (w := ascii "-###") rfl,
      hne (w := ascii "-fsyntax-only") rfl, startsWith_dash h (s := "-print") rfl,
      startsWith_dash h (s := "--print") rfl, startsWith_dash h (s := "-dump") rfl]
  simp only [takeChunk, hdepfile, hpch, hquery, hne (w := ascii "-c") rfl,
    hne (w := ascii "-S") rfl,
    hne (w := ascii "-E") rfl, hne (w := ascii "-o") rfl, startsWith_dash h (s := "-o") rfl]
  split_ifs <;> simp_all

/-- A joined definition is none of the words the loop looks out for. -/
theorem takeChunk_joined (define : Bool) (text : Bytes) (rest : List Bytes) :
    takeChunk (ascii (if define then "-D" else "-U") ++ text) rest =
      (.other (ascii (if define then "-D" else "-U") ++ text), rest) := by
  cases define <;>
    simp [takeChunk, takeDepfileOption, takePchOption, isNoOutputOption, isSourceFile,
      isObjectInput,
      startsWith, ascii]

variable {f : MacroForm}

theorem MacroForm.Fits.dash (h : f.Fits text) : text.head? ≠ some 45 := by
  obtain ⟨c, rest, rfl, hc⟩ := h.named
  simpa using hc

theorem chunks_macro (h : f.Fits text) (post : List Bytes) :
    chunks (f.words text ++ post) = (f.words text).map .other ++ chunks post := by
  unfold MacroForm.words MacroForm.front MacroForm.carrier
  cases hjoined : f.joined with
  | true =>
    simp only [if_true, nil_append, cons_append, map_cons, map_nil]
    rw [chunks_cons, MacroForm.flag, takeChunk_joined]
  | false =>
    have hflag : takeChunk f.flag (text :: post) = (.other f.flag, text :: post) := by
      have := takeChunk_joined f.define [] (text :: post)
      rwa [append_nil] at this
    obtain ⟨hsource, hobject⟩ := h.other hjoined
    simp only [Bool.false_eq_true, if_false, cons_append, nil_append, map_cons, map_nil]
    rw [chunks_cons, hflag, chunks_cons, takeChunk_plain h.dash, hsource, hobject]
    rfl

/-- It does not ask for a link. -/
theorem MacroForm.Fits.of_mem_words (h : f.Fits text) {w : Bytes} (hw : w ∈ f.words text) :
    w ≠ ascii "-shared" ∧ w ≠ ascii "-r" := by
  have hflag : ∀ text, f.flag ++ text ≠ ascii "-shared" ∧ f.flag ++ text ≠ ascii "-r" := by
    intro text
    unfold MacroForm.flag
    cases f.define <;> simp [ascii]
  unfold MacroForm.words MacroForm.front MacroForm.carrier at hw
  cases hjoined : f.joined with
  | true =>
    simp only [hjoined, if_true, nil_append, mem_singleton] at hw
    exact hw ▸ hflag text
  | false =>
    simp only [hjoined, Bool.false_eq_true, if_false, cons_append, nil_append, mem_cons,
      not_mem_nil, or_false] at hw
    rcases hw with rfl | rfl
    · exact append_nil f.flag ▸ hflag []
    · constructor <;> rintro rfl <;> exact h.dash rfl

/-! ## Key arguments -/

variable (proc : Process)

theorem keyArgs_classifyCompile (p : Parsing) :
    (classifyCompile proc p).keyArgs = p.inv.keyArgs := by
  unfold classifyCompile
  dsimp only
  split_ifs <;> rfl

theorem keyArgs_nameDepfile (inv : Invocation) : (nameDepfile inv).keyArgs = inv.keyArgs := by
  unfold nameDepfile
  split_ifs <;> rfl

theorem keyArgs_parseInvocation (args : List Bytes) :
    (parseInvocation proc args).keyArgs = keyWords args := by
  have hfold : (parsed args).inv.keyArgs = keyWords args := Parsing.keyArgs_foldl _ _
  rw [parseInvocation, classify, keyArgs_nameDepfile, ← hfold]
  split_ifs
  · exact keyArgs_classifyCompile proc _
  · rfl

namespace Request

variable (r : Request)

/-- Whether the paths a link embeds are spelled apart. -/
def keyLinks (args : List Bytes) : Bool :=
  (parseInvocation r.proc args).linkOne || (parseInvocation r.proc args).link

def keyList (args : List Bytes) : List Bytes :=
  (parseInvocation r.proc args).keyArgs.map (r.spell (r.keyLinks args))

theorem keyList_eq {pre post : List Bytes} (hpre : Closed pre) (h : f.Fits text) :
    r.keyList (pre ++ (f.words text ++ post)) =
      (keyWords pre ++ (f.words text ++ keyWords post)).map
        (r.spell (r.keyLinks (pre ++ (f.words text ++ post)))) := by
  have hwords : ((f.words text).map Chunk.other).flatMap Chunk.keyWords = f.words text := by
    rw [flatMap_map]
    exact flatMap_singleton' _
  rw [keyList, keyArgs_parseInvocation, keyWords, hpre, chunks_macro h, flatMap_append,
    flatMap_append, hwords]
  rfl

end Request

/-! ### The kind of link -/

def Parsing.mode (p : Parsing) : Bool × Bool × Nat × List Bytes × Bool × Bool :=
  (p.inv.compileOnly, p.objects, p.sources, p.inv.inputs, p.inv.linkOne, p.inv.link)

theorem Parsing.mode_start (args args' : List Bytes) :
    (Parsing.start args).mode = (Parsing.start args').mode := rfl

theorem Parsing.mode_step {p q : Parsing} (h : p.mode = q.mode) (c : Chunk) :
    (p.step c).mode = (q.step c).mode := by
  simp only [Parsing.mode, Prod.mk.injEq] at h ⊢
  cases c <;> simp_all [Parsing.step]

theorem Parsing.mode_foldl {p q : Parsing} (h : p.mode = q.mode) (cs : List Chunk) :
    (cs.foldl Parsing.step p).mode = (cs.foldl Parsing.step q).mode := by
  induction cs generalizing p q with
  | nil => exact h
  | cons c cs ih => exact ih (Parsing.mode_step h c)

theorem links_classify (p : Parsing) :
    ((classify proc p).linkOne || (classify proc p).link) =
      if p.inv.compileOnly then p.inv.linkOne || p.inv.link
      else (!p.objects && p.sources == 1) ||
        (p.objects && p.sources == 0 && !p.inv.inputs.isEmpty) := by
  have hname : ∀ inv : Invocation, ((nameDepfile inv).linkOne || (nameDepfile inv).link) =
      (inv.linkOne || inv.link) := by
    intro inv
    unfold nameDepfile
    split_ifs <;> rfl
  rw [classify, hname]
  split_ifs
  · unfold classifyCompile
    dsimp only
    split_ifs <;> rfl
  · rfl

theorem links_of_mode {p q : Parsing} (h : p.mode = q.mode) (proc : Process) :
    ((classify proc p).linkOne || (classify proc p).link) =
      ((classify proc q).linkOne || (classify proc q).link) := by
  simp only [Parsing.mode, Prod.mk.injEq] at h
  rw [links_classify, links_classify, h.1, h.2.1, h.2.2.1, h.2.2.2.1, h.2.2.2.2.1, h.2.2.2.2.2]

theorem keyLinks_eq (r : Request) {pre post : List Bytes} (hpre : Closed pre) {text' : Bytes}
    (h : f.Fits text) (h' : f.Fits text') :
    r.keyLinks (pre ++ (f.words text ++ post)) = r.keyLinks (pre ++ (f.words text' ++ post)) := by
  have hothers : ∀ (ws : List Bytes) (p : Parsing),
      (∀ w ∈ ws, w ≠ ascii "-shared" ∧ w ≠ ascii "-r") →
        ((ws.map Chunk.other).foldl Parsing.step p).mode = p.mode := by
    intro ws
    induction ws with
    | nil => exact fun _ _ => rfl
    | cons w ws ih =>
      intro p hws
      obtain ⟨hw, hws⟩ := forall_mem_cons.mp hws
      rw [map_cons, foldl_cons, ih _ hws]
      simp [Parsing.step, Parsing.mode, beq_eq_false_iff_ne.mpr hw.1, beq_eq_false_iff_ne.mpr hw.2]
  have hmode : ∀ {text}, f.Fits text → (parsed (pre ++ (f.words text ++ post))).mode =
      ((chunks post).foldl Parsing.step ((chunks pre).foldl Parsing.step (.start []))).mode := by
    intro text h
    rw [parsed, hpre, chunks_macro h, foldl_append, foldl_append]
    apply Parsing.mode_foldl
    rw [hothers _ _ fun _ => h.of_mem_words]
    exact Parsing.mode_foldl (Parsing.mode_start _ _) _
  apply links_of_mode
  exact (hmode h).trans (hmode h').symm

/-! ### What differs -/

namespace Request

variable (r : Request)

/-- Without store hashes, the own prefix hash and the scratch names of cmake. -/
def masked (word : Bytes) : Bytes := maskHashes r.store.dir (maskRandomNames (r.store.maskOut word))

def embedded (word : Bytes) : Bool :=
  containsText "dynamic-linker" word || containsText "rpath" word

/-- Swapping the own hash leaves the first two characters alone. -/
theorem maskOut_dash (c : UInt8) (text : Bytes) :
    ∃ text', r.store.maskOut (45 :: c :: text) = 45 :: c :: text' := by
  unfold Store.maskOut
  split_ifs with hout
  · exact ⟨text, rfl⟩
  · have hroot : ∀ h : Bytes, r.store.dir ++ 47 :: h ++ [45] =
      r.store.dir ++ [47] ++ (h ++ [45]) := by
      simp
    rw [hroot, hroot, length_cons, Text.replaceFrom]
    split_ifs with hpre
    · -- a match at the front covers both of them, since a separator is no dash
      obtain ⟨d, dir, hdir⟩ : ∃ d dir, r.store.dir = d :: dir := by
        apply exists_cons_of_ne_nil
        intro hnil
        rw [hnil] at hpre
        simp [isPrefixOf] at hpre
      rw [List.isPrefixOf_iff_prefix, hdir] at hpre
      obtain ⟨hd, hrest⟩ := cons_prefix_cons.mp hpre
      rw [hdir, hd]
      cases dir with
      | nil | cons _ _ =>
        obtain ⟨hc, -⟩ := cons_prefix_cons.mp hrest
        rw [← hc]
        exact ⟨_, rfl⟩
    · have hhead := Text.head?_replaceFrom (show r.store.dir ++ [47] ≠ [] by simp)
        (r.store.outHash ++ [45]) (replicate kStoreHashLength 101 ++ [45])
        (c :: text).length (c :: text)
      obtain ⟨text', htext⟩ := head?_eq_some_iff.mp hhead
      exact ⟨text', by rw [htext]⟩

theorem head?_maskOut (word : Bytes) : (r.store.maskOut word).head? = word.head? := by
  unfold Store.maskOut
  split_ifs
  · rfl
  · have hroot : ∀ h : Bytes, r.store.dir ++ 47 :: h ++ [45] =
      r.store.dir ++ [47] ++ (h ++ [45]) := by
      simp
    rw [hroot, hroot]
    exact Text.head?_replaceFrom (by simp) _ _ _ _

theorem normalizePathArg_joined (f : MacroForm) (text : Bytes) :
    normalizePathArg (r.store.maskOut (f.flag ++ text)) = r.store.maskOut (f.flag ++ text) := by
  unfold MacroForm.flag
  cases f.define with
  | true =>
    obtain ⟨text', h⟩ : ∃ text', r.store.maskOut (ascii "-D" ++ text) = ascii "-D" ++ text' :=
      r.maskOut_dash 68 text
    rw [if_pos rfl, h]
    exact if_pos (.inl rfl)
  | false =>
    obtain ⟨text', h⟩ : ∃ text', r.store.maskOut (ascii "-U" ++ text) = ascii "-U" ++ text' :=
      r.maskOut_dash 85 text
    rw [if_neg Bool.false_ne_true, h]
    exact if_pos (.inr rfl)

theorem spell_eq (links : Bool) (word : Bytes) :
    r.spell links word =
      if links = true ∧ embedded word = true then r.store.maskOut word
      else r.store.key (r.store.maskOut word) := by
  unfold spell embedded
  cases links <;> simp

/-- How the text of a definition is keyed: a word of its own in the normal form of a path, if there
is a separator in it or a dot in front, and without what is masked. -/
def written (links : Bool) (f : MacroForm) (text : Bytes) : Bytes :=
  let word := r.store.maskOut (f.carrier text)
  if links = true ∧ embedded (f.carrier text) = true then word
  else
    let form := maskRandomNames (if f.joined then word else pathForm word)
    if r.store.byContent then maskHashes r.store.dir form else form

theorem spell_carrier (links : Bool) (h : f.Fits text) :
    r.spell links (f.carrier text) = r.written links f text := by
  have hform : normalizePathArg (r.store.maskOut (f.carrier text)) =
      if f.joined then r.store.maskOut (f.carrier text)
      else pathForm (r.store.maskOut (f.carrier text)) := by
    unfold MacroForm.carrier
    cases f.joined with
    | true => exact r.normalizePathArg_joined f text
    | false => exact normalizePathArg_eq (by rw [head?_maskOut]; exact h.dash)
  rw [spell_eq, Store.key, hform]
  rfl

/-- A text in which no separator is and which no dot begins is not taken for a path. -/
theorem pathForm_maskOut (hslash : 47 ∉ text) (hdot : text.head? ≠ some 46) :
    pathForm (r.store.maskOut text) = r.store.maskOut text := by
  rw [r.store.maskOut_of_notMem hslash]
  exact if_pos ⟨hslash, hdot⟩

end Request

theorem closed_nil : Closed [] := fun _ => rfl

end Corepkgs.Jig
