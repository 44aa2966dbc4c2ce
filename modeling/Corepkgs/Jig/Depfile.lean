import Corepkgs.Lib.Text
import Mathlib
/-!
# Make depfiles

`ParseDepfile` reads the prerequisites of the first rule off a depfile.  What it is
given is written by clang and lld: `escape` and `render` are their side of it.

* `scan` — the loop of `ParseDepfile`; `words` — what it does behind the colon;
* `words_escape` — a path that is written is read back as `reread`;
* `parseDepfile_render_iff` — for which targets and paths reading inverts writing.
-/

namespace Corepkgs.Jig.Depfile

open Lib List Prod

/-! ## Reading -/

structure Scan where
  deps : List Bytes
  token : Bytes
  afterColon : Bool

def Scan.flush (s : Scan) : Scan :=
  if s.token = [] then s
  else if s.afterColon then ⟨s.deps ++ [s.token], [], true⟩
  else ⟨s.deps, [], s.token.getLast? = some 58⟩

/-- The loop; `skip` when the character at hand has been dealt with together with the one
before it. -/
def scan : Bool → Scan → Bytes → List Bytes
  | _, s, [] => s.flush.deps
  | true, s, _ :: rest => scan false s rest
  | false, s, cur :: rest =>
    let next := rest.headD 10
    if cur = 92 ∧ next = 10 then scan true s rest
    else if cur = 92 ∧ next = 32 then scan true { s with token := s.token ++ [32] } rest
    else if cur = 10 then
      if s.flush.afterColon then s.flush.deps else scan false s.flush rest
    else if cur = 32 ∨ cur = 9 then scan false s.flush rest
    else if cur = 58 ∧ s.afterColon = false ∧ (next = 32 ∨ next = 10 ∨ next = 92) then
      scan false ⟨s.deps, [], true⟩ rest
    else scan false { s with token := s.token ++ [cur] } rest

def parseDepfile (text : Bytes) : List Bytes := scan false ⟨[], [], false⟩ text

/-! ## Writing -/

/-- What stands before a character of a path, `run` backslashes having come just before it.  With
`doubled` a space's backslashes are written twice. -/
def mark (doubled : Bool) (run : Nat) (c : UInt8) : Bytes :=
  if c = 35 then [92]
  else if c = 32 then (if doubled then replicate run 92 else []) ++ [92]
  else if c = 36 then [36]
  else []

/-- The backslashes at the end, after one more character. -/
def runAfter (run : Nat) (c : UInt8) : Nat := if c = 92 then run + 1 else 0

def escape (doubled : Bool) : Nat → Bytes → Bytes
  | _, [] => []
  | run, c :: path => mark doubled run c ++ c :: escape doubled (runAfter run c) path

inductive Gap where
  | space
  /-- A new line, `indent` blanks and one more. -/
  | line (indent : Nat)
  deriving DecidableEq, Repr

def Gap.tail : Gap → Bytes
  | .space => []
  | .line indent => 92 :: 10 :: replicate (indent + 1) 32

def Gap.text (g : Gap) : Bytes := 32 :: g.tail

/-- A depfile: targets, prerequisites, and the phony rules of `-MP` with what stands before each. -/
structure Rule where
  doubled : Bool
  targets : List Bytes
  deps : List (Gap × Bytes)
  /-- lld puts an empty line before each. -/
  blank : Bool
  phony : List Bytes

namespace Rule

variable (r : Rule)

def paths : List Bytes := r.deps.map snd

def targetText : Bytes := [32].intercalate (r.targets.map (escape r.doubled 0))

def phonyText : Bytes :=
  r.phony.flatMap fun p => (if r.blank then [10] else []) ++ escape r.doubled 0 p ++ [58, 10]

def depText (doubled : Bool) (deps : List (Gap × Bytes)) : Bytes :=
  deps.flatMap fun d => d.1.text ++ escape doubled 0 d.2

def render : Bytes :=
  r.targetText ++ 58 :: (depText r.doubled r.deps ++ 10 :: r.phonyText)

end Rule

/-! ## Behind the colon -/

def emit (token : Bytes) : List Bytes := if token = [] then [] else [token]

/-- The loop once `after_colon` is set, with the token at hand. -/
def words : Bool → Bytes → Bytes → List Bytes
  | _, token, [] => emit token
  | true, token, _ :: rest => words false token rest
  | false, token, cur :: rest =>
    let next := rest.headD 10
    if cur = 92 ∧ next = 10 then words true token rest
    else if cur = 92 ∧ next = 32 then words true (token ++ [32]) rest
    else if cur = 10 then emit token
    else if cur = 32 ∨ cur = 9 then emit token ++ words false [] rest
    else words false (token ++ [cur]) rest

theorem flush_after (deps : List Bytes) (token : Bytes) :
    Scan.flush ⟨deps, token, true⟩ = ⟨deps ++ emit token, [], true⟩ := by
  unfold Scan.flush emit
  by_cases h : token = []
  · simp [h]
  · simp [h]

theorem scan_after (skip : Bool) (deps : List Bytes) (token text : Bytes) :
    scan skip ⟨deps, token, true⟩ text = deps ++ words skip token text := by
  induction text generalizing skip deps token with
  | nil => cases skip <;> rw [scan, words, flush_after]
  | cons cur rest ih =>
    cases skip with
    | true => rw [scan, words, ih]
    | false =>
      simp only [scan, words, flush_after]
      split_ifs with h1 h2 h3 h4 h5
      · exact ih ..
      · exact ih ..
      · rfl
      · rw [ih, append_assoc]
      · exact absurd h5.2.1 (by decide)
      · exact ih ..

/-! ### One character -/

section

variable {token rest : Bytes}

theorem words_continued : words false token (92 :: 10 :: rest) = words false token rest := by
  simp [words]

theorem words_space_escaped :
    words false token (92 :: 32 :: rest) = words false (token ++ [32]) rest := by
  simp [words]

theorem words_newline : words false token (10 :: rest) = emit token := by
  simp [words]

variable {c : UInt8}

theorem words_blank (hc : c = 32 ∨ c = 9) :
    words false token (c :: rest) = emit token ++ words false [] rest := by
  rcases hc with rfl | rfl <;> simp [words]

theorem words_letter (h10 : c ≠ 10) (h32 : c ≠ 32) (h9 : c ≠ 9)
    (hnext : c = 92 → rest.headD 10 ≠ 10 ∧ rest.headD 10 ≠ 32) :
    words false token (c :: rest) = words false (token ++ [c]) rest := by
  rw [words]
  have h1 : ¬(c = 92 ∧ rest.headD 10 = 10) := fun h => (hnext h.1).1 h.2
  have h2 : ¬(c = 92 ∧ rest.headD 10 = 32) := fun h => (hnext h.1).2 h.2
  simp only [h1, h2, h10, h32, h9, if_false, or_self]

end

/-! ### All that follows -/

variable {token rest path text : Bytes} {doubled : Bool}

/-- No word is empty, and only a tab of the token at the start gets into one. -/
theorem plain_of_mem_words {skip : Bool} {w : Bytes} (h : w ∈ words skip token text) :
    w ≠ [] ∧ (9 ∉ token → 9 ∉ w) := by
  have hemit : ∀ {token : Bytes}, w ∈ emit token → w ≠ [] ∧ (9 ∉ token → 9 ∉ w) := by
    intro token hw
    unfold emit at hw
    split_ifs at hw with htoken
    · cases hw
    · rw [mem_singleton.mp hw]
      exact ⟨htoken, id⟩
  induction text generalizing skip token with
  | nil => cases skip <;> exact hemit h
  | cons cur rest ih =>
    cases skip with
    | true => exact ih h
    | false =>
      simp only [words] at h
      split_ifs at h with h1 h2 h3 h4
      · exact ih h
      · exact (ih h).imp_right fun hw htoken => hw (by simp [htoken])
      · exact hemit h
      · rcases mem_append.mp h with h | h
        · exact hemit h
        · exact (ih h).imp_right fun hw _ => hw not_mem_nil
      · have hcur : (9 : UInt8) ≠ cur := fun heq => h4 (.inr heq.symm)
        exact (ih h).imp_right fun hw htoken => hw (by simp [htoken, hcur])

/-- A token at hand is the beginning of the next word. -/
theorem words_of_token (skip : Bool) (htoken : token ≠ []) (text : Bytes) :
    ∃ more ws, words skip token text = (token ++ more) :: ws := by
  have hemit : ∀ {token : Bytes}, token ≠ [] → emit token = [token] := fun h => if_neg h
  induction text generalizing skip token with
  | nil => cases skip <;> exact ⟨[], [], by rw [words, hemit htoken, append_nil]⟩
  | cons cur rest ih =>
    cases skip with
    | true => exact ih false htoken
    | false =>
      rw [words]
      split_ifs
      · exact ih true htoken
      · obtain ⟨more, ws, hws⟩ := ih true (append_ne_nil_of_right_ne_nil token (cons_ne_nil 32 []))
        exact ⟨32 :: more, ws, by rw [hws, append_assoc]; rfl⟩
      · exact ⟨[], [], by rw [hemit htoken, append_nil]⟩
      · exact ⟨[], _, by rw [hemit htoken, append_nil]; rfl⟩
      · obtain ⟨more, ws, hws⟩ :=
          ih false (append_ne_nil_of_right_ne_nil token (cons_ne_nil cur []))
        exact ⟨cur :: more, ws, by rw [hws, append_assoc]; rfl⟩

/-- Nothing at hand is lost. -/
theorem count_token_le (k : UInt8) (skip : Bool) (token text : Bytes) :
    token.count k ≤ (words skip token text).flatten.count k := by
  cases htoken : decide (token = []) with
  | true => simp [of_decide_eq_true htoken]
  | false =>
    obtain ⟨more, ws, hws⟩ := words_of_token skip (of_decide_eq_false htoken) text
    rw [hws, flatten_cons, count_append, count_append]
    omega

/-! ## A path -/

def reread (doubled : Bool) : Nat → Bytes → Bytes
  | _, [] => []
  | run, c :: path =>
    (if c = 32 then (mark doubled run c).dropLast else mark doubled run c) ++
      c :: reread doubled (runAfter run c) path

/-- A text that a backslash before it does not swallow. -/
def Solid (rest : Bytes) : Prop := rest.headD 10 ≠ 10 ∧ rest.headD 10 ≠ 32

theorem words_backslashes (n : Nat) (hrest : rest.headD 10 = 92) :
    words false token (replicate n 92 ++ rest) =
      words false (token ++ replicate n 92) rest := by
  induction n generalizing token with
  | zero => simp
  | succ n ih =>
    have hhead : (replicate n 92 ++ rest).headD 10 = 92 := by
      cases n with
      | zero => exact hrest
      | succ n => rfl
    rw [replicate_succ, cons_append, words_letter (by decide) (by decide) (by decide)
      fun _ => by rw [hhead]; decide, ih]
    simp

theorem solid_escape {run : Nat} {c : UInt8} (hc : c ≠ 10) :
    Solid (escape doubled run (c :: path) ++ rest) := by
  unfold Solid escape mark
  by_cases h35 : c = 35
  · simp [h35]
  · by_cases h32 : c = 32
    · cases doubled <;> cases run <;> simp [h32, replicate_succ]
    · by_cases h36 : c = 36
      · simp [h36]
      · simp [h35, h32, h36, hc]

/-- Neither blanks nor newlines, but for spaces. -/
def Straight (path : Bytes) : Prop := 9 ∉ path ∧ 10 ∉ path

/-- The scanner reads a written path, if what follows does not run into it. -/
theorem words_escape (hpath : Straight path) (hlast : path.getLast? = some 92 → Solid rest)
    (run : Nat) (token : Bytes) :
    words false token (escape doubled run path ++ rest) =
      words false (token ++ reread doubled run path) rest := by
  induction path generalizing run token with
  | nil => simp [escape, reread]
  | cons c path ih =>
    have hc9 : c ≠ 9 := fun h => hpath.1 (by simp [h])
    have hc10 : c ≠ 10 := fun h => hpath.2 (by simp [h])
    have hpath' : Straight path :=
      ⟨fun h => hpath.1 (mem_cons_of_mem _ h), fun h => hpath.2 (mem_cons_of_mem _ h)⟩
    have hlast' : path.getLast? = some 92 → Solid rest := by
      intro h
      apply hlast
      rw [getLast?_cons, h]
      rfl
    -- what stands behind a backslash of the path
    have hsolid : c = 92 → Solid (escape doubled (runAfter run c) path ++ rest) := by
      intro hc
      cases path with
      | nil => exact hlast (by simp [hc])
      | cons c' path => exact solid_escape fun h => hpath'.2 (by simp [h])
    rw [escape, reread, append_assoc, cons_append]
    by_cases h32 : c = 32
    · subst h32
      have hmark : mark doubled run 32 = (if doubled then replicate run 92 else []) ++ [92] :=
        rfl
      rw [if_pos rfl, hmark, dropLast_concat, append_assoc]
      have hrun : ∀ n, words false token (replicate n 92 ++
          ([92] ++ 32 :: (escape doubled (runAfter run 32) path ++ rest))) =
          words false (token ++ (replicate n 92 ++ 32 :: reread doubled (runAfter run 32) path))
            rest := by
        intro n
        rw [words_backslashes n rfl, singleton_append, words_space_escaped,
          ih hpath' hlast' _ _]
        simp
      cases doubled with
      | true => exact hrun run
      | false => exact hrun 0
    · rw [if_neg h32]
      have hletter : ∀ token,
        words false token (c :: (escape doubled (runAfter run c) path ++ rest)) =
          words false (token ++ [c] ++ reread doubled (runAfter run c) path) rest := by
        intro token
        rw [words_letter hc10 h32 hc9 hsolid, ih hpath' hlast' _ _]
      by_cases h35 : c = 35
      · have hmark : mark doubled run c = [92] := if_pos h35
        rw [hmark, singleton_append, words_letter (by decide) (by decide) (by decide)
          fun _ => by simp [h35], hletter]
        simp
      · by_cases h36 : c = 36
        · have hmark : mark doubled run c = [36] := by simp [mark, h36]
          rw [hmark, singleton_append, words_letter (by decide) (by decide) (by decide)
            (fun h => absurd h (by decide)), hletter]
          simp
        · have hmark : mark doubled run c = [] := by simp [mark, h35, h32, h36]
          rw [hmark, nil_append, hletter]
          simp

/-! ### Which paths come back -/

theorem sublist_reread (doubled : Bool) (run : Nat) (path : Bytes) :
    path.Sublist (reread doubled run path) := by
  induction path generalizing run with
  | nil => exact List.Sublist.refl _
  | cons c path ih => exact ((ih _).cons_cons c).trans (sublist_append_right ..)

theorem escape_append (doubled : Bool) (run : Nat) (p q : Bytes) :
    escape doubled run (p ++ q) = escape doubled run p ++
      escape doubled (p.foldl runAfter run) q := by
  induction p generalizing run with
  | nil => rfl
  | cons c p ih => simp [escape, ih]

theorem reread_append (doubled : Bool) (run : Nat) (p q : Bytes) :
    reread doubled run (p ++ q) = reread doubled run p ++
      reread doubled (p.foldl runAfter run) q := by
  induction p generalizing run with
  | nil => rfl
  | cons c p ih => simp [reread, ih]

/-- Reading back never only adds a backslash at the end. -/
theorem reread_ne_concat (doubled : Bool) (path : Bytes) :
    reread doubled 0 path ≠ path ++ [92] := by
  induction path using reverseRecOn with
  | nil => simp [reread]
  | append_singleton path c ih =>
    intro h
    have hlast : reread doubled 0 (path ++ [c]) =
        (reread doubled 0 path ++ (if c = 32 then (mark doubled (path.foldl runAfter 0) c).dropLast
          else mark doubled (path.foldl runAfter 0) c)) ++ [c] := by
      rw [reread_append]
      simp [reread]
    rw [hlast] at h
    obtain ⟨hinit, hc⟩ := append_inj' h rfl
    have hc92 : c = 92 := singleton_inj.mp hc
    subst hc92
    have hmark : mark doubled (path.foldl runAfter 0) 92 = [] := rfl
    rw [if_neg (by decide), hmark, append_nil] at hinit
    exact ih hinit

/-- The path has nothing that is written in a way the scanner does not undo. -/
def Bare (doubled : Bool) : Nat → Bytes → Prop
  | _, [] => True
  | run, c :: path =>
    c ≠ 35 ∧ c ≠ 36 ∧ (c = 32 → doubled = true → run = 0) ∧ Bare doubled (runAfter run c) path

theorem inserted_eq_nil_iff (doubled : Bool) (run : Nat) (c : UInt8) :
    (if c = 32 then (mark doubled run c).dropLast else mark doubled run c) = [] ↔
      c ≠ 35 ∧ c ≠ 36 ∧ (c = 32 → doubled = true → run = 0) := by
  unfold mark
  by_cases h32 : c = 32
  · cases doubled <;> simp [h32]
  · by_cases h35 : c = 35
    · simp [h35]
    · by_cases h36 : c = 36
      · simp [h36]
      · simp [h32, h35, h36]

theorem reread_eq_self_iff_bare {run : Nat} :
    reread doubled run path = path ↔ Bare doubled run path := by
  induction path generalizing run with
  | nil => simp [reread, Bare]
  | cons c path ih =>
    rw [reread, Bare, ← ih, ← and_assoc, ← and_assoc, and_assoc (a := c ≠ 35),
      ← inserted_eq_nil_iff doubled run c]
    constructor
    · intro h
      have hlen := congrArg length h
      have hle := (sublist_reread doubled (runAfter run c) path).length_le
      simp only [length_append, length_cons] at hlen
      have hnil := length_eq_zero_iff.mp (show (if c = 32 then (mark doubled run c).dropLast
        else mark doubled run c).length = 0 by omega)
      rw [hnil] at h
      exact ⟨hnil, (cons.inj h).2⟩
    · rintro ⟨hnil, hpath⟩
      rw [hnil, hpath, nil_append]

def Backslashed (a b : UInt8) : Prop := a = 92 ∧ b = 32

theorem bare_iff (run : Nat) :
    Bare doubled run path ↔ 35 ∉ path ∧ 36 ∉ path ∧
      (doubled = true → (run ≠ 0 → path.headD 10 ≠ 32) ∧
        path.IsChain fun a b => ¬Backslashed a b) := by
  induction path generalizing run with
  | nil => simp [Bare]
  | cons c path ih =>
    have hrun : runAfter run c ≠ 0 ↔ c = 92 := by
      unfold runAfter
      split_ifs with h <;> simp [h]
    have hchain : (c :: path).IsChain (fun a b => ¬Backslashed a b) ↔
        (c = 92 → path.headD 10 ≠ 32) ∧ path.IsChain fun a b => ¬Backslashed a b := by
      cases path with
      | nil => simp
      | cons b path =>
        rw [isChain_cons_cons]
        exact and_congr_left fun _ => not_and
    have hhead : (run ≠ 0 → c ≠ 32) ↔ (c = 32 → run = 0) :=
      ⟨fun h hc => by_contra fun hr => h hr hc, fun h hr hc => hr (h hc)⟩
    rw [Bare, ih, hrun, hchain, headD_cons, hhead]
    grind

structure Kept (doubled : Bool) (path : Bytes) : Prop where
  ne_nil : path ≠ []
  tabless : 9 ∉ path
  hashless : 35 ∉ path
  dollarless : 36 ∉ path
  last : path.getLast? ≠ some 92
  spaces : doubled = true → path.IsChain fun a b => ¬Backslashed a b

instance : DecidableRel Backslashed := fun _ _ => inferInstanceAs (Decidable (_ ∧ _))

instance (doubled : Bool) (path : Bytes) : Decidable (Kept doubled path) :=
  decidable_of_iff (path ≠ [] ∧ 9 ∉ path ∧ 35 ∉ path ∧ 36 ∉ path ∧ path.getLast? ≠ some 92 ∧
    (doubled = true → path.IsChain fun a b => ¬Backslashed a b))
    ⟨fun ⟨h1, h2, h3, h4, h5, h6⟩ => ⟨h1, h2, h3, h4, h5, h6⟩,
      fun ⟨h1, h2, h3, h4, h5, h6⟩ => ⟨h1, h2, h3, h4, h5, h6⟩⟩

theorem reread_eq_self_iff :
    reread doubled 0 path = path ↔ 35 ∉ path ∧ 36 ∉ path ∧
      (doubled = true → path.IsChain fun a b => ¬Backslashed a b) := by
  rw [reread_eq_self_iff_bare, bare_iff 0]
  simp

theorem Kept.reread (h : Kept doubled path) :
    Depfile.reread doubled 0 path = path :=
  reread_eq_self_iff.mpr ⟨h.hashless, h.dollarless, h.spaces⟩

/-! ## Prerequisites -/

theorem emit_of_ne_nil (h : token ≠ []) : emit token = [token] := if_neg h

theorem flatten_emit (token : Bytes) : (emit token).flatten = token := by
  unfold emit
  split_ifs with h
  · exact h.symm
  · simp

theorem words_blanks (n : Nat) (rest : Bytes) :
    words false [] (replicate n 32 ++ rest) = words false [] rest := by
  induction n with
  | zero => rfl
  | succ n ih => rw [replicate_succ, cons_append, words_blank (.inl rfl), ih]; rfl

/-- Behind the first blank of a gap: the token goes on, or it ends with the line. -/
theorem words_tail (g : Gap) (token rest : Bytes) :
    words false token (g.tail ++ rest) = words false token rest ∨
      words false token (g.tail ++ rest) = emit token ++ words false [] rest := by
  cases g with
  | space => exact .inl rfl
  | line indent =>
    right
    rw [Gap.tail, cons_append, cons_append, words_continued, replicate_succ,
      cons_append, words_blank (.inl rfl), words_blanks]

theorem words_gap (g : Gap) (token rest : Bytes) :
    words false token (g.text ++ rest) = emit token ++ words false [] rest := by
  rw [Gap.text, cons_append, words_blank (.inl rfl)]
  congr 1
  rcases words_tail g [] rest with h | h
  · exact h
  · exact h

theorem depText_cons (doubled : Bool) (g : Gap) (path : Bytes) (deps : List (Gap × Bytes))
    (rest : Bytes) :
    Rule.depText doubled ((g, path) :: deps) ++ rest =
      g.text ++ (escape doubled 0 path ++ (Rule.depText doubled deps ++ rest)) := by
  simp [Rule.depText]

section

variable {doubled : Bool} {deps : List (Gap × Bytes)} {more : Bytes}

/-- Prerequisites whose paths are kept come back in order. -/
theorem words_depText (hdeps : ∀ d ∈ deps, Kept doubled d.2 ∧ 10 ∉ d.2) (token : Bytes) :
    words false token (Rule.depText doubled deps ++ 10 :: more) =
      emit token ++ deps.map snd := by
  induction deps generalizing token with
  | nil => simpa [Rule.depText] using words_newline
  | cons d deps ih =>
    obtain ⟨g, path⟩ := d
    obtain ⟨hpath, hline⟩ := hdeps (g, path) mem_cons_self
    rw [depText_cons, words_gap,
      words_escape ⟨hpath.tabless, hline⟩ (fun h => absurd h hpath.last), nil_append,
      hpath.reread, ih fun d hd => hdeps d (mem_cons_of_mem _ hd),
      emit_of_ne_nil hpath.ne_nil]
    rfl

variable {path : Bytes}

theorem words_escape_backslash (doubled : Bool) (hpath : Straight path) (token rest : Bytes) :
    words false token (escape doubled 0 (path ++ [92]) ++ 32 :: rest) =
        words false (token ++ reread doubled 0 path ++ [32]) rest ∧
      words false token (escape doubled 0 (path ++ [92]) ++ 10 :: rest) =
        words false (token ++ reread doubled 0 path) rest := by
  have hsplit : ∀ next, escape doubled 0 (path ++ [92]) ++ next :: rest =
      escape doubled 0 path ++ 92 :: next :: rest := by
    intro next
    rw [escape_append]
    simp [escape, mark]
  have hsolid : ∀ next, Solid (92 :: next :: rest) := fun next => by simp [Solid]
  constructor
  · rw [hsplit, words_escape hpath fun _ => hsolid 32, words_space_escaped]
  · rw [hsplit, words_escape hpath fun _ => hsolid 10, words_continued]

theorem eq_concat_of_getLast? {c : UInt8} (h : path.getLast? = some c) :
    path = path.dropLast ++ [c] := by
  obtain ⟨init, hinit⟩ := getLast?_eq_some_iff.mp h
  rw [hinit, dropLast_concat]

theorem Straight.dropLast (h : Straight path) : Straight path.dropLast :=
  ⟨fun hmem => h.1 (mem_of_mem_dropLast hmem), fun hmem => h.2 (mem_of_mem_dropLast hmem)⟩

theorem count_dropLast_le_reread (doubled : Bool) (hlast : path.getLast? = some 92) :
    path.count 58 ≤ (reread doubled 0 path.dropLast).count 58 := by
  conv_lhs => rw [eq_concat_of_getLast? hlast]
  simpa using (sublist_reread doubled 0 path.dropLast).count_le 58

/-- A path and the gap behind it: the colons are in a token that ends there or goes on. -/
theorem words_escape_gap (doubled : Bool) (hpath : Straight path) (g : Gap) (token rest : Bytes) :
    ∃ token' : Bytes, token.count 58 + path.count 58 ≤ token'.count 58 ∧
      (words false token (escape doubled 0 path ++ (g.text ++ rest)) = words false token' rest ∨
        words false token (escape doubled 0 path ++ (g.text ++ rest)) =
          emit token' ++ words false [] rest) := by
  by_cases hlast : path.getLast? = some 92
  · have hq := eq_concat_of_getLast? hlast
    have hread := (words_escape_backslash doubled hpath.dropLast token (g.tail ++ rest)).1
    rw [← hq] at hread
    refine ⟨token ++ reread doubled 0 path.dropLast ++ [32], ?_, ?_⟩
    · have hle := count_dropLast_le_reread doubled hlast
      simp only [count_append]
      omega
    · rw [Gap.text, cons_append, hread]
      exact words_tail g _ rest
  · refine ⟨token ++ reread doubled 0 path, ?_, .inr ?_⟩
    · have hle := (sublist_reread doubled 0 path).count_le 58
      rw [count_append]
      omega
    · rw [words_escape hpath (fun h => absurd h hlast), words_gap]

theorem words_escape_newline (hpath : Straight path) (token : Bytes) :
    token.count 58 + path.count 58 ≤
      (words false token (escape doubled 0 path ++ 10 :: more)).flatten.count 58 := by
  by_cases hlast : path.getLast? = some 92
  · have hq := eq_concat_of_getLast? hlast
    have hread := (words_escape_backslash doubled hpath.dropLast token more).2
    have hle := count_dropLast_le_reread doubled hlast
    have htoken := count_token_le 58 false (token ++ reread doubled 0 path.dropLast) more
    rw [← hq] at hread
    rw [count_append] at htoken
    rw [hread]
    omega
  · have hle := (sublist_reread doubled 0 path).count_le 58
    rw [words_escape hpath (fun h => absurd h hlast), words_newline, flatten_emit, count_append]
    omega

theorem count_paths_cons (g : Gap) (path : Bytes) (deps : List (Gap × Bytes)) :
    (((g, path) :: deps).map snd).flatten.count 58 =
      path.count 58 + (deps.map snd).flatten.count 58 := by
  simp

theorem count_escape (doubled : Bool) (more : Bytes) (hpath : Straight path)
    (hdeps : ∀ d ∈ deps, Straight d.2) (token : Bytes) :
    token.count 58 + (path.count 58 + (deps.map snd).flatten.count 58) ≤
      (words false token (escape doubled 0 path ++
        (Rule.depText doubled deps ++ 10 :: more))).flatten.count 58 := by
  induction deps generalizing path token with
  | nil => simpa [Rule.depText] using words_escape_newline hpath token
  | cons d deps ih =>
    obtain ⟨g, path'⟩ := d
    have hpath' : Straight path' := hdeps (g, path') mem_cons_self
    have hrest := fun token => ih hpath' (fun d hd => hdeps d (mem_cons_of_mem _ hd)) token
    rw [depText_cons]
    obtain ⟨token', hcount, hread | hread⟩ := words_escape_gap doubled hpath g token
      (escape doubled 0 path' ++ (Rule.depText doubled deps ++ 10 :: more))
    · have := hrest token'
      rw [hread, count_paths_cons]
      omega
    · have := hrest []
      rw [hread, count_paths_cons, flatten_append, count_append, flatten_emit]
      rw [count_nil] at this
      omega

theorem count_depText (doubled : Bool) (more : Bytes) (hdeps : ∀ d ∈ deps, Straight d.2)
    (token : Bytes) :
    token.count 58 + (deps.map snd).flatten.count 58 ≤
      (words false token (Rule.depText doubled deps ++ 10 :: more)).flatten.count 58 := by
  cases deps with
  | nil =>
    have hnil : Rule.depText doubled [] ++ 10 :: more = 10 :: more := rfl
    rw [hnil, words_newline, flatten_emit]
    exact Nat.le_refl _
  | cons d deps =>
    obtain ⟨g, path⟩ := d
    have hpath : Straight path := hdeps (g, path) mem_cons_self
    have hread := count_escape doubled more hpath (fun d hd => hdeps d (mem_cons_of_mem _ hd)) []
    rw [depText_cons, words_gap, flatten_append, count_append, flatten_emit,
      count_paths_cons]
    rw [count_nil] at hread
    omega

end

/-! ## Before the colon -/

/-- A colon in the targets that is not taken for the rule's: what may stand behind it. -/
def Inner (a b : UInt8) : Prop := a = 58 → b ≠ 32 ∧ b ≠ 9 ∧ b ≠ 92

instance : DecidableRel Inner := fun _ _ => inferInstanceAs (Decidable (_ → _))

/-- What is left of the targets has only inner colons, the token's last included. -/
def InnerFrom (token text : Bytes) : Prop :=
  text.IsChain Inner ∧ (token.getLast? = some 58 → text.headD 58 ≠ 32 ∧ text.headD 58 ≠ 9)

/-- The scanner on targets, a colon and `rest`: it finds that colon, or an earlier one. -/
structure Finds (rest : Bytes) (own : Prop) (result : List Bytes) : Prop where
  found : own → result = words false [] rest
  early : ¬own → ∃ skipped, 10 ∉ skipped ∧ result = words false [] (skipped ++ 58 :: rest)

theorem Finds.congr {own own' : Prop} {result : List Bytes} (h : own ↔ own')
    (hfinds : Finds rest own' result) : Finds rest own result :=
  ⟨fun ho => hfinds.found (h.mp ho), fun ho => hfinds.early (mt h.mpr ho)⟩

theorem Finds.of_not {own : Prop} {result : List Bytes} (hline : 10 ∉ text)
    (h : ¬own) (hresult : result = words false [] (text ++ 58 :: rest)) : Finds rest own result :=
  ⟨fun ho => absurd ho h, fun _ => ⟨text, hline, hresult⟩⟩

section

variable {token text : Bytes} {c : UInt8}

theorem innerFrom_letter (hblank : ¬(c = 32 ∨ c = 9))
    (hcolon : c = 58 → text.headD 58 ≠ 32 ∧ text.headD 58 ≠ 92) :
    InnerFrom token (c :: text) ↔ InnerFrom (token ++ [c]) text := by
  have hhead : token.getLast? = some 58 → (c :: text).headD 58 ≠ 32 ∧ (c :: text).headD 58 ≠ 9 :=
    fun _ => ⟨fun h => hblank (.inl h), fun h => hblank (.inr h)⟩
  simp only [InnerFrom, getLast?_concat, Option.some.injEq, and_iff_left hhead]
  cases text with
  | nil => simp
  | cons b text =>
    rw [isChain_cons_cons, and_comm (a := Inner c b)]
    refine and_congr_right fun _ => ?_
    unfold Inner
    exact ⟨fun h hc => ⟨(h hc).1, (h hc).2.1⟩, fun h hc => ⟨(h hc).1, (h hc).2, (hcolon hc).2⟩⟩

theorem innerFrom_blank (hblank : c = 32 ∨ c = 9) :
    InnerFrom token (c :: text) ↔ token.getLast? ≠ some 58 ∧ InnerFrom [] text := by
  have hc : c ≠ 58 := by rcases hblank with rfl | rfl <;> decide
  have hhead : ¬((c :: text).headD 58 ≠ 32 ∧ (c :: text).headD 58 ≠ 9) := fun h =>
    hblank.elim h.1 h.2
  have htail : (c :: text).IsChain Inner ↔ text.IsChain Inner := by
    cases text with
    | nil => simp
    | cons b text => simp [Inner, hc]
  simp only [InnerFrom, hhead, htail]
  simp [and_comm]

theorem innerFrom_escaped : InnerFrom token (92 :: 32 :: text) ↔
    InnerFrom (token ++ [32]) text := by
  have htail : (92 :: 32 :: text).IsChain Inner ↔ text.IsChain Inner := by
    cases text with
    | nil | cons _ _ => simp [Inner]
  simp [InnerFrom, htail]

theorem flush_before :
    Scan.flush ⟨[], token, false⟩ = ⟨[], [], decide (token.getLast? = some 58)⟩ := by
  unfold Scan.flush
  by_cases h : token = []
  · simp [h]
  · simp [h]

theorem headD_append_colon (rest : Bytes) : (text ++ 58 :: rest).headD 10 = text.headD 58 := by
  cases text <;> rfl

theorem headD_ne_newline (hline : 10 ∉ text) : text.headD 58 ≠ 10 := by
  cases text with
  | nil => decide
  | cons c text => exact fun h => hline (by rw [show c = 10 from h]; exact mem_cons_self)

theorem scan_targets {rest : Bytes} (hrest : rest.headD 10 = 32 ∨ rest.headD 10 = 10)
    (hline : 10 ∉ text) (token : Bytes) :
    Finds rest (InnerFrom token text) (scan false ⟨[], token, false⟩ (text ++ 58 :: rest)) := by
  -- by length, since an escaped space takes two characters
  induction hn : text.length using Nat.strong_induction_on generalizing text token with
  | _ n ih =>
    cases text with
    | nil =>
      have hcolon : rest.headD 10 = 32 ∨ rest.headD 10 = 10 ∨ rest.headD 10 = 92 :=
        hrest.imp_right .inl
      have hown : InnerFrom token [] := ⟨isChain_nil, fun _ => by decide⟩
      refine ⟨fun _ => ?_, fun h => absurd hown h⟩
      rw [nil_append, scan]
      simp only [hcolon, and_true, if_true, scan_after]
      simp
    | cons c text =>
      have hc : c ≠ 10 := fun h => hline (by simp [h])
      have hline' : 10 ∉ text := fun h => hline (mem_cons_of_mem _ h)
      have hnext := headD_ne_newline hline'
      have hlen : text.length < n := by rw [← hn]; simp
      rw [cons_append, scan, headD_append_colon]
      simp only [hnext, hc, and_false, if_false, false_or]
      split_ifs with h1 h2 h3
      · cases text with
        | nil => exact absurd h1.2 (by decide)
        | cons b text =>
          have hb : b = 32 := h1.2
          rw [h1.1, hb, cons_append, scan]
          refine (ih text.length (by simp at hlen; omega) ?_ _ rfl).congr innerFrom_escaped
          exact fun h => hline' (mem_cons_of_mem _ h)
      · rw [flush_before]
        by_cases htoken : token.getLast? = some 58
        · refine Finds.of_not hline' (fun h => ((innerFrom_blank h2).mp h).1 htoken) ?_
          rw [decide_eq_true htoken, scan_after, nil_append]
        · rw [decide_eq_false htoken]
          exact (ih text.length hlen hline' [] rfl).congr
            ((innerFrom_blank h2).trans (and_iff_right htoken))
      · refine Finds.of_not hline' (fun h => ?_) ?_
        · cases text with
          | nil => exact absurd h3.2.2 (by decide)
          | cons b text =>
            have hinner := (isChain_cons_cons.mp h.1).1 h3.1
            exact h3.2.2.elim hinner.1 hinner.2.2
        · rw [scan_after, nil_append]
      · refine (ih text.length hlen hline' (token ++ [c]) rfl).congr (innerFrom_letter h2 ?_)
        intro hc58
        exact ⟨fun h => h3 ⟨hc58, trivial, .inl h⟩, fun h => h3 ⟨hc58, trivial, .inr h⟩⟩

/-- Behind a colon found early the rule's own colon is part of a word. -/
theorem words_early (hline : 10 ∉ text) (token rest : Bytes) :
    ∃ ws token', words false token (text ++ 58 :: rest) =
      ws ++ words false (token' ++ [58]) rest := by
  induction hn : text.length using Nat.strong_induction_on generalizing text token with
  | _ n ih =>
    cases text with
    | nil =>
      refine ⟨[], token, ?_⟩
      rw [nil_append, words_letter (by decide) (by decide) (by decide) (by simp),
        nil_append]
    | cons c text =>
      have hc : c ≠ 10 := fun h => hline (by simp [h])
      have hline' : 10 ∉ text := fun h => hline (mem_cons_of_mem _ h)
      have hnext := headD_ne_newline hline'
      have hlen : text.length < n := by rw [← hn]; simp
      by_cases hblank : c = 32 ∨ c = 9
      · obtain ⟨ws, token', hws⟩ := ih text.length hlen hline' [] rfl
        exact ⟨emit token ++ ws, token', by
          rw [cons_append, words_blank hblank, hws, append_assoc]⟩
      · by_cases hspace : c = 92 ∧ text.headD 58 = 32
        · cases text with
          | nil => exact absurd hspace.2 (by decide)
          | cons b text =>
            have hb : b = 32 := hspace.2
            rw [hspace.1, hb, cons_append, cons_append, words_space_escaped]
            exact ih text.length (by simp at hlen; omega)
              (fun h => hline' (mem_cons_of_mem _ h)) _ rfl
        · rw [cons_append, words_letter hc (fun h => hblank (.inl h))
            (fun h => hblank (.inr h))]
          · exact ih text.length hlen hline' (token ++ [c]) rfl
          · rw [headD_append_colon]
            exact fun h92 => ⟨hnext, fun h => hspace ⟨h92, h⟩⟩

end

/-! ## What is read is what was written -/

theorem words_depText_split (doubled : Bool) (deps : List (Gap × Bytes)) (token more : Bytes) :
    words false token (Rule.depText doubled deps ++ 10 :: more) =
      emit token ++ words false [] (Rule.depText doubled deps ++ 10 :: more) := by
  cases deps with
  | nil =>
    have hnil : Rule.depText doubled [] ++ 10 :: more = 10 :: more := rfl
    rw [hnil, words_newline, words_newline]
    simp [emit]
  | cons d deps =>
    rw [depText_cons, words_gap, words_gap]
    rfl

/-- A backslash at the end of the last path runs into the phony rules, and is lost. -/
theorem words_phony_ne {r : Rule} (hphony : ∀ p ∈ r.phony, Straight p) :
    words false (reread r.doubled 0 path) r.phonyText ≠ [path ++ [92]] := by
  have hemit : emit (reread r.doubled 0 path) ≠ [path ++ [92]] := by
    unfold emit
    split_ifs
    · simp
    · exact fun h => reread_ne_concat r.doubled path (singleton_inj.mp h)
  unfold Rule.phonyText
  cases hp : r.phony with
  | nil => exact hemit
  | cons p phony =>
    have hpath : Straight p := hphony p (by rw [hp]; exact mem_cons_self)
    rw [flatMap_cons]
    cases hblank : r.blank with
    | true =>
      simp only [if_true, append_assoc, cons_append]
      rw [words_newline]
      exact hemit
    | false =>
      simp only [Bool.false_eq_true, if_false, nil_append, append_assoc,
        cons_append]
      rw [words_escape hpath (fun _ => by simp [Solid]), words_letter (by decide) (by decide)
        (by decide) (by simp), words_newline, emit_of_ne_nil (by simp)]
      intro h
      have hlast := (append_inj' (singleton_inj.mp h) rfl).2
      exact absurd hlast (by decide)

theorem kept_of_words {r : Rule} (hphony : ∀ p ∈ r.phony, Straight p) {deps : List (Gap × Bytes)}
    (hdeps : ∀ d ∈ deps, Straight d.2 ∧ d.2 ≠ [])
    (h : words false [] (Rule.depText r.doubled deps ++ 10 :: r.phonyText) = deps.map snd) :
    ∀ d ∈ deps, Kept r.doubled d.2 := by
  induction deps with
  | nil => simp
  | cons d deps ih =>
    obtain ⟨g, path⟩ := d
    obtain ⟨hpath, hne⟩ : Straight path ∧ path ≠ [] := hdeps (g, path) mem_cons_self
    rw [depText_cons, words_gap, map_cons] at h
    by_cases hlast : path.getLast? = some 92
    · exfalso
      have hq := eq_concat_of_getLast? hlast
      have hread := words_escape_backslash r.doubled hpath.dropLast []
      rw [← hq] at hread
      cases deps with
      | nil =>
        apply words_phony_ne hphony
        calc words false (reread r.doubled 0 path.dropLast) r.phonyText
            = words false [] (escape r.doubled 0 path ++ 10 :: r.phonyText) := (hread _).2.symm
          _ = [path] := h
          _ = [path.dropLast ++ [92]] := by rw [← hq]
      | cons d' deps =>
        -- the token goes on with the blank of the gap where the path has its backslash
        rw [depText_cons, Gap.text, cons_append, (hread _).1, nil_append] at h
        obtain ⟨more, ws, hws⟩ := words_of_token false (append_ne_nil_of_right_ne_nil
          (reread r.doubled 0 path.dropLast) (cons_ne_nil 32 [])) _
        have hhead : reread r.doubled 0 path.dropLast ++ [32] ++ more = path.dropLast ++ [92] := by
          rw [← hq]
          exact (cons.inj (hws.symm.trans h)).1
        have hle := (sublist_reread r.doubled 0 path.dropLast).length_le
        have hlen := congrArg length hhead
        simp only [length_append, length_singleton] at hlen
        have hmore : more = [] := length_eq_zero_iff.mp (by omega)
        rw [hmore, append_nil] at hhead
        exact absurd (append_inj' hhead rfl).2 (by decide)
    · rw [words_escape hpath (fun h => absurd h hlast), nil_append,
        words_depText_split, emit_of_ne_nil fun hnil => hne
          (sublist_nil.mp (hnil ▸ sublist_reread r.doubled 0 path))] at h
      obtain ⟨hself, hrest⟩ := cons.inj h
      have hkept := reread_eq_self_iff.mp hself
      intro d hd
      rcases mem_cons.mp hd with rfl | hd
      · exact ⟨hne, hpath.1, hkept.1, hkept.2.1, hlast, hkept.2.2⟩
      · exact ih (fun d hd => hdeps d (mem_cons_of_mem _ hd)) hrest d hd

theorem Rule.newline_notMem_targetText {r : Rule} (htargets : ∀ t ∈ r.targets, 10 ∉ t) :
    10 ∉ r.targetText := by
  have hescape : ∀ (path : Bytes) (run : Nat), 10 ∉ path → 10 ∉ escape r.doubled run path := by
    intro path
    induction path with
    | nil => simp [escape]
    | cons c path ih =>
      intro run h
      simp only [mem_cons, not_or] at h
      have hmark : 10 ∉ mark r.doubled run c := by
        unfold mark
        split_ifs <;> simp
      simp [escape, hmark, h.1, ih _ h.2]
  apply Text.notMem_intercalate (by decide)
  intro text htext
  obtain ⟨t, ht, rfl⟩ := mem_map.mp htext
  exact hescape t 0 (htargets t ht)

/-- Reading inverts writing exactly when no colon of the targets is followed by a blank, a tab or a
backslash, and every path is kept. -/
theorem parseDepfile_render_iff (r : Rule) (htargets : ∀ t ∈ r.targets, 10 ∉ t)
    (hpaths : ∀ p ∈ r.paths, 10 ∉ p) (hphony : ∀ p ∈ r.phony, p ∈ r.paths) :
    parseDepfile r.render = r.paths ↔
      r.targetText.IsChain Inner ∧ ∀ p ∈ r.paths, Kept r.doubled p := by
  have hown : InnerFrom [] r.targetText ↔ r.targetText.IsChain Inner := by simp [InnerFrom]
  have hhead : (Rule.depText r.doubled r.deps ++ 10 :: r.phonyText).headD 10 = 32 ∨
      (Rule.depText r.doubled r.deps ++ 10 :: r.phonyText).headD 10 = 10 := by
    cases r.deps <;> simp [Rule.depText, Gap.text]
  have hfinds := (scan_targets hhead (r.newline_notMem_targetText htargets) []).congr hown.symm
  have hmem : ∀ d ∈ r.deps, d.2 ∈ r.paths := fun d hd => mem_map_of_mem hd
  constructor
  · intro h
    have hstraight : ∀ p ∈ r.paths, Straight p ∧ p ≠ [] := by
      intro p hp
      obtain ⟨text, htext⟩ : ∃ text, r.paths = words false [] text := by
        by_cases hchain : r.targetText.IsChain Inner
        · exact ⟨_, h.symm.trans (hfinds.found hchain)⟩
        · obtain ⟨_, _, hresult⟩ := hfinds.early hchain
          exact ⟨_, h.symm.trans hresult⟩
      have hword : p ∈ words false [] text := htext ▸ hp
      obtain ⟨hne, htab⟩ := plain_of_mem_words hword
      exact ⟨⟨htab not_mem_nil, hpaths p hp⟩, hne⟩
    have hchain : r.targetText.IsChain Inner := by
      by_contra hearly
      obtain ⟨skipped, hskipped, hresult⟩ := hfinds.early hearly
      obtain ⟨ws, token, hws⟩ := words_early hskipped [] (Rule.depText r.doubled r.deps ++
        10 :: r.phonyText)
      have hcount := count_depText r.doubled r.phonyText
        (fun d hd => (hstraight d.2 (hmem d hd)).1) (token ++ [58])
      have hflat : r.paths.flatten.count 58 = (ws ++ words false (token ++ [58])
          (Rule.depText r.doubled r.deps ++ 10 :: r.phonyText)).flatten.count 58 := by
        rw [← hws, ← hresult, ← h]
        rfl
      rw [flatten_append, count_append] at hflat
      rw [count_append, count_singleton_self] at hcount
      unfold Rule.paths at hflat
      omega
    refine ⟨hchain, fun p hp => ?_⟩
    obtain ⟨d, hd, rfl⟩ := mem_map.mp hp
    exact kept_of_words (fun p hp => (hstraight p (hphony p hp)).1)
      (fun d hd => hstraight d.2 (hmem d hd)) ((hfinds.found hchain).symm.trans h) d hd
  · rintro ⟨hchain, hkept⟩
    calc parseDepfile r.render
        = words false [] (Rule.depText r.doubled r.deps ++ 10 :: r.phonyText) := hfinds.found hchain
      _ = r.paths := words_depText (fun d hd => ⟨hkept _ (hmem d hd), hpaths _ (hmem d hd)⟩) []

def exampleRule : Rule where
  doubled := true
  targets := [ascii "a:b.o", ascii "x y.o"]
  deps := [(.space, ascii "foo.c"), (.line 0, ascii "/inc/sp ace.h")]
  blank := false
  phony := [ascii "/inc/sp ace.h"]

theorem parseDepfile_exampleRule :
    (∀ t ∈ exampleRule.targets, 10 ∉ t) ∧ (∀ p ∈ exampleRule.paths, 10 ∉ p) ∧
      (∀ p ∈ exampleRule.phony, p ∈ exampleRule.paths) ∧
      parseDepfile exampleRule.render = exampleRule.paths :=
  ⟨by decide, by decide, by decide,
    (parseDepfile_render_iff exampleRule (by decide) (by decide) (by decide)).mpr (by decide)⟩

def hashRule : Rule where
  doubled := true
  targets := [ascii "foo.o"]
  deps := [(.space, ascii "foo.c"), (.line 0, ascii "a#b.h")]
  blank := false
  phony := []

/-- The backslash before the `#` stays. -/
theorem hash_not_unescaped :
    hashRule.render = ascii "foo.o: foo.c \\\n a\\#b.h\n" ∧
      hashRule.paths = [ascii "foo.c", ascii "a#b.h"] ∧
      parseDepfile hashRule.render = [ascii "foo.c", ascii "a\\#b.h"] := by
  decide

end Corepkgs.Jig.Depfile
