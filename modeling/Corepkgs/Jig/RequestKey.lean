import Corepkgs.Jig.CcMode
/-!
# What a request key says about the compile

The fields of a request key against the command line that is run on a miss.
`ParseInvocation` takes the source out of the words it keys and `RunCcMode` keys
only those words of the driver's that the user did not write; what is left of
the command line is determined by the fields.
-/

namespace Corepkgs.Jig

open Lib List Bool

/-! ## Chunks and the words they are made of -/

namespace Chunk

def words : Chunk → List Bytes
  | depfile words _ _ => words
  | output words _ => words
  | pch words _ => words
  | stop arg | query arg | source arg | object arg | other arg => [arg]

def keyWords : Chunk → List Bytes
  | depfile _ _ _ | output _ _ | query _ | source _ => []
  | pch words _ => words
  | stop arg | object arg | other arg => [arg]

def isSource : Chunk → Bool
  | source _ => true
  | _ => false

def isQuery : Chunk → Bool
  | query _ => true
  | _ => false

variable (c : Chunk)

theorem keyWords_subset_words : c.keyWords ⊆ c.words := by
  cases c <;> simp [keyWords, words]

end Chunk

/-- A chunk starts with `arg` and takes its other words off the front of `rest`. -/
def Taken (arg : Bytes) (rest : List Bytes) (taken : Chunk × List Bytes) : Prop :=
  ∃ more, taken.1.words = arg :: more ∧ more ++ taken.2 = rest

theorem taken_takeDepfileOption {arg : Bytes} {rest : List Bytes} {taken : Chunk × List Bytes}
    (h : takeDepfileOption arg rest = some taken) : Taken arg rest taken := by
  unfold takeDepfileOption at h
  repeat' split at h
  all_goals cases h <;> exact ⟨_, rfl, rfl⟩

theorem taken_takePchOption {arg : Bytes} {rest : List Bytes} {taken : Chunk × List Bytes}
    (h : takePchOption arg rest = some taken) : Taken arg rest taken := by
  unfold takePchOption at h
  split at h
  · obtain rfl := Option.some.inj h
    have hafter : ∀ after : List Bytes, after.head?.toList ++ after.drop 1 = after := by
      rintro (_ | ⟨_, _⟩) <;> rfl
    refine ⟨_, rfl, ?_⟩
    calc rest.takeWhile (· = ascii "-Xclang") ++
      (rest.dropWhile (· = ascii "-Xclang")).head?.toList ++
          (rest.dropWhile (· = ascii "-Xclang")).drop 1
        = rest.takeWhile (· = ascii "-Xclang") ++ rest.dropWhile (· = ascii "-Xclang") := by
          rw [append_assoc, hafter]
      _ = rest := takeWhile_append_dropWhile
  · exact absurd h (by simp)

/-- One round of the loop loses no word. -/
theorem taken_takeChunk (arg : Bytes) (rest : List Bytes) :
    Taken arg rest (takeChunk arg rest) := by
  have hone : ∀ c : Chunk, c.words = [arg] → Taken arg rest (c, rest) := fun c hc => ⟨[], hc, rfl⟩
  unfold takeChunk
  split
  · rename_i taken htaken
    exact taken_takeDepfileOption htaken
  split
  · exact hone _ rfl
  split
  · rename_i value rest' heq
    split at heq
    · exact ⟨[value], rfl, heq.symm⟩
    · exact absurd heq (by simp)
  split
  · exact hone _ rfl
  split
  · exact hone _ rfl
  split
  · exact hone _ rfl
  split
  · rename_i taken htaken
    exact taken_takePchOption htaken
  split
  · exact hone _ rfl
  · exact hone _ rfl

theorem words_chunksFrom (n : Nat) (args : List Bytes) (h : args.length ≤ n) :
    (chunksFrom n args).flatMap Chunk.words = args := by
  induction n generalizing args with
  | zero =>
    rw [length_eq_zero_iff.mp (Nat.le_zero.mp h)]
    rfl
  | succ n ih =>
    cases args with
    | nil => rfl
    | cons arg rest =>
      obtain ⟨more, hwords, hrest⟩ := taken_takeChunk arg rest
      have hlen : (takeChunk arg rest).2.length ≤ n := by
        have := congrArg length hrest
        simp only [length_append, length_cons] at this h
        omega
      rw [chunksFrom, flatMap_cons, ih _ hlen, hwords, cons_append, hrest]

theorem words_chunks (args : List Bytes) : (chunks args).flatMap Chunk.words = args :=
  words_chunksFrom _ _ le_rfl

def keyWords (args : List Bytes) : List Bytes := (chunks args).flatMap Chunk.keyWords

theorem keyWords_subset (args : List Bytes) : keyWords args ⊆ args := by
  intro w hw
  obtain ⟨c, hc, hwc⟩ := mem_flatMap.mp hw
  rw [← words_chunks args]
  exact mem_flatMap.mpr ⟨c, hc, c.keyWords_subset_words hwc⟩

/-! ## What the loop makes of the chunks -/

namespace Parsing

variable (p : Parsing) {c : Chunk}

@[simp] theorem keyArgs_step :
    (p.step c).inv.keyArgs = p.inv.keyArgs ++ c.keyWords := by
  cases c <;> simp [step, Chunk.keyWords]

@[simp] theorem args_step : (p.step c).inv.args = p.inv.args := by
  cases c <;> rfl

@[simp] theorem sources_step :
    (p.step c).sources = p.sources + if c.isSource then 1 else 0 := by
  cases c <;> rfl

@[simp] theorem link_step : (p.step c).inv.link = p.inv.link := by
  cases c <;> rfl

variable {p : Parsing}

theorem cacheable_step {c : Chunk} (h : (p.step c).inv.cacheable = true) :
    p.inv.cacheable = true ∧ c.isQuery = false := by
  cases c with
  | query => exact absurd h false_ne_true
  | other => exact ⟨(and_eq_true_iff.mp h).1, rfl⟩
  | _ => exact ⟨h, rfl⟩

theorem source_step {c : Chunk} (h : c.isSource = false) :
    (p.step c).inv.source = p.inv.source := by
  cases c with
  | source => exact absurd h true_eq_false_eq_False
  | _ => rfl

variable (cs : List Chunk)

theorem keyArgs_foldl (p : Parsing) :
    (cs.foldl step p).inv.keyArgs = p.inv.keyArgs ++ cs.flatMap Chunk.keyWords := by
  induction cs generalizing p with
  | nil => simp
  | cons c cs ih => simp [ih]

theorem sources_foldl (p : Parsing) :
    (cs.foldl step p).sources = p.sources + cs.countP Chunk.isSource := by
  induction cs generalizing p with
  | nil => rfl
  | cons c cs ih =>
    rw [foldl_cons, ih, sources_step, countP_cons]
    omega

theorem args_foldl (p : Parsing) : (cs.foldl step p).inv.args = p.inv.args := by
  induction cs generalizing p with
  | nil => rfl
  | cons c cs ih => rw [foldl_cons, ih, args_step]

theorem link_foldl (p : Parsing) : (cs.foldl step p).inv.link = p.inv.link := by
  induction cs generalizing p with
  | nil => rfl
  | cons c cs ih => rw [foldl_cons, ih, link_step]

theorem cacheable_foldl {cs : List Chunk} (h : (cs.foldl step p).inv.cacheable = true) :
    p.inv.cacheable = true ∧ ∀ c ∈ cs, c.isQuery = false := by
  induction cs generalizing p with
  | nil => exact ⟨h, by simp⟩
  | cons c cs ih =>
    obtain ⟨hp, hcs⟩ := ih h
    obtain ⟨hp, hc⟩ := cacheable_step hp
    exact ⟨hp, by simpa using ⟨hc, hcs⟩⟩

theorem source_foldl {cs : List Chunk} (h : ∀ c ∈ cs, c.isSource = false) :
    (cs.foldl step p).inv.source = p.inv.source := by
  induction cs generalizing p with
  | nil => rfl
  | cons c cs ih =>
    rw [foldl_cons, ih fun c hc => h c (mem_cons_of_mem _ hc),
      source_step (h c (mem_cons_self ..))]

end Parsing

/-- What is known of the chunks of a command line that is cached: nothing is asked of the compiler,
and there is one source unless objects are linked. -/
structure Cached (cs : List Chunk) (inv : Invocation) : Prop where
  args : inv.args = cs.flatMap Chunk.words
  keyArgs : inv.keyArgs = cs.flatMap Chunk.keyWords
  noQuery : ∀ c ∈ cs, c.isQuery = false
  linked : inv.link = true → ∀ c ∈ cs, c.isSource = false
  compiled : inv.link = false → ∃ front back, cs = front ++ .source inv.source :: back ∧
    (∀ c ∈ front, c.isSource = false) ∧ ∀ c ∈ back, c.isSource = false

variable {p : Parsing}

theorem Parsing.source_of_sources {cs : List Chunk} (hp : p.sources = 0)
    (h : (cs.foldl Parsing.step p).sources = 1) :
    ∃ front back, cs = front ++ .source (cs.foldl Parsing.step p).inv.source :: back ∧
      (∀ c ∈ front, c.isSource = false) ∧ ∀ c ∈ back, c.isSource = false := by
  rw [sources_foldl, hp, Nat.zero_add] at h
  have hnone : ∀ cs : List Chunk, cs.countP Chunk.isSource = 0 → ∀ c ∈ cs, c.isSource = false := by
    intro cs hcs c hc
    simpa using countP_eq_zero.mp hcs c hc
  obtain ⟨c, hc, hsource⟩ := countP_pos_iff.mp (by omega : 0 < cs.countP Chunk.isSource)
  obtain ⟨front, back, rfl⟩ := append_of_mem hc
  cases c with
  | source arg =>
    rw [countP_append, countP_cons_of_pos rfl] at h
    have hback := hnone back (by omega)
    refine ⟨front, back, ?_, hnone front (by omega), hback⟩
    rw [foldl_append, foldl_cons, source_foldl hback]
    rfl
  | _ => exact absurd hsource false_ne_true

structure Classified (p : Parsing) (inv : Invocation) : Prop where
  cacheable : p.inv.cacheable = true
  args : inv.args = p.inv.args
  keyArgs : inv.keyArgs = p.inv.keyArgs
  mode : inv.link = true ∧ p.sources = 0 ∨
    inv.link = false ∧ p.sources = 1 ∧ inv.source = p.inv.source

variable {proc : Process}

theorem classified_classifyCompile (hlink : p.inv.link = false)
    (h : (classifyCompile proc p).cacheable = true) : Classified p (classifyCompile proc p) := by
  have hsame : (classifyCompile proc p).cacheable = (p.inv.cacheable && p.sources == 1) ∧
      (classifyCompile proc p).args = p.inv.args ∧
      (classifyCompile proc p).keyArgs = p.inv.keyArgs ∧
      (classifyCompile proc p).link = p.inv.link ∧
      (classifyCompile proc p).source = p.inv.source := by
    unfold classifyCompile
    dsimp only
    split
    · exact ⟨rfl, rfl, rfl, rfl, rfl⟩
    · split <;> exact ⟨rfl, rfl, rfl, rfl, rfl⟩
  obtain ⟨hcacheable, hargs, hkey, hlink', hsource⟩ := hsame
  rw [hcacheable, and_eq_true_iff, beq_iff_eq] at h
  exact ⟨h.1, hargs, hkey, .inr ⟨hlink'.trans hlink, h.2, hsource⟩⟩

theorem classified_classifyLink (h : (classifyLink p).cacheable = true) :
    Classified p (classifyLink p) := by
  obtain ⟨hcacheable, hmode⟩ := and_eq_true_iff.mp h
  refine ⟨hcacheable, rfl, rfl, ?_⟩
  cases hlink : (p.objects && p.sources == 0 && !p.inv.inputs.isEmpty) with
  | true =>
    have hsources := (and_eq_true_iff.mp (and_eq_true_iff.mp hlink).1).2
    exact .inl ⟨hlink, beq_iff_eq.mp hsources⟩
  | false =>
    rw [hlink, Bool.or_false, Bool.and_eq_true_iff, beq_iff_eq] at hmode
    refine .inr ⟨hlink, hmode.2, ?_⟩
    rw [classifyLink, if_neg (by rw [hlink]; exact false_ne_true)]

variable {inv : Invocation}

theorem classified_nameDepfile
    (hinv : inv.cacheable = true → Classified p inv) (h : (nameDepfile inv).cacheable = true) :
    Classified p (nameDepfile inv) := by
  unfold nameDepfile at h ⊢
  split at h
  · rename_i hdep
    rw [if_pos hdep]
    obtain ⟨hcacheable, hargs, hkey, hmode⟩ := hinv h
    exact ⟨hcacheable, hargs, hkey, hmode⟩
  · rename_i hdep
    rw [if_neg hdep]
    exact hinv h

theorem classified_classify (hlink : p.inv.link = false)
    (h : (classify proc p).cacheable = true) : Classified p (classify proc p) := by
  apply classified_nameDepfile _ h
  by_cases hcompile : p.inv.compileOnly = true
  · rw [if_pos hcompile]
    exact classified_classifyCompile hlink
  · rw [if_neg hcompile]
    exact classified_classifyLink

theorem cached_parseInvocation {args : List Bytes}
    (h : (parseInvocation proc args).cacheable = true) :
    Cached (chunks args) (parseInvocation proc args) := by
  have hlink : (parsed args).checkOutput.inv.link = false :=
    Parsing.link_foldl (chunks args) (.start args)
  obtain ⟨hcacheable, hargs, hkey, hmode⟩ := classified_classify hlink h
  have hquery := (Parsing.cacheable_foldl (and_eq_true_iff.mp hcacheable).1).2
  have hwords : (parsed args).inv.args = args := Parsing.args_foldl (chunks args) (.start args)
  refine ⟨hargs.trans (hwords.trans (words_chunks args).symm),
    hkey.trans (Parsing.keyArgs_foldl (chunks args) (.start args)), hquery, ?_, ?_⟩
  · intro hlinked
    rcases hmode with ⟨-, hsources⟩ | ⟨hnot, -⟩
    · have hcount := (Parsing.sources_foldl (chunks args) (.start args)).symm.trans hsources
      intro c hc
      simpa using countP_eq_zero.mp ((Nat.zero_add _).symm.trans hcount) c hc
    · exact absurd (hlinked.symm.trans hnot) (by decide)
  · intro hnot
    rcases hmode with ⟨hlinked, -⟩ | ⟨-, hsources, hsource⟩
    · exact absurd (hlinked.symm.trans hnot) (by decide)
    · have hsplit := Parsing.source_of_sources
        (show (Parsing.start args).sources = 0 from rfl) hsources
      rw [show (parseInvocation proc args).source = (parsed args).inv.source from hsource]
      exact hsplit

/-! ## The fields of a key -/

namespace Request

def keyFront (r : Request) (inv : Invocation) : List Bytes :=
  [ascii "cc=" ++ r.toolId r.compiler, ascii "cwd=" ++ r.store.key r.proc.cwd] ++
    (if inv.link then [] else [ascii "src=" ++ r.store.key (r.store.maskOut inv.source)]) ++
    [ascii (if inv.link then "mode=link" else if inv.linkOne then "mode=link-one"
      else "mode=compile")] ++
    (if inv.linkOne || inv.link then [ascii "LIBRARY_PATH=" ++ r.maskForReplay r.proc.libraryPath]
      else [])

theorem keyFields_eq (r : Request) (inv : Invocation) (primary : Bytes) :
    r.keyFields inv primary =
      r.keyFront inv ++ (inv.keyArgs.map (r.spell (inv.linkOne || inv.link)) ++
        [r.store.maskOut primary]) := by
  rw [keyFields, keyFront]
  simp only [append_assoc]

theorem length_keyFront (r : Request) (inv : Invocation) :
    (r.keyFront inv).length =
      3 + (if inv.link then 0 else 1) + (if inv.linkOne || inv.link then 1 else 0) := by
  unfold keyFront
  cases inv.link <;> cases inv.linkOne <;> rfl

/-- The third field starts with `m` or with `s`. -/
theorem third_keyFields (r : Request) (inv : Invocation) (primary : Bytes) :
    (r.keyFields inv primary)[2]?.bind head? = some (if inv.link then 109 else 115) := by
  unfold keyFields
  cases inv.link <;> cases inv.linkOne <;> rfl

theorem fourth_keyFields (r : Request) (h : inv.link = false) (primary : Bytes) :
    (r.keyFields inv primary)[3]? =
      some (ascii (if inv.linkOne then "mode=link-one" else "mode=compile")) := by
  unfold keyFields
  rw [h]
  cases inv.linkOne <;> rfl

structure SameFields (r s : Request) (i j : Invocation) : Prop where
  link : i.link = j.link
  links : (i.linkOne || i.link) = (j.linkOne || j.link)
  source : i.link = false → r.store.key (r.store.maskOut i.source) =
    s.store.key (s.store.maskOut j.source)
  words : i.keyArgs.map (r.spell (i.linkOne || i.link)) =
    j.keyArgs.map (s.spell (j.linkOne || j.link))

variable {r s : Request}

theorem sameFields {i j : Invocation} {p q : Bytes} (h : r.keyFields i p = s.keyFields j q) :
    SameFields r s i j := by
  have hlink : i.link = j.link := by
    have hthird := (r.third_keyFields i p).symm.trans ((congrArg (·[2]?.bind head?) h).trans
      (s.third_keyFields j q))
    revert hthird
    cases i.link <;> cases j.link <;> decide
  have hone : i.link = false → i.linkOne = j.linkOne := by
    intro hi
    have hfourth := (r.fourth_keyFields hi p).symm.trans ((congrArg (·[3]?) h).trans
      (s.fourth_keyFields (hlink ▸ hi) q))
    revert hfourth
    cases i.linkOne <;> cases j.linkOne <;> decide
  have hlinks : (i.linkOne || i.link) = (j.linkOne || j.link) := by
    rw [← hlink]
    cases hi : i.link with
    | true => simp
    | false => rw [hone hi]
  rw [keyFields_eq, keyFields_eq] at h
  have hlen : (r.keyFront i).length = (s.keyFront j).length := by
    rw [length_keyFront, length_keyFront, hlinks, hlink]
  obtain ⟨hfront, hback⟩ := append_inj h hlen
  refine ⟨hlink, hlinks, ?_, append_inj_left' hback rfl⟩
  intro hi
  have hthird := congrArg (·[2]?) hfront
  simp only [keyFront, hi, hlink ▸ hi] at hthird
  simpa using hthird

/-! ## The user's words -/

def links (r : Request) : Bool := r.invocation.linkOne || r.invocation.link

/-- A chunk as the key spells its words, `-o` and depfile options left out. -/
def spellChunk (r : Request) : Chunk → List Bytes
  | .depfile _ _ _ | .output _ _ => []
  | .source arg => [r.store.key (r.store.maskOut arg)]
  | c => c.words.map (r.spell r.links)

/-- A command line as the key spells its words, `-o` and depfile options left out. -/
def spelled (r : Request) (args : List Bytes) : List Bytes := (chunks args).flatMap r.spellChunk

def sourcePlace (r : Request) : Nat :=
  (((chunks r.userArgs).takeWhile (!·.isSource)).flatMap Chunk.keyWords).length

theorem flatMap_spellChunk (r : Request) {cs : List Chunk} (hsource : ∀ c ∈ cs, c.isSource = false)
    (hquery : ∀ c ∈ cs, c.isQuery = false) :
    cs.flatMap r.spellChunk = (cs.flatMap Chunk.keyWords).map (r.spell r.links) := by
  rw [map_flatMap]
  apply flatMap_congr
  intro c hc
  have hsource := hsource c hc
  have hquery := hquery c hc
  cases c with
  | source => exact absurd hsource true_eq_false_eq_False
  | query => exact absurd hquery true_eq_false_eq_False
  | _ => rfl

theorem spelled_linked (h : Cached (chunks r.userArgs) inv) (hlink : inv.link = true) :
    r.spelled r.userArgs = (keyWords r.userArgs).map (r.spell r.links) :=
  r.flatMap_spellChunk (h.linked hlink) h.noQuery

/-- The source stands among the keyed words at its place. -/
theorem spelled_compiled (h : Cached (chunks r.userArgs) inv) (hlink : inv.link = false) :
    ∃ front back, keyWords r.userArgs = front ++ back ∧ front.length = r.sourcePlace ∧
      r.spelled r.userArgs = front.map (r.spell r.links) ++
        r.store.key (r.store.maskOut inv.source) :: back.map (r.spell r.links) := by
  obtain ⟨front, back, hchunks, hfront, hback⟩ := h.compiled hlink
  have hquery := h.noQuery
  rw [hchunks] at hquery
  have hqfront : ∀ c ∈ front, c.isQuery = false := fun c hc => hquery c (mem_append_left _ hc)
  have hqback : ∀ c ∈ back, c.isQuery = false := fun c hc =>
    hquery c (mem_append_right _ (mem_cons_of_mem _ hc))
  refine ⟨front.flatMap Chunk.keyWords, back.flatMap Chunk.keyWords, ?_, ?_, ?_⟩
  · rw [keyWords, hchunks, flatMap_append, flatMap_cons]
    rfl
  · have htake : (front ++ Chunk.source inv.source :: back).takeWhile (!·.isSource) = front := by
      rw [takeWhile_append_of_pos (fun c hc => by rw [hfront c hc]; rfl)]
      simp [Chunk.isSource]
    rw [sourcePlace, hchunks, htake]
  · rw [spelled, hchunks, flatMap_append, flatMap_cons, r.flatMap_spellChunk hfront hqfront,
      r.flatMap_spellChunk hback hqback]
    rfl

/-! ## The driver's words -/

def startMark : Bytes := ascii "--start-no-unused-arguments"

def endMark : Bytes := ascii "--end-no-unused-arguments"

theorem spell_mark (r : Request) (links : Bool) {mark : Bytes}
    (h : containsText "dynamic-linker" mark = false ∧ containsText "rpath" mark = false ∧
      47 ∉ mark ∧
      maskRandomNames (normalizePathArg mark) = mark) : r.spell links mark = mark := by
  obtain ⟨hlinker, hrpath, hslash, hkey⟩ := h
  rw [spell, hlinker, hrpath, Bool.or_false, Bool.and_false, if_neg Bool.false_ne_true,
    r.store.maskOut_of_notMem hslash, Store.key, hkey]
  split
  · exact maskHashes_of_noStorePath (noStorePath_of_notMem hslash)
  · rfl

theorem spell_startMark (r : Request) (links : Bool) : r.spell links startMark = startMark :=
  r.spell_mark links (by decide +kernel)

theorem spell_endMark (r : Request) (links : Bool) : r.spell links endMark = endMark :=
  r.spell_mark links (by decide +kernel)

/-- The driver's words in front of the user's are bracketed. -/
theorem before_eq (hpresent : r.conf.present = true) (hlang : r.lang ≠ .fortran) :
    ∃ inner, r.before = startMark :: inner ++ [endMark] := by
  rw [before, if_pos hpresent, headWords]
  simp only [hlang, if_false]
  exact ⟨_, rfl⟩

theorem cacheable_invocation (r : Request) : r.invocation.cacheable = r.classified.cacheable := by
  unfold invocation
  split <;> rfl

theorem link_invocation (r : Request) : r.invocation.link = r.classified.link := by
  unfold invocation
  split <;> rfl

theorem source_invocation (r : Request) : r.invocation.source = r.classified.source := by
  unfold invocation
  split <;> rfl

theorem cached_classified (h : r.invocation.cacheable = true) :
    r.lang ≠ .fortran ∧ Cached (chunks r.userArgs) r.classified := by
  rw [cacheable_invocation] at h
  obtain ⟨hparse, hbar⟩ := and_eq_true_iff.mp h
  obtain ⟨hargs, hkey, hquery, hlinked, hcompiled⟩ := cached_parseInvocation hparse
  refine ⟨?_, hargs, hkey, hquery, hlinked, hcompiled⟩
  intro hlang
  simp [hlang] at hbar

theorem args_invocation (h : r.invocation.cacheable = true) :
    r.invocation.args = r.before ++ r.passed ++ r.after := by
  unfold invocation before passed after
  split
  · rfl
  · rw [(cached_classified h).2.args, words_chunks, nil_append, append_nil]

/-- What the driver adds to the user's words. -/
def injected (r : Request) : List Bytes := (r.before ++ r.passed ++ r.after).filter (· ∉ r.userArgs)

theorem keyArgs_invocation (h : r.invocation.cacheable = true) :
    r.invocation.keyArgs = keyWords r.userArgs ++ r.injected := by
  have hkey := (cached_classified h).2.keyArgs
  unfold invocation injected
  split
  · rename_i hpresent
    have hargs : buildDriverArgs r.store.dir r.env r.conf r.lang r.userArgs =
        r.before ++ r.passed ++ r.after := by
      simp only [before, passed, after, if_pos hpresent, buildDriverArgs]
    dsimp only
    rw [hkey, hargs]
    rfl
  · rename_i hpresent
    rw [hkey, before, passed, after, if_neg hpresent, if_neg hpresent, if_neg hpresent]
    simp [keyWords]

/-! ## Equal fields -/

/-- The key spells none of the user's words like the bracket around the driver's. -/
def Plain (r : Request) : Prop := ∀ w ∈ r.userArgs, r.spell r.links w ≠ startMark

/-- The driver passes the user's words on as they are, the user wrote none of the driver's, and none
of these but the last closes the bracket. -/
structure Apart (r : Request) : Prop where
  passes : r.passed = r.userArgs
  words : ∀ w ∈ r.before ++ r.after, w ∉ r.userArgs
  stop : ∀ w ∈ r.before.dropLast, r.spell r.links w ≠ endMark

theorem startMark_notMem_keyWords (h : r.Plain) :
    startMark ∉ (keyWords r.userArgs).map (r.spell r.links) := by
  intro hmem
  obtain ⟨w, hw, hspell⟩ := mem_map.mp hmem
  exact h w (keyWords_subset _ hw) hspell

theorem startMark_notMem_userArgs (h : r.Plain) : startMark ∉ r.userArgs :=
  fun hmem => h _ hmem (r.spell_startMark _)

/-- The keyed words of the driver's, if any, start with the bracket. -/
theorem spelled_injected (h : r.invocation.cacheable = true) (hplain : r.Plain) :
    r.conf.present = false ∧ r.injected = [] ∨
      r.conf.present = true ∧ ∃ rest, r.injected.map (r.spell r.links) = startMark :: rest := by
  cases hpresent : r.conf.present with
  | false =>
    refine .inl ⟨rfl, ?_⟩
    simp [injected, before, passed, after, hpresent]
  | true =>
    obtain ⟨inner, hbefore⟩ := before_eq hpresent (cached_classified h).1
    refine .inr ⟨rfl, ?_⟩
    rw [injected, hbefore, cons_append, cons_append, cons_append,
      filter_cons_of_pos (by simpa using startMark_notMem_userArgs hplain), map_cons,
      spell_startMark]
    exact ⟨_, rfl⟩

/-- What equal fields settle of the words, cut at the bracket. -/
theorem words_agree (hr : r.invocation.cacheable = true) (hs : s.invocation.cacheable = true)
    (hrp : r.Plain) (hsp : s.Plain) (hsame : SameFields r s r.invocation s.invocation) :
    (keyWords r.userArgs).map (r.spell r.links) = (keyWords s.userArgs).map (s.spell s.links) ∧
      r.injected.map (r.spell r.links) = s.injected.map (s.spell s.links) := by
  have hwords : (keyWords r.userArgs).map (r.spell r.links) ++ r.injected.map (r.spell r.links) =
      (keyWords s.userArgs).map (s.spell s.links) ++ s.injected.map (s.spell s.links) := by
    rw [← map_append, ← map_append]
    have hwords := hsame.words
    rw [keyArgs_invocation hr, keyArgs_invocation hs] at hwords
    exact hwords
  have hrstart := startMark_notMem_keyWords hrp
  have hsstart := startMark_notMem_keyWords hsp
  rcases spelled_injected hr hrp with ⟨-, hrnone⟩ | ⟨-, rest, hrest⟩
  · rcases spelled_injected hs hsp with ⟨-, hsnone⟩ | ⟨-, rest', hrest'⟩
    · rw [hrnone, hsnone] at hwords ⊢
      simp only [map_nil, append_nil] at hwords ⊢
      exact ⟨hwords, trivial⟩
    · rw [hrnone, hrest', map_nil, append_nil] at hwords
      exact absurd (hwords ▸ mem_append_right _ (mem_cons_self ..)) hrstart
  · rcases spelled_injected hs hsp with ⟨-, hsnone⟩ | ⟨-, rest', hrest'⟩
    · rw [hsnone, hrest, map_nil, append_nil] at hwords
      exact absurd (hwords ▸ mem_append_right _ (mem_cons_self ..)) hsstart
    · rw [hrest, hrest'] at hwords ⊢
      obtain ⟨hkey, hrest⟩ := Text.cut_inj hrstart hsstart hwords
      exact ⟨hkey, by rw [hrest]⟩

/-- With the source at the same place the user's words agree, the source included. -/
theorem spelled_userArgs_agree (hr : r.invocation.cacheable = true)
    (hs : s.invocation.cacheable = true) (hsame : SameFields r s r.invocation s.invocation)
    (hwords : (keyWords r.userArgs).map (r.spell r.links) =
      (keyWords s.userArgs).map (s.spell s.links))
    (hplace : r.sourcePlace = s.sourcePlace) : r.spelled r.userArgs = s.spelled s.userArgs := by
  obtain ⟨-, hrc⟩ := cached_classified hr
  obtain ⟨-, hsc⟩ := cached_classified hs
  have hlink := hsame.link
  rw [link_invocation, link_invocation] at hlink
  cases hmode : r.classified.link with
  | true => rw [spelled_linked hrc hmode, spelled_linked hsc (hlink ▸ hmode), hwords]
  | false =>
    have hsource := hsame.source ((link_invocation r).trans hmode)
    rw [source_invocation, source_invocation] at hsource
    obtain ⟨front, back, hkey, hlen, hspelled⟩ := spelled_compiled hrc hmode
    obtain ⟨front', back', hkey', hlen', hspelled'⟩ := spelled_compiled hsc (hlink ▸ hmode)
    rw [hkey, hkey', map_append, map_append] at hwords
    obtain ⟨hfront, hback⟩ := append_inj hwords (by
      rw [length_map, length_map, hlen, hlen', hplace])
    rw [hspelled, hspelled', hfront, hback, hsource]

theorem injected_of_apart (h : r.Apart) : r.injected = r.before ++ r.after := by
  have hnone : r.userArgs.filter (· ∉ r.userArgs) = [] := filter_eq_nil_iff.mpr (by simp)
  rw [injected, h.passes, filter_append, filter_append, hnone, append_nil, ← filter_append]
  exact filter_eq_self.mpr fun w hw => by simpa using h.words w hw

/-- Where the user wrote none of them, the driver's words agree before and behind the user's. -/
theorem driver_words_agree (hr : r.invocation.cacheable = true) (hs : s.invocation.cacheable = true)
    (hrp : r.Plain) (hsp : s.Plain)
    (hwords : r.injected.map (r.spell r.links) = s.injected.map (s.spell s.links)) (hra : r.Apart)
    (hsa : s.Apart) :
    r.before.map (r.spell r.links) = s.before.map (s.spell s.links) ∧
      r.after.map (r.spell r.links) = s.after.map (s.spell s.links) := by
  rcases spelled_injected hr hrp with ⟨hrnot, hrnone⟩ | ⟨hrpresent, rest, hrest⟩
  · rcases spelled_injected hs hsp with ⟨hsnot, -⟩ | ⟨-, rest', hrest'⟩
    · simp [before, after, hrnot, hsnot]
    · rw [hrnone, hrest'] at hwords
      exact absurd hwords (by simp)
  · rcases spelled_injected hs hsp with ⟨-, hsnone⟩ | ⟨hspresent, rest', hrest'⟩
    · rw [hsnone, hrest] at hwords
      exact absurd hwords (by simp)
    · have hbracket : ∀ t : Request, t.invocation.cacheable = true → t.conf.present = true →
        t.Apart →
          endMark ∉ t.before.dropLast.map (t.spell t.links) ∧
          t.before.map (t.spell t.links) = t.before.dropLast.map (t.spell t.links) ++
            [endMark] := by
        intro t ht hpresent hapart
        obtain ⟨inner, hbefore⟩ := before_eq hpresent (cached_classified ht).1
        constructor
        · intro hmem
          obtain ⟨w, hw, hspell⟩ := mem_map.mp hmem
          exact hapart.stop w hw hspell
        · rw [hbefore, dropLast_concat, map_append, map_singleton, spell_endMark]
      obtain ⟨hrend, hrbefore⟩ := hbracket r hr hrpresent hra
      obtain ⟨hsend, hsbefore⟩ := hbracket s hs hspresent hsa
      rw [injected_of_apart hra, injected_of_apart hsa, map_append, map_append, hrbefore, hsbefore,
        append_assoc, append_assoc] at hwords
      obtain ⟨hfront, hback⟩ := Text.cut_inj hrend hsend hwords
      exact ⟨by rw [hrbefore, hsbefore, hfront], hback⟩

def small (words : List String) : Request where
  rawArgs := words.map ascii
  conf :=
    { cc := ascii "/cc/bin/clang", fc := [], binfmt := .elf, libc := ascii "/sr/libc",
      interp := ascii "ld.so", crt := [], runtimes := [], flags := [ascii "-O2"], cxxflags := [],
      fflags := [], prefixMap := [], package := { cflags := [], cxxflags := [], ldflags := [] },
      present := true }
  lang := .c
  store := Store.new (ascii "/nix/store") { identity := none, out := none, roots := none }
  files := ⟨fun _ => none, fun _ => false, rfl, rfl⟩
  env := { prefixMap := none, existing := fun _ => false, canonical := fun _ => none }
  proc := { cwd := ascii "/b", tmpDir := ascii "/tmp", pid := 1, libraryPath := [] }

def dotSlash : Request := small ["-c", "./a.c", "-o", "x.o"]

def withDepfile : Request := small ["-c", "-MD", "a.c"]

def typeBehind : Request := small ["-c", "a.c", "-x", "c++"]

def typeBefore : Request := small ["-c", "-x", "c++", "a.c"]

/-- The primary stands behind the other fields. -/
theorem keyFields_congr {r r' : Request} (h : r.store.outHash = []) (h' : r'.store.outHash = [])
    (hfields : r.keyFields r.invocation [] = r'.keyFields r'.invocation []) (primary : Bytes) :
    r.keyFields r.invocation primary = r'.keyFields r'.invocation primary := by
  have hlast : ∀ r : Request, r.store.outHash = [] → r.keyFields r.invocation primary =
      (r.keyFields r.invocation []).dropLast ++ [primary] := by
    intro r hr
    rw [keyFields_eq, keyFields_eq, ← append_assoc, ← append_assoc, dropLast_concat]
    simp [Store.maskOut, hr]
  rw [hlast r h, hlast r' h', hfields]

def unoptimized : Request := small ["-c", "a.c", "-O0"]

def bracketed : Request :=
  small ["-c", "a.c", "-O0", "--start-no-unused-arguments", "-O2"]

/-- The driver's `-O2` stands before the user's `-O0`, or the user has written it again behind: one
key, for a compile without and with optimization. -/
theorem bracket_unkeyed (primary : Bytes) :
    unoptimized.invocation.cacheable = true ∧ bracketed.invocation.cacheable = true ∧
      unoptimized.keyFields unoptimized.invocation primary =
        bracketed.keyFields bracketed.invocation primary ∧
      unoptimized.invocation.args.getLast? = some (ascii "-O0") ∧
      bracketed.invocation.args.getLast? = some (ascii "-O2") :=
  ⟨by decide +kernel, by decide +kernel, keyFields_congr rfl rfl (by decide +kernel) primary,
    by decide +kernel, by decide +kernel⟩

end Request

end Corepkgs.Jig
