import Corepkgs.Jigd.Serve
import Mathlib.Data.List.Infix
/-!
# What the daemon answers

Requests and answers as they are meant, and that `serve` takes the bytes of a
request for that request, whatever its key or body holds and however the bytes
arrive.
-/

namespace Corepkgs.Jigd.Wire

open Lib Jig List Text Nat

/-! ## Words -/

def Spaceless (word : Bytes) : Prop := ∀ tail ∈ word.tails, spaceLength tail = 0

instance (word : Bytes) : Decidable (Spaceless word) :=
  inferInstanceAs (Decidable (∀ tail ∈ word.tails, spaceLength tail = 0))

theorem spaceLength_eq_zero_iff {text : Bytes} :
    spaceLength text = 0 ↔ ∀ space ∈ spaces, ¬space <+: text := by
  have hpos : ∀ space ∈ spaces, space.length ≠ 0 := by decide
  rw [spaceLength]
  cases h : spaces.find? fun space => space.isPrefixOf text with
  | none =>
    rw [find?_eq_none] at h
    refine ⟨fun _ space hspace hp => h space hspace (List.isPrefixOf_iff_prefix.mpr hp), ?_⟩
    exact fun _ => rfl
  | some space =>
    have hmem := mem_of_find?_eq_some h
    have hprefix := find?_some h
    constructor
    · exact fun hzero => absurd hzero (hpos space hmem)
    · exact fun hno => absurd (List.isPrefixOf_iff_prefix.mp hprefix) (hno space hmem)

/-- What follows in ASCII makes no space of the end of a word. -/
theorem spaceLength_append {x rest : Bytes} (hne : x ≠ []) (hx : spaceLength x = 0)
    (hrest : ∀ c ∈ rest.head?, c.toNat < 128) : spaceLength (x ++ rest) = 0 := by
  have htails : ∀ space ∈ spaces, ∀ c ∈ space.tail, 128 ≤ c.toNat := by decide +kernel
  rw [spaceLength_eq_zero_iff] at hx ⊢
  intro space hspace hp
  by_cases hlen : space.length ≤ x.length
  · exact hx space hspace
      (prefix_of_prefix_length_le hp (prefix_append x rest) hlen)
  · obtain ⟨more, rfl⟩ : x <+: space :=
      prefix_of_prefix_length_le (prefix_append x rest) hp (by omega)
    rw [prefix_append_right_inj] at hp
    cases more with
    | nil => simp at hlen
    | cons c more =>
      obtain ⟨rest', rfl⟩ := hp
      have hlow := hrest c rfl
      have hhigh : 128 ≤ c.toNat := by
        apply htails _ hspace
        cases x with
        | nil => exact absurd rfl hne
        | cons a x => simp
      omega

theorem Spaceless.tail {c : UInt8} {word : Bytes} (h : Spaceless (c :: word)) : Spaceless word :=
  fun tail htail => h tail (by rw [tails_cons]; exact mem_cons_of_mem _ htail)

theorem spaceless_of_graphic {word : Bytes} (h : ∀ c ∈ word, 32 < c.toNat ∧ c.toNat < 128) :
    Spaceless word := by
  have hheads : ∀ space ∈ spaces, ∃ c ∈ space.head?, c.toNat ≤ 32 ∨ 128 ≤ c.toNat := by decide
  intro tail htail
  rw [spaceLength_eq_zero_iff]
  intro space hspace hp
  obtain ⟨c, hc, hrange⟩ := hheads space hspace
  have hmem : c ∈ word := by
    apply ((mem_tails tail word).mp htail).subset
    exact hp.subset (mem_of_mem_head? hc)
  have := h c hmem
  omega

theorem fieldsFrom_word {word : Bytes} (h : Spaceless word) {rest : Bytes}
    (hrest : ∀ c ∈ rest.head?, c.toNat < 128) (n : Nat) (before : Bytes) :
    fieldsFrom (word.length + n) before (word ++ rest) = fieldsFrom n (before ++ word) rest := by
  induction word generalizing before with
  | nil => simp
  | cons c word ih =>
    have hspace : spaceLength (c :: (word ++ rest)) = 0 := by
      apply spaceLength_append (cons_ne_nil c word) _ hrest
      exact h _ (by simp)
    have hlen : (c :: word).length + n = word.length + n + 1 := by
      rw [length_cons]
      omega
    rw [hlen, cons_append, fieldsFrom, if_pos hspace, ih h.tail, append_assoc,
      singleton_append]

variable (n : Nat)

theorem fieldsFrom_blank (word rest : Bytes) :
    fieldsFrom (n + 1) word (32 :: rest) = (if word = [] then [] else [word]) ++
      fieldsFrom n [] rest := by
  have hspace : spaceLength (32 :: rest) = 1 := by
    simp [spaceLength, spaces]
  rw [fieldsFrom, hspace]
  rfl

theorem fieldsFrom_nil (word : Bytes) :
    fieldsFrom n word [] = if word = [] then [] else [word] := by
  cases n <;> rfl

variable {arg : Bytes} (verb : Bytes)

theorem fields_pair (hverb : Spaceless verb) (hne : verb ≠ []) (harg : Spaceless arg) :
    fields (verb ++ 32 :: arg) = verb :: if arg = [] then [] else [arg] := by
  have hlast := fieldsFrom_word harg (show ∀ c ∈ ([] : Bytes).head?, c.toNat < 128 by simp) 0 []
  rw [append_nil, add_zero, nil_append, fieldsFrom_nil] at hlast
  rw [fields, length_append, length_cons, fieldsFrom_word hverb (by simp),
    nil_append, fieldsFrom_blank, if_neg hne, hlast, singleton_append]

theorem fields_triple {arg' : Bytes} (hverb : Spaceless verb) (hne : verb ≠ [])
    (harg : Spaceless arg) (harg' : Spaceless arg') (hne' : arg' ≠ []) :
    fields (verb ++ 32 :: (arg ++ 32 :: arg')) =
      verb :: ((if arg = [] then [] else [arg]) ++ [arg']) := by
  have hlast := fieldsFrom_word harg' (show ∀ c ∈ ([] : Bytes).head?, c.toNat < 128 by simp) 0 []
  rw [append_nil, add_zero, nil_append, fieldsFrom_nil, if_neg hne'] at hlast
  rw [fields, length_append, length_cons, fieldsFrom_word hverb (by simp),
    nil_append, fieldsFrom_blank, if_neg hne, length_append, length_cons,
    fieldsFrom_word harg (by simp), nil_append, fieldsFrom_blank, hlast,
    singleton_append]

theorem spaceless_decimal : Spaceless (decimal n) := by
  apply spaceless_of_graphic
  intro c hc
  have hdigit := isDigit_of_mem_numeral (show 1 < 10 by decide) (le_refl 10) hc
  simp only [Jig.isDigit, Bool.and_eq_true, decide_eq_true_eq] at hdigit
  omega

theorem decimal_ne_nil : decimal n ≠ [] :=
  numeral_ne_nil (show 1 < 10 by decide) (le_refl 10) n

theorem parseInt_decimal :
    parseInt (decimal n) = if n < 2 ^ 63 then some (n : Int) else none := by
  have hall : ∀ c ∈ decimal n, Jig.isDigit 10 c = true := fun c hc =>
    isDigit_of_mem_numeral (show 1 < 10 by decide) (le_refl 10) hc
  have hvalue : digitsValue 10 (decimal n) = n :=
    digitsValue_numeral (show 1 < 10 by decide) (le_refl 10) n
  have hdigits : (if decimal n ≠ [] ∧ (decimal n).all (Jig.isDigit 10) then
      some (digitsValue 10 (decimal n)) else none) = some n := by
    rw [if_pos ⟨decimal_ne_nil n, all_eq_true.mpr hall⟩, hvalue]
  unfold parseInt
  split
  · next heq => exact absurd (hall 45 (heq ▸ mem_cons_self)) (by decide)
  · next heq => exact absurd (hall 43 (heq ▸ mem_cons_self)) (by decide)
  · simp only [hdigits, Option.bind_some]

/-! ## Requests and answers -/

inductive Request where
  | get (key : Bytes)
  | has (key : Bytes)
  | put (key wire : Bytes)
  | ids (paths : List Bytes)
  | slot (build : Bytes)
  | done (build : Bytes)

namespace Request

def line : Request → Bytes
  | get key => ascii "GET" ++ 32 :: key
  | has key => ascii "HAS" ++ 32 :: key
  | put key wire => ascii "PUT" ++ 32 :: (key ++ 32 :: decimal wire.length)
  | ids paths => ascii "IDS" ++ 32 :: decimal paths.length
  | slot build => ascii "SLOT" ++ 32 :: build
  | done build => ascii "DONE" ++ 32 :: build

def body : Request → Bytes
  | put _ wire => wire
  | ids paths => lines 10 paths
  | get _ | has _ | slot _ | done _ => []

def bytes (r : Request) : Bytes := r.line ++ 10 :: r.body

def word : Request → Bytes
  | get key | has key | put key _ => key
  | slot build | done build => build
  | ids _ => []

def Plain : Request → Prop
  | ids paths => ∀ path ∈ paths, 10 ∉ path
  | r => Spaceless r.word

def command : Request → Command
  | get key => if key = [] then .bad else .get key
  | has key => if key = [] then .bad else .has key
  | put key wire =>
    if key = [] then .bad else if wire.length < 2 ^ 63 then .put key wire.length else .bad
  | ids paths => if paths.length ≤ 2 ^ 20 then .ids paths.length else .bad
  | slot build => if build = [] then .bad else .slot build
  | done build => if build = [] then .bad else .done build

theorem command_pair (hverb : Spaceless verb) (hne : verb ≠ [])
    (hstats : verb ≠ ascii "STATS") (harg : Spaceless arg) :
    Wire.command (verb ++ 32 :: arg) = if arg = [] then .bad else pairCommand verb arg := by
  rw [Wire.command, fields_pair verb hverb hne harg]
  by_cases h : arg = []
  · rw [if_pos h, if_pos h]
    exact if_neg hstats
  · rw [if_neg h, if_neg h]

/-- `serve` takes the line of a request for that request. -/
theorem command_line {r : Request} (h : r.Plain) : Wire.command r.line = r.command := by
  cases r with
  | get key => exact command_pair (ascii "GET") (by decide) (by decide) (by decide) h
  | has key => exact command_pair (ascii "HAS") (by decide) (by decide) (by decide) h
  | slot build => exact command_pair (ascii "SLOT") (by decide) (by decide) (by decide) h
  | done build => exact command_pair (ascii "DONE") (by decide) (by decide) (by decide) h
  | put key wire =>
    have hkey : Spaceless key := h
    rw [line, command, Wire.command, fields_triple (ascii "PUT") (by decide) (by decide) hkey
      (spaceless_decimal _) (decimal_ne_nil _)]
    by_cases hnil : key = []
    · rw [if_pos hnil, if_pos hnil]
      rfl
    · rw [if_neg hnil, if_neg hnil]
      simp only [singleton_append, if_pos, parseInt_decimal]
      split_ifs <;> rfl
  | ids paths =>
    have hpair := command_pair (ascii "IDS") (by decide) (by decide) (by decide)
      (spaceless_decimal paths.length)
    rw [if_neg (decimal_ne_nil _)] at hpair
    rw [line, command, hpair, pairCommand, if_neg (by decide), if_neg (by decide), if_pos rfl,
      parseInt_decimal]
    by_cases hsmall : paths.length ≤ 2 ^ 20
    · rw [if_pos (by omega), if_pos hsmall]
      exact if_pos (by omega)
    · rw [if_neg hsmall]
      split_ifs
      · exact if_neg (by omega)
      · rfl

end Request

inductive Reply where
  | value (wire : Option Bytes)
  | flag (there : Bool)
  | ok
  | ids (identities : List Bytes)
  deriving DecidableEq

def Reply.bytes : Reply → Bytes
  | value none => ascii "MISS\n"
  | value (some wire) => ascii "OK " ++ decimal wire.length ++ 10 :: wire
  | flag there => ascii (if there then "1\n" else "0\n")
  | ok => ascii "OK\n"
  | ids identities => lines 10 identities

section

variable {σ : Type} (world : World σ)

def identities (server : Server σ) : List Bytes → Except Bytes (Server σ × List Bytes)
  | [] => .ok (server, [])
  | path :: paths =>
    if bufferSize ≤ path.length then .error []
    else
      let (state, id) := world.identity server.state path
      match identities { server with state := state } paths with
      | .ok (server, ids) => .ok (server, id :: ids)
      | .error out => .error (id ++ 10 :: out)

def respond (server : Server σ) : Request → Except Bytes (Server σ × Reply)
  | .get key =>
    if key = [] then .error []
    else
      match world.get server.state key with
      | (state, none) => .ok ({ server with state := state }, .value none)
      | (state, some (size, bytes)) =>
        if bytes.length = size then .ok ({ server with state := state }, .value (some bytes))
        else .error (ascii "OK " ++ decimal size ++ 10 :: bytes)
  | .has key =>
    if key = [] then .error []
    else
      .ok ({ server with state := (world.get server.state key).1 },
        .flag (world.get server.state key).2.isSome)
  | .put key wire =>
    if key = [] ∨ 4096 < key.length ∨ maxBody < wire.length then .error []
    else
      match world.put server.state key wire with
      | (state, true) => .ok ({ server with state := state }, .ok)
      | (_, false) => .error []
  | .ids paths =>
    if 2 ^ 20 < paths.length then .error []
    else (identities world server paths).map fun got => (got.1, .ids got.2)
  | .slot build =>
    if build = [] then .error []
    else
      .ok (⟨world.acquire server.state build,
        server.held.insert build (count server build + 1)⟩, .ok)
  | .done build =>
    if build = [] then .error []
    else if 0 < count server build then
      .ok (⟨world.release server.state build,
        server.held.insert build (count server build - 1)⟩, .ok)
    else .ok (server, .ok)

/-- The answer to a request, or what is written before the daemon hangs up on it. -/
def answer (server : Server σ) (r : Request) : Except Bytes (Server σ × Reply) :=
  if bufferSize ≤ r.line.length then .error [] else respond world server r

/-- What one round of `serve` does is the answer to a request, and it has read the request and no
more. -/
def Answers (outcome : Except Bytes (Server σ × Reply)) (more : Bytes) (served : Served σ) : Prop :=
  match outcome with
  | .ok (server, reply) => ∃ input, served = .next server reply.bytes input ∧ input.rest = more
  | .error out => served = .hangUp out

variable {world}

theorem notMem_of_spaceless {word : Bytes} (h : Spaceless word) {c : UInt8}
    (hc : c = 10 ∨ c = 32) : c ∉ word := by
  intro hmem
  obtain ⟨front, back, rfl⟩ := append_of_mem hmem
  have hzero := h (c :: back) ((mem_tails _ _).mpr (suffix_append _ _))
  rw [spaceLength_eq_zero_iff] at hzero
  have hspace : [c] ∈ spaces := by
    rcases hc with rfl | rfl <;> decide
  exact hzero [c] hspace ⟨back, rfl⟩

theorem notMem_decimal : 10 ∉ decimal n :=
  notMem_of_spaceless (spaceless_decimal n) (.inl rfl)

theorem notMem_pair {verb : Bytes} (hverb : 10 ∉ verb) (harg : 10 ∉ arg) :
    10 ∉ verb ++ 32 :: arg := by
  simp [hverb, harg]

variable {r : Request}

theorem Request.notMem_line (h : r.Plain) : 10 ∉ r.line := by
  cases r with
  | get _ | has _ | slot _ | done _ =>
      exact notMem_pair (by decide) (notMem_of_spaceless h (.inl rfl))
  | put key wire =>
    exact notMem_pair (by decide)
      (notMem_pair (notMem_of_spaceless h (.inl rfl)) (notMem_decimal _))
  | ids paths => exact notMem_pair (by decide) (notMem_decimal _)

variable {input : Stream} {more : Bytes}

theorem readLine_line {l : Bytes} (hl : 10 ∉ l) (hlen : l.length < bufferSize) {tail : Bytes}
    (h : input.rest = l ++ 10 :: tail) :
    ∃ input', readLine input = some (l, input') ∧ input'.rest = tail :=
  Stream.boundedLine_line hl hlen tail input.reads input.pending h

theorem readLine_long {l : Bytes} (hl : 10 ∉ l) (hlen : bufferSize ≤ l.length) {tail : Bytes}
    (h : input.rest = l ++ tail) : readLine input = none := by
  apply Stream.boundedLine_eq_none
  have htake : (l ++ tail).take bufferSize = l.take bufferSize :=
    take_append_of_le_length hlen
  show 10 ∉ input.rest.take bufferSize
  rw [h, htake]
  exact fun hmem => hl (mem_of_mem_take hmem)

variable (server : Server σ)

theorem answers_ids {paths : List Bytes} (hplain : ∀ path ∈ paths, 10 ∉ path)
    (h : input.rest = lines 10 paths ++ more) :
    Answers ((identities world server paths).map fun got => (got.1, .ids got.2)) more
      (ids world server input paths.length) := by
  induction paths generalizing server input with
  | nil => exact ⟨input, rfl, h⟩
  | cons path paths ih =>
    have hpath := hplain path mem_cons_self
    have hlines : input.rest = path ++ 10 :: (lines 10 paths ++ more) := by
      rw [h, lines_cons, append_assoc, cons_append]
    rw [identities, length_cons, ids]
    by_cases hlong : bufferSize ≤ path.length
    · rw [if_pos hlong, readLine_long hpath hlong hlines]
      rfl
    · obtain ⟨input', hread, hrest⟩ := readLine_line hpath (by omega) hlines
      rw [if_neg hlong, hread]
      have hnext := ih { server with state := (world.identity server.state path).1 }
        (fun p hp => hplain p (mem_cons_of_mem _ hp)) hrest
      simp only
      cases hids : identities world { server with state := (world.identity server.state path).1 }
          paths with
      | ok got =>
        rw [hids] at hnext
        obtain ⟨last, hserved, hlast⟩ := hnext
        rw [hserved]
        refine ⟨last, ?_, hlast⟩
        simp [Reply.bytes, lines]
      | error out =>
        rw [hids] at hnext
        have hserved : ids world { server with state := (world.identity server.state path).1 }
            input' paths.length = .hangUp out := hnext
        rw [hserved]
        rfl

theorem answers_get {key : Bytes} (hkey : key ≠ []) (h : input.rest = more) :
    Answers (respond world server (.get key)) more (get world server input key) := by
  rw [respond, if_neg hkey]
  obtain ⟨⟨state, value⟩, hget⟩ : ∃ got, world.get server.state key = got := ⟨_, rfl⟩
  rw [get, hget]
  cases value with
  | none => exact ⟨input, rfl, h⟩
  | some value =>
    obtain ⟨size, bytes⟩ := value
    show Answers (if bytes.length = size then _ else _) more (if bytes.length = size then _ else _)
    by_cases hsize : bytes.length = size
    · rw [if_pos hsize, if_pos hsize, ← hsize]
      exact ⟨input, rfl, h⟩
    · rw [if_neg hsize, if_neg hsize]
      rfl

theorem answers_put {key wire : Bytes} (hkey : Spaceless key) (h : input.rest = wire ++ more) :
    Answers (respond world server (.put key wire)) more
      (put world server input key wire.length) := by
  have hnewline := notMem_of_spaceless hkey (.inl rfl)
  have hblank := notMem_of_spaceless hkey (.inr rfl)
  have hbad : (key = [] ∨ 4096 < key.length ∨ 10 ∈ key ∨ 32 ∈ key ∨ (wire.length : Int) < 0 ∨
      (maxBody : Int) < wire.length) ↔ (key = [] ∨ 4096 < key.length ∨ maxBody < wire.length) := by
    have hpos : ¬(wire.length : Int) < 0 := by omega
    simp only [hnewline, hblank, hpos, false_or, Int.ofNat_lt]
  rw [respond, put]
  by_cases hlimit : key = [] ∨ 4096 < key.length ∨ maxBody < wire.length
  · rw [if_pos hlimit, if_pos (hbad.mpr hlimit)]
    rfl
  · obtain ⟨input', htake, hrest⟩ :=
      Stream.takeBytes_append more input.reads wire input.pending h
    rw [if_neg hlimit, if_neg (mt hbad.mp hlimit), Int.toNat_natCast, htake]
    obtain ⟨⟨state, done⟩, hput⟩ : ∃ got, world.put server.state key wire = got := ⟨_, rfl⟩
    dsimp only
    rw [hput]
    cases done with
    | true => exact ⟨input', rfl, hrest⟩
    | false => rfl

theorem answers_dispatch (hr : r.Plain) (h : input.rest = r.body ++ more) :
    Answers (respond world server r) more (dispatch world server input r.command) := by
  cases r with
  | get key =>
    rw [Request.command]
    by_cases hkey : key = []
    · rw [respond, if_pos hkey, if_pos hkey]
      rfl
    · rw [if_neg hkey]
      exact answers_get server hkey h
  | has key =>
    rw [Request.command, respond]
    by_cases hkey : key = []
    · rw [if_pos hkey, if_pos hkey]
      rfl
    · rw [if_neg hkey, if_neg hkey]
      exact ⟨input, rfl, h⟩
  | put key wire =>
    rw [Request.command]
    by_cases hkey : key = []
    · rw [respond, if_pos hkey, if_pos (.inl hkey)]
      rfl
    · rw [if_neg hkey]
      split_ifs with hsize
      · exact answers_put server hr h
      · have hlarge : maxBody < wire.length := by
          rw [maxBody]
          omega
        rw [respond, if_pos (.inr (.inr hlarge))]
        rfl
  | ids paths =>
    rw [Request.command, respond]
    by_cases hmany : paths.length ≤ 2 ^ 20
    · rw [if_pos hmany, if_neg (by omega)]
      exact answers_ids server hr h
    · rw [if_neg hmany, if_pos (by omega)]
      rfl
  | slot build =>
    rw [Request.command, respond]
    by_cases hbuild : build = []
    · rw [if_pos hbuild, if_pos hbuild]
      rfl
    · rw [if_neg hbuild, if_neg hbuild]
      exact ⟨input, rfl, h⟩
  | done build =>
    rw [Request.command, respond]
    by_cases hbuild : build = []
    · rw [if_pos hbuild, if_pos hbuild]
      rfl
    · rw [if_neg hbuild, if_neg hbuild, dispatch]
      split_ifs
      · exact ⟨input, rfl, h⟩
      · exact ⟨input, rfl, h⟩

/-- `serve` reads a request off the stream, answers it, and leaves what follows alone. -/
theorem answers_serveOne (hr : r.Plain) (h : input.rest = r.bytes ++ more) :
    Answers (answer world server r) more (serveOne world server input) := by
  have hline := r.notMem_line hr
  rw [Request.bytes, append_assoc, cons_append] at h
  rw [serveOne, answer]
  by_cases hlong : bufferSize ≤ r.line.length
  · rw [if_pos hlong, readLine_long hline hlong h]
    rfl
  · obtain ⟨input', hread, hrest⟩ := readLine_line hline (by omega) h
    rw [if_neg hlong, hread]
    simp only [Request.command_line hr]
    exact answers_dispatch server hr hrest

/-! ## Many requests -/

/-- The answers to requests one after another, up to one the daemon hangs up on: the replies, what
it writes besides, and where it waits. -/
def answers (world : World σ) (server : Server σ) :
    List Request → List Reply × Bytes × Option (Server σ)
  | [] => ([], [], some server)
  | r :: rs =>
    match answer world server r with
    | .ok (server, reply) =>
      let (replies, out, last) := answers world server rs
      (reply :: replies, out, last)
    | .error out => ([], out, none)

theorem Request.bytes_ne_nil (r : Request) : r.bytes ≠ [] := by
  simp [bytes]

theorem serve_requests {rs : List Request} (hrs : ∀ r ∈ rs, r.Plain) {n : Nat}
    (hn : rs.length ≤ n) (h : input.rest = rs.flatMap Request.bytes) :
    serve world n server input =
      ((answers world server rs).1.flatMap Reply.bytes ++ (answers world server rs).2.1,
        (answers world server rs).2.2) := by
  induction rs generalizing n server input with
  | nil =>
    cases n with
    | zero => rfl
    | succ n =>
      rw [serve, if_pos (show input.rest = [] from h)]
      rfl
  | cons r rs ih =>
    cases n with
    | zero => simp at hn
    | succ n =>
      rw [flatMap_cons] at h
      have hne : input.rest ≠ [] := by
        rw [h]
        exact append_ne_nil_of_left_ne_nil r.bytes_ne_nil _
      have hone : Answers (answer world server r) _ (serveOne world server input) :=
        answers_serveOne server (hrs r mem_cons_self) h
      rw [serve, if_neg hne, answers]
      cases hanswer : answer world server r with
      | error out =>
        rw [hanswer] at hone
        have hserved : serveOne world server input = .hangUp out := hone
        rw [hserved]
        rfl
      | ok got =>
        rw [hanswer] at hone
        obtain ⟨input', hserved, hrest⟩ := hone
        have hnext := ih got.1 (fun r hr => hrs r (mem_cons_of_mem _ hr))
          (le_of_succ_le_succ hn) hrest
        rw [hserved]
        simp only [hnext, flatMap_cons, append_assoc]

end

end Corepkgs.Jigd.Wire
