import Corepkgs.Jig.Exchange
import Corepkgs.Lib.Steps
import Mathlib.Data.List.Forall2
/-!
# Client and daemon stay in step

A connection over any number of calls.  What the daemon hangs up in the middle
of, or the stream is cut in, is completed to the answers that were due; the
client then reads a front of them.
-/

namespace Corepkgs.Jigd.Wire

open Lib Jig Jig.CacheClient List

section

variable {σ : Type} {world : World σ}

/-- No value but the last is too large for the client, each in the state it is asked for in. -/
def Fitting (world : World σ) (server : Server σ) : List Request → Prop
  | [] => True
  | r :: rs =>
    (rs ≠ [] → announced world server r ≤ kMaxObjectSize) ∧
      ∀ server' reply, answer world server r = .ok (server', reply) → Fitting world server' rs

/-- Answers that go on where the daemon has stopped. -/
def Completes (outcome : List Reply × Bytes × Option (Server σ)) (full : List Reply) : Prop :=
  (full = outcome.1 ∧ outcome.2.1 = []) ∨
    (outcome.2.2 = none ∧ ∃ reply back, full = outcome.1 ++ reply :: back ∧
      outcome.2.1 <+: reply.bytes ∧ outcome.2.1 ≠ reply.bytes)

variable {server : Server σ} {reply : Reply}

theorem Request.Allows.small {r : Request} (h : r.Allows world server reply) {rs : List Request}
    (hsmall : rs ≠ [] → announced world server r ≤ kMaxObjectSize) :
    ¬IsOversize reply ∨ (IsOversize reply ∧ rs = []) := by
  by_cases hover : IsOversize reply
  · refine .inr ⟨hover, Classical.not_not.mp fun hrs => ?_⟩
    obtain ⟨wire, rfl, hlarge⟩ := hover
    have := h.size wire rfl
    have := hsmall hrs
    omega
  · exact .inl hover

theorem not_isOversize_filler (r : Request) : ¬IsOversize (filler r) := by
  rintro ⟨wire, heq, -⟩
  cases r <;> simp [filler] at heq

/-- Whatever the daemon does, its answers are the front of answers that fit the requests. -/
theorem exists_completes (server : Server σ) (rs : List Request) (hfit : Fitting world server rs) :
    ∃ full, List.Forall₂ Request.Fits rs full ∧ Ordered (¬IsOversize ·) IsOversize full ∧
      Completes (answers world server rs) full := by
  induction rs generalizing server with
  | nil => exact ⟨[], .nil, .of_all _ (by simp), .inl ⟨rfl, rfl⟩⟩
  | cons r rs ih =>
    obtain ⟨hsmall, hnext⟩ := hfit
    rw [answers]
    cases hanswer : answer world server r with
    | ok got =>
      obtain ⟨server', reply⟩ := got
      obtain ⟨full, hfits, hordered, hcompletes⟩ := ih server' (hnext server' reply hanswer)
      have hallows := answer_ok hanswer
      refine ⟨reply :: full, .cons hallows.fits hfits, hordered.cons ?_, ?_⟩
      · rcases hallows.small hsmall with hle | ⟨hover, rfl⟩
        · exact .inl hle
        · exact .inr ⟨hover, forall₂_nil_left_iff.mp hfits⟩
      · rcases hcompletes with ⟨rfl, hout⟩ | ⟨hlast, cut, back, rfl, hcut⟩
        · exact .inl ⟨rfl, hout⟩
        · exact .inr ⟨hlast, cut, back, rfl, hcut⟩
    | error out =>
      obtain ⟨reply, hallows, hcut⟩ := answer_error hanswer
      refine ⟨reply :: rs.map filler, .cons hallows.fits ?_, Ordered.cons ?_ ?_, ?_⟩
      · rw [forall₂_map_right_iff, forall₂_same]
        exact fun r _ => (filler_allows world server r).fits
      · rcases hallows.small hsmall with hle | ⟨hover, rfl⟩
        · exact .inl hle
        · exact .inr ⟨hover, rfl⟩
      · apply Ordered.of_all
        intro r hr
        obtain ⟨request, -, rfl⟩ := mem_map.mp hr
        exact not_isOversize_filler request
      · exact .inr ⟨rfl, reply, rs.map filler, rfl, hcut⟩

def written (outcome : List Reply × Bytes × Option (Server σ)) : Bytes :=
  outcome.1.flatMap Reply.bytes ++ outcome.2.1

variable {full : List Reply}

theorem Completes.front {outcome : List Reply × Bytes × Option (Server σ)}
    (h : Completes outcome full) : written outcome <+: full.flatMap Reply.bytes := by
  rw [written]
  rcases h with ⟨rfl, hout⟩ | ⟨-, reply, back, rfl, hcut, -⟩
  · rw [hout, append_nil]
  · rw [flatMap_append, flatMap_cons, prefix_append_right_inj]
    exact hcut.trans (prefix_append _ _)

theorem whole_flatMap (rs : List Reply) : whole rs (rs.flatMap Reply.bytes) = rs.length := by
  induction rs with
  | nil => rfl
  | cons r rs ih => rw [flatMap_cons, whole_append, ih, length_cons]

theorem take_whole_cut {rs : List Reply} (back : List Reply) {out : Bytes}
    (hcut : out <+: reply.bytes) (hne : out ≠ reply.bytes) {text : Bytes}
    (h : text <+: rs.flatMap Reply.bytes ++ out) :
    (rs ++ reply :: back).take (whole (rs ++ reply :: back) text) = rs.take (whole rs text) := by
  induction rs generalizing text with
  | nil =>
    have htorn : ¬reply.bytes <+: text := fun hp =>
      hne (hcut.eq_of_length_le (hp.trans h).length_le)
    rw [nil_append, whole_torn htorn]
    rfl
  | cons r rs ih =>
    by_cases hwhole : r.bytes <+: text
    · obtain ⟨more, rfl⟩ := hwhole
      rw [flatMap_cons, append_assoc, prefix_append_right_inj] at h
      rw [cons_append, whole_append, whole_append, take_succ_cons, take_succ_cons, ih h]
    · rw [cons_append, whole_torn hwhole, whole_torn hwhole]
      rfl

theorem Completes.take_whole {outcome : List Reply × Bytes × Option (Server σ)}
    (h : Completes outcome full) {text : Bytes} (htext : text <+: written outcome) :
    full.take (whole full text) = outcome.1.take (whole outcome.1 text) := by
  rcases h with ⟨rfl, -⟩ | ⟨-, reply, back, rfl, hcut, hne⟩
  · rfl
  · exact take_whole_cut back hcut hne htext

end

end Corepkgs.Jigd.Wire

/-! ## Calls over one connection -/

namespace Corepkgs.Jig

open Lib Jigd.Wire CacheClient

def Call.Plain (z : Zstd) (call : Call) : Prop := ∀ r ∈ call.requests z, r.Plain

variable {call : Call} {full : List Reply} {reply : Reply}

theorem exists_fits_of_mem {rs : List Jigd.Wire.Request}
    (h : List.Forall₂ Jigd.Wire.Request.Fits rs full) (hmem : reply ∈ full) :
    ∃ r ∈ rs, r.Fits reply := by
  induction h with
  | nil => simp at hmem
  | cons hr _ ih =>
    rcases List.mem_cons.mp hmem with rfl | hmem
    · exact ⟨_, List.mem_cons_self, hr⟩
    · obtain ⟨r, hr, hfits⟩ := ih hmem
      exact ⟨r, List.mem_cons_of_mem _ hr, hfits⟩

theorem isValue_of_not_isOversize {v : Option Bytes} (h : ¬IsOversize (.value v)) :
    IsValue (.value v) := by
  refine ⟨v, rfl, fun wire hwire => Nat.not_lt.mp fun hlarge => h ⟨wire, ?_, hlarge⟩⟩
  rw [Option.mem_def.mp hwire]

/-- The answer that fits a request of a call is one the call reads. -/
theorem Call.kind_or_ends (z : Zstd) {r : Jigd.Wire.Request} (hmem : r ∈ call.requests z)
    (h : r.Fits reply) :
    (¬IsOversize reply → call.Kind reply) ∧ (IsOversize reply → call.Ends reply) := by
  have hvalue : ∀ {key : Bytes}, (Jigd.Wire.Request.get key).Fits reply → ¬IsOversize reply →
    IsValue reply := by
    rintro key ⟨v, rfl⟩
    exact isValue_of_not_isOversize
  have hline : ¬(∃ v, reply = .value v) → ¬IsOversize reply :=
    fun hno ⟨wire, heq, _⟩ => hno ⟨some wire, heq⟩
  cases call with
  | get key =>
    obtain rfl := List.mem_singleton.mp hmem
    exact ⟨hvalue h, id⟩
  | getMany keys =>
    obtain ⟨key, -, rfl⟩ := List.mem_map.mp hmem
    exact ⟨hvalue h, id⟩
  | put key value =>
    rw [requests] at hmem
    split_ifs at hmem
    · simp at hmem
    · obtain rfl := List.mem_singleton.mp hmem
      obtain rfl : reply = .ok := h
      exact ⟨fun _ => rfl, fun hover => absurd hover (hline (by simp))⟩
  | putMany items =>
    obtain ⟨item, -, rfl⟩ := List.mem_map.mp hmem
    obtain rfl : reply = .ok := h
    exact ⟨fun _ => rfl, fun hover => absurd hover (hline (by simp))⟩
  | hasMany keys =>
    obtain ⟨key, -, rfl⟩ := List.mem_map.mp hmem
    obtain ⟨there, rfl⟩ := h
    exact ⟨fun _ => ⟨there, rfl⟩, fun hover => absurd hover (hline (by simp))⟩
  | identities paths =>
    rw [requests] at hmem
    split_ifs at hmem
    · simp at hmem
    · obtain rfl := List.mem_singleton.mp hmem
      obtain ⟨ids, rfl, hids⟩ := h
      exact ⟨fun _ => ⟨ids, rfl, hids⟩, fun hover => absurd hover (hline (by simp))⟩
  | acquireSlot _ | releaseSlot _ =>
    obtain rfl := List.mem_singleton.mp hmem
    obtain rfl : reply = .ok := h
    exact ⟨fun _ => rfl, fun hover => absurd hover (hline (by simp))⟩

theorem Call.ordered_of_fits (z : Zstd)
    (hfits : List.Forall₂ Jigd.Wire.Request.Fits (call.requests z) full)
    (h : Ordered (¬IsOversize ·) IsOversize full) : Ordered call.Kind call.Ends full := by
  intro front reply back heq
  obtain ⟨r, hmem, hr⟩ := exists_fits_of_mem hfits (show reply ∈ full by simp [heq])
  obtain ⟨hkind, hends⟩ := Call.kind_or_ends z hmem hr
  rcases h front reply back heq with hsmall | ⟨hover, hback⟩
  · exact .inl (hkind hsmall)
  · exact .inr ⟨hends hover, hback⟩

inductive Link (σ : Type) where
  | live (server : Server σ)
  /-- Nothing more comes. -/
  | gone
  /-- A send has failed, and so will every other. -/
  | broken

structure Connection (σ : Type) where
  client : CacheClient
  link : Link σ

structure Event where
  call : Call
  arrived : List Read
  result : CallResult

def flat (reads : List Read) : Bytes := (reads.map Subtype.val).flatten

/-- The client once these reads are to come. -/
def CacheClient.hear (c : CacheClient) (reads : List Read) : CacheClient :=
  { c with stream := ⟨c.stream.pending, c.stream.reads ++ reads⟩ }

section

variable {σ : Type} (world : World σ) (z : Zstd)

/-- One call.  The daemon reads the requests in pieces of its own; the answers arrive in other
pieces, and the stream may be cut anywhere. -/
inductive Step : Connection σ → Event → Connection σ → Prop where
  | served {c : CacheClient} {server : Server σ} {call : Call} {input : Stream} {n : Nat}
      {out : Bytes} {last : Option (Server σ)} {arrived : List Read} {link : Link σ}
      (hinput : input.rest = (call.requests z).flatMap Jigd.Wire.Request.bytes)
      (hn : (call.requests z).length ≤ n) (hserve : serve world n server input = (out, last))
      (harrived : flat arrived <+: out)
      (hlink : link = .gone ∨ ∃ server', last = some server' ∧ flat arrived = out ∧
        (call.run z (call.requests z).length (c.hear arrived)).2.connected = true ∧
          link = .live server') :
      Step ⟨c, .live server⟩
        ⟨call, arrived, (call.run z (call.requests z).length (c.hear arrived)).1⟩
        ⟨(call.run z (call.requests z).length (c.hear arrived)).2, link⟩
  | unsent {c : CacheClient} {server : Server σ} {call : Call} {sent : Nat} {arrived : List Read}
      (hsent : sent < (call.requests z).length) :
      Step ⟨c, .live server⟩ ⟨call, arrived, (call.run z sent (c.hear arrived)).1⟩
        ⟨(call.run z sent (c.hear arrived)).2, .broken⟩
  | gone {c : CacheClient} {call : Call} {sent : Nat} :
      Step ⟨c, .gone⟩ ⟨call, [], (call.run z sent c).1⟩ ⟨(call.run z sent c).2, .gone⟩
  | broken {c : CacheClient} {call : Call} :
      Step ⟨c, .broken⟩ ⟨call, [], (call.run z 0 c).1⟩ ⟨(call.run z 0 c).2, .broken⟩

/-- Every answer that arrived whole is the one to that very request, and the others are misses.
While the connection lives, every request has been answered and nothing is left unread. -/
def InStep (s : Connection σ) (e : Event) (t : Connection σ) : Prop :=
  match s.link with
  | .live server =>
    (t.link = .broken ∧ e.result = e.call.miss ∨
      e.result = e.call.result z ((answers world server (e.call.requests z)).1.take
        (whole (answers world server (e.call.requests z)).1 (flat e.arrived)))) ∧
    ∀ server', t.link = .live server' →
      e.result = e.call.result z (answers world server (e.call.requests z)).1 ∧
      (answers world server (e.call.requests z)).1.length = (e.call.requests z).length ∧
      (answers world server (e.call.requests z)).2.2 = some server' ∧
      t.client.stream.rest = []
  | .gone | .broken => e.result = e.call.miss

def Between (s : Connection σ) : Prop :=
  match s.link with
  | .live _ => s.client.connected = true ∧ s.client.stream.rest = []
  | .gone => s.client.Closed
  | .broken => True

/-- The condition on a call: every value but the last of a batch is small enough for the client. -/
def Admissible (s : Connection σ) (call : Call) : Prop :=
  call.Plain z ∧ ∀ server, s.link = .live server → Fitting world server (call.requests z)

variable {world z} {server : Server σ}

theorem answers_length {server' : Server σ} {rs : List Jigd.Wire.Request}
    (h : (answers world server rs).2.2 = some server') :
    (answers world server rs).1.length = rs.length ∧ (answers world server rs).2.1 = [] := by
  induction rs generalizing server with
  | nil => exact ⟨rfl, rfl⟩
  | cons r rs ih =>
    rw [answers] at h ⊢
    cases hanswer : answer world server r with
    | error out =>
      rw [hanswer] at h
      cases h
    | ok got =>
      rw [hanswer] at h
      obtain ⟨hlen, hout⟩ := ih h
      exact ⟨congrArg (· + 1) hlen, hout⟩

variable {c : CacheClient}

theorem rest_hear (h : c.stream.rest = []) (arrived : List Read) :
    (c.hear arrived).stream.rest = flat arrived := by
  rw [Stream.rest, List.append_eq_nil_iff] at h
  rw [hear, Stream.rest, h.1, List.map_append, List.flatten_append, h.2]
  rfl

theorem run_served (hc : c.connected = true) (hrest : c.stream.rest = [])
    (hfit : Fitting world server (call.requests z)) {arrived : List Read}
    (harrived : flat arrived <+: written (answers world server (call.requests z))) :
    (call.run z (call.requests z).length (c.hear arrived)).1 =
        call.result z ((answers world server (call.requests z)).1.take
          (whole (answers world server (call.requests z)).1 (flat arrived))) ∧
      (call.run z (call.requests z).length (c.hear arrived)).2.Closed ∧
      (flat arrived = written (answers world server (call.requests z)) →
        (answers world server (call.requests z)).2.2.isSome →
        (call.run z (call.requests z).length (c.hear arrived)).2.connected = true →
        (call.run z (call.requests z).length (c.hear arrived)).2.stream.rest = []) := by
  obtain ⟨full, hfits, hordered, hcompletes⟩ := exists_completes server _ hfit
  have hlen := hfits.length_eq
  have hrun : call.run z (call.requests z).length (c.hear arrived) =
      call.receive z full.length (c.hear arrived) := by
    rw [Call.run, if_neg (by simp [hear, hc]), if_neg (by simp), hlen]
  have hheard := rest_hear hrest arrived
  obtain ⟨hresult, hclosed, hempty⟩ := Call.receive_front z hlen.symm
    (Call.ordered_of_fits z hfits hordered) (hheard ▸ harrived.trans hcompletes.front)
  rw [hheard, hcompletes.take_whole harrived] at hresult
  rw [hrun]
  refine ⟨hresult, hclosed, fun hall hlast hconn => hempty ?_ hconn⟩
  rcases hcompletes with ⟨rfl, hout⟩ | ⟨hnone, -⟩
  · rw [hheard, hall, written, hout, List.append_nil]
  · rw [hnone] at hlast
    cases hlast

/-- One call keeps the connection in step. -/
theorem step_inStep {s t : Connection σ} {e : Event} (h : Step world z s e t) (hs : Between s)
    (hcall : Admissible world z s e.call) : InStep world z s e t ∧ Between t := by
  cases h with
  | @served c server call input n out last arrived link hinput hn hserve harrived hlink =>
    obtain ⟨hc, hrest⟩ := hs
    rw [serve_requests server hcall.1 hn hinput] at hserve
    obtain ⟨rfl, rfl⟩ := Prod.mk.inj hserve
    obtain ⟨hresult, hclosed, hempty⟩ := run_served hc hrest (hcall.2 server rfl) harrived
    refine ⟨⟨.inr hresult, ?_⟩, ?_⟩
    · rintro server' hlive
      rcases hlink with rfl | ⟨live, hlast, hall, hconn, rfl⟩
      · cases hlive
      · obtain rfl := Link.live.inj hlive
        obtain ⟨hlen, hout⟩ := answers_length hlast
        have hwhole : whole (answers world server (call.requests z)).1 (flat arrived) =
            (answers world server (call.requests z)).1.length := by
          rw [hall, hout, List.append_nil, whole_flatMap]
        rw [hwhole, List.take_length] at hresult
        exact ⟨hresult, hlen, hlast, hempty hall (by simp [hlast]) hconn⟩
    · rcases hlink with rfl | ⟨live, hlast, hall, hconn, rfl⟩
      · exact hclosed
      · exact ⟨hconn, hempty hall (by simp [hlast]) hconn⟩
  | unsent hsent =>
    exact ⟨⟨.inl ⟨rfl, Call.run_unsent z hsent _⟩, fun server' hlive => by cases hlive⟩, trivial⟩
  | gone => exact Call.run_closed z _ _ hs
  | broken => exact ⟨Call.run_zero z _ _, trivial⟩

def fresh (server : Server σ) : Connection σ := ⟨⟨true, ⟨[], []⟩⟩, .live server⟩

/-- Calls that are admissible each in its turn. -/
theorem run_inStep {server : Server σ} {s t : Connection σ} {events : List Event} {e : Event}
    (hrun : Steps (fun s e t => Step world z s e t ∧ Admissible world z s e.call) (fresh server)
      events s)
    (h : Step world z s e t) (hcall : Admissible world z s e.call) : InStep world z s e t := by
  have hs : Between s := by
    apply hrun.invariant (P := Between) _ ⟨rfl, rfl⟩
    exact fun s e t hs hstep => (step_inStep hstep.1 hs hstep.2).2
  exact (step_inStep h hs hcall).1

/-- A call whose requests come in one read, and of whose answers a front comes back. -/
theorem step_of_answers (hplain : call.Plain z) {arrived : List Read}
    (harrived : flat arrived <+: written (answers world server (call.requests z)))
    {link : Link σ} (hlink : link = .gone ∨ ∃ server',
      (answers world server (call.requests z)).2.2 = some server' ∧
        flat arrived = written (answers world server (call.requests z)) ∧
        (call.run z (call.requests z).length (c.hear arrived)).2.connected = true ∧
          link = .live server') :
    Step world z ⟨c, .live server⟩
      ⟨call, arrived, (call.run z (call.requests z).length (c.hear arrived)).1⟩
      ⟨(call.run z (call.requests z).length (c.hear arrived)).2, link⟩ := by
  have hinput : (⟨(call.requests z).flatMap Jigd.Wire.Request.bytes, []⟩ : Stream).rest =
      (call.requests z).flatMap Jigd.Wire.Request.bytes := by
    rw [Stream.rest, List.map_nil, List.flatten_nil, List.append_nil]
  exact .served hinput (Nat.le_refl _)
    (serve_requests server hplain (Nat.le_refl _) hinput) harrived
    hlink

end

/-! ## A value that is too large -/

/-- The zstd frame of the one byte `x`: magic number, content size, one raw block. -/
def xFrame : Bytes := [0x28, 0xb5, 0x2f, 0xfd, 0x20, 1, 9, 0, 0, 120]

/-- zstd on that text and that frame, which is all that is compressed or found here. -/
def xZstd : Zstd where
  compress value := if value = ascii "x" then some xFrame else none
  decompress capacity frame :=
    if frame = xFrame ∧ 1 ≤ capacity then some (ascii "x") else none

def xWire : Bytes := [1, 0, 0, 0] ++ xFrame

def hidden : Bytes := ascii "OK 14\n" ++ xWire

/-- A store whose pack file holds one value.  `load` takes it however large it is. -/
def storing (value : Bytes) : World Unit where
  get := fun _ key => ((), if key = ascii "a" then some (value.length, value) else none)
  bounded := by
    intro s key state size bytes h
    split_ifs at h with hkey
    · obtain ⟨-, heq⟩ := Prod.mk.inj h
      obtain ⟨rfl, rfl⟩ := Prod.mk.inj (Option.some.inj heq)
      exact Nat.le_refl _
    · cases h
  put := fun _ _ _ => ((), true)
  identity := fun _ _ => ((), [])
  plain := fun _ _ => by simp
  acquire := fun _ _ => ()
  release := fun _ _ => ()
  stats := fun _ => []

theorem answers_storing (value : Bytes) (server : Server Unit) :
    answers (storing value) server [.get (ascii "a"), .get (ascii "b")] =
      ([.value (some value), .value none], [], some ⟨(), server.held⟩) := by
  have ha : answer (storing value) server (.get (ascii "a")) =
      .ok (⟨(), server.held⟩, .value (some value)) := by
    rw [answer, if_neg (by decide), respond, if_neg (by decide)]
    show (if value.length = value.length then _ else _) = _
    rw [if_pos rfl]
  have hb : ∀ held, answer (storing value) ⟨(), held⟩ (.get (ascii "b")) =
      .ok (⟨(), held⟩, .value none) := by
    intro held
    rw [answer, if_neg (by decide), respond, if_neg (by decide)]
    rfl
  rw [answers, ha]
  simp only [answers, hb]

def firstRead (size : Nat) : Read := ⟨header size ++ 10 :: hidden, by simp⟩

theorem recvValue_firstRead {size : Nat} (h : kMaxObjectSize < size) :
    (⟨true, ⟨[], [firstRead size]⟩⟩ : CacheClient).recvValue xZstd =
      (none, ⟨false, ⟨hidden, []⟩⟩) := by
  have hline : (⟨true, ⟨[], [firstRead size]⟩⟩ : CacheClient).recvLine =
      (some (header size), ⟨true, ⟨hidden, []⟩⟩) := by
    have hread : Stream.upToNewline [] [] [firstRead size] =
        (header size, some ⟨hidden, []⟩) := by
      rw [Stream.upToNewline, if_neg (by simp), firstRead, Stream.upToNewline_of_mem (by simp),
        Stream.takeWhile_cut (notMem_header _), Stream.dropWhile_cut (notMem_header _)]
      rfl
    rw [recvLine, hread]
  rw [recvValue, hline]
  simp only [isPrefixOf_header, drop_header, if_true]
  cases hparse : parseUint 10 (decimal size) with
  | none => rfl
  | some len =>
    have hlen : len = size :=
      eq_of_parseUint_numeral (show 1 < 10 by decide) (Nat.le_refl 10) hparse
    simp only [hlen, if_pos h]
    rfl

theorem run_firstRead {size : Nat} (h : kMaxObjectSize < size) :
    (Call.getMany [ascii "a", ascii "b"]).run xZstd 2
        ((⟨true, ⟨[], []⟩⟩ : CacheClient).hear [firstRead size]) =
      (.values [none, some (ascii "x")], ⟨false, ⟨[], []⟩⟩) := by
  have hmany : recvMany (·.recvValue xZstd) 2 (⟨true, ⟨[], [firstRead size]⟩⟩) =
      ([none, some (ascii "x")], ⟨false, ⟨[], []⟩⟩) := by
    rw [recvMany_succ, recvValue_firstRead h]
    rfl
  rw [Call.run, if_neg (by simp [hear]), if_neg (by simp [Call.requests])]
  show (CallResult.values (recvMany (·.recvValue xZstd) 2 ⟨true, ⟨[], [firstRead size]⟩⟩).1,
    (recvMany (·.recvValue xZstd) 2 ⟨true, ⟨[], [firstRead size]⟩⟩).2) = _
  rw [hmany]

theorem plain_batch : (Call.getMany [ascii "a", ascii "b"]).Plain xZstd := by
  intro r hr
  obtain ⟨key, hkey, rfl⟩ := List.mem_map.mp hr
  exact (by decide : ∀ key ∈ [ascii "a", ascii "b"], Spaceless key) key hkey

/-- What an oversized value holds is taken for the answer to the next request. -/
theorem hidden_answer_taken {more : Bytes} (h : kMaxObjectSize < (hidden ++ more).length) :
    ∃ (server : Server Unit) (e : Event) (t : Connection Unit),
      Step (storing (hidden ++ more)) xZstd (fresh server) e t ∧ e.call.Plain xZstd ∧
        e.call = .getMany [ascii "a", ascii "b"] ∧
        e.result = .values [none, some (ascii "x")] ∧
        ¬InStep (storing (hidden ++ more)) xZstd (fresh server) e t := by
  have hanswers := answers_storing (hidden ++ more) ⟨(), ∅⟩
  have harrived : flat [firstRead (hidden ++ more).length] <+:
      written (answers (storing (hidden ++ more)) ⟨(), ∅⟩
        ((Call.getMany [ascii "a", ascii "b"]).requests xZstd)) := by
    rw [show (Call.getMany [ascii "a", ascii "b"]).requests xZstd =
      [.get (ascii "a"), .get (ascii "b")] from rfl, hanswers]
    exact ⟨more ++ ascii "MISS\n", by simp [flat, firstRead, written, Reply.bytes, header]⟩
  refine ⟨⟨(), ∅⟩, _, _, step_of_answers plain_batch harrived (.inl rfl), plain_batch, rfl,
    congrArg Prod.fst (run_firstRead h), ?_⟩
  rintro ⟨hresult | hresult, -⟩
  · cases hresult.1
  · rw [show (Call.getMany [ascii "a", ascii "b"]).requests xZstd =
      [.get (ascii "a"), .get (ascii "b")] from rfl, hanswers] at hresult
    have hmiss : ∀ k, Call.valueOf xZstd
        (([.value (some (hidden ++ more)), .value none] : List Reply).take k)[1]? = none := by
      intro k
      rcases k with _ | _ | k <;> rfl
    have htaken := (congrArg Prod.fst (run_firstRead h)).symm.trans hresult
    simp only [Call.result, List.length_cons, List.length_nil, List.range_succ_eq_map,
      List.range_zero,
      List.map_cons, List.map_nil, CallResult.values.injEq, List.cons.injEq, hmiss] at htaken
    exact absurd htaken.2.1 (by simp)

/-- The client takes what a value holds for the answer to its next request, which was a miss. -/
theorem oversized_value_answers_next_key :
    ∃ (more : Bytes) (server : Server Unit) (e : Event) (t : Connection Unit),
      Step (storing (hidden ++ more)) xZstd (fresh server) e t ∧ e.call.Plain xZstd ∧
        e.call = .getMany [ascii "a", ascii "b"] ∧
        e.result = .values [none, some (ascii "x")] ∧
        ¬InStep (storing (hidden ++ more)) xZstd (fresh server) e t := by
  have hsize : kMaxObjectSize < (hidden ++ List.replicate kMaxObjectSize 0).length := by
    have hhidden : hidden.length = 20 := by decide
    rw [List.length_append, List.length_replicate, hhidden]
    omega
  exact ⟨_, hidden_answer_taken hsize⟩

/-- A miss and then a batch whose answers are cut in the second one. -/
theorem run_inStep_batch :
    ∃ (s t : Connection Unit) (e : Event),
      e.call = .getMany [ascii "a", ascii "b"] ∧ e.result = .values [some (ascii "x"), none] ∧
        InStep (storing xWire) xZstd s e t := by
  have hget : (Call.get (ascii "b")).Plain xZstd := by
    intro r hr
    obtain rfl := List.mem_singleton.mp hr
    exact (by decide : Spaceless (ascii "b"))
  have hfirst : Step (storing xWire) xZstd (fresh ⟨(), ∅⟩)
      ⟨.get (ascii "b"), [⟨ascii "MI", by decide⟩, ⟨ascii "SS\n", by decide⟩], .value none⟩
      (fresh ⟨(), ∅⟩) :=
    step_of_answers hget (by decide) (.inr ⟨⟨(), ∅⟩, rfl, rfl, rfl, rfl⟩)
  have hsecond : Step (storing xWire) xZstd (fresh ⟨(), ∅⟩)
      ⟨.getMany [ascii "a", ascii "b"],
        [⟨ascii "OK 14\n" ++ xWire.take 2, by decide⟩, ⟨xWire.drop 2 ++ ascii "MI", by decide⟩],
        .values [some (ascii "x"), none]⟩
      ⟨⟨true, ⟨ascii "MI", []⟩⟩, .gone⟩ :=
    step_of_answers plain_batch (by decide) (.inl rfl)
  have hfit : ∀ server, Fitting (storing xWire) server
      [.get (ascii "a"), .get (ascii "b")] := fun server =>
    ⟨fun _ => (by decide : 14 ≤ 2 ^ 31), fun _ _ _ =>
      ⟨fun hne => absurd rfl hne, fun _ _ _ => trivial⟩⟩
  refine ⟨_, _, _, rfl, rfl, run_inStep (.one ⟨hfirst, hget, ?_⟩) hsecond ⟨plain_batch, ?_⟩⟩
  · exact fun server _ => ⟨fun hne => absurd rfl hne, fun _ _ _ => trivial⟩
  · exact fun server _ => hfit server

end Corepkgs.Jig
