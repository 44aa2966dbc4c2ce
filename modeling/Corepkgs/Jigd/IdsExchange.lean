import Corepkgs.Jigd.Answers
import Corepkgs.Lib.Steps
/-!
# The identity exchange over bounded sockets

`CacheClient::Identities` sends its whole request before it reads; the daemon's
`ids` answers path by path through a `bufio.Writer`, which writes to the socket
whenever its buffer is full.  Either of them waits when the socket it writes to
is full, and either socket is emptied by the other side alone.

A deadlock needs so many answers that the daemon has to wait, and then more
left to send than the other socket takes: `Roomy` excludes just that.
-/

namespace Corepkgs.Jigd.Ids

open Lib Jig Jigd.Wire List Text Nat

def writerSize : Nat := 4096

/-- One call of `Identities` within the daemon's limits, what `idents.Of` says to each path when it
is asked, and the capacities of the sockets. -/
structure Exchange where
  paths : List Bytes
  few : paths.length ≤ 2 ^ 20
  short : ∀ path ∈ paths, path.length < bufferSize
  plain : ∀ path ∈ paths, 10 ∉ path
  ids : List Bytes
  lengthIds : ids.length = paths.length
  capUp : Nat
  capDown : Nat
  upPos : 0 < capUp
  downPos : 0 < capDown

/-- Where the daemon is.  The lists are the answers to the paths that are still to come. -/
inductive Phase where
  | command
  | paths (ids : List Bytes)
  /-- In `WriteString`, with `s` left of its argument. -/
  | writing (s : Bytes) (ids : List Bytes)
  /-- In `Flush` in `WriteString`, with `out` left of the buffer. -/
  | flushing (out s : Bytes) (ids : List Bytes)
  | lastFlush (out : Bytes)
  | answered

structure State where
  toSend : Bytes
  /-- The socket to the daemon, and what its `bufio.Reader` has of it. -/
  up : Bytes
  buffered : Bytes
  phase : Phase
  /-- What is in the `bufio.Writer`, and the socket to the client. -/
  unflushed : Bytes
  down : Bytes
  received : Bytes

inductive Party where
  | client
  | daemon
  deriving DecidableEq

def Phase.Reads : Phase → Prop
  | command | paths (_ :: _) => True
  | _ => False

def Phase.outgoing : Phase → Bytes
  | flushing out _ _ | lastFlush out => out
  | _ => []

section

variable (x : Exchange)

def Exchange.request : Bytes := (Request.ids x.paths).bytes

def start : State := ⟨x.request, [], [], .command, [], [], []⟩

inductive Step : State → Party → State → Prop where
  | send {st : State} {a b : Bytes} (h : st.toSend = a ++ b) (hne : a ≠ [])
      (hcap : st.up.length + a.length ≤ x.capUp) :
      Step st .client { st with toSend := b, up := st.up ++ a }
  | receive {st : State} {a b : Bytes} (hsent : st.toSend = [])
      (hwant : st.received.count 10 < x.paths.length) (h : st.down = a ++ b) (hne : a ≠ []) :
      Step st .client { st with down := b, received := st.received ++ a }
  | fill {st : State} {a b : Bytes} (hphase : st.phase.Reads) (hline : 10 ∉ st.buffered)
      (h : st.up = a ++ b) (hne : a ≠ []) (hcap : st.buffered.length + a.length ≤ bufferSize) :
      Step st .daemon { st with up := b, buffered := st.buffered ++ a }
  | command {st : State} {line rest : Bytes} (hphase : st.phase = .command)
      (h : st.buffered = line ++ 10 :: rest) (hline : 10 ∉ line)
      (hcommand : Wire.command line = .ids x.ids.length) :
      Step st .daemon { st with buffered := rest, phase := .paths x.ids }
  | path {st : State} {id : Bytes} {ids : List Bytes} {line rest : Bytes}
      (hphase : st.phase = .paths (id :: ids)) (h : st.buffered = line ++ 10 :: rest)
      (hline : 10 ∉ line) :
      Step st .daemon { st with buffered := rest, phase := .writing (id ++ [10]) ids }
  | write {st : State} {s : Bytes} {ids : List Bytes} (hphase : st.phase = .writing s ids)
      (hfit : st.unflushed.length + s.length ≤ writerSize) :
      Step st .daemon { st with unflushed := st.unflushed ++ s, phase := .paths ids }
  | overflow {st : State} {s : Bytes} {ids : List Bytes} (hphase : st.phase = .writing s ids)
      (hfit : writerSize < st.unflushed.length + s.length) :
      Step st .daemon { st with
        unflushed := []
        phase := .flushing (st.unflushed ++ s.take (writerSize - st.unflushed.length))
          (s.drop (writerSize - st.unflushed.length)) ids }
  | flush {st : State} {a b s : Bytes} {ids : List Bytes}
      (hphase : st.phase = .flushing (a ++ b) s ids) (hne : a ≠ [])
      (hcap : st.down.length + a.length ≤ x.capDown) :
      Step st .daemon { st with down := st.down ++ a, phase := .flushing b s ids }
  | flushed {st : State} {s : Bytes} {ids : List Bytes} (hphase : st.phase = .flushing [] s ids) :
      Step st .daemon { st with phase := .writing s ids }
  | finish {st : State} (hphase : st.phase = .paths []) :
      Step st .daemon { st with unflushed := [], phase := .lastFlush st.unflushed }
  | lastFlush {st : State} {a b : Bytes} (hphase : st.phase = .lastFlush (a ++ b)) (hne : a ≠ [])
      (hcap : st.down.length + a.length ≤ x.capDown) :
      Step st .daemon { st with down := st.down ++ a, phase := .lastFlush b }
  | answered {st : State} (hphase : st.phase = .lastFlush []) :
      Step st .daemon { st with phase := .answered }

def Deadlocked (st : State) : Prop :=
  (st.toSend ≠ [] ∧ x.capUp ≤ st.up.length) ∧
    st.phase.outgoing ≠ [] ∧ x.capDown ≤ st.down.length

def Exchange.asked (i : Nat) : Bytes :=
  (Request.ids x.paths).line ++ 10 :: lines 10 (x.paths.take i)

def Exchange.replied (i : Nat) : Bytes := lines 10 (x.ids.take i)

/-- Once the answers to some paths make the daemon wait, the rest of the request fits the socket. -/
def Exchange.Roomy : Prop :=
  ∀ i ≤ x.paths.length, writerSize * (x.capDown / writerSize + 1) < (x.replied i).length →
    x.request.length ≤ (x.asked i).length + x.capUp

/-! ## What every state has -/

/-- `k` paths have been read: `way` is what is still under way of the request, and `made` bytes of
answers have been made. -/
structure Progress (k : Nat) (ids : List Bytes) (way : Bytes) (made : Nat) : Prop where
  bound : k ≤ x.paths.length
  todo : ids = x.ids.drop k
  request : way = lines 10 (x.paths.drop k)
  replies : made = (x.replied k).length

/-- How a phase goes with what is under way, what has been written to the socket and what is in the
`bufio.Writer`.  It has only written full buffers, until the last flush. -/
def Holds (way : Bytes) (written unflushed : Nat) : Phase → Prop
  | .command => way = x.request ∧ written = 0 ∧ unflushed = 0
  | .paths ids => ∃ k, Progress x k ids way (written + unflushed) ∧ writerSize ∣ written
  | .writing s ids => ∃ k, Progress x k ids way (written + unflushed + s.length) ∧
      writerSize ∣ written
  | .flushing out s ids => ∃ k, Progress x k ids way (written + out.length + s.length) ∧
      writerSize ∣ written + out.length ∧ unflushed = 0 ∧ s ≠ []
  | .lastFlush _ | .answered => way = []

structure Inv (st : State) : Prop where
  unflushed : st.unflushed.length ≤ writerSize
  /-- The client does not read before it has sent everything. -/
  received : st.toSend ≠ [] → st.received = []
  holds : Holds x (st.buffered ++ (st.up ++ st.toSend)) (st.received.length + st.down.length)
    st.unflushed.length st.phase

variable {x}

theorem inv_start : Inv x (start x) := ⟨zero_le _, fun _ => rfl, rfl, rfl, rfl⟩

theorem request_eq : x.request = (Request.ids x.paths).line ++ 10 :: lines 10 x.paths := rfl

theorem notMem_line : 10 ∉ (Request.ids x.paths).line :=
  Request.notMem_line (r := .ids x.paths) x.plain

theorem replied_succ {k : Nat} {id : Bytes} {ids : List Bytes} (h : id :: ids = x.ids.drop k) :
    (x.replied (k + 1)).length = (x.replied k).length + (id ++ [10]).length := by
  have hget : x.ids[k]? = some id := by
    rw [← head?_drop, ← h, head?_cons]
  rw [Exchange.replied, take_add_one, hget, lines_append, length_append]
  simp [Exchange.replied, lines]

theorem Progress.next {k : Nat} {id : Bytes} {ids : List Bytes} {line rest way : Bytes} {made : Nat}
    (h : Progress x k (id :: ids) (line ++ 10 :: (rest ++ way)) made) (hline : 10 ∉ line) :
    Progress x (k + 1) ids (rest ++ way) (made + (id ++ [10]).length) := by
  have hk : k < x.paths.length := by
    rw [← x.lengthIds]
    have hlen := congrArg length h.todo
    rw [length_cons, length_drop] at hlen
    omega
  have hpaths : x.paths.drop k = x.paths[k] :: x.paths.drop (k + 1) := drop_eq_getElem_cons hk
  have hway := h.request
  rw [hpaths] at hway
  have hcut : line ++ 10 :: (rest ++ way) = x.paths[k] ++ 10 ::
    lines 10 (x.paths.drop (k + 1)) := by
    rw [hway, lines_cons]
  have hrest := (cut_inj hline (x.plain _ (getElem_mem hk)) hcut).2
  refine ⟨hk, ?_, hrest, ?_⟩
  · rw [← drop_drop, ← h.todo, drop_one, tail_cons]
  · rw [replied_succ h.todo, h.replies]

theorem inv_step {st st' : State} {who : Party} (hinv : Inv x st) (h : Step x st who st') :
    Inv x st' := by
  obtain ⟨hun, hreceived, hholds⟩ := hinv
  cases h with
  | @send a b h hne hcap =>
    refine ⟨hun, fun _ => hreceived ?_, ?_⟩
    · rw [h]
      exact append_ne_nil_of_left_ne_nil hne b
    · rw [h] at hholds
      simpa only [append_assoc] using hholds
  | @receive a b hsent hwant h hne =>
    refine ⟨hun, fun hne => absurd hsent hne, ?_⟩
    rw [h, length_append, ← add_assoc, ← length_append] at hholds
    exact hholds
  | @fill a b hphase hline h hne hcap =>
    refine ⟨hun, hreceived, ?_⟩
    rw [h] at hholds
    simpa only [append_assoc] using hholds
  | @command line rest hphase h hline hcommand =>
    refine ⟨hun, hreceived, ?_⟩
    rw [hphase, h, append_assoc, cons_append] at hholds
    obtain ⟨hway, hwritten, hzero⟩ := hholds
    rw [request_eq] at hway
    refine ⟨0, ⟨zero_le _, rfl, (cut_inj hline notMem_line hway).2, ?_⟩, ?_⟩
    · show st.received.length + st.down.length + st.unflushed.length = 0
      omega
    · show writerSize ∣ st.received.length + st.down.length
      rw [hwritten]
      exact dvd_zero _
  | @path id ids line rest hphase h hline =>
    refine ⟨hun, hreceived, ?_⟩
    rw [hphase, h, append_assoc, cons_append] at hholds
    obtain ⟨k, hprogress, hblocks⟩ := hholds
    exact ⟨k + 1, hprogress.next hline, hblocks⟩
  | @write s ids hphase hfit =>
    rw [hphase] at hholds
    obtain ⟨k, hprogress, hblocks⟩ := hholds
    refine ⟨by rw [length_append]; exact hfit, hreceived, k, ?_, hblocks⟩
    rw [length_append, ← add_assoc]
    exact hprogress
  | @overflow s ids hphase hfit =>
    rw [hphase] at hholds
    obtain ⟨k, hprogress, hblocks⟩ := hholds
    have hout : (st.unflushed ++ s.take (writerSize - st.unflushed.length)).length =
      writerSize := by
      rw [length_append, length_take]
      omega
    have hrest : (s.drop (writerSize - st.unflushed.length)).length =
        st.unflushed.length + s.length - writerSize := by
      rw [length_drop]
      omega
    refine ⟨zero_le _, hreceived, k, ?_, ?_, rfl, ?_⟩
    · have hmade := hprogress.replies
      refine ⟨hprogress.bound, hprogress.todo, hprogress.request, ?_⟩
      rw [hout, hrest, ← hmade]
      show st.received.length + st.down.length + _ + _ = _
      omega
    · rw [hout]
      exact Nat.dvd_add hblocks (Nat.dvd_refl _)
    · rw [← length_pos_iff, hrest]
      omega
  | @flush a b s ids hphase hne hcap =>
    rw [hphase] at hholds
    obtain ⟨k, hprogress, hblocks, hzero, hs⟩ := hholds
    rw [length_append] at hprogress hblocks
    have hsum : st.received.length + (st.down ++ a).length + b.length =
        st.received.length + st.down.length + (a.length + b.length) := by
      rw [length_append]
      omega
    refine ⟨hun, hreceived, k, ?_, ?_, hzero, hs⟩
    · rw [hsum]
      exact hprogress
    · rw [hsum]
      exact hblocks
  | @flushed s ids hphase =>
    rw [hphase] at hholds
    obtain ⟨k, hprogress, hblocks, hzero, -⟩ := hholds
    rw [length_nil, add_zero] at hprogress hblocks
    refine ⟨hun, hreceived, k, ?_, hblocks⟩
    rw [hzero, add_zero]
    exact hprogress
  | finish hphase =>
    rw [hphase] at hholds
    obtain ⟨k, hprogress, -⟩ := hholds
    refine ⟨zero_le _, hreceived, ?_⟩
    have hlen := congrArg length hprogress.todo
    rw [length_nil, length_drop, x.lengthIds] at hlen
    show _ = []
    rw [hprogress.request, drop_eq_nil_of_le (by omega)]
    rfl
  | lastFlush hphase hne hcap =>
    rw [hphase] at hholds
    exact ⟨hun, hreceived, hholds⟩
  | answered hphase =>
    rw [hphase] at hholds
    exact ⟨hun, hreceived, hholds⟩

theorem length_asked {k : Nat} : (x.asked k).length + (lines 10 (x.paths.drop k)).length =
    x.request.length := by
  have hlines : lines 10 (x.paths.take k) ++ lines 10 (x.paths.drop k) =
      lines 10 x.paths := by
    rw [← lines_append, take_append_drop]
  rw [← length_append, Exchange.asked, append_assoc, cons_append, hlines]
  rfl

/-- With enough room no state is a deadlock. -/
theorem not_deadlocked {st : State} (hinv : Inv x st) (hroomy : x.Roomy) : ¬Deadlocked x st := by
  rintro ⟨⟨hsend, hup⟩, hout, hdown⟩
  have hlen : 0 < st.toSend.length := length_pos_iff.mpr hsend
  have hreceived := hinv.received hsend
  have hholds := hinv.holds
  cases hphase : st.phase with
  | flushing out s ids =>
    rw [hphase] at hholds hout
    obtain ⟨k, hprogress, ⟨m, hm⟩, -, hs⟩ := hholds
    have hpos : 0 < out.length := length_pos_iff.mpr hout
    have hspos : 0 < s.length := length_pos_iff.mpr hs
    rw [hreceived, length_nil, zero_add] at hm
    have hmade := hprogress.replies
    rw [hreceived, length_nil, zero_add] at hmade
    -- one buffer more has been flushed than the socket takes
    have hblocks : x.capDown / writerSize + 1 ≤ m := by
      apply succ_le_of_lt
      rw [div_lt_iff_lt_mul (by decide), mul_comm, ← hm]
      omega
    have hmany : writerSize * (x.capDown / writerSize + 1) < (x.replied k).length := by
      have := mul_le_mul_left writerSize hblocks
      omega
    have hroom := hroomy k hprogress.bound hmany
    have hway := congrArg length hprogress.request
    rw [length_append, length_append] at hway
    have := length_asked (x := x) (k := k)
    omega
  | lastFlush out =>
    rw [hphase] at hholds
    have hnil : st.buffered ++ (st.up ++ st.toSend) = [] := hholds
    simp [hsend] at hnil
  | _ =>
    rw [hphase] at hout
    exact hout rfl

end

end Corepkgs.Jigd.Ids
