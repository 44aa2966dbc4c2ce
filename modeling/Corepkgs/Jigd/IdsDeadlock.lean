import Corepkgs.Jigd.IdsExchange
/-!
# The schedule that deadlocks the identity exchange

Without room the client and the daemon can be driven into a deadlock: every
path is read as soon as it is sent, so that nothing waits in the daemon's own
buffer, and the answers pile up in the socket that nobody reads.
-/

namespace Corepkgs.Jigd.Ids

open Lib Jig Jigd.Wire List Nat Text

section

variable (x : Exchange)

def Reaches (s t : State) : Prop := ∃ who, Steps (Step x) s who t

variable {x}

theorem Reaches.trans {s t u : State} (h : Reaches x s t) (h' : Reaches x t u) : Reaches x s u := by
  obtain ⟨who, hst⟩ := h
  obtain ⟨who', htu⟩ := h'
  exact ⟨who ++ who', hst.append htu⟩

theorem Reaches.step {s t : State} {who : Party} (h : Step x s who t)  : Reaches x s t :=
  ⟨[who], .one h⟩

/-! ## One line -/

theorem pass {phase : Phase} (hphase : phase.Reads) {buffered : Bytes} (hline : 10 ∉ buffered)
    (hcap : buffered.length < bufferSize) (c : UInt8) (rest unflushed down : Bytes) :
    Reaches x ⟨c :: rest, [], buffered, phase, unflushed, down, []⟩
      ⟨rest, [], buffered ++ [c], phase, unflushed, down, []⟩ := by
  have hsend : Step x ⟨c :: rest, [], buffered, phase, unflushed, down, []⟩ .client
      ⟨rest, [c], buffered, phase, unflushed, down, []⟩ :=
    .send (a := [c]) rfl (cons_ne_nil c []) x.upPos
  have hfill : Step x ⟨rest, [c], buffered, phase, unflushed, down, []⟩ .daemon
      ⟨rest, [], buffered ++ [c], phase, unflushed, down, []⟩ :=
    .fill (a := [c]) hphase hline rfl (cons_ne_nil c []) hcap
  exact (Reaches.step hsend).trans (Reaches.step hfill)

theorem deliver {phase : Phase} (hphase : phase.Reads) (line buffered : Bytes)
    (hline : 10 ∉ buffered ++ line) (hcap : buffered.length + line.length < bufferSize)
    (rest unflushed down : Bytes) :
    Reaches x ⟨line ++ 10 :: rest, [], buffered, phase, unflushed, down, []⟩
      ⟨rest, [], buffered ++ line ++ [10], phase, unflushed, down, []⟩ := by
  induction line generalizing buffered with
  | nil =>
    rw [append_nil] at hline ⊢
    exact pass hphase hline hcap 10 rest unflushed down
  | cons c line ih =>
    have hfront : 10 ∉ buffered := fun h => hline (mem_append_left _ h)
    rw [length_cons] at hcap
    have hnext : 10 ∉ buffered ++ [c] ++ line := by
      rwa [append_assoc, singleton_append]
    have hone := pass (x := x) hphase hfront (by omega) c (line ++ 10 :: rest) unflushed down
    have hmore := ih (buffered ++ [c]) hnext (by rw [length_append, length_singleton]; omega)
    rw [append_assoc buffered, singleton_append] at hmore
    exact hone.trans hmore

theorem reaches_paths :
    Reaches x (start x) ⟨lines 10 x.paths, [], [], .paths x.ids, [], [], []⟩ := by
  have hdigits : (decimal x.paths.length).length ≤ 7 := by
    rw [decimal, length_map]
    rw [length_toDigits_le_iff (by decide) (by decide)]
    exact lt_of_le_of_lt x.few (by decide)
  have hcap : (Request.ids x.paths).line.length < bufferSize := by
    have hverb : (ascii "IDS").length = 3 := by decide
    rw [Request.line, length_append, length_cons, hverb, bufferSize]
    omega
  have hread := deliver (x := x) (show Phase.Reads .command from trivial) (Request.ids x.paths).line
    [] notMem_line (by simpa using hcap) (lines 10 x.paths) [] []
  have hcommand : Wire.command (Request.ids x.paths).line = .ids x.ids.length := by
    rw [Request.command_line (r := .ids x.paths) x.plain, Request.command, if_pos x.few,
      x.lengthIds]
  exact hread.trans (Reaches.step (.command rfl rfl notMem_line hcommand))

theorem reaches_writing {path : Bytes} (hplain : 10 ∉ path) (hshort : path.length < bufferSize)
    (id : Bytes) (ids : List Bytes) (rest unflushed down : Bytes) :
    Reaches x ⟨path ++ 10 :: rest, [], [], .paths (id :: ids), unflushed, down, []⟩
      ⟨rest, [], [], .writing (id ++ [10]) ids, unflushed, down, []⟩ := by
  have hread := deliver (x := x) (show Phase.Reads (.paths (id :: ids)) from trivial) path []
    hplain (by simpa using hshort) rest unflushed down
  exact hread.trans (Reaches.step (.path rfl rfl hplain))

/-! ## One answer -/

/-- The answers to some paths are out: a number of full buffers in the socket, the rest in the
`bufio.Writer`. -/
structure Piled (x : Exchange) (made : Nat) (unflushed down : Bytes) : Prop where
  sum : down.length + unflushed.length = made
  blocks : writerSize ∣ down.length
  buffer : unflushed.length ≤ writerSize
  room : down.length ≤ x.capDown

/-- What is piled up without waiting. -/
theorem Piled.le {made : Nat} {unflushed down : Bytes} (h : Piled x made unflushed down) :
    made ≤ writerSize * (x.capDown / writerSize + 1) := by
  obtain ⟨hsum, ⟨m, hm⟩, hbuffer, hroom⟩ := h
  have hblocks : m ≤ x.capDown / writerSize := by
    rw [le_div_iff_mul_le (by decide), mul_comm, ← hm]
    exact hroom
  have := mul_le_mul_left writerSize hblocks
  rw [mul_add]
  omega

/-- `WriteString` comes to its end, or the daemon waits in it for the client. -/
theorem reaches_written (ids : List Bytes) (rest s : Bytes) {unflushed down : Bytes} {made : Nat}
    (h : Piled x made unflushed down) :
    (∃ unflushed' down', Piled x (made + s.length) unflushed' down' ∧
      Reaches x ⟨rest, [], [], .writing s ids, unflushed, down, []⟩
        ⟨rest, [], [], .paths ids, unflushed', down', []⟩) ∨
      ∃ out s' down', out ≠ [] ∧ x.capDown ≤ down'.length ∧
        Reaches x ⟨rest, [], [], .writing s ids, unflushed, down, []⟩
          ⟨rest, [], [], .flushing out s' ids, [], down', []⟩ := by
  -- every flush takes a full buffer off what is to be written
  induction hn : unflushed.length +
    s.length using Nat.strongRecOn generalizing s unflushed down made with
  | _ n ih =>
    by_cases hfit : unflushed.length + s.length ≤ writerSize
    · refine .inl ⟨unflushed ++ s, down, ⟨?_, h.blocks, ?_, h.room⟩, Reaches.step (.write rfl hfit)⟩
      · rw [length_append, ← h.sum]
        omega
      · rw [length_append]
        exact hfit
    · have hfull : writerSize < unflushed.length + s.length := Nat.lt_of_not_le hfit
      have hbuffer := h.buffer
      have hstart : Reaches x ⟨rest, [], [], .writing s ids, unflushed, down, []⟩ _ :=
        Reaches.step (.overflow rfl hfull)
      have hout : (unflushed ++ s.take (writerSize - unflushed.length)).length = writerSize := by
        rw [length_append, length_take]
        omega
      have hrest : (s.drop (writerSize - unflushed.length)).length =
          unflushed.length + s.length - writerSize := by
        rw [length_drop]
        omega
      generalize unflushed ++ s.take (writerSize - unflushed.length) = out at hstart hout
      generalize s.drop (writerSize - unflushed.length) = s' at hstart hrest
      by_cases hroom : down.length + writerSize ≤ x.capDown
      · have hflush : Reaches x ⟨rest, [], [], .flushing out s' ids, [], down, []⟩
            ⟨rest, [], [], .writing s' ids, [], down ++ out, []⟩ := by
          apply (Reaches.step (.flush (a := out) (b := []) (by rw [append_nil]) _ _)).trans
          · exact Reaches.step (.flushed rfl)
          · rw [← length_pos_iff, hout]
            decide
          · rw [hout]
            exact hroom
        have hpiled : Piled x (made + (s.length - s'.length)) [] (down ++ out) := by
          have hsum := h.sum
          refine ⟨?_, ?_, zero_le _, ?_⟩
          · rw [length_append, length_nil, hout, hrest]
            omega
          · rw [length_append, hout]
            exact Nat.dvd_add h.blocks (Nat.dvd_refl _)
          · rw [length_append, hout]
            exact hroom
        have hless : ([] : Bytes).length + s'.length < n := by
          rw [length_nil, hrest, ← hn, writerSize] at *
          omega
        have hmade : made + (s.length - s'.length) + s'.length = made + s.length := by
          omega
        have hnext := ih _ hless s' hpiled rfl
        rw [hmade] at hnext
        rcases hnext with ⟨unflushed', down', hpiled', hreach⟩ | ⟨out', s'', down', hne,
          hcap, hreach⟩
        · exact .inl ⟨unflushed', down', hpiled', hstart.trans (hflush.trans hreach)⟩
        · exact .inr ⟨out', s'', down', hne, hcap, hstart.trans (hflush.trans hreach)⟩
      · -- the socket takes only a part of the buffer
        have hdown := h.room
        by_cases hnone : down.length = x.capDown
        · refine .inr ⟨out, s', down, ?_, by omega, hstart⟩
          rw [← length_pos_iff, hout]
          decide
        · refine .inr ⟨out.drop (x.capDown - down.length), s',
            down ++ out.take (x.capDown - down.length),
            ?_, ?_, hstart.trans (Reaches.step (.flush ?_ ?_ ?_))⟩
          · rw [← length_pos_iff, length_drop]
            omega
          · rw [length_append, length_take]
            omega
          · rw [take_append_drop]
          · rw [← length_pos_iff, length_take, hout, writerSize]
            omega
          · show down.length + (out.take (x.capDown - down.length)).length ≤ x.capDown
            rw [length_take]
            omega

/-! ## The run -/

theorem length_lines_drop {i j : Nat} (hij : i ≤ j) :
    (lines 10 (x.paths.drop j)).length ≤ (lines 10 (x.paths.drop i)).length := by
  have hsplit := take_append_drop (j - i) (x.paths.drop i)
  rw [drop_drop, Nat.add_sub_cancel' hij] at hsplit
  rw [← hsplit, lines_append, length_append]
  omega

/-- The client sends what the socket takes, and has more. -/
theorem reaches_deadlocked {rest out s down : Bytes} {ids : List Bytes} (hne : out ≠ [])
    (hcap : x.capDown ≤ down.length) (hrest : x.capUp < rest.length) {st : State}
    (h : Reaches x st ⟨rest, [], [], .flushing out s ids, [], down, []⟩) :
    ∃ st', Reaches x st st' ∧ Deadlocked x st' := by
  have hup := x.upPos
  have htake : (rest.take x.capUp).length = x.capUp := by
    rw [length_take]
    omega
  refine ⟨_, h.trans (Reaches.step (.send (take_append_drop x.capUp rest).symm ?_ ?_)),
    ⟨?_, ?_⟩, hne, hcap⟩
  · rw [← length_pos_iff, htake]
    exact hup
  · show 0 + (rest.take x.capUp).length ≤ x.capUp
    omega
  · show rest.drop x.capUp ≠ []
    rw [← length_pos_iff, length_drop]
    omega
  · show x.capUp ≤ (rest.take x.capUp).length
    omega

/-- As long as enough is left to send, the exchange gets to the next path or into a deadlock. -/
theorem reaches_answered {i : Nat} (hi : i ≤ x.paths.length)
    (hroom : x.capUp < (lines 10 (x.paths.drop i)).length) :
    (∃ st, Reaches x (start x) st ∧ Deadlocked x st) ∨
      ∃ unflushed down, Piled x (x.replied i).length unflushed down ∧
        Reaches x (start x)
          ⟨lines 10 (x.paths.drop i), [], [], .paths (x.ids.drop i), unflushed, down, []⟩ := by
  induction i with
  | zero =>
    refine .inr ⟨[], [], ⟨rfl, dvd_zero _, zero_le _, zero_le _⟩, ?_⟩
    exact reaches_paths
  | succ i ih =>
    have hprev := ih (by omega) (lt_of_lt_of_le hroom (length_lines_drop (le_succ i)))
    rcases hprev with hdead | ⟨unflushed, down, hpiled, hreach⟩
    · exact .inl hdead
    · have hids : i < x.ids.length := by
        rw [x.lengthIds]
        exact hi
      have hcons : x.ids[i] :: x.ids.drop (i + 1) = x.ids.drop i :=
        (drop_eq_getElem_cons hids).symm
      rw [← hcons, drop_eq_getElem_cons hi, lines_cons] at hreach
      have hmem : x.paths[i] ∈ x.paths := getElem_mem hi
      have hread := hreach.trans (reaches_writing (x.plain _ hmem) (x.short _ hmem) _ _ _ _ _)
      rw [replied_succ hcons]
      rcases reaches_written (x.ids.drop (i + 1)) (lines 10 (x.paths.drop (i + 1)))
        (x.ids[i] ++ [10]) hpiled with
        ⟨unflushed', down', hpiled', hwritten⟩ | ⟨out, s, down', hne, hcap, hblocked⟩
      · exact .inr ⟨unflushed', down', hpiled', hread.trans hwritten⟩
      · exact .inl (reaches_deadlocked hne hcap hroom (hread.trans hblocked))

/-- Without room there is a run into a deadlock. -/
theorem exists_deadlock (h : ¬x.Roomy) : ∃ st, Reaches x (start x) st ∧ Deadlocked x st := by
  simp only [Exchange.Roomy, not_forall, not_le] at h
  obtain ⟨i, hi, hmany, hroom⟩ := h
  have hleft := length_asked (x := x) (k := i)
  rcases reaches_answered hi (by omega) with hdead | ⟨unflushed, down, hpiled, -⟩
  · exact hdead
  · have := hpiled.le
    omega

/-- The exchange has no deadlock exactly when there is room. -/
theorem no_deadlock_iff (x : Exchange) :
    (∀ st, Reaches x (start x) st → ¬Deadlocked x st) ↔ x.Roomy := by
  constructor
  · intro h
    by_contra hroomy
    obtain ⟨st, hreach, hdead⟩ := exists_deadlock hroomy
    exact h st hreach hdead
  · rintro hroomy st ⟨who, hsteps⟩
    apply not_deadlocked (hsteps.invariant (P := Inv x) _ inv_start) hroomy
    exact fun s a t hs hstep => inv_step hs hstep

end

def header : Bytes :=
  ascii "/nix/store/0123456789abcdfghijklmnpqrsvwxyz-glibc-2.40-dev/include/stdio.h"

def manyHeaders : Exchange where
  paths := replicate 10000 header
  few := by rw [length_replicate]; decide
  short := by
    intro path hpath
    rw [eq_of_mem_replicate hpath]
    decide
  plain := by
    intro path hpath
    rw [eq_of_mem_replicate hpath]
    decide
  ids := replicate 10000 (ascii "C:0123456789abcdef0123456789abcdef")
  lengthIds := by rw [length_replicate, length_replicate]
  capUp := 212992
  capDown := 212992
  upPos := by decide
  downPos := by decide

theorem length_lines_replicate (n : Nat) (l : Bytes) :
    (lines 10 (replicate n l)).length = n * (l.length + 1) := by
  simp [lines, length_flatMap]

/-- The client waits to send the rest of its paths, the daemon to write the next answers. -/
theorem manyHeaders_deadlocks :
    ∃ st, Reaches manyHeaders (start manyHeaders) st ∧ Deadlocked manyHeaders st := by
  apply exists_deadlock
  intro hroomy
  have hpaths : ∀ i ≤ 10000, (lines 10 (manyHeaders.paths.drop i)).length = (10000 - i) * 75 := by
    intro i hi
    rw [manyHeaders, drop_replicate, length_lines_replicate]
    rfl
  have hmany : writerSize * (manyHeaders.capDown / writerSize + 1) <
    (manyHeaders.replied 6203).length := by
    rw [Exchange.replied, manyHeaders, take_replicate, length_lines_replicate]
    decide
  have hroom := hroomy 6203 (by rw [manyHeaders, length_replicate]; decide) hmany
  have hleft := length_asked (x := manyHeaders) (k := 6203)
  rw [hpaths 6203 (by decide)] at hleft
  have hup : manyHeaders.capUp = 212992 := rfl
  omega

end Corepkgs.Jigd.Ids
