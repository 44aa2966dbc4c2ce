import Corepkgs.Lib.Text
/-!
# Byte streams and the lines in them

`read(2)` hands a stream out in pieces of its own choosing.  A reader keeps what
it has read too much of, so that its answers depend on the bytes of the stream
alone and not on where the reads were cut.
-/

namespace Corepkgs.Lib

open List

/-- What one successful `read` returns: a read of nothing is the end of the stream. -/
abbrev Read := {bytes : Bytes // bytes ≠ []}

/-- A reader in front of a stream: what is buffered and the reads to come. -/
structure Stream where
  pending : Bytes
  reads : List Read

namespace Stream

def rest (s : Stream) : Bytes := s.pending ++ (s.reads.map Subtype.val).flatten

/-- The text up to the next newline and the stream behind it; the text up to the end of the stream
when no newline comes. -/
def upToNewline (line pending : Bytes) : List Read → Bytes × Option Stream
  | [] =>
    if 10 ∈ pending then
      (line ++ pending.takeWhile (· ≠ 10), some ⟨(pending.dropWhile (· ≠ 10)).tail, []⟩)
    else (line ++ pending, none)
  | read :: reads =>
    if 10 ∈ pending then
      (line ++ pending.takeWhile (· ≠ 10), some ⟨(pending.dropWhile (· ≠ 10)).tail, read :: reads⟩)
    else upToNewline (line ++ pending) read.val reads

variable {pending l : Bytes} {limit : Nat}

theorem upToNewline_of_mem {line : Bytes} {reads : List Read} (h : 10 ∈ pending) :
    upToNewline line pending reads =
      (line ++ pending.takeWhile (· ≠ 10), some ⟨(pending.dropWhile (· ≠ 10)).tail, reads⟩) := by
  cases reads with
  | nil | cons _ _ => rw [upToNewline, if_pos h]

theorem takeWhile_cut {sep : UInt8} (hl : sep ∉ l) (rest : Bytes) :
    (l ++ sep :: rest).takeWhile (· ≠ sep) = l := by
  rw [takeWhile_append_of_pos (by intro b hb; simpa using ne_of_mem_of_not_mem hb hl),
    takeWhile_cons_of_neg (by simp), append_nil]

theorem dropWhile_cut {sep : UInt8} (hl : sep ∉ l) (rest : Bytes) :
    (l ++ sep :: rest).dropWhile (· ≠ sep) = sep :: rest := by
  rw [dropWhile_append_of_pos (by intro b hb; simpa using ne_of_mem_of_not_mem hb hl),
    dropWhile_cons_of_neg (by simp)]

/-- A line that is there comes back whole, however the stream is cut into reads. -/
theorem upToNewline_line (hl : 10 ∉ l) (tail : Bytes) :
    ∀ (reads : List Read) (line pending : Bytes),
      pending ++ (reads.map Subtype.val).flatten = l ++ 10 :: tail →
      ∃ s, upToNewline line pending reads = (line ++ l, some s) ∧ s.rest = tail := by
  intro reads
  induction reads generalizing l with
  | nil =>
    intro line pending h
    rw [map_nil, flatten_nil, append_nil] at h
    subst h
    rw [upToNewline_of_mem (by simp), takeWhile_cut hl, dropWhile_cut hl]
    exact ⟨_, rfl, by simp [rest]⟩
  | cons read reads ih =>
    intro line pending h
    by_cases hmem : 10 ∈ pending
    · obtain ⟨a, b, rfl, ha⟩ := eq_append_cons_of_mem hmem
      rw [append_assoc, cons_append] at h
      obtain ⟨rfl, rfl⟩ := Text.cut_inj ha hl h
      rw [upToNewline_of_mem hmem, takeWhile_cut ha, dropWhile_cut ha]
      exact ⟨_, rfl, rfl⟩
    · rw [map_cons, flatten_cons] at h
      obtain ⟨l', rfl, h'⟩ : ∃ l', l = pending ++ l' ∧
          read.val ++ (reads.map Subtype.val).flatten = l' ++ 10 :: tail := by
        rcases append_eq_append_iff.mp h with ⟨l', rfl, h'⟩ | ⟨b, rfl, h'⟩
        · exact ⟨l', rfl, h'⟩
        · cases b with
          | nil => exact ⟨[], (append_nil _).symm ▸ by simp, h'.symm⟩
          | cons c b =>
            rw [cons_append, cons.injEq] at h'
            exact absurd (h'.1 ▸ by simp) hmem
      rw [upToNewline, if_neg hmem]
      obtain ⟨s, hs, hrest⟩ := ih (by simp_all) (line ++ pending) read.val h'
      exact ⟨s, by rw [hs, append_assoc], hrest⟩

variable (reads : List Read)

/-- Without a newline all that is left is handed out. -/
theorem upToNewline_end (line pending : Bytes)
    (h : 10 ∉ pending ++ (reads.map Subtype.val).flatten) :
    upToNewline line pending reads =
      (line ++ (pending ++ (reads.map Subtype.val).flatten), none) := by
  induction reads generalizing line pending with
  | nil =>
    rw [map_nil, flatten_nil, append_nil] at h ⊢
    rw [upToNewline, if_neg h]
  | cons read reads ih =>
    have hpending : 10 ∉ pending := fun hp => h (mem_append_left _ hp)
    rw [map_cons, flatten_cons] at h ⊢
    rw [upToNewline, if_neg hpending, ih _ _ (fun hr => h (mem_append_right _ hr)),
      append_assoc]

def takeBytes (n : Nat) (pending : Bytes) : List Read → Option (Bytes × Stream)
  | [] => if n ≤ pending.length then some (pending.take n, ⟨pending.drop n, []⟩) else none
  | read :: reads =>
    if n ≤ pending.length then some (pending.take n, ⟨pending.drop n, read :: reads⟩)
    else (takeBytes (n - pending.length) read.val reads).map fun got => (pending ++ got.1, got.2)

theorem takeBytes_of_le {n : Nat} {reads : List Read} (h : n ≤ pending.length) :
    takeBytes n pending reads = some (pending.take n, ⟨pending.drop n, reads⟩) := by
  cases reads with
  | nil | cons _ _ => rw [takeBytes, if_pos h]

theorem takeBytes_append (tail : Bytes) (reads : List Read) (body pending : Bytes)
    (h : pending ++ (reads.map Subtype.val).flatten = body ++ tail) :
    ∃ s, takeBytes body.length pending reads = some (body, s) ∧ s.rest = tail := by
  induction reads generalizing body pending with
  | nil =>
    rw [map_nil, flatten_nil, append_nil] at h
    subst h
    rw [takeBytes_of_le (by simp), take_left, drop_left]
    exact ⟨_, rfl, by simp [rest]⟩
  | cons read reads ih =>
    by_cases hle : body.length ≤ pending.length
    · obtain ⟨more, rfl⟩ : body <+: pending :=
        prefix_of_prefix_length_le ⟨tail, h.symm⟩ (prefix_append pending _) hle
      rw [takeBytes_of_le hle, take_left, drop_left]
      refine ⟨_, rfl, ?_⟩
      rw [append_assoc] at h
      exact append_cancel_left h
    · obtain ⟨body', rfl⟩ : pending <+: body :=
        prefix_of_prefix_length_le ⟨_, h⟩ (prefix_append body tail) (by omega)
      rw [append_assoc, map_cons, flatten_cons] at h
      obtain ⟨s, hs, hrest⟩ := ih body' read.val (append_cancel_left h)
      refine ⟨s, ?_, hrest⟩
      rw [takeBytes, if_neg hle, length_append, Nat.add_sub_cancel_left, hs, Option.map_some]

theorem takeBytes_eq_none {n : Nat} (h : (pending ++ (reads.map Subtype.val).flatten).length < n) :
    takeBytes n pending reads = none := by
  induction reads generalizing n pending with
  | nil =>
    rw [map_nil, flatten_nil, append_nil] at h
    rw [takeBytes, if_neg (by omega)]
  | cons read reads ih =>
    rw [map_cons, flatten_cons, length_append] at h
    rw [takeBytes, if_neg (by omega), ih (by omega), Option.map_none]

/-- `bufio.Reader.ReadSlice('\n')` with a buffer of `limit` bytes: `none` at the end of the stream,
and when the buffer is full without a newline in it.  What a read returns beyond the buffer's space
is still the kernel's. -/
def boundedLine (limit : Nat) (pending : Bytes) : List Read → Option (Bytes × Stream)
  | [] =>
    if 10 ∈ pending.take limit then
      some (pending.takeWhile (· ≠ 10), ⟨(pending.dropWhile (· ≠ 10)).tail, []⟩)
    else none
  | read :: reads =>
    if 10 ∈ pending.take limit then
      some (pending.takeWhile (· ≠ 10), ⟨(pending.dropWhile (· ≠ 10)).tail, read :: reads⟩)
    else if limit ≤ pending.length then none
    else boundedLine limit (pending ++ read.val) reads

theorem mem_take_cut (hlimit : l.length < limit) (tail : Bytes) :
    10 ∈ (l ++ 10 :: tail).take limit := by
  obtain ⟨k, rfl⟩ : ∃ k, limit = l.length + (k + 1) := ⟨limit - l.length - 1, by omega⟩
  rw [take_length_add_append, take_succ_cons]
  exact mem_append_right _ mem_cons_self

theorem boundedLine_of_mem {reads : List Read} (h : 10 ∈ pending.take limit) :
    boundedLine limit pending reads =
      some (pending.takeWhile (· ≠ 10), ⟨(pending.dropWhile (· ≠ 10)).tail, reads⟩) := by
  cases reads with
  | nil | cons _ _ => rw [boundedLine, if_pos h]

theorem boundedLine_line (hl : 10 ∉ l) (hlimit : l.length < limit) (tail : Bytes)
    (reads : List Read) (pending : Bytes)
    (h : pending ++ (reads.map Subtype.val).flatten = l ++ 10 :: tail) :
    ∃ s, boundedLine limit pending reads = some (l, s) ∧ s.rest = tail := by
  induction reads generalizing pending with
  | nil =>
    rw [map_nil, flatten_nil, append_nil] at h
    subst h
    rw [boundedLine_of_mem (mem_take_cut hlimit tail), takeWhile_cut hl, dropWhile_cut hl]
    exact ⟨_, rfl, by simp [rest]⟩
  | cons read reads ih =>
    by_cases hlong : l.length < pending.length
    · have hline : l ++ [10] <+: pending ++ ((read :: reads).map Subtype.val).flatten :=
        ⟨tail, by rw [h, append_assoc, singleton_append]⟩
      obtain ⟨t, rfl⟩ : l ++ [10] <+: pending := by
        apply prefix_of_prefix_length_le hline (prefix_append pending _)
        rw [length_append, length_singleton]
        exact hlong
      rw [← append_cons, append_assoc, cons_append] at h
      rw [← append_cons, boundedLine_of_mem (mem_take_cut hlimit t), takeWhile_cut hl,
        dropWhile_cut hl]
      exact ⟨_, rfl, (cons.inj (append_cancel_left h)).2⟩
    · have hfront : pending <+: l :=
        prefix_of_prefix_length_le ⟨_, h⟩ (prefix_append l (10 :: tail)) (by omega)
      have hno : 10 ∉ pending.take limit :=
        fun hmem => hl (hfront.subset (mem_of_mem_take hmem))
      rw [boundedLine, if_neg hno, if_neg (by omega)]
      apply ih
      rw [← h, map_cons, flatten_cons, append_assoc]

theorem boundedLine_eq_none (h : 10 ∉ (pending ++ (reads.map Subtype.val).flatten).take limit) :
    boundedLine limit pending reads = none := by
  have hfront : ∀ {x y : Bytes}, 10 ∉ (x ++ y).take limit → 10 ∉ x.take limit := by
    intro x y hxy hx
    rw [take_append] at hxy
    exact hxy (mem_append_left _ hx)
  induction reads generalizing pending with
  | nil =>
    rw [map_nil, flatten_nil, append_nil] at h
    rw [boundedLine, if_neg h]
  | cons read reads ih =>
    rw [boundedLine, if_neg (hfront h)]
    split_ifs with hfull
    · rfl
    · apply ih
      rwa [map_cons, flatten_cons, ← append_assoc] at h

end Stream

/-! ## The lines of a text -/

/-- What a line reader hands out of a text: a last line need not be ended. -/
def textLines (text : Bytes) : List Bytes :=
  let ls := text.splitOn 10
  if ls.getLast? = some [] then ls.dropLast else ls

@[simp] theorem textLines_nil : textLines [] = [] := by
  simp [textLines]

theorem textLines_line {l : Bytes} (hl : 10 ∉ l) (rest : Bytes) :
    textLines (l ++ 10 :: rest) = l :: textLines rest := by
  have hne := splitOn_ne_nil 10 rest
  rw [textLines, textLines, Text.splitOn_line 10 hl]
  simp only [getLast?_cons_of_ne_nil hne, dropLast_cons_of_ne_nil hne]
  split_ifs with h
  · rfl
  · rfl

theorem textLines_of_notMem {l : Bytes} (hl : 10 ∉ l) (hne : l ≠ []) : textLines l = [l] := by
  rw [textLines, splitOn_eq_singleton hl]
  simp [hne]

end Corepkgs.Lib
