import Corepkgs.Jig.CacheClient
/-!
# Reading answers

What the loops of the client make of the answers of the daemon, whole or cut at
any byte.  A loop goes on after an answer that did not come; it then finds no
newline in what is left, and every further answer is a miss as well.
-/

namespace Corepkgs.Jig.CacheClient

open Lib Jigd.Wire List Text

/-- Nothing that is left, or still comes, is a line. -/
def Dry (c : CacheClient) : Prop := 10 ∉ c.stream.rest

variable {c : CacheClient} {more l : Bytes} {r : Reply} {kind : Reply → Prop} {rs : List Reply}

theorem recvLine_line (hl : 10 ∉ l) (h : c.stream.rest = l ++ 10 :: more) :
    ∃ s, c.recvLine = (some l, { c with stream := s }) ∧ s.rest = more := by
  obtain ⟨s, hs, hrest⟩ := Stream.upToNewline_line hl more c.stream.reads [] c.stream.pending h
  exact ⟨s, by rw [recvLine, hs]; rfl, hrest⟩

theorem lastRead_subset (s : Stream) : lastRead s ⊆ s.rest := by
  rw [lastRead]
  cases h : s.reads.getLast? with
  | none =>
    intro b hb
    exact mem_append_left _ hb
  | some read =>
    intro b hb
    apply mem_append_right
    exact mem_flatten.mpr ⟨read.val, mem_map_of_mem (mem_of_getLast? h), hb⟩

theorem recvLine_dry (h : c.Dry) :
    c.recvLine.1 = none ∧ c.recvLine.2.Dry := by
  have hend := Stream.upToNewline_end c.stream.reads [] c.stream.pending h
  rw [recvLine, hend]
  refine ⟨rfl, fun hmem => h (lastRead_subset c.stream ?_)⟩
  simpa [Stream.rest] using hmem

theorem recvMany_succ {α : Type} (recv : CacheClient → α × CacheClient) (n : Nat)
    (c : CacheClient) :
    recvMany recv (n + 1) c = ((recv c).1 :: (recvMany recv n (recv c).2).1,
      (recvMany recv n (recv c).2).2) := rfl

/-- Nothing more can be taken for an answer: no line is left, or the client has hung up. -/
def Closed (c : CacheClient) : Prop := c.connected = false ∨ c.Dry

def whole : List Reply → Bytes → Nat
  | [], _ => 0
  | r :: rs, text =>
    if r.bytes.isPrefixOf text then whole rs (text.drop r.bytes.length) + 1 else 0

theorem whole_append (r : Reply) (rs : List Reply) (text : Bytes) :
    whole (r :: rs) (r.bytes ++ text) = whole rs text + 1 := by
  rw [whole, if_pos (List.isPrefixOf_iff_prefix.mpr (prefix_append _ _)), drop_left]

theorem whole_torn {text : Bytes} (h : ¬r.bytes <+: text) (rs : List Reply) :
    whole (r :: rs) text = 0 := by
  rw [whole, if_neg (mt isPrefixOf_iff_prefix.mp h)]

/-- How a loop reads one answer: whole it gives the answer, torn a miss.  After an answer that
`ends` the connection nothing more is read. -/
structure Reads {α : Type} (recv : CacheClient → α × CacheClient) (val : Option Reply → α)
    (kind ends : Reply → Prop) : Prop where
  whole : ∀ {c : CacheClient} {r : Reply} {more : Bytes}, kind r →
    c.stream.rest = r.bytes ++ more →
      ∃ s, recv c = (val (some r), { c with stream := s }) ∧ s.rest = more
  torn : ∀ {c : CacheClient} {r : Reply}, kind r → c.stream.rest <+: r.bytes →
    c.stream.rest ≠ r.bytes → (recv c).1 = val none ∧ (recv c).2.Dry
  dry : ∀ {c : CacheClient}, c.Dry → (recv c).1 = val none ∧ (recv c).2.Dry
  last : ∀ {c : CacheClient} {r : Reply}, ends r → c.stream.rest <+: r.bytes →
    (recv c).1 = val none ∧ val (some r) = val none ∧ (recv c).2.Closed ∧
      (c.stream.rest = r.bytes → (recv c).2.connected = false)

/-- What a loop may be answered: only the last answer may be one that ends the connection. -/
def Ordered (kind ends : Reply → Prop) (rs : List Reply) : Prop :=
  ∀ front r back, rs = front ++ r :: back → kind r ∨ (ends r ∧ back = [])

variable {ends : Reply → Prop}

theorem Ordered.head (h : Ordered kind ends (r :: rs)) :
    kind r ∨ (ends r ∧ rs = []) := h [] r rs rfl

theorem Ordered.tail (h : Ordered kind ends (r :: rs)) :
    Ordered kind ends rs := by
  intro front r' back heq
  exact h (r :: front) r' back (by rw [heq, cons_append])

theorem Ordered.cons (hr : kind r ∨ (ends r ∧ rs = []))
    (h : Ordered kind ends rs) : Ordered kind ends (r :: rs) := by
  intro front r' back heq
  cases front with
  | nil =>
    obtain ⟨rfl, rfl⟩ := cons.inj heq
    exact hr
  | cons _ front => exact h front r' back (cons.inj heq).2

theorem Ordered.of_all (ends : Reply → Prop) (h : ∀ r ∈ rs, kind r) : Ordered kind ends rs := by
  intro front r back heq
  exact .inl (h r (by simp [heq]))

section

variable {α : Type} {recv : CacheClient → α × CacheClient} {val : Option Reply → α}
  {kind ends : Reply → Prop} (hreads : Reads recv val kind ends)
include hreads

theorem recvMany_dry (n : Nat) {c : CacheClient} (h : c.Dry) :
    (recvMany recv n c).1 = (range n).map (fun _ => val none) ∧ (recvMany recv n c).2.Dry := by
  induction n generalizing c with
  | zero => exact ⟨rfl, h⟩
  | succ n ih =>
    obtain ⟨hmiss, hdry⟩ := hreads.dry h
    obtain ⟨hrest, hlast⟩ := ih hdry
    rw [recvMany_succ, range_succ_eq_map, map_cons, map_map]
    exact ⟨by rw [hmiss, hrest]; rfl, hlast⟩

/-- A loop over answers of which a front has come: the whole ones are read, the others are misses,
and nothing is left that could be taken for an answer. -/
theorem recvMany_front {rs : List Reply} (hrs : Ordered kind ends rs) {c : CacheClient}
    (h : c.stream.rest <+: rs.flatMap Reply.bytes) :
    (recvMany recv rs.length c).1 =
        (range rs.length).map (fun i => val (rs.take (CacheClient.whole rs c.stream.rest))[i]?) ∧
      (recvMany recv rs.length c).2.Closed ∧
      (c.stream.rest = rs.flatMap Reply.bytes → (recvMany recv rs.length c).2.connected = true →
        (recvMany recv rs.length c).2.stream.rest = []) := by
  induction rs generalizing c with
  | nil =>
    have hnil : c.stream.rest = [] := prefix_nil.mp h
    exact ⟨rfl, .inr (by simp [recvMany, Dry, hnil]), fun _ _ => hnil⟩
  | cons r rs ih =>
    rw [length_cons, recvMany_succ, range_succ_eq_map, map_cons, map_map]
    rw [flatMap_cons] at h ⊢
    rcases hrs.head with hr | ⟨hr, rfl⟩
    · by_cases hwhole : r.bytes <+: c.stream.rest
      · obtain ⟨more, hmore⟩ := hwhole
        obtain ⟨s, hrecv, hs⟩ := hreads.whole hr hmore.symm
        rw [← hmore, prefix_append_right_inj] at h
        obtain ⟨hvalues, hclosed, hempty⟩ :=
          ih hrs.tail (show ({ c with stream := s } : CacheClient).stream.rest <+: _ from hs ▸ h)
        rw [hrecv, ← hmore, whole_append]
        refine ⟨?_, hclosed, fun heq => hempty ?_⟩
        · simp only [hvalues, hs]
          rfl
        · exact hs.trans (append_cancel_left heq)
      · have hshort : c.stream.rest <+: r.bytes := by
          rcases prefix_or_prefix_of_prefix h (prefix_append r.bytes _) with hp | hp
          · exact hp
          · exact absurd hp hwhole
        have hne : c.stream.rest ≠ r.bytes := fun heq => hwhole (heq ▸ prefix_refl _)
        obtain ⟨hmiss, hdry⟩ := hreads.torn hr hshort hne
        obtain ⟨hvalues, hlast⟩ := recvMany_dry hreads rs.length hdry
        rw [whole_torn hwhole]
        refine ⟨?_, .inr hlast, fun heq => absurd ?_ hwhole⟩
        · simp only [hmiss, hvalues]
          rfl
        · exact heq ▸ prefix_append _ _
    · rw [flatMap_nil, append_nil] at h ⊢
      obtain ⟨hmiss, hval, hclosed, hdrop⟩ := hreads.last hr h
      refine ⟨?_, hclosed, fun heq hconn => ?_⟩
      · -- the answer is a miss whether or not it has come whole
        have hany : ∀ k, val ([r].take k)[0]? = val none := by
          intro k
          cases k with
          | zero => rfl
          | succ k => exact hval
        rw [hmiss, hany]
        rfl
      · exact absurd ((hdrop heq).symm.trans hconn) Bool.false_ne_true

end

/-! ## The answers -/

theorem dry_of_torn_line (hl : 10 ∉ l) (h : c.stream.rest <+: l ++ [10])
    (hne : c.stream.rest ≠ l ++ [10]) : c.Dry := by
  have hlen : c.stream.rest.length ≤ l.length := by
    have hle := h.length_le
    rw [length_append, length_singleton] at hle
    have hneq : c.stream.rest.length ≠ l.length + 1 := fun heq =>
      hne (h.eq_of_length (by rw [heq, length_append, length_singleton]))
    omega
  intro hmem
  exact hl ((prefix_of_prefix_length_le h (prefix_append l [10]) hlen).subset hmem)

theorem dry_of_no_line (hl : 10 ∉ l) (h : c.stream.rest <+: l ++ [10] ++ more)
    (hline : ¬l ++ [10] <+: c.stream.rest) : c.Dry := by
  rcases prefix_or_prefix_of_prefix h (prefix_append _ more) with hp | hp
  · exact dry_of_torn_line hl hp fun heq => hline (heq ▸ prefix_refl _)
  · exact absurd hp hline

theorem reads_of_line {α : Type} {recv : CacheClient → α × CacheClient} {val : Option Reply → α}
    (f : Option Bytes → α) (hrecv : ∀ c : CacheClient, recv c = (f c.recvLine.1, c.recvLine.2))
    (hnone : f none = val none)
    (hline : ∀ r, kind r → ∃ l, 10 ∉ l ∧ r.bytes = l ++ [10] ∧ f (some l) = val (some r)) :
    Reads recv val kind (fun _ => False) where
  whole := by
    intro c r more hr h
    obtain ⟨l, hl, hbytes, hval⟩ := hline r hr
    rw [hbytes, append_assoc, singleton_append] at h
    obtain ⟨s, hs, hrest⟩ := recvLine_line hl h
    exact ⟨s, by rw [hrecv, hs, hval], hrest⟩
  torn := by
    intro c r hr h hne
    obtain ⟨l, hl, hbytes, -⟩ := hline r hr
    rw [hbytes] at h hne
    obtain ⟨hmiss, hlast⟩ := recvLine_dry (dry_of_torn_line hl h hne)
    rw [hrecv]
    exact ⟨by rw [hmiss, hnone], hlast⟩
  dry := by
    intro c h
    obtain ⟨hmiss, hlast⟩ := recvLine_dry h
    rw [hrecv]
    exact ⟨by rw [hmiss, hnone], hlast⟩
  last := fun hfalse => hfalse.elim

def IsFlag (r : Reply) : Prop := ∃ b, r = .flag b

theorem reads_flag : Reads recvFlag (fun r => r == some (.flag true)) IsFlag (fun _ => False) := by
  apply reads_of_line fun line => line == some (ascii "1")
  · exact fun c => rfl
  · rfl
  · rintro r ⟨b, rfl⟩
    cases b with
    | true => exact ⟨ascii "1", by decide, rfl, rfl⟩
    | false => exact ⟨ascii "0", by decide, rfl, rfl⟩

theorem reads_ok : Reads recvLine (fun r => r.map fun _ => ascii "OK") (· = .ok)
    (fun _ => False) := by
  apply reads_of_line id
  · exact fun c => rfl
  · rfl
  · rintro r rfl
    exact ⟨ascii "OK", by decide, rfl, rfl⟩

def IsValue (r : Reply) : Prop :=
  ∃ v, r = .value v ∧ ∀ wire ∈ v, wire.length ≤ kMaxObjectSize

def IsOversize (r : Reply) : Prop := ∃ wire, r = .value (some wire) ∧ kMaxObjectSize < wire.length

def header (n : Nat) : Bytes := ascii "OK " ++ decimal n

theorem notMem_header (n : Nat) : 10 ∉ header n := by
  rw [header, mem_append]
  exact fun h => h.elim (by decide) (notMem_decimal n)

theorem isPrefixOf_header (n : Nat) : (ascii "OK ").isPrefixOf (header n) = true := by
  rw [List.isPrefixOf_iff_prefix]
  exact prefix_append _ _

theorem drop_header (n : Nat) : (header n).drop 3 = decimal n := by
  show (ascii "OK " ++ decimal n).drop (ascii "OK ").length = decimal n
  exact drop_left

variable (z : Zstd)

theorem recvValue_dry (h : c.Dry) :
    (c.recvValue z).1 = none ∧ (c.recvValue z).2.Dry := by
  obtain ⟨hmiss, hlast⟩ := recvLine_dry h
  have hpair : c.recvLine = (none, c.recvLine.2) := Prod.ext hmiss rfl
  rw [recvValue, hpair]
  exact ⟨rfl, hlast⟩

theorem recvValue_header {n : Nat} (hn : n ≤ kMaxObjectSize)
    (h : c.stream.rest = header n ++ 10 :: more) :
    ∃ s, s.rest = more ∧ c.recvValue z = ({ c with stream := s } : CacheClient).recvBody z n := by
  obtain ⟨s, hs, hrest⟩ := recvLine_line (notMem_header n) h
  have hparse : parseUint 10 (decimal n) = some n :=
    parseUint_numeral (show 1 < 10 by decide) (Nat.le_refl 10)
      (by rw [kMaxObjectSize] at hn; omega)
  refine ⟨s, hrest, ?_⟩
  rw [recvValue, hs]
  simp only [isPrefixOf_header, drop_header, hparse, if_true, if_neg (Nat.not_lt.mpr hn)]

theorem recvValue_oversize {n : Nat} (hn : kMaxObjectSize < n)
    (h : c.stream.rest = header n ++ 10 :: more) :
    (c.recvValue z).1 = none ∧ (c.recvValue z).2.connected = false := by
  obtain ⟨s, hs, -⟩ := recvLine_line (notMem_header n) h
  rw [recvValue, hs]
  simp only [isPrefixOf_header, drop_header, if_true]
  cases hparse : parseUint 10 (decimal n) with
  | none => exact ⟨rfl, rfl⟩  -- it does not fit 64 bits
  | some len =>
    have hlen : len = n :=
      eq_of_parseUint_numeral (show 1 < 10 by decide) (Nat.le_refl 10) hparse
    simp only [hlen, if_pos hn]
    exact ⟨trivial, rfl⟩

theorem bytes_value (wire : Bytes) :
    (Reply.value (some wire)).bytes = header wire.length ++ [10] ++ wire := by
  simp [Reply.bytes, header]

theorem recvValue_torn {wire : Bytes} (hn : wire.length ≤ kMaxObjectSize)
    (h : c.stream.rest <+: (Reply.value (some wire)).bytes)
    (hne : c.stream.rest ≠ (Reply.value (some wire)).bytes) :
    (c.recvValue z).1 = none ∧ (c.recvValue z).2.Dry := by
  rw [bytes_value] at h hne
  by_cases hline : header wire.length ++ [10] <+: c.stream.rest
  · obtain ⟨part, hpart⟩ := hline
    rw [← hpart, prefix_append_right_inj] at h
    have hshort : part.length < wire.length := by
      have hlen : part.length ≠ wire.length := fun heq =>
        hne (by rw [← hpart, h.eq_of_length heq])
      have := h.length_le
      omega
    have htext : c.stream.rest = header wire.length ++ 10 :: part := by
      rw [← hpart, append_assoc, singleton_append]
    obtain ⟨s, hs, hrecv⟩ := recvValue_header z hn htext
    have htake : Stream.takeBytes wire.length s.pending s.reads = none := by
      apply Stream.takeBytes_eq_none
      show s.rest.length < wire.length
      rwa [hs]
    rw [hrecv, recvBody, recvExactly, htake]
    exact ⟨rfl, by simp [Dry, Stream.rest]⟩
  · exact recvValue_dry z (dry_of_no_line (notMem_header _) h hline)

theorem reads_value : Reads (·.recvValue z) (Call.valueOf z) IsValue IsOversize where
  whole := by
    rintro c r more ⟨v, rfl, hsize⟩ h
    cases v with
    | none =>
      obtain ⟨s, hs, hrest⟩ := recvLine_line (l := ascii "MISS") (by decide) h
      refine ⟨s, ?_, hrest⟩
      rw [recvValue, hs]
      rfl
    | some wire =>
      have hn := hsize wire rfl
      have htext : c.stream.rest = header wire.length ++ 10 :: (wire ++ more) := by
        rw [h, Reply.bytes, header]
        simp
      obtain ⟨s, hs, hrecv⟩ := recvValue_header z hn htext
      obtain ⟨s', htake, hrest⟩ := Stream.takeBytes_append more s.reads wire s.pending hs
      refine ⟨s', ?_, hrest⟩
      rw [hrecv, recvBody, recvExactly, htake, Call.valueOf, if_neg (Nat.not_lt.mpr hn)]
  torn := by
    rintro c r ⟨v, rfl, hsize⟩ h hne
    cases v with
    | none => exact recvValue_dry z (dry_of_torn_line (l := ascii "MISS") (by decide) h hne)
    | some wire => exact recvValue_torn z (hsize wire rfl) h hne
  dry := recvValue_dry z
  last := by
    rintro c r ⟨wire, rfl, hsize⟩ h
    have hval : Call.valueOf z (some (.value (some wire))) = none := if_pos hsize
    rw [bytes_value] at h
    by_cases hline : header wire.length ++ [10] <+: c.stream.rest
    · obtain ⟨part, hpart⟩ := hline
      have htext : c.stream.rest = header wire.length ++ 10 :: part := by
        rw [← hpart, append_assoc, singleton_append]
      obtain ⟨hmiss, hdrop⟩ := recvValue_oversize z hsize htext
      exact ⟨hmiss, hval, .inl hdrop, fun _ => hdrop⟩
    · obtain ⟨hmiss, hlast⟩ := recvValue_dry z (dry_of_no_line (notMem_header _) h hline)
      refine ⟨hmiss, hval, .inr hlast, fun heq => absurd ?_ hline⟩
      rw [heq, bytes_value]
      exact prefix_append _ _

theorem recvIds_lines (ids : List Bytes) (hids : ∀ id ∈ ids, 10 ∉ id)
    (h : c.stream.rest = lines 10 ids ++ more) :
    ∃ s, c.recvIds ids.length = (some ids, { c with stream := s }) ∧ s.rest = more := by
  induction ids generalizing c with
  | nil => exact ⟨c.stream, rfl, h⟩
  | cons id ids ih =>
    have htext : c.stream.rest = id ++ 10 :: (lines 10 ids ++ more) := by
      rw [h, lines_cons, append_assoc, cons_append]
    obtain ⟨s, hs, hrest⟩ := recvLine_line (hids id mem_cons_self) htext
    obtain ⟨s', hs', hmore⟩ :=
      ih (fun id hid => hids id (mem_cons_of_mem _ hid)) (c := { c with stream := s }) hrest
    refine ⟨s', ?_, hmore⟩
    rw [length_cons, recvIds, hs]
    simp only [hs', Option.map_some]

theorem recvIds_dry (n : Nat) (h : c.Dry) :
    (c.recvIds n).1.getD [] = [] ∧ (c.recvIds n).2.Dry := by
  cases n with
  | zero => exact ⟨rfl, h⟩
  | succ n =>
    obtain ⟨hmiss, hlast⟩ := recvLine_dry h
    have hpair : c.recvLine = (none, c.recvLine.2) := Prod.ext hmiss rfl
    rw [recvIds, hpair]
    exact ⟨rfl, hlast⟩

/-- Identities of which some bytes are missing are no identities. -/
theorem recvIds_torn (ids : List Bytes) (hids : ∀ id ∈ ids, 10 ∉ id)
    (h : c.stream.rest <+: lines 10 ids) (hne : c.stream.rest ≠ lines 10 ids) :
    (c.recvIds ids.length).1 = none ∧ (c.recvIds ids.length).2.Dry := by
  induction ids generalizing c with
  | nil => exact absurd (prefix_nil.mp h) hne
  | cons id ids ih =>
    have hcons : lines 10 (id :: ids) = (id ++ [10]) ++ lines 10 ids := by
      rw [lines_cons, append_assoc, singleton_append]
    have hid := hids id mem_cons_self
    rw [hcons] at h hne
    rw [length_cons, recvIds]
    by_cases hline : id ++ [10] <+: c.stream.rest
    · obtain ⟨part, hpart⟩ := hline
      rw [← hpart] at h hne
      have htext : c.stream.rest = id ++ 10 :: part := by
        rw [← hpart, append_assoc, singleton_append]
      obtain ⟨s, hs, hrest⟩ := recvLine_line hid htext
      obtain ⟨hnone, hdry⟩ := ih (fun id hid => hids id (mem_cons_of_mem _ hid))
        (c := { c with stream := s }) (hrest ▸ (prefix_append_right_inj _).mp h)
        (fun heq => hne (congrArg _ (hrest.symm.trans heq)))
      rw [hs]
      simp only [hnone, Option.map_none]
      exact ⟨trivial, hdry⟩
    · obtain ⟨hmiss, hlast⟩ := recvLine_dry (dry_of_no_line hid h hline)
      have hpair : c.recvLine = (none, c.recvLine.2) := Prod.ext hmiss rfl
      rw [hpair]
      exact ⟨rfl, hlast⟩

def IsIds (n : Nat) (r : Reply) : Prop := ∃ ids, r = .ids ids ∧ ids.length = n ∧ ∀ id ∈ ids, 10 ∉ id

theorem reads_ids (n : Nat) :
    Reads (fun c => ((c.recvIds n).1.getD [], (c.recvIds n).2)) Call.idsOf (IsIds n)
      (fun _ => False) where
  whole := by
    rintro c r more ⟨ids, rfl, rfl, hids⟩ h
    obtain ⟨s, hs, hrest⟩ := recvIds_lines ids hids h
    exact ⟨s, by rw [hs]; rfl, hrest⟩
  torn := by
    rintro c r ⟨ids, rfl, rfl, hids⟩ h hne
    obtain ⟨hnone, hdry⟩ := recvIds_torn ids hids h hne
    exact ⟨by rw [hnone]; rfl, hdry⟩
  dry := recvIds_dry n
  last := fun hfalse => hfalse.elim

end Corepkgs.Jig.CacheClient
