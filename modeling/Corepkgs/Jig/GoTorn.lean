import Corepkgs.Jig.GoStream
/-!
# Torn streams of requests

A killed build cuts its stream of requests at any byte, and the program takes
what is left of the last line for a request.  This module says which cuts make
it store something the build never sent.
-/

namespace Corepkgs.Jig.GoCache

open Lib Lib.Text List

namespace GoRequest

variable {r : GoRequest}

/-! ## A torn request -/

theorem line_prefix_text (r : GoRequest) : r.line <+: r.text := by
  rw [text]
  cases r.body with
  | none => exact prefix_refl _
  | some b => exact prefix_append _ _

variable {part : Bytes}

theorem prefix_line_of_notMem (h : part <+: r.text) (hmem : 10 ∉ part) :
    part <+: r.line := by
  cases hbody : r.body with
  | none => rwa [text, hbody] at h
  | some b =>
    simp only [text, hbody] at h
    by_cases hlen : part.length ≤ r.line.length
    · exact prefix_of_prefix_length_le h (prefix_append _ _) hlen
    · rw [append_cons] at h
      have hline : r.line ++ [10] <+: part := by
        apply prefix_of_prefix_length_le (prefix_append _ _) h
        rw [length_append, length_singleton]
        omega
      exact absurd (hline.subset (by simp)) hmem

/-- A body line that misses its closing quote has no body. -/
theorem bodyOf_torn {b x : Bytes} (hb : 34 ∉ b) (hx : x <+: quoted b) (hne : x ≠ quoted b) :
    bodyOf x = [] := by
  rw [bodyOf, if_neg]
  rintro ⟨hlen, -, hlast⟩
  obtain ⟨y, hy⟩ := hx
  rcases eq_nil_or_concat y with rfl | ⟨y, c, rfl⟩
  · exact hne (by simpa using hy)
  · have hfront : x ++ y = 34 :: b := by
      rw [quoted, concat_eq_append, ← append_assoc, ← cons_append] at hy
      exact (append_inj' hy rfl).1
    cases x with
    | nil => simp at hlen
    | cons a x =>
      rw [cons_append, cons.injEq] at hfront
      have hxne : x ≠ [] := by
        rintro rfl
        simp at hlen
      rw [getLast?_cons_of_ne_nil hxne] at hlast
      exact hb (hfront.2 ▸ mem_append_left _ (mem_of_getLast? hlast))

/-- What is there of the lines behind a put's line. -/
theorem exists_torn_body {b w : Bytes} (n : Nat) (hb : Plain b)
    (hw : w <+: replicate n 10 ++ quoted b) (hne : w ≠ replicate n 10 ++ quoted b) :
    ∃ k x, w = replicate k 10 ++ x ∧ 10 ∉ x ∧ bodyOf x = [] := by
  induction n generalizing w with
  | zero =>
    refine ⟨0, w, rfl, ?_, bodyOf_torn hb.1 hw hne⟩
    exact fun hmem => notMem_quoted hb (hw.subset hmem)
  | succ n ih =>
    cases w with
    | nil => exact ⟨0, [], rfl, by simp, rfl⟩
    | cons c w =>
      rw [replicate_succ, cons_append, cons_prefix_cons] at hw
      obtain ⟨rfl, hw⟩ := hw
      rw [replicate_succ, cons_append] at hne
      obtain ⟨k, x, rfl, hx⟩ := ih hw fun heq => hne (by rw [heq])
      exact ⟨k + 1, x, rfl, hx⟩

theorem filter_steps_body_torn (session : GoSession) (put : Put) {x : Bytes} (hx : 10 ∉ x)
    (hbody : bodyOf x = []) (k : Nat) :
    (steps session (.body put) (textLines (replicate k 10 ++ x))).2.filter Effect.stores =
      [] := by
  rw [textLines_blank, steps_append, steps_blank]
  by_cases hnil : x = []
  · rw [hnil, textLines_nil]
    rfl
  · rw [textLines_of_notMem hx hnil, nil_append, steps_cons]
    have hstep : step session (.body put) x = (.ready, finishPut session put x) := by
      cases x with
      | nil => exact absurd rfl hnil
      | cons => rfl
    rw [hstep]
    simpa [steps] using filter_finishPut_of_torn session put hbody

/-- A torn request stores something when its line is cut behind the command `put` and before the
first digit of the size. -/
theorem filter_torn_eq_nil_iff (session : GoSession) (h : part <+: r.text) (hne : part ≠ r.text) :
    (steps session .ready (textLines part)).2.filter Effect.stores = [] ↔
      ¬(part <+: r.line ∧ r.Says part kPut ∧ ¬r.SaysSize part) := by
  by_cases hmem : 10 ∈ part
  · have hline : ¬part <+: r.line := fun hp => notMem_line (hp.subset hmem)
    cases hbody : r.body with
    | none =>
      rw [text, hbody] at h
      exact absurd h hline
    | some b =>
      simp only [text, hbody] at h hne
      obtain ⟨a, w, rfl, ha⟩ := eq_append_cons_of_mem hmem
      have hcut : a = r.line ∧ w <+: replicate r.blank 10 ++ quoted b := by
        obtain ⟨more, hmore⟩ := h
        rw [append_assoc, cons_append] at hmore
        obtain ⟨hl, hw⟩ := Text.cut_inj ha notMem_line hmore
        exact ⟨hl, more, hw⟩
      obtain ⟨rfl, hw⟩ := hcut
      obtain ⟨k, x, rfl, hx, hxbody⟩ :=
        exists_torn_body r.blank (r.body_plain b hbody) hw fun heq => hne (by rw [heq]; rfl)
      obtain ⟨put, hput⟩ := r.request_of_body session (hbody ▸ rfl)
      rw [textLines_line notMem_line, steps_cons, step_ready line_ne_nil, hput, nil_append]
      exact ⟨fun _ hp => hline hp.1, fun _ => filter_steps_body_torn session put hx hxbody k⟩
  · have hline := prefix_line_of_notMem h hmem
    by_cases hnil : part = []
    · subst hnil
      constructor
      · rintro - ⟨-, ⟨front, back, -, hsays⟩, -⟩
        exact absurd (prefix_nil.mp hsays) (by simp [opened])
      · intro _
        rw [textLines_nil]
        rfl
    · rw [textLines_of_notMem hmem hnil, steps_cons, step_ready hnil]
      have hrequest := filter_request_eq_nil_iff session part
      rw [jsonField_command_iff hline (by decide), jsonInt_bodySize_iff hline] at hrequest
      simpa [steps, hline] using hrequest

end GoRequest

/-! ## The stream -/

open GoRequest

theorem stream_cons (r : GoRequest) (rs : List GoRequest) :
    stream (r :: rs) = r.text ++ 10 :: stream rs := by
  simp [stream, lines]

theorem textLines_stream (front : List GoRequest) (part : Bytes) :
    textLines (stream front ++ part) = front.flatMap readAs ++ textLines part := by
  induction front with
  | nil => rfl
  | cons r front ih =>
    rw [stream_cons, append_assoc, cons_append, textLines_text, ih, flatMap_cons,
      append_assoc]

def Closes (rs : List GoRequest) : Prop := ∃ r ∈ rs, (kCommand, .text kClose) ∈ r.members

variable {rs : List GoRequest} {part : Bytes}

theorem steps_readAs_of_closes (session : GoSession) (h : Closes rs) :
    (steps session .ready (rs.flatMap readAs)).1 = .closed := by
  induction rs with
  | nil => obtain ⟨r, hr, -⟩ := h; exact absurd hr not_mem_nil
  | cons r rs ih =>
    rw [flatMap_cons, steps_append, steps_readAs]
    by_cases hclose : (kCommand, JsonValue.text kClose) ∈ r.members
    · rw [if_pos hclose, steps_closed]
    · rw [if_neg hclose]
      obtain ⟨q, hq, hmem⟩ := h
      rcases mem_cons.mp hq with rfl | hq
      · exact absurd hmem hclose
      · exact ih ⟨q, hq, hmem⟩

theorem steps_readAs_of_open (session : GoSession) (h : ¬Closes rs) :
    (steps session .ready (rs.flatMap readAs)).1 = .ready := by
  induction rs with
  | nil => rfl
  | cons r rs ih =>
    have hclose : (kCommand, JsonValue.text kClose) ∉ r.members :=
      fun hmem => h ⟨r, mem_cons_self, hmem⟩
    rw [flatMap_cons, steps_append, steps_readAs, if_neg hclose]
    exact ih fun ⟨q, hq, hmem⟩ => h ⟨q, mem_cons_of_mem _ hq, hmem⟩

def storedBy (session : GoSession) (rs : List GoRequest) : List Effect :=
  (steps session .ready (rs.flatMap readAs)).2.filter Effect.stores

theorem storedBy_prefix (session : GoSession) (front back : List GoRequest) :
    storedBy session front <+: storedBy session (front ++ back) := by
  rw [storedBy, storedBy, flatMap_append, steps_append, filter_append]
  exact prefix_append _ _

theorem stored_eq (session : GoSession) {input : Stream} {front : List GoRequest}
    (h : input.rest = stream front ++ part) :
    stored session input = storedBy session front ++
      (steps session (steps session .ready (front.flatMap readAs)).1 (textLines part)).2.filter
        Effect.stores := by
  rw [stored, runGoCacheProg_eq, effectsFrom, filter_append, filter_atEnd, append_nil, h,
    textLines_stream, steps_append, filter_append, storedBy]

theorem stored_stream (session : GoSession) {input : Stream}
    (h : input.rest = stream rs) : stored session input = storedBy session rs := by
  have hempty : input.rest = stream rs ++ [] := by rw [h, append_nil]
  rw [stored_eq session hempty, textLines_nil]
  exact append_nil _

def whole : List GoRequest → Bytes → List GoRequest
  | [], _ => []
  | r :: rs, p =>
    if r.text.isPrefixOf p then r :: whole rs (p.drop (r.text.length + 1)) else []

/-- Where a stream can be cut: inside a request, or behind the last whole request with or without
its newline. -/
inductive Cut (rs : List GoRequest) (p : Bytes) : Prop where
  | inside (front : List GoRequest) (r : GoRequest) (back : List GoRequest) (part : Bytes)
      (requests : rs = front ++ r :: back) (text : p = stream front ++ part)
      (torn : part <+: r.text ∧ part ≠ r.text)
  | behind (front : List GoRequest) (r : GoRequest) (back : List GoRequest)
      (requests : rs = front ++ r :: back) (text : p = stream front ++ r.text)
  | all (text : p = stream rs)

theorem cut_of_prefix {p : Bytes} (h : p <+: stream rs) : Cut rs p := by
  induction rs generalizing p with
  | nil => exact .all (prefix_nil.mp h)
  | cons r rs ih =>
    rw [stream_cons] at h
    by_cases hlen : p.length ≤ r.text.length
    · have hp := prefix_of_prefix_length_le h (prefix_append _ _) hlen
      by_cases heq : p = r.text
      · exact .behind [] r rs rfl heq
      · exact .inside [] r rs p rfl rfl ⟨hp, heq⟩
    · rw [append_cons] at h
      have hlong : r.text ++ [10] <+: p := by
        apply prefix_of_prefix_length_le (prefix_append _ _) h
        rw [length_append, length_singleton]
        omega
      obtain ⟨q, rfl⟩ := hlong
      have hq : q <+: stream rs := by
        obtain ⟨more, hmore⟩ := h
        rw [append_assoc] at hmore
        exact ⟨more, append_cancel_left hmore⟩
      have hstream : ∀ front, stream (r :: front) = r.text ++ [10] ++ stream front := by
        intro front
        rw [stream_cons, append_assoc, singleton_append]
      cases ih hq with
      | inside front r' back part hrs htext htorn =>
        apply Cut.inside (r :: front) r' back part (by rw [hrs, cons_append]) ?_ htorn
        rw [htext, hstream, ← append_assoc]
      | behind front r' back hrs htext =>
        apply Cut.behind (r :: front) r' back (by rw [hrs, cons_append])
        rw [htext, hstream, ← append_assoc]
      | all htext =>
        apply Cut.all
        rw [htext, hstream]

theorem whole_append (front back : List GoRequest) (part : Bytes) :
    whole (front ++ back) (stream front ++ part) = front ++ whole back part := by
  induction front with
  | nil => rfl
  | cons r front ih =>
    rw [cons_append, stream_cons, whole, if_pos (by simp)]
    have hdrop : (r.text ++ 10 :: stream front ++ part).drop (r.text.length + 1) =
        stream front ++ part := by
      rw [append_assoc, cons_append, drop_append,
        drop_eq_nil_of_le (Nat.le_succ _), Nat.add_sub_cancel_left]
      rfl
    rw [hdrop, ih, cons_append]

theorem whole_torn {r : GoRequest} (back : List GoRequest)
    (h : part <+: r.text ∧ part ≠ r.text) : whole (r :: back) part = [] := by
  rw [whole, if_neg]
  intro hp
  exact h.2 (h.1.eq_of_length_le (List.isPrefixOf_iff_prefix.mp hp).length_le)

theorem GoRequest.text_ne_nil (r : GoRequest) : r.text ≠ [] := by
  have := r.line_ne_nil
  rw [GoRequest.text]
  cases r.body <;> simp [this]

theorem whole_nil (rs : List GoRequest) : whole rs [] = [] := by
  cases rs with
  | nil => rfl
  | cons r rs => exact whole_torn rs ⟨List.nil_prefix, r.text_ne_nil.symm⟩

theorem whole_behind (r : GoRequest) (back : List GoRequest) : whole (r :: back) r.text = [r] := by
  rw [whole, if_pos (by simp), drop_eq_nil_of_le (Nat.le_succ _), whole_nil]

/-- The cut that poisons: inside the line of a put the program comes to, behind the command and
before the first digit of the size. -/
def PoisonedCut (rs : List GoRequest) (p : Bytes) : Prop :=
  ∃ front r back part, rs = front ++ r :: back ∧ p = stream front ++ part ∧ ¬Closes front ∧
    part <+: r.line ∧ part ≠ r.text ∧ r.Says part kPut ∧ ¬r.SaysSize part

/-- Cut a stream of requests anywhere: what the program stores is what the requests that are there
whole store, and so a front of what the whole stream stores, unless the cut is inside the line of a
put, behind its command and before the first digit of its size. -/
theorem stored_torn_iff (session : GoSession) (rs : List GoRequest) (input done full : Stream)
    (hdone : done.rest = stream (whole rs input.rest)) (hfull : full.rest = stream rs)
    (h : input.rest <+: stream rs) :
    (stored session input = stored session done ∧
      stored session input <+: stored session full) ↔ ¬PoisonedCut rs input.rest := by
  rw [stored_stream session hfull, stored_stream session hdone]
  constructor
  · rintro ⟨hwhole, -⟩ ⟨front, r, back, part, rfl, hp, hopen, hline, hne, hput, hsize⟩
    have htext : part <+: r.text := hline.trans r.line_prefix_text
    rw [hp, whole_append, whole_torn back ⟨htext, hne⟩, append_nil, stored_eq session hp,
      steps_readAs_of_open session hopen, append_right_eq_self] at hwhole
    exact (r.filter_torn_eq_nil_iff session htext hne).mp hwhole ⟨hline, hput, hsize⟩
  · intro hpoison
    suffices hwhole : stored session input = storedBy session (whole rs input.rest) ∧
        ∃ back, rs = whole rs input.rest ++ back by
      obtain ⟨hstored, back, hback⟩ := hwhole
      refine ⟨hstored, ?_⟩
      rw [hstored]
      conv_rhs => rw [hback]
      exact storedBy_prefix session _ back
    cases cut_of_prefix h with
    | inside front r back part hrs hp htorn =>
      subst hrs
      rw [hp, whole_append, whole_torn back htorn, append_nil]
      refine ⟨?_, r :: back, rfl⟩
      rw [stored_eq session hp]
      by_cases hcloses : Closes front
      · rw [steps_readAs_of_closes session hcloses, steps_closed, filter_nil, append_nil]
      · rw [steps_readAs_of_open session hcloses,
          (r.filter_torn_eq_nil_iff session htorn.1 htorn.2).mpr, append_nil]
        rintro ⟨hline, hput, hsize⟩
        exact hpoison ⟨front, r, back, part, rfl, hp, hcloses, hline, htorn.2, hput, hsize⟩
    | behind front r back hrs hp =>
      subst hrs
      rw [hp, whole_append, whole_behind]
      refine ⟨?_, back, by simp⟩
      rw [stored_eq session hp, GoRequest.textLines_text_end, storedBy, storedBy,
        flatMap_append, steps_append, filter_append, flatMap_singleton]
    | all hp =>
      have hall : whole rs (stream rs) = rs := by
        have := whole_append rs [] []
        rwa [append_nil, append_nil, whole_nil, append_nil] at this
      rw [hp, hall]
      exact ⟨stored_stream session hp, [], (append_nil _).symm⟩

/-- `{"ID":7,"Command":"put","ActionID":"YWN0","OutputID":"b3V0","BodySize":3}` and its body. -/
def putBody : GoRequest where
  members := [(kId, .number 7), (kCommand, .text kPut), (kActionId, .text (ascii "YWN0")),
    (kOutputId, .text (ascii "b3V0")), (kBodySize, .number 3)]
  blank := 0
  body := some (ascii "Ym9k")
  distinct := by decide
  plain := by decide
  command_text := by decide
  size_number := by decide
  body_plain := by
    intro b hb
    obtain rfl : ascii "Ym9k" = b := Option.some.inj hb
    decide
  body_iff := by decide

/-- The stream cut in the second body line: the first put is stored. -/
theorem stored_torn_iff_body :
    let input : Stream := ⟨stream [putBody] ++ putBody.line ++ 10 :: ascii "\"Ym9", []⟩
    let session : GoSession := ⟨true, ascii "/tmp"⟩
    input.rest <+: stream [putBody, putBody] ∧
      ((stored session input = stored session ⟨stream [putBody], []⟩ ∧
        stored session input <+: stored session ⟨stream [putBody, putBody], []⟩) ↔
          ¬PoisonedCut [putBody, putBody] input.rest) := by
  intro input session
  have h : input.rest <+: stream [putBody, putBody] := by decide +kernel
  refine ⟨h, stored_torn_iff session _ input _ ⟨stream [putBody, putBody], []⟩ ?_ ?_ h⟩
  · decide +kernel
  · exact append_nil _

/-- The stream cut behind the output id: an empty body is stored under the output's name, and the
action points to it. -/
theorem torn_put_stores_empty_body :
    let session : GoSession := ⟨true, ascii "/tmp"⟩
    let input : Stream := ⟨putBody.line.take 59, []⟩
    input.rest <+: stream [putBody] ∧ whole [putBody] input.rest = [] ∧
      stored session input =
        [.writeFile (ascii "/tmp/6f7574") [], .put (ascii "go/o/6f7574") [],
          .put (ascii "go/a/616374") (ascii "out")] ∧
      stored session ⟨stream [putBody], []⟩ =
        [.writeFile (ascii "/tmp/6f7574") (ascii "bod"), .put (ascii "go/o/6f7574") (ascii "bod"),
          .put (ascii "go/a/616374") (ascii "out")] := by
  decide +kernel

end Corepkgs.Jig.GoCache
