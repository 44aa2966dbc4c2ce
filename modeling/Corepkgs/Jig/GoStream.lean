import Corepkgs.Jig.GoCache
/-!
# Requests of `go build`

`go build` sends flat JSON objects without escapes, one a line.  The program
scans a line for the members it needs and asks for no closing brace, so that
this module says what it reads off the front of a line as well.
-/

namespace Corepkgs.Jig.GoCache

open Lib Lib.Text List

/-! ## Requests -/

/-- No quote and no newline: what a JSON string holds between its quotes. -/
def Plain (text : Bytes) : Prop := 34 ∉ text ∧ 10 ∉ text

instance (text : Bytes) : Decidable (Plain text) := inferInstanceAs (Decidable (_ ∧ _))

inductive JsonValue where
  | number (n : Nat)
  | text (t : Bytes)
  deriving DecidableEq

namespace JsonValue

def render : JsonValue → Bytes
  | number n => decimal n
  | text t => 34 :: (t ++ [34])

def Plain : JsonValue → Prop
  | number _ => True
  | text t => GoCache.Plain t

def isText : JsonValue → Bool
  | number _ => false
  | text _ => true

def isSize : JsonValue → Bool
  | number n => 0 < n && n < 2 ^ 63
  | text _ => false

instance (v : JsonValue) : Decidable v.Plain :=
  match v with
  | number _ => inferInstanceAs (Decidable True)
  | text t => inferInstanceAs (Decidable (GoCache.Plain t))

end JsonValue

abbrev Member := Bytes × JsonValue

def member (m : Member) : Bytes := pattern m.1 ++ m.2.render

def opened (front : List Member) : Bytes := 123 :: front.flatMap fun m => member m ++ [44]

def closing : List Member → Bytes
  | [] => [125]
  | m :: back => 44 :: (member m ++ closing back)

def object : List Member → Bytes
  | [] => [123, 125]
  | m :: ms => 123 :: (member m ++ closing ms)

theorem object_eq (front : List Member) (m : Member) (back : List Member) :
    object (front ++ m :: back) = opened front ++ (member m ++ closing back) := by
  have hclosing : ∀ (front : List Member) (n : Member),
      member n ++ closing (front ++ m :: back) =
        (n :: front).flatMap (fun m => member m ++ [44]) ++ (member m ++ closing back) := by
    intro front
    induction front with
    | nil => intro n; simp [closing]
    | cons f front ih =>
      intro n
      rw [cons_append, closing, ih f]
      simp
  cases front with
  | nil => rfl
  | cons n front => rw [cons_append, object, hclosing, opened, cons_append]

/-- A request as `go build` writes it: an object with the members in any order, and the body of a
put that has one, in base64, on a line of its own. -/
structure GoRequest where
  members : List Member
  /-- Blank lines before the body. -/
  blank : Nat
  body : Option Bytes
  distinct : (members.map Prod.fst).Nodup
  plain : ∀ m ∈ members, Plain m.1 ∧ m.2.Plain
  command_text : ∀ m ∈ members, m.1 = kCommand → m.2.isText
  size_number : ∀ m ∈ members, m.1 = kBodySize → m.2.isSize
  body_plain : ∀ b ∈ body, Plain b
  body_iff : body.isSome ↔ (kCommand, .text kPut) ∈ members ∧ kBodySize ∈ members.map Prod.fst

namespace GoRequest

variable (r : GoRequest)

def line : Bytes := object r.members

def text : Bytes :=
  match r.body with
  | none => r.line
  | some b => r.line ++ 10 :: (replicate r.blank 10 ++ 34 :: (b ++ [34]))

def Says (part t : Bytes) : Prop :=
  ∃ front back, r.members = front ++ (kCommand, .text t) :: back ∧
    opened front ++ member (kCommand, .text t) <+: part

def SaysSize (part : Bytes) : Prop :=
  ∃ front n back d digits, r.members = front ++ (kBodySize, .number n) :: back ∧
    decimal n = d :: digits ∧ opened front ++ pattern kBodySize ++ [d] <+: part

end GoRequest

def stream (rs : List GoRequest) : Bytes := lines 10 (rs.map GoRequest.text)

/-! ## Finding a member -/

/-- What the program looks for: no punctuation of JSON in front. -/
def Word (key : Bytes) : Prop :=
  34 ∉ key ∧ key ≠ [] ∧ key.head? ∉ [some 58, some 44, some 125]

instance (key : Bytes) : Decidable (Word key) := inferInstanceAs (Decidable (_ ∧ _ ∧ _))

section

variable {key : Bytes}

theorem afterFirst_plain {front : Bytes} (h : 34 ∉ front) (rest : Bytes) :
    afterFirst (pattern key) (front ++ rest) = afterFirst (pattern key) rest :=
  afterFirst_skip _ h rest

variable {rest : Bytes}

theorem afterFirst_quote (h : ¬key ++ [34, 58] <+: rest) :
    afterFirst (pattern key) (34 :: rest) = afterFirst (pattern key) rest :=
  afterFirst_cons fun hpre => h (cons_prefix_cons.mp hpre).2

variable (hkey : Word key)
include hkey

theorem Word.not_prefix {sep : UInt8} (hsep : sep = 58 ∨ sep = 44 ∨ sep = 125) (rest : Bytes) :
    ¬key ++ [34, 58] <+: sep :: rest := by
  rintro ⟨w, hw⟩
  cases key with
  | nil => exact hkey.2.1 rfl
  | cons c key =>
    rw [cons_append, cons_append, cons.injEq] at hw
    have hhead := hkey.2.2
    rw [head?_cons, hw.1] at hhead
    rcases hsep with rfl | rfl | rfl <;> exact hhead (by decide)

variable {v : JsonValue}

/-- The search passes a value: behind a string comes no colon. -/
theorem afterFirst_value (hv : v.Plain) {sep : UInt8} (hsep : sep = 44 ∨ sep = 125) (rest : Bytes) :
    afterFirst (pattern key) (v.render ++ sep :: rest) = afterFirst (pattern key) rest := by
  have hquote : 34 ∉ [sep] := by rcases hsep with rfl | rfl <;> decide
  have hlast : afterFirst (pattern key) (sep :: rest) = afterFirst (pattern key) rest :=
    afterFirst_plain hquote rest
  cases v with
  | number n =>
    have hdigits : 34 ∉ decimal n := fun h =>
      absurd (isDigit_of_mem_numeral (by decide) (by decide) h) (by decide)
    rw [JsonValue.render, afterFirst_plain hdigits, hlast]
  | text t =>
    have hopen : ¬key ++ [34, 58] <+: t ++ 34 :: sep :: rest := by
      rintro ⟨w, hw⟩
      rw [append_assoc] at hw
      have hcut : 58 :: w = sep :: rest := (Text.cut_inj hkey.1 hv.1 hw).2
      rw [cons.injEq] at hcut
      rcases hsep with rfl | rfl <;> exact absurd hcut.1 (by decide)
    have hrender : (JsonValue.text t).render ++ sep :: rest = 34 :: (t ++ 34 :: sep :: rest) := by
      simp [JsonValue.render]
    rw [hrender, afterFirst_quote hopen, afterFirst_plain hv.1,
      afterFirst_quote (hkey.not_prefix (.inr hsep) rest), hlast]

variable {m : Member}

theorem afterFirst_member (hm : Plain m.1 ∧ m.2.Plain) (hne : m.1 ≠ key)
    {sep : UInt8} (hsep : sep = 44 ∨ sep = 125) (rest : Bytes) :
    afterFirst (pattern key) (member m ++ sep :: rest) = afterFirst (pattern key) rest := by
  have hopen : ¬key ++ [34, 58] <+: m.1 ++ 34 :: 58 :: (m.2.render ++ sep :: rest) := by
    rintro ⟨w, hw⟩
    rw [append_assoc] at hw
    exact hne (Text.cut_inj hkey.1 hm.1.1 hw).1.symm
  have hcolon : (34 : UInt8) ∉ [58] := by decide
  calc afterFirst (pattern key) (member m ++ sep :: rest)
      = afterFirst (pattern key) (34 :: (m.1 ++ 34 :: 58 :: (m.2.render ++ sep :: rest))) := by
        simp [member, pattern]
    _ = afterFirst (pattern key) (34 :: 58 :: (m.2.render ++ sep :: rest)) := by
        rw [afterFirst_quote hopen, afterFirst_plain hm.1.1]
    _ = afterFirst (pattern key) ([58] ++ (m.2.render ++ sep :: rest)) :=
        afterFirst_quote (hkey.not_prefix (.inl rfl) _)
    _ = afterFirst (pattern key) rest := by
        rw [afterFirst_plain hcolon, afterFirst_value hkey hm.2 hsep]

theorem afterFirst_opened {front : List Member} (hfront : ∀ m ∈ front, Plain m.1 ∧ m.2.Plain)
    (hne : ∀ m ∈ front, m.1 ≠ key) (rest : Bytes) :
    afterFirst (pattern key) (opened front ++ (pattern key ++ rest)) = some rest := by
  have hmembers : ∀ rest', afterFirst (pattern key)
      (front.flatMap (fun m => member m ++ [44]) ++ rest') = afterFirst (pattern key) rest' := by
    intro rest'
    induction front with
    | nil => rfl
    | cons m front ih =>
      rw [flatMap_cons, append_assoc, append_assoc, singleton_append,
        afterFirst_member hkey (hfront m mem_cons_self) (hne m mem_cons_self)
          (.inl rfl)]
      exact ih (fun m hm => hfront m (mem_cons_of_mem _ hm))
        (fun m hm => hne m (mem_cons_of_mem _ hm))
  have hbrace : (34 : UInt8) ∉ [123] := by decide
  calc afterFirst (pattern key) (opened front ++ (pattern key ++ rest))
      = afterFirst (pattern key)
          ([123] ++ (front.flatMap (fun m => member m ++ [44]) ++ (pattern key ++ rest))) := rfl
    _ = some rest := by rw [afterFirst_plain hbrace, hmembers, afterFirst_prefix]

theorem afterFirst_closing {ms : List Member}
    (hms : ∀ n ∈ m :: ms, Plain n.1 ∧ n.2.Plain) (hne : ∀ n ∈ m :: ms, n.1 ≠ key) :
    afterFirst (pattern key) (member m ++ closing ms) = none := by
  induction ms generalizing m with
  | nil =>
    rw [closing, afterFirst_member hkey (hms m mem_cons_self) (hne m mem_cons_self)
      (.inr rfl)]
    rfl
  | cons n ms ih =>
    rw [closing, afterFirst_member hkey (hms m mem_cons_self) (hne m mem_cons_self)
      (.inl rfl)]
    exact ih (fun n hn => hms n (mem_cons_of_mem _ hn))
      (fun n hn => hne n (mem_cons_of_mem _ hn))

theorem afterFirst_object {ms : List Member} (hms : ∀ m ∈ ms, Plain m.1 ∧ m.2.Plain)
    (hne : ∀ m ∈ ms, m.1 ≠ key) : afterFirst (pattern key) (object ms) = none := by
  cases ms with
  | nil => exact afterFirst_plain (show (34 : UInt8) ∉ [123, 125] by decide) []
  | cons m ms =>
    exact (afterFirst_plain (show (34 : UInt8) ∉ [123] by decide) _).trans
      (afterFirst_closing hkey hms hne)

end

namespace GoRequest

variable {r : GoRequest}

theorem command {v : JsonValue} (h : (kCommand, v) ∈ r.members) : ∃ t, v = .text t := by
  cases v with
  | number n => exact absurd (r.command_text _ h rfl) (by simp [JsonValue.isText])
  | text t => exact ⟨t, rfl⟩

theorem size {v : JsonValue} (h : (kBodySize, v) ∈ r.members) :
    ∃ n, v = .number n ∧ 0 < n ∧ n < 2 ^ 63 := by
  cases v with
  | number n => exact ⟨n, rfl, by simpa [JsonValue.isSize] using r.size_number _ h rfl⟩
  | text t => exact absurd (r.size_number _ h rfl) (by simp [JsonValue.isSize])

variable {key part line t t' rest : Bytes} {v : JsonValue} {n : Int}

/-- The member at a place is what the program reads there. -/
theorem afterFirst_of_member {front back : List Member} (hkey : Word key)
    (hmembers : r.members = front ++ (key, v) :: back) (rest : Bytes) :
    afterFirst (pattern key) (opened front ++ (pattern key ++ rest)) = some rest := by
  apply afterFirst_opened hkey (fun m hm => r.plain m (hmembers ▸ mem_append_left _ hm))
  intro m hm heq
  have hdistinct := r.distinct
  rw [hmembers, map_append, map_cons, nodup_append] at hdistinct
  exact hdistinct.2.2 m.1 (mem_map_of_mem hm) key mem_cons_self heq

/-- What is found in the front of a request line is a member of the request. -/
theorem found {more : Bytes} (hkey : Word key) (hpart : part ++ more = r.line)
    (h : afterFirst (pattern key) part = some rest) :
    ∃ front v back, r.members = front ++ (key, v) :: back ∧
      part = opened front ++ (pattern key ++ rest) ∧ rest ++ more = v.render ++ closing back := by
  have hline := afterFirst_append h more
  rw [hpart, line] at hline
  by_cases hmem : ∃ v, (key, v) ∈ r.members
  · obtain ⟨v, hv⟩ := hmem
    obtain ⟨front, back, hmembers⟩ := append_of_mem hv
    have hobject : r.line = opened front ++ (pattern key ++ (v.render ++ closing back)) := by
      rw [line, hmembers, object_eq, member, append_assoc]
    have hrest : rest ++ more = v.render ++ closing back := by
      have hfound := afterFirst_of_member hkey hmembers (v.render ++ closing back)
      rw [← hobject, line, hline] at hfound
      exact Option.some.inj hfound
    refine ⟨front, v, back, hmembers, ?_, hrest⟩
    rw [← hrest, ← hpart, ← append_assoc, ← append_assoc] at hobject
    rw [← append_assoc]
    exact append_cancel_right hobject
  · rw [afterFirst_object hkey r.plain
      (fun m hm heq => hmem ⟨m.2, by rw [← heq]; exact hm⟩)] at hline
    exact absurd hline (by simp)

theorem jsonField_text (ht : 34 ∉ t)
    (h : afterFirst (pattern key) line = some (34 :: (t ++ 34 :: rest))) :
    jsonField line key = t := by
  rw [jsonField, h]
  show (if 34 ∈ t ++ 34 :: rest then (t ++ 34 :: rest).takeWhile (· ≠ 34) else []) = t
  rw [if_pos (by simp), Stream.takeWhile_cut ht]

/-- The program reads a command off the front of a request line when its member is there whole. -/
theorem jsonField_command_iff (hpart : part <+: r.line) (ht : t ≠ []) :
    jsonField part kCommand = t ↔ r.Says part t := by
  have hword : Word kCommand := by decide
  obtain ⟨more, hmore⟩ := hpart
  constructor
  · intro h
    cases hfound : afterFirst (pattern kCommand) part with
    | none =>
      rw [jsonField, hfound] at h
      exact absurd h.symm ht
    | some rest =>
      obtain ⟨front, v, back, hmembers, rfl, hrest⟩ := found hword hmore hfound
      obtain ⟨t', rfl⟩ := r.command (v := v) (by rw [hmembers]; simp)
      have hplain := (r.plain _ (by rw [hmembers]; simp : (kCommand, .text t') ∈ r.members)).2.1
      rw [JsonValue.render, cons_append, append_assoc, singleton_append] at hrest
      cases rest with
      | nil =>
        rw [jsonField, hfound] at h
        exact absurd h.symm ht
      | cons c rest =>
        rw [cons_append, cons.injEq] at hrest
        obtain ⟨rfl, hrest⟩ := hrest
        by_cases hquote : 34 ∈ rest
        · obtain ⟨a, b, rfl, ha⟩ := eq_append_cons_of_mem hquote
          rw [append_assoc, cons_append] at hrest
          obtain ⟨rfl, -⟩ := Text.cut_inj ha hplain hrest
          rw [jsonField_text ha hfound] at h
          subst h
          exact ⟨front, back, hmembers, b, by simp [member, JsonValue.render]⟩
        · rw [jsonField, hfound] at h
          have h : (if 34 ∈ rest then rest.takeWhile (· ≠ 34) else []) = t := h
          rw [if_neg hquote] at h
          exact absurd h.symm ht
  · rintro ⟨front, back, hmembers, z, rfl⟩
    have hplain := (r.plain _ (by rw [hmembers]; simp : (kCommand, .text t) ∈ r.members)).2.1
    apply jsonField_text hplain
    have hfound := r.afterFirst_of_member hword hmembers (34 :: (t ++ 34 :: z))
    rw [← hfound]
    simp [member, JsonValue.render]

theorem takeWhile_number {n : Nat} {more : Bytes} {back : List Member}
    (h : part ++ more = decimal n ++ closing back) :
    part.takeWhile (fun b => b ≠ 44 && b ≠ 125) = (decimal n).take part.length := by
  have hdigits : ∀ b ∈ decimal n, (b ≠ 44 && b ≠ 125) = true := by
    intro b hb
    have hdigit := isDigit_of_mem_numeral (by decide) (by decide) hb
    have h44 : b ≠ 44 := by
      rintro rfl
      exact absurd hdigit (by decide)
    have h125 : b ≠ 125 := by
      rintro rfl
      exact absurd hdigit (by decide)
    simp [h44, h125]
  have hpart : part = (decimal n).take part.length ++
      (closing back).take (part.length - (decimal n).length) := by
    rw [← take_append, ← h, take_left]
  have hstop : ((closing back).take (part.length - (decimal n).length)).takeWhile
      (fun b => b ≠ 44 && b ≠ 125) = [] := by
    cases part.length - (decimal n).length with
    | zero => rfl
    | succ k =>
      cases back with
      | nil | cons _ _ => rfl
  conv_lhs => rw [hpart]
  rw [takeWhile_append_of_pos (fun b hb => hdigits b (mem_of_mem_take hb)), hstop,
    append_nil]

theorem jsonField_number {d : UInt8} (hd : d ≠ 34)
    (h : afterFirst (pattern key) line = some (d :: rest)) :
    jsonField line key = (d :: rest).takeWhile fun b => b ≠ 44 && b ≠ 125 := by
  rw [jsonField, h]
  split
  · contradiction
  · next heq => exact absurd (cons.inj (Option.some.inj heq)).1 hd
  · next heq => rw [Option.some.inj heq]

theorem jsonInt_digits {n k : Nat} (hpos : 0 < n) (hlt : n < 2 ^ 63)
    (h : jsonField line key = (decimal n).take (k + 1)) : 0 < jsonInt line key := by
  obtain ⟨hvalue, hle⟩ := digitsValue_take_numeral (show 1 < 10 by decide) (Nat.le_refl 10) hpos
    (Nat.succ_pos k)
  have hnil : decimal n ≠ [] := numeral_ne_nil (show 1 < 10 by decide) (Nat.le_refl 10) n
  have hne : (decimal n).take (k + 1) ≠ [] := by simpa using hnil
  have hparse : parseUint 10 ((decimal n).take (k + 1)) =
      some (digitsValue 10 ((decimal n).take (k + 1))) := by
    apply parseUint_digits hne
    · intro b hb
      exact isDigit_of_mem_numeral (by decide) (by decide) (mem_of_mem_take hb)
    · exact lt_of_le_of_lt hle (by omega)
  have hsmall : digitsValue 10 ((decimal n).take (k + 1)) < 2 ^ 63 := lt_of_le_of_lt hle hlt
  simp only [jsonInt, h, hparse, Option.getD_some, if_pos hsmall]
  exact Int.natCast_pos.mpr hvalue

/-- The program reads a size off the front of a request line when a digit of it is there. -/
theorem jsonInt_bodySize_iff (hpart : part <+: r.line) :
    0 < jsonInt part kBodySize ↔ r.SaysSize part := by
  have hword : Word kBodySize := by decide
  have hnone : ¬0 < jsonInt [] kBodySize := by decide
  obtain ⟨more, hmore⟩ := hpart
  constructor
  · intro h
    cases hfound : afterFirst (pattern kBodySize) part with
    | none =>
      rw [jsonInt, jsonField, hfound] at h
      exact absurd h hnone
    | some rest =>
      obtain ⟨front, v, back, hmembers, rfl, hrest⟩ := found hword hmore hfound
      obtain ⟨n, rfl, -⟩ := r.size (v := v) (by rw [hmembers]; simp)
      cases rest with
      | nil =>
        rw [jsonInt, jsonField, hfound] at h
        exact absurd h hnone
      | cons d rest =>
        cases hdigits : decimal n with
        | nil => exact absurd hdigits (numeral_ne_nil (by decide) (by decide) n)
        | cons d' digits =>
          rw [JsonValue.render, hdigits, cons_append, cons_append,
            cons.injEq] at hrest
          rw [← hrest.1] at hdigits
          exact ⟨front, n, back, d, digits, hmembers, hdigits, rest, by simp⟩
  · rintro ⟨front, n, back, d, digits, hmembers, hdigits, z, rfl⟩
    obtain ⟨n', hn', hpos, hlt⟩ := r.size (v := .number n) (by rw [hmembers]; simp)
    obtain rfl : n = n' := JsonValue.number.inj hn'
    have hfound : afterFirst (pattern kBodySize) (opened front ++ pattern kBodySize ++ [d] ++ z) =
        some (d :: z) := by
      rw [← r.afterFirst_of_member hword hmembers (d :: z)]
      simp
    have hrest : (d :: z) ++ more = decimal n ++ closing back := by
      rw [line, hmembers, object_eq, member] at hmore
      simpa [JsonValue.render] using hmore
    have hd : d ∈ decimal n := hdigits ▸ mem_cons_self
    have hquote : d ≠ 34 := by
      rintro rfl
      exact absurd (isDigit_of_mem_numeral (by decide) (by decide) hd) (by decide)
    apply jsonInt_digits hpos hlt
    rw [jsonField_number hquote hfound, takeWhile_number hrest]
    rfl

/-! ## One request -/

theorem says_line_iff : r.Says r.line t ↔ (kCommand, .text t) ∈ r.members := by
  constructor
  · rintro ⟨front, back, hmembers, -⟩
    rw [hmembers]
    exact mem_append_right _ mem_cons_self
  · intro h
    obtain ⟨front, back, hmembers⟩ := append_of_mem h
    refine ⟨front, back, hmembers, closing back, ?_⟩
    rw [line, hmembers, object_eq, append_assoc]

theorem saysSize_line_iff : r.SaysSize r.line ↔ kBodySize ∈ r.members.map Prod.fst := by
  constructor
  · rintro ⟨front, n, back, d, digits, hmembers, -⟩
    rw [hmembers, map_append]
    exact mem_append_right _ mem_cons_self
  · intro hmem
    obtain ⟨⟨_, v⟩, hv, rfl⟩ := mem_map.mp hmem
    obtain ⟨front, back, hmembers⟩ := append_of_mem hv
    obtain ⟨n, rfl, -⟩ := r.size hv
    cases hdigits : decimal n with
    | nil => exact absurd hdigits (numeral_ne_nil (by decide) (by decide) n)
    | cons d digits =>
      refine ⟨front, n, back, d, digits, hmembers, hdigits, digits ++ closing back, ?_⟩
      rw [line, hmembers, object_eq, member, JsonValue.render, hdigits]
      simp

theorem command_unique {t' : Bytes} (h : (kCommand, .text t) ∈ r.members)
    (h' : (kCommand, .text t') ∈ r.members) : t = t' := by
  have hinj := inj_on_of_nodup_map r.distinct h h' rfl
  exact JsonValue.text.inj (Prod.mk.inj hinj).2

theorem notMem_member {m : Member} (h : Plain m.1 ∧ m.2.Plain) : 10 ∉ member m := by
  have hvalue : 10 ∉ m.2.render := by
    cases hv : m.2 with
    | number n =>
      intro hmem
      exact absurd (isDigit_of_mem_numeral (by decide) (by decide) hmem) (by decide)
    | text t =>
      have ht : 10 ∉ t := by
        have := h.2
        rw [hv] at this
        exact this.2
      simp [JsonValue.render, ht]
  simp [member, pattern, h.1.2, hvalue]

theorem notMem_line : 10 ∉ r.line := by
  have hclosing : ∀ ms : List Member, (∀ m ∈ ms, Plain m.1 ∧ m.2.Plain) → 10 ∉ closing ms := by
    intro ms
    induction ms with
    | nil => intro _; decide
    | cons m ms ih =>
      intro h
      have hm := notMem_member (h m mem_cons_self)
      have hms := ih fun n hn => h n (mem_cons_of_mem _ hn)
      simp [closing, hm, hms]
  rw [line]
  cases hms : r.members with
  | nil => decide
  | cons m ms =>
    have hplain := r.plain
    rw [hms] at hplain
    have hm := notMem_member (hplain m mem_cons_self)
    have hrest := hclosing ms fun n hn => hplain n (mem_cons_of_mem _ hn)
    simp [object, hm, hrest]

theorem line_ne_nil : r.line ≠ [] := by
  rw [line]
  cases r.members with
  | nil | cons _ _ => exact cons_ne_nil _ _

def quoted (b : Bytes) : Bytes := 34 :: (b ++ [34])

def readAs (r : GoRequest) : List Bytes :=
  r.line :: match r.body with
    | none => []
    | some b => replicate r.blank [] ++ [quoted b]

theorem textLines_blank (n : Nat) (rest : Bytes) :
    textLines (replicate n 10 ++ rest) = replicate n [] ++ textLines rest := by
  induction n with
  | zero => rfl
  | succ n ih =>
    have hline := textLines_line (l := []) (by simp) (replicate n 10 ++ rest)
    rw [replicate_succ, replicate_succ, cons_append, cons_append, ← ih]
    exact hline

theorem notMem_quoted {b : Bytes} (h : Plain b) : 10 ∉ quoted b := by
  simp [quoted, h.2]

theorem textLines_text (rest : Bytes) :
    textLines (r.text ++ 10 :: rest) = r.readAs ++ textLines rest := by
  cases hbody : r.body with
  | none => rw [text, readAs, hbody, textLines_line notMem_line]; rfl
  | some b =>
    have hquoted := notMem_quoted (r.body_plain b hbody)
    simp only [text, readAs, hbody]
    rw [append_assoc, cons_append, textLines_line notMem_line, append_assoc,
      textLines_blank]
    have hlast := textLines_line hquoted rest
    simp only [quoted, cons_append, append_assoc] at hlast ⊢
    rw [hlast]
    simp

/-- The newline that ends the last request may be missing. -/
theorem textLines_text_end : textLines r.text = r.readAs := by
  cases hbody : r.body with
  | none => rw [text, readAs, hbody, textLines_of_notMem notMem_line line_ne_nil]
  | some b =>
    have hquoted := notMem_quoted (r.body_plain b hbody)
    simp only [text, readAs, hbody]
    rw [textLines_line notMem_line, textLines_blank, ← quoted,
      textLines_of_notMem hquoted (cons_ne_nil _ _)]

theorem step_ready {session : GoSession} (h : line ≠ []) :
    step session .ready line = request session line := by
  cases line with
  | nil => exact absurd rfl h
  | cons => rfl

/-- The line of a put with a body leaves the program waiting for it. -/
theorem request_of_body (session : GoSession) (hbody : r.body.isSome) :
    ∃ put, request session r.line = (.body put, []) := by
  obtain ⟨hput, hsize⟩ := r.body_iff.mp hbody
  have hcommand := (jsonField_command_iff (prefix_refl _) (by decide)).mpr
    (says_line_iff.mpr hput)
  have hsized := (jsonInt_bodySize_iff (prefix_refl _)).mpr (saysSize_line_iff.mpr hsize)
  have hclose : kPut ≠ kClose := by decide
  have hget : kPut ≠ kGet := by decide
  simp only [request, hcommand, if_neg hclose, if_neg hget, dif_pos hsized]
  exact ⟨_, rfl⟩

/-- After a whole request the program is ready for the next one, or has been told to close. -/
theorem steps_readAs (session : GoSession) (r : GoRequest) :
    (steps session .ready r.readAs).1 =
      if (kCommand, .text kClose) ∈ r.members then .closed else .ready := by
  have hcommand : ∀ {t}, t ≠ [] →
    (jsonField r.line kCommand = t ↔ (kCommand, .text t) ∈ r.members) :=
    fun ht => (jsonField_command_iff (prefix_refl _) ht).trans says_line_iff
  cases hbody : r.body with
  | none =>
    have hnobody : ¬r.body.isSome := by rw [hbody]; decide
    rw [r.body_iff] at hnobody
    have hsize := (jsonInt_bodySize_iff (prefix_refl r.line)).trans saysSize_line_iff
    rw [readAs, hbody, steps_cons, step_ready line_ne_nil, request]
    have hclose := hcommand (show kClose ≠ [] by decide)
    have hput := hcommand (show kPut ≠ [] by decide)
    simp only [steps]
    split_ifs <;> simp_all
  | some b =>
    obtain ⟨put, hput⟩ := r.request_of_body session (hbody ▸ rfl)
    have hclose : (kCommand, JsonValue.text kClose) ∉ r.members := by
      intro hmem
      have := command_unique hmem (r.body_iff.mp (hbody ▸ rfl)).1
      exact absurd this (by decide)
    rw [readAs, hbody, steps_cons, step_ready line_ne_nil, hput, if_neg hclose]
    show (steps session (.body put) (replicate r.blank [] ++ [quoted b])).1 = .ready
    rw [steps_append, steps_blank]
    rfl

end GoRequest

end Corepkgs.Jig.GoCache
