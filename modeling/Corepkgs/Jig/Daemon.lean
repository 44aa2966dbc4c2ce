import Mathlib
import Corepkgs.Jig.StorePath
/-!
# The connection to the Nix daemon

The words and strings of the worker protocol as `DaemonConnection` of `nix_store_mode.cc` writes
and reads them, the request of `AddToStore`, and the loops that drain the daemon's messages.  The
daemon's stream is the bytes that are still to come; what is sent is the bytes appended to `out_`.
-/

namespace Corepkgs.Jig.NixStore.Daemon

open Lib List Option
open scoped Lib.Attrs

/-! ## Words and strings -/

def writeWord (value : Nat) : Bytes :=
  (range 8).map fun i => UInt8.ofNat (value >>> (i * 8) &&& 0xff)

def padding (size : Nat) : Nat := (8 - size % 8) % 8

def writeString (text : Bytes) : Bytes :=
  writeWord text.length ++ text ++ replicate (padding text.length) 0

/-- `ReadBytes`, however the reads split the stream; at its end it has read what there was. -/
def readBytes (count : Nat) (stream : Bytes) : Option Bytes × Bytes :=
  if count ≤ stream.length then (some (stream.take count), stream.drop count) else (none, [])

def readWord (stream : Bytes) : Option Nat × Bytes :=
  match readBytes 8 stream with
  | (none, rest) => (none, rest)
  | (some bytes, rest) =>
    (some ((range 8).foldl (fun value i => value ||| (bytes.getD i 0).toNat <<< (i * 8)) 0),
      rest)

def maxString : Nat := 64 <<< 20

def readString (stream : Bytes) : Option Bytes × Bytes :=
  match readWord stream with
  | (none, rest) => (none, rest)
  | (some size, rest) =>
    if maxString < size then (none, rest)
    else
      match readBytes size rest with
      | (none, rest) => (none, rest)
      | (some text, rest) =>
        match readBytes (padding size) rest with
        | (none, rest) => (none, rest)
        | (some _, rest) => (some text, rest)

theorem writeWord_eq (value : Nat) : writeWord value = leBytes 8 value :=
  (leBytes_eq_map 8 value).symm

@[simp] theorem length_writeWord (value : Nat) : (writeWord value).length = 8 := by
  rw [writeWord_eq, length_leBytes]

variable {text : Bytes}

theorem readBytes_append {count : Nat} (h : text.length = count) (rest : Bytes) :
    readBytes count (text ++ rest) = (some text, rest) := by
  rw [readBytes, if_pos (by rw [length_append]; omega), take_left' h, drop_left' h]

theorem foldl_or (bytes : Bytes) (k : Nat) (hk : k ≤ bytes.length) :
    (range k).foldl (fun value i => value ||| (bytes.getD i 0).toNat <<< (i * 8)) 0 =
      leNat (bytes.take k) := by
  induction k with
  | zero => rfl
  | succ k ih =>
    have hlow := leNat_lt (bytes.take k)
    rw [length_take_of_le (by omega), show 256 = 2 ^ 8 by rfl, ← Nat.pow_mul,
      Nat.mul_comm] at hlow
    have hval : ∀ (low : Bytes) (b : UInt8),
        leNat (low ++ [b]) = leNat low + 2 ^ (low.length * 8) * b.toNat := by
      intro low b
      induction low with
      | nil => simp [leNat]
      | cons c low ihl =>
        rw [cons_append, leNat, ihl, leNat, length_cons,
          show (low.length + 1) * 8 = low.length * 8 + 8 by omega, Nat.pow_add]
        ring
    rw [range_succ, foldl_append, ih (by omega), foldl_cons, foldl_nil,
      Nat.or_comm, ← Nat.shiftLeft_add_eq_or_of_lt hlow, take_succ_eq_append_getElem hk, hval,
      length_take_of_le (by omega), getD_eq_getElem _ _ (by omega), Nat.shiftLeft_eq]
    ring

theorem readWord_writeWord {value : Nat} (h : value < 2 ^ 64) (rest : Bytes) :
    readWord (writeWord value ++ rest) = (some value, rest) := by
  have hword := foldl_or (writeWord value) 8 (by rw [length_writeWord])
  have hval : leNat ((writeWord value).take 8) = value := by
    rw [writeWord_eq, take_of_length_le (by rw [length_leBytes])]
    exact leNat_leBytes_of_lt h
  rw [readWord, readBytes_append (length_writeWord value)]
  dsimp only
  rw [hword, hval]

theorem readString_writeString (h : text.length ≤ maxString) (rest : Bytes) :
    readString (writeString text ++ rest) = (some text, rest) := by
  have hsize : text.length < 2 ^ 64 := lt_of_le_of_lt h (by decide)
  rw [readString, writeString, append_assoc, append_assoc, readWord_writeWord hsize]
  dsimp only
  rw [if_neg (by omega), readBytes_append rfl]
  dsimp only
  rw [readBytes_append length_replicate]

/-! ## The request of `AddToStore` -/

structure AddRequest where
  name : Bytes
  method : Bytes
  references : List Bytes
  contents : Bytes
  name_fits : name.length < 2 ^ 64
  method_fits : method.length < 2 ^ 64
  references_fit : references.length < 2 ^ 64 ∧ ∀ ref ∈ references, ref.length < 2 ^ 64
  contents_fit : contents.length < 2 ^ 64

def opAddToStore : Nat := 7

def addToStore (r : AddRequest) : Bytes :=
  let refs := r.references.insertionSort (· ≤ ·)
  writeWord opAddToStore ++ writeString r.name ++ writeString r.method ++
    writeWord refs.length ++ refs.flatMap writeString ++ writeWord 0 ++
    writeWord r.contents.length ++ r.contents ++ writeWord 0

/-! ## A reader of the protocol

What the daemon does with the bytes: strings behind their length with zeros up to the next word,
and a framed source that is read chunk by chunk up to the one of length zero. -/

structure Request where
  name : Bytes
  method : Bytes
  references : List Bytes
  repair : Nat
  contents : Bytes
  deriving DecidableEq

def daemonWord (stream : Bytes) : Option (Nat × Bytes) :=
  if 8 ≤ stream.length then some (leNat (stream.take 8), stream.drop 8) else none

def daemonString (stream : Bytes) : Option (Bytes × Bytes) := do
  let (size, rest) ← daemonWord stream
  if size ≤ rest.length ∧ (rest.drop size).take (padding size) = replicate (padding size) 0 then
    some (rest.take size, rest.drop (size + padding size))
  else none

def daemonStrings : Nat → Bytes → Option (List Bytes × Bytes)
  | 0, stream => some ([], stream)
  | count + 1, stream => do
      let (text, rest) ← daemonString stream
      let (texts, rest) ← daemonStrings count rest
      some (text :: texts, rest)

def daemonFramed : Nat → Bytes → Option (Bytes × Bytes)
  | 0, _ => none
  | fuel + 1, stream => do
      let (size, rest) ← daemonWord stream
      if size = 0 then some ([], rest)
      else if size ≤ rest.length then do
        let (contents, after) ← daemonFramed fuel (rest.drop size)
        some (rest.take size ++ contents, after)
      else none

def daemonRead (stream : Bytes) : Option (Request × Bytes) := do
  let (op, rest) ← daemonWord stream
  if op ≠ opAddToStore then none
  else do
    let (name, rest) ← daemonString rest
    let (method, rest) ← daemonString rest
    let (count, rest) ← daemonWord rest
    let (references, rest) ← daemonStrings count rest
    let (repair, rest) ← daemonWord rest
    let (contents, rest) ← daemonFramed (rest.length + 1) rest
    some (⟨name, method, references, repair, contents⟩, rest)

theorem daemonWord_writeWord {value : Nat} (h : value < 2 ^ 64) (rest : Bytes) :
    daemonWord (writeWord value ++ rest) = some (value, rest) := by
  rw [daemonWord, if_pos (by rw [length_append, length_writeWord]; omega),
    take_left' (length_writeWord value), drop_left' (length_writeWord value),
    writeWord_eq, leNat_leBytes_of_lt h]

theorem daemonString_writeString (h : text.length < 2 ^ 64) (rest : Bytes) :
    daemonString (writeString text ++ rest) = some (text, rest) := by
  have hpad : (replicate (padding text.length) (0 : UInt8)).length = padding text.length :=
    length_replicate
  have htext : (text ++ replicate (padding text.length) 0).length =
      text.length + padding text.length := by
    rw [length_append, hpad]
  rw [daemonString, writeString, append_assoc, append_assoc, daemonWord_writeWord h]
  simp only [bind_eq_bind, bind_some, take_left, drop_left,
    take_left' hpad]
  rw [if_pos ⟨by rw [length_append]; omega, trivial⟩, ← append_assoc,
    drop_left' htext]

theorem daemonStrings_flatMap {texts : List Bytes} (h : ∀ text ∈ texts, text.length < 2 ^ 64)
    (rest : Bytes) :
    daemonStrings texts.length (texts.flatMap writeString ++ rest) = some (texts, rest) := by
  induction texts with
  | nil => rfl
  | cons text texts ih =>
    rw [forall_mem_cons] at h
    rw [length_cons, daemonStrings, flatMap_cons, append_assoc,
      daemonString_writeString h.1]
    simp only [bind_eq_bind, bind_some]
    rw [ih h.2]
    rfl

/-- The frame of the contents: an empty one is over with the word that is its length. -/
theorem daemonFramed_frame {contents : Bytes} (h : contents.length < 2 ^ 64) (fuel : Nat)
    (rest : Bytes) :
    daemonFramed (fuel + 2) (writeWord contents.length ++ contents ++ writeWord 0 ++ rest) =
      some (contents, if contents = [] then writeWord 0 ++ rest else rest) := by
  rw [daemonFramed, append_assoc, append_assoc, daemonWord_writeWord h]
  simp only [bind_eq_bind, bind_some]
  by_cases hempty : contents = []
  · subst hempty
    rfl
  · have hpos := length_pos_iff.mpr hempty
    rw [if_neg (by omega), if_neg hempty, if_pos (by rw [length_append]; omega),
      drop_left, take_left, daemonFramed, daemonWord_writeWord (by omega)]
    simp

/-- The daemon reads the request, and in front of the next operation stands a word of zeros if
there are no contents. -/
theorem daemonRead_addToStore (r : AddRequest) (next : Bytes) :
    daemonRead (addToStore r ++ next) =
      some (⟨r.name, r.method, r.references.insertionSort (· ≤ ·), 0, r.contents⟩,
        if r.contents = [] then writeWord 0 ++ next else next) := by
  have hrefs : ∀ ref ∈ r.references.insertionSort (· ≤ ·), ref.length < 2 ^ 64 := by
    intro ref href
    exact r.references_fit.2 ref ((mem_insertionSort _).mp href)
  have hcount : (r.references.insertionSort (· ≤ ·)).length < 2 ^ 64 := by
    rw [length_insertionSort]
    exact r.references_fit.1
  have hfuel : ∃ fuel, (writeWord r.contents.length ++
      (r.contents ++ (writeWord 0 ++ next))).length + 1 = fuel + 2 := by
    refine ⟨7 + (r.contents ++ (writeWord 0 ++ next)).length, ?_⟩
    rw [length_append, length_writeWord]
    omega
  obtain ⟨fuel, hfuel⟩ := hfuel
  have hframe := daemonFramed_frame r.contents_fit fuel next
  rw [append_assoc, append_assoc] at hframe
  rw [daemonRead, addToStore]
  simp only [append_assoc]
  rw [daemonWord_writeWord (by decide)]
  simp only [bind_eq_bind, bind_some, ne_eq, not_true_eq_false, if_false]
  rw [daemonString_writeString r.name_fits]
  simp only [bind_some]
  rw [daemonString_writeString r.method_fits]
  simp only [bind_some]
  rw [daemonWord_writeWord hcount]
  simp only [bind_some]
  rw [daemonStrings_flatMap hrefs]
  simp only [bind_some]
  rw [daemonWord_writeWord (by decide)]
  simp only [bind_some]
  rw [hfuel, hframe]
  rfl

/-- Strings of up to 64 MiB are read back with what follows them left over; the daemon has the
values it was sent, references in some order, and goes on where the next operation starts exactly
if there are contents; and the references are in the order they were given in exactly if that was
sorted. -/
theorem addToStore_framing_iff (r : AddRequest) (next : Bytes) :
    (∀ text rest : Bytes, text.length ≤ maxString →
      readString (writeString text ++ rest) = (some text, rest)) ∧
    ((∃ refs, refs.Perm r.references ∧
        daemonRead (addToStore r ++ next) =
          some (⟨r.name, r.method, refs, 0, r.contents⟩, next)) ↔ r.contents ≠ []) ∧
    (daemonRead (addToStore r ++ next) =
        some (⟨r.name, r.method, r.references, 0, r.contents⟩, next) ↔
      r.contents ≠ [] ∧ r.references.Pairwise (· ≤ ·)) := by
  have hword : writeWord 0 ++ next ≠ next := by
    intro h
    have hlen := congrArg length h
    rw [length_append, length_writeWord] at hlen
    omega
  rw [daemonRead_addToStore]
  refine ⟨fun text rest h => readString_writeString h rest, ?_, ?_⟩
  · constructor
    · rintro ⟨refs, -, h⟩ hempty
      rw [if_pos hempty, some.injEq, Prod.mk.injEq] at h
      exact hword h.2
    · intro hne
      exact ⟨_, perm_insertionSort _ _, by rw [if_neg hne]⟩
  · constructor
    · intro h
      rw [some.injEq, Prod.mk.injEq, Request.mk.injEq] at h
      refine ⟨fun hempty => hword (by rw [if_pos hempty] at h; exact h.2), ?_⟩
      rw [← h.1.2.2.1]
      exact pairwise_insertionSort _ _
    · rintro ⟨hne, hsorted⟩
      rw [if_neg hne, hsorted.insertionSort_eq]

/-- An empty file: the daemon takes the word behind it for its next operation. -/
theorem empty_contents_desynchronise :
    daemonRead (addToStore ⟨ascii "x", ascii "text:sha256", [], [], by decide, by decide, by decide,
        by decide⟩ ++ ascii "next") =
      some (⟨ascii "x", ascii "text:sha256", [], 0, []⟩, writeWord 0 ++ ascii "next") := by
  decide +kernel

/-! ## Draining the daemon's messages -/

inductive Message where
  | next
  | last
  | error
  | startActivity
  | stopActivity
  | result
  | unexpected
  deriving DecidableEq

def message (word : Nat) : Message :=
  if word = 0x616c7473 then .last
  else if word = 0x63787470 then .error
  else if word = 0x6f6c6d67 then .next
  else if word = 0x53545254 then .startActivity
  else if word = 0x53544f50 then .stopActivity
  else if word = 0x52534c54 then .result
  else .unexpected

/-- `ReadWord();` and `ReadString();` with the result dropped. -/
def afterWord (stream : Bytes) : Bytes := (readWord stream).2

def afterString (stream : Bytes) : Bytes := (readString stream).2

/-- One logger field; a type that could not be read counts as a number. -/
def skipField (stream : Bytes) : Bytes :=
  if (readWord stream).1.getD 0 = 1 then afterString (afterWord stream)
  else afterWord (afterWord stream)

def skipFieldsLoop : Nat → Bytes → Bytes
  | 0, stream => stream
  | count + 1, stream => skipFieldsLoop count (skipField stream)

def skipFields (stream : Bytes) : Bytes :=
  skipFieldsLoop ((readWord stream).1.getD 0) (afterWord stream)

def fieldsAt : Message → Bytes → Option Bytes
  | .startActivity, stream => some (afterString (afterWord (afterWord (afterWord stream))))
  | .result, stream => some (afterWord (afterWord stream))
  | _, _ => none

/-- One iteration of `DrainStderr`: what it returns, if it does, and the rest of the stream. -/
def drainStep (stream : Bytes) : Option Bool × Bytes :=
  match readWord stream with
  | (none, rest) => (some false, rest)
  | (some word, rest) =>
    match message word with
    | .last => (some true, rest)
    | .error => (some false, afterString (afterString (afterWord (afterString rest))))
    | .next => (none, afterString rest)
    | .startActivity =>
      (none, afterWord (skipFields (afterString (afterWord (afterWord (afterWord rest))))))
    | .stopActivity => (none, afterWord rest)
    | .result => (none, skipFields (afterWord (afterWord rest)))
    | .unexpected => (some false, rest)

def drainStderr : Nat → Bytes → Option Bool × Bytes
  | 0, stream => (none, stream)
  | fuel + 1, stream =>
    match drainStep stream with
    | (some answer, rest) => (some answer, rest)
    | (none, rest) => drainStderr fuel rest

/-! ## Its loops, iteration by iteration -/

/-- What was left of the stream before and after an iteration, and whether the loop ended there. -/
structure Iteration where
  before : Nat
  after : Nat
  ends : Bool

def Iteration.Progress (it : Iteration) : Prop := it.after + 8 ≤ it.before ∨ it.ends

def fieldIterations : Nat → Bytes → List Iteration
  | 0, _ => []
  | count + 1, stream =>
    ⟨stream.length, (skipField stream).length, count = 0⟩ ::
      fieldIterations count (skipField stream)

/-- The loop of `SkipStrings`, which ends at a string that cannot be read. -/
def stringIterations : Nat → Bytes → List Iteration
  | 0, _ => []
  | count + 1, stream =>
    match readString stream with
    | (none, rest) => [⟨stream.length, rest.length, true⟩]
    | (some _, rest) => ⟨stream.length, rest.length, count = 0⟩ :: stringIterations count rest

/-- The count and the stream `SkipFields` starts its loop with, if the message has fields. -/
def fieldCalls (stream : Bytes) : List (Nat × Bytes) :=
  match readWord stream with
  | (none, _) => []
  | (some word, rest) =>
    ((fieldsAt (message word) rest).map fun s => ((readWord s).1.getD 0, afterWord s)).toList

def runCalls : Nat → Bytes → List (Nat × Bytes)
  | 0, _ => []
  | fuel + 1, stream =>
    fieldCalls stream ++
      if (drainStep stream).1 = none then runCalls fuel (drainStep stream).2 else []

/-- The iterations of a run of `DrainStderr`, those of `SkipFields` behind the one they are in. -/
def drainIterations : Nat → Bytes → List Iteration
  | 0, _ => []
  | fuel + 1, stream =>
    ⟨stream.length, (drainStep stream).2.length, (drainStep stream).1.isSome⟩ ::
      (fieldCalls stream).flatMap (fun c => fieldIterations c.1 c.2) ++
      if (drainStep stream).1 = none then drainIterations fuel (drainStep stream).2 else []

/-- Every field but the last begins where there still is a word. -/
def Enough (count : Nat) (stream : Bytes) : Prop :=
  count ≤ 1 ∨ 8 ≤ (skipFieldsLoop (count - 2) stream).length

/-! ### What the readers consume -/

variable (count : Nat)

theorem readBytes_length_le (stream : Bytes) :
    (readBytes count stream).2.length ≤ stream.length := by
  unfold readBytes
  split
  · rw [length_drop]
    omega
  · exact Nat.zero_le _

variable (stream : Bytes)

theorem readWord_snd : (readWord stream).2 = (readBytes 8 stream).2 := by
  unfold readWord
  split <;> rename_i h <;> rw [h]

theorem readWord_isSome : (readWord stream).1.isSome ↔ 8 ≤ stream.length := by
  unfold readWord readBytes
  by_cases h : 8 ≤ stream.length <;> simp [h]

theorem afterWord_length_le : (afterWord stream).length ≤ stream.length := by
  rw [afterWord, readWord_snd]
  exact readBytes_length_le 8 stream

theorem afterWord_consumes {stream : Bytes} (h : 8 ≤ stream.length) :
    (afterWord stream).length + 8 ≤ stream.length := by
  rw [afterWord, readWord_snd, readBytes, if_pos h, length_drop]
  omega

theorem afterString_le_afterWord :
    (afterString stream).length ≤ (afterWord stream).length := by
  unfold afterString afterWord readString
  rcases readWord stream with ⟨_ | size, rest⟩
  · exact le_rfl
  · dsimp only
    split
    · exact le_rfl
    · have htext := readBytes_length_le size rest
      rcases hread : readBytes size rest with ⟨_ | text, rest'⟩ <;> rw [hread] at htext
      · exact htext
      · have hpad := readBytes_length_le (padding size) rest'
        dsimp only at htext ⊢
        rcases hskip : readBytes (padding size) rest' with ⟨_ | pad, rest''⟩ <;>
          rw [hskip] at hpad <;> exact hpad.trans htext

theorem afterString_length_le : (afterString stream).length ≤ stream.length :=
  (afterString_le_afterWord stream).trans (afterWord_length_le stream)

theorem readString_consumes {stream : Bytes} (h : (readString stream).1.isSome) :
    (afterString stream).length + 8 ≤ stream.length := by
  have hword : 8 ≤ stream.length := by
    by_contra hshort
    rw [← readWord_isSome, Bool.not_eq_true, isSome_eq_false_iff, isNone_iff_eq_none]
      at hshort
    rw [readString] at h
    rcases hread : readWord stream with ⟨_ | size, rest⟩
    · rw [hread] at h
      simp at h
    · rw [hread] at hshort
      simp at hshort
  have hle := afterString_le_afterWord stream
  have hlt := afterWord_consumes hword
  omega

theorem skipField_length_le :
    (skipField stream).length ≤ (afterWord stream).length := by
  unfold skipField
  split
  · exact afterString_length_le _
  · exact afterWord_length_le _

theorem skipFieldsLoop_length_le (stream : Bytes) :
    (skipFieldsLoop count stream).length ≤ stream.length := by
  induction count generalizing stream with
  | zero => exact le_rfl
  | succ count ih =>
    calc (skipFieldsLoop (count + 1) stream).length ≤ (skipField stream).length := ih _
      _ ≤ (afterWord stream).length := skipField_length_le stream
      _ ≤ stream.length := afterWord_length_le stream

theorem skipFields_length_le : (skipFields stream).length ≤ stream.length :=
  (skipFieldsLoop_length_le _ _).trans (afterWord_length_le stream)

/-! ### The loops -/

/-- One field makes progress exactly if there is a word left. -/
theorem skipField_consumes_iff :
    (skipField stream).length + 8 ≤ stream.length ↔ 8 ≤ stream.length := by
  constructor
  · omega
  · intro h
    have hle := skipField_length_le stream
    have hlt := afterWord_consumes h
    omega

theorem fieldIterations_progress_iff (stream : Bytes) :
    (∀ it ∈ fieldIterations count stream, it.Progress) ↔ Enough count stream := by
  induction count generalizing stream with
  | zero => simp [fieldIterations, Enough]
  | succ count ih =>
    rw [fieldIterations, forall_mem_cons, ih, Iteration.Progress, skipField_consumes_iff]
    unfold Enough
    match count with
    | 0 => simp
    | 1 => simp [skipFieldsLoop]
    | count + 2 =>
      have hle := skipFieldsLoop_length_le (count + 1) stream
      simp only [Nat.add_eq_zero_iff, OfNat.ofNat_ne_zero, and_false, decide_false,
        Bool.false_eq_true, or_false, Nat.add_sub_cancel, skipFieldsLoop] at hle ⊢
      constructor
      · rintro ⟨-, h | h⟩
        · omega
        · exact .inr h
      · rintro (h | h)
        · omega
        · exact ⟨le_trans h hle, .inr h⟩

theorem stringIterations_progress (stream : Bytes) :
    ∀ it ∈ stringIterations count stream, it.Progress := by
  induction count generalizing stream with
  | zero => intro it hit; cases hit
  | succ count ih =>
    rw [stringIterations]
    rcases hread : readString stream with ⟨_ | text, rest⟩
    · intro it hit
      rw [mem_singleton.mp hit]
      exact .inr rfl
    · have hsome : (afterString stream).length + 8 ≤ stream.length :=
        readString_consumes (by rw [hread]; rfl)
      rw [afterString, hread] at hsome
      exact forall_mem_cons.mpr ⟨.inl hsome, ih rest⟩

theorem drainStep_consumes {stream : Bytes} (h : (drainStep stream).1 = none) :
    (drainStep stream).2.length + 8 ≤ stream.length := by
  have hword := readWord_isSome stream
  have hafter : (readWord stream).2 = afterWord stream := rfl
  unfold drainStep at h ⊢
  rcases hread : readWord stream with ⟨_ | word, rest⟩
  · rw [hread] at h
    simp at h
  · rw [hread] at h hword hafter
    have hlt := afterWord_consumes (hword.mp rfl)
    rw [← hafter] at hlt
    dsimp only at h hlt ⊢
    cases hm : message word with
    | next =>
      have := afterString_length_le rest
      dsimp only
      omega
    | startActivity =>
      have h1 := afterWord_length_le rest
      have h2 := afterWord_length_le (afterWord rest)
      have h3 := afterWord_length_le (afterWord (afterWord rest))
      have h4 := afterString_length_le (afterWord (afterWord (afterWord rest)))
      have h5 := skipFields_length_le (afterString (afterWord (afterWord (afterWord rest))))
      have h6 := afterWord_length_le
        (skipFields (afterString (afterWord (afterWord (afterWord rest)))))
      dsimp only
      omega
    | stopActivity =>
      have := afterWord_length_le rest
      dsimp only
      omega
    | result =>
      have h1 := afterWord_length_le rest
      have h2 := afterWord_length_le (afterWord rest)
      have h3 := skipFields_length_le (afterWord (afterWord rest))
      dsimp only
      omega
    | last | error | unexpected => rw [hm] at h; cases h

/-- `DrainStderr` comes to an end, after at most one iteration a word. -/
theorem drainStderr_ends (fuel : Nat) (stream : Bytes) (h : stream.length / 8 < fuel) :
    (drainStderr fuel stream).1 ≠ none := by
  induction fuel generalizing stream with
  | zero => omega
  | succ fuel ih =>
    rw [drainStderr]
    have hstep : (drainStep stream).1 = none → (drainStep stream).2.length + 8 ≤ stream.length :=
      drainStep_consumes
    rcases hd : drainStep stream with ⟨_ | answer, rest⟩
    · rw [hd] at hstep
      have hlt := hstep rfl
      dsimp only at hlt ⊢
      exact ih rest (by omega)
    · simp

theorem drainIterations_progress_iff (fuel : Nat) (stream : Bytes) :
    (∀ it ∈ drainIterations fuel stream, it.Progress) ↔
      ∀ c ∈ runCalls fuel stream, Enough c.1 c.2 := by
  induction fuel generalizing stream with
  | zero => simp [drainIterations, runCalls]
  | succ fuel ih =>
    have hown : Iteration.Progress ⟨stream.length, (drainStep stream).2.length,
        (drainStep stream).1.isSome⟩ := by
      rcases hd : (drainStep stream).1 with _ | answer
      · exact .inl (drainStep_consumes hd)
      · exact .inr rfl
    have hcalls : (∀ it ∈ (fieldCalls stream).flatMap fun c => fieldIterations c.1 c.2,
        it.Progress) ↔ ∀ c ∈ fieldCalls stream, Enough c.1 c.2 := by
      simp only [← fieldIterations_progress_iff, mem_flatMap]
      exact ⟨fun h c hc it hit => h it ⟨c, hc, hit⟩, fun h it ⟨c, hc, hit⟩ => h c hc it hit⟩
    rw [drainIterations, runCalls, forall_mem_append, forall_mem_append,
      forall_mem_cons, hcalls]
    by_cases hd : (drainStep stream).1 = none
    · rw [if_pos hd, if_pos hd, ih]
      exact and_congr_left' (and_iff_right hown)
    · rw [if_neg hd, if_neg hd]
      exact and_congr (and_iff_right hown) (by simp)

theorem skipFieldsLoop_consumes (stream : Bytes) (h : 8 ≤ (skipFieldsLoop count stream).length) :
    (skipFieldsLoop count stream).length + 8 * count ≤ stream.length := by
  induction count generalizing stream with
  | zero => exact le_rfl
  | succ count ih =>
    have hrest := ih (skipField stream) h
    have hle := skipFieldsLoop_length_le (count + 1) stream
    have hstep := (skipField_consumes_iff stream).mpr (h.trans hle)
    rw [skipFieldsLoop]
    omega

/-- With enough of the stream for its fields, a count is no larger than the stream can hold. -/
theorem Enough.count_le {count : Nat} {stream : Bytes} (h : Enough count stream) :
    count ≤ stream.length / 8 + 1 := by
  rcases h with h | h
  · omega
  · have hcons := skipFieldsLoop_consumes _ _ h
    omega

/-- `DrainStderr` ends on every stream; all iterations of its loops make progress exactly if each
call of `SkipFields` has a word for every field it announces but the last, in which case no count
exceeds what the stream holds; those of `SkipStrings` always do. -/
theorem drainStderr_progress_iff (stream : Bytes) :
    (drainStderr (stream.length / 8 + 1) stream).1 ≠ none ∧
    ((∀ it ∈ drainIterations (stream.length / 8 + 1) stream, it.Progress) ↔
      ∀ c ∈ runCalls (stream.length / 8 + 1) stream, Enough c.1 c.2) ∧
    (∀ count, (∀ it ∈ fieldIterations count stream, it.Progress) ↔ Enough count stream) ∧
    (∀ count, Enough count stream → count ≤ stream.length / 8 + 1) ∧
    ∀ count, ∀ it ∈ stringIterations count stream, it.Progress :=
  ⟨drainStderr_ends _ _ (Nat.lt_succ_self _), drainIterations_progress_iff _ _,
    fun count => fieldIterations_progress_iff count stream, fun _ h => h.count_le,
    fun count => stringIterations_progress count stream⟩

/-- A result with two words, and then a count with nothing behind it. -/
def announced : Bytes :=
  writeWord 0x52534c54 ++ (writeWord 1 ++ (writeWord 2 ++ (writeWord (2 ^ 63) ++ [])))

theorem skipFieldsLoop_nil : skipFieldsLoop count [] = [] :=
  eq_nil_of_length_eq_zero (Nat.le_zero.mp (skipFieldsLoop_length_le count []))

theorem length_fieldIterations (stream : Bytes) :
    (fieldIterations count stream).length = count := by
  induction count generalizing stream with
  | zero => rfl
  | succ count ih => rw [fieldIterations, length_cons, ih]

theorem runCalls_announced : runCalls (announced.length / 8 + 1) announced = [(2 ^ 63, [])] := by
  have hword : readWord announced = (some 0x52534c54, _) := readWord_writeWord (by decide) _
  have hskip : afterWord (afterWord (writeWord 1 ++ (writeWord 2 ++ (writeWord (2 ^ 63) ++ [])))) =
      writeWord (2 ^ 63) ++ [] := by
    simp only [afterWord, readWord_writeWord (show 1 < 2 ^ 64 by decide),
      readWord_writeWord (show 2 < 2 ^ 64 by decide)]
  have hcount : readWord (writeWord (2 ^ 63) ++ []) = (some (2 ^ 63), []) :=
    readWord_writeWord (by decide) []
  have hafter : afterWord (writeWord (2 ^ 63) ++ []) = [] := congrArg Prod.snd hcount
  have hcalls : fieldCalls announced = [(2 ^ 63, [])] := by
    rw [fieldCalls, hword]
    simp only [show message 0x52534c54 = .result by decide, fieldsAt, hskip, hcount, hafter,
      map_some, toList_some, getD_some]
  have hstep : drainStep announced = (none, []) := by
    rw [drainStep, hword]
    simp only [show message 0x52534c54 = .result by decide, hskip, skipFields, hafter,
      skipFieldsLoop_nil]
  rw [show announced.length / 8 + 1 = 3 + 1 + 1 by decide, runCalls, hcalls, hstep, if_pos rfl]
  rfl

/-- The stream has ended and 2^63 fields are still to be skipped, one iteration each. -/
theorem announced_fields_spin :
    (¬ ∀ it ∈ drainIterations (announced.length / 8 + 1) announced, it.Progress) ∧
      runCalls (announced.length / 8 + 1) announced = [(2 ^ 63, [])] ∧
      (fieldIterations (2 ^ 63) []).length = 2 ^ 63 := by
  refine ⟨?_, runCalls_announced, length_fieldIterations _ _⟩
  rw [drainIterations_progress_iff, runCalls_announced, forall_mem_singleton, Enough,
    skipFieldsLoop_nil]
  decide

end Corepkgs.Jig.NixStore.Daemon
