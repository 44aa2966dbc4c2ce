import Corepkgs.Jig.CcMode
import Corepkgs.Jig.Manifest
import Corepkgs.Lib.Swap
/-!
# Storing a compile and replaying it

`CompileAndStore` and `Lookup` of `cc_mode.cc`.  A compile is stored in up to
four slots besides its manifest, each with a key of its own, and the daemon
drops slots as it likes.  The daemon is what it answers: a value or nothing for
every key.
-/

namespace Corepkgs.Jig

open Lib List Option Text

/-! ## Slots -/

/-- What is kept of a compile, each in a slot of its own. -/
inductive Part where
  | manifest
  | object
  | stderr
  | depfile
  | exitStatus
  deriving DecidableEq

namespace Slot

/-- The letter before the slash of a slot's key. -/
def letter : Part → UInt8
  | .manifest => 109
  | .object => 111
  | .stderr => 101
  | .depfile => 100
  | .exitStatus => 114

def of (part : Part) (key : Bytes) : Bytes := letter part :: 47 :: key

abbrev manifest (requestKey : Bytes) : Bytes := of .manifest requestKey
abbrev object (resultKey : Bytes) : Bytes := of .object resultKey
abbrev stderr (resultKey : Bytes) : Bytes := of .stderr resultKey
abbrev depfile (resultKey : Bytes) : Bytes := of .depfile resultKey
abbrev exitStatus (resultKey : Bytes) : Bytes := of .exitStatus resultKey

@[simp] theorem of_inj {part part' : Part} {key key' : Bytes} :
    of part key = of part' key' ↔ part = part' ∧ key = key' := by
  have hletter : letter part = letter part' ↔ part = part' := by
    cases part <;> cases part' <;> decide
  simp [of, hletter]

end Slot

abbrev Cache := Bytes → Option Bytes

/-! ## Storing -/

/-- What `RunObserved` and the read of the output return. -/
structure Observed where
  status : Nat
  stderrText : Bytes
  depText : Option Bytes
  linkDepText : Option Bytes
  inputs : List Bytes
  absent : List Bytes
  /-- `ReadFile(inv.output)` -/
  object : Option Bytes

/-- A killed or crashed compiler says nothing about the inputs. -/
def Observed.deterministic (obs : Observed) : Bool :=
  decide (obs.status < 128) && !containsText "unable to execute command" obs.stderrText &&
    !containsText "PLEASE submit a bug report" obs.stderrText

namespace Build

variable {dir : Bytes} (blake3 : Bytes → Bytes)

variable (b : Build dir)

def maskForReplay (text : Bytes) : Bytes :=
  if b.store.byContent then maskHashes dir text else text

/-- The puts of `CompileAndStore`. -/
def compileAndStore (requestKey : Bytes) (inv : Invocation) (obs : Observed) :
    List (Bytes × Bytes) :=
  let links := inv.linkOne || inv.link
  let manifest := b.buildManifest blake3 requestKey obs.inputs inv.source obs.absent
  if obs.status ≠ 0 then
    if obs.depText = none ∨ links ∨ containsText "file not found" obs.stderrText ∨
        ¬obs.deterministic then []
    else
      [(Slot.manifest requestKey, manifest.text),
        (Slot.exitStatus manifest.resultKey, decimal obs.status),
        (Slot.stderr manifest.resultKey, b.store.maskOut obs.stderrText)]
  else
    match obs.depText, obs.object with
    | some depText, some object =>
      if links ∧ obs.linkDepText = none then []
      else
        [(Slot.manifest requestKey, manifest.text),
          (Slot.object manifest.resultKey, b.store.maskOut object),
          (Slot.stderr manifest.resultKey, b.store.maskOut obs.stderrText)] ++
          if inv.wantsDepfile then
            [(Slot.depfile manifest.resultKey, b.store.maskOut (b.maskForReplay depText))]
          else []
    | _, _ => []

/-! ## Looking up -/

structure CachedResult where
  status : Int
  object : Option Bytes
  depfile : Option Bytes
  stderrText : Bytes
  deriving DecidableEq

def findResult (cache : Cache) (requestKey : Bytes) : Except Bytes Bytes :=
  match cache (Slot.manifest requestKey) with
  | none => .error (ascii "new-key")
  | some text => b.validateManifest blake3 requestKey text

/-- `static_cast<int>` of a 64-bit number -/
def toInt (n : Nat) : Int :=
  if n % 2 ^ 32 < 2 ^ 31 then (n % 2 ^ 32 : Nat) else (n % 2 ^ 32 : Nat) - 2 ^ 32

/-- The status a lookup starts from: the slot exists only for cached failures. -/
def statusOf (inv : Invocation) (slot : Option Bytes) : Int :=
  if inv.linkOne || inv.link then 0
  else
    match slot with
    | some text => toInt ((parseUint 10 text).getD 1)
    | none => 0

/-- What `Lookup` makes of the four slots. -/
def assemble (inv : Invocation) (status object depfile stderrText : Option Bytes) :
    Except Bytes CachedResult :=
  let status := statusOf inv status
  let stderrText := b.store.unmaskOut (stderrText.getD [])
  if status = 0 then
    match object with
    | none => .error (ascii "object-gone")
    | some object =>
      if inv.wantsDepfile then
        match depfile with
        | none => .error (ascii "object-gone")
        | some depfile =>
          .ok ⟨status, some (b.store.unmaskOut object), some (b.store.unmaskOut depfile),
            stderrText⟩
      else .ok ⟨status, some (b.store.unmaskOut object), none, stderrText⟩
  else .ok ⟨status, none, none, stderrText⟩

def lookup (cache : Cache) (requestKey : Bytes) (inv : Invocation) :
    Except Bytes CachedResult :=
  match b.findResult blake3 cache requestKey with
  | .error why => .error why
  | .ok key =>
    b.assemble inv (cache (Slot.exitStatus key)) (cache (Slot.object key))
      (cache (Slot.depfile key)) (cache (Slot.stderr key))

/-! ## Eviction -/

variable {blake3}

def original (inv : Invocation) (obs : Observed) : CachedResult where
  status := obs.status
  object := if obs.status = 0 then obs.object else none
  depfile :=
    if obs.status = 0 ∧ inv.wantsDepfile then obs.depText.map b.maskForReplay else none
  stderrText := obs.stderrText

/-- A text that comes back from the masking of the own output's hash. -/
def Restorable (text : Bytes) : Prop :=
  b.store.unmaskOut (b.store.maskOut text) = text

/-- What is left of an entry suffices for a hit. -/
def Usable (cache : Cache) (requestKey resultKey : Bytes) (inv : Invocation)
    (obs : Observed) (blake3 : Bytes → Bytes) : Prop :=
  b.findResult blake3 cache requestKey = .ok resultKey ∧
    if obs.status = 0 then
      (cache (Slot.object resultKey)).isSome ∧
        (inv.wantsDepfile → (cache (Slot.depfile resultKey)).isSome)
    else (cache (Slot.exitStatus resultKey)).isSome

def Held (cache : Cache) (puts : List (Bytes × Bytes)) : Prop :=
  ∀ k v, cache k = some v → (k, v) ∈ puts

theorem Held.eq_none {cache : Cache} {puts : List (Bytes × Bytes)} (h : Held cache puts) {k : Bytes}
    (hk : ∀ v, (k, v) ∉ puts) : cache k = none := by
  rw [eq_none_iff_forall_not_mem]
  exact fun v hv => hk v (h k v hv)

theorem unmaskOut_nil : b.store.unmaskOut [] = [] := by
  rw [Store.unmaskOut]
  split <;> rfl

variable {b b' : Build dir} {inv : Invocation} {obs : Observed}

theorem store_unmaskOut (henv : b'.env = b.env) (text : Bytes) :
    b'.store.unmaskOut text = b.store.unmaskOut text := by
  have hdir : b'.store.dir = b.store.dir := b'.store_dir.trans b.store_dir.symm
  have hhash : b'.store.outHash = b.store.outHash := by
    show (Store.new dir b'.env).outHash = (Store.new dir b.env).outHash
    rw [henv]
  rw [Store.unmaskOut, Store.unmaskOut, hdir, hhash]

theorem toInt_of_lt {n : Nat} (h : n < 128) : toInt n = n := by
  rw [toInt, if_pos (by omega), Nat.mod_eq_of_lt (by omega)]

theorem unmaskOut_slot (henv : b'.env = b.env) {slot : Option Bytes} {text : Bytes}
    (hslot : ∀ v ∈ slot, v = b.store.maskOut text) :
    b'.store.unmaskOut (slot.getD []) = text ↔
      if slot = none then text = [] else b.Restorable text := by
  cases slot with
  | none =>
    rw [getD_none, unmaskOut_nil, if_pos rfl]
    exact eq_comm
  | some v =>
    rw [getD_some, store_unmaskOut henv, hslot v rfl, if_neg (by simp)]
    rfl

/-- An entry of a compile that failed: only the exit status is needed for a hit. -/
theorem assemble_failed (henv : b'.env = b.env) (hinv : (inv.linkOne || inv.link) = false)
    (hstatus : obs.status ≠ 0) (hlt : obs.status < 128) {status stderrText : Option Bytes}
    (hslot : ∀ v ∈ status, v = decimal obs.status)
    (hstderr : ∀ v ∈ stderrText, v = b.store.maskOut obs.stderrText) :
    ((∃ why, b'.assemble inv status none none stderrText = .error why) ∨
        b'.assemble inv status none none stderrText = .ok (b.original inv obs)) ↔
      (status.isSome →
        if stderrText = none then obs.stderrText = [] else b.Restorable obs.stderrText) := by
  cases status with
  | none => simp [assemble, statusOf]
  | some v =>
    have hvalue : statusOf inv (some v) = obs.status := by
      have hparse := parseUint_numeral (show 1 < 10 by decide) (Nat.le_refl 10)
        (show obs.status < 2 ^ 64 by omega)
      rw [statusOf, hinv, hslot v rfl, ← numeral_ten]
      simp only [hparse, getD_some, toInt_of_lt hlt]
      rfl
    have hne : (obs.status : Int) ≠ 0 := by omega
    simp only [assemble, hvalue, if_neg hne, original, hstatus, false_and,
      if_false, ← unmaskOut_slot henv hstderr]
    simp

/-- An entry of a compile that succeeded: the object is needed, and the depfile when it is
wanted. -/
theorem assemble_succeeded (henv : b'.env = b.env) (hstatus : obs.status = 0) {o d : Bytes}
    (ho : obs.object = some o) (hd : obs.depText = some d)
    {object depfile stderrText : Option Bytes} (hobject : ∀ v ∈ object, v = b.store.maskOut o)
    (hdepfile : ∀ v ∈ depfile, v = b.store.maskOut (b.maskForReplay d))
    (hstderr : ∀ v ∈ stderrText, v = b.store.maskOut obs.stderrText) :
    ((∃ why, b'.assemble inv none object depfile stderrText = .error why) ∨
        b'.assemble inv none object depfile stderrText = .ok (b.original inv obs)) ↔
      (object.isSome ∧ (inv.wantsDepfile → depfile.isSome) →
        (b.Restorable o ∧ (inv.wantsDepfile → b.Restorable (b.maskForReplay d))) ∧
          if stderrText = none then obs.stderrText = [] else b.Restorable obs.stderrText) := by
  have hzero : statusOf inv none = 0 := by
    rw [statusOf]
    split <;> rfl
  cases object with
  | none => simp [assemble, hzero]
  | some ov =>
    rw [← unmaskOut_slot henv hstderr]
    have hov : b'.store.unmaskOut ov = o ↔ b.Restorable o := by
      rw [store_unmaskOut henv, hobject ov rfl]
      rfl
    by_cases hwants : inv.wantsDepfile
    · cases depfile with
      | none => simp [assemble, hzero, hwants]
      | some dv =>
        have hdv : b'.store.unmaskOut dv = b.maskForReplay d ↔
            b.Restorable (b.maskForReplay d) := by
          rw [store_unmaskOut henv, hdepfile dv rfl]
          rfl
        simp [assemble, hzero, hwants, original, hstatus, ho, hd, hov, hdv, and_assoc]
    · simp [assemble, hzero, hwants, original, hstatus, ho, hov]

/-- What an entry that was stored looks like. -/
theorem compileAndStore_cases {requestKey : Bytes}
    (h : b.compileAndStore blake3 requestKey inv obs ≠ []) :
    let m := b.buildManifest blake3 requestKey obs.inputs inv.source obs.absent
    (obs.status ≠ 0 ∧ obs.status < 128 ∧ (inv.linkOne || inv.link) = false ∧
      b.compileAndStore blake3 requestKey inv obs =
        [(Slot.manifest requestKey, m.text), (Slot.exitStatus m.resultKey, decimal obs.status),
          (Slot.stderr m.resultKey, b.store.maskOut obs.stderrText)]) ∨
    (obs.status = 0 ∧ ∃ o d, obs.object = some o ∧ obs.depText = some d ∧
      b.compileAndStore blake3 requestKey inv obs =
        [(Slot.manifest requestKey, m.text), (Slot.object m.resultKey, b.store.maskOut o),
          (Slot.stderr m.resultKey, b.store.maskOut obs.stderrText)] ++
        if inv.wantsDepfile then
          [(Slot.depfile m.resultKey, b.store.maskOut (b.maskForReplay d))]
        else []) := by
  intro m
  by_cases hstatus : obs.status = 0
  · right
    refine ⟨hstatus, ?_⟩
    cases hd : obs.depText with
    | none => simp [compileAndStore, hstatus, hd] at h
    | some d =>
      cases ho : obs.object with
      | none => simp [compileAndStore, hstatus, hd, ho] at h
      | some o =>
        refine ⟨o, d, rfl, rfl, ?_⟩
        by_cases hlinks : (inv.linkOne || inv.link) ∧ obs.linkDepText = none
        · simp only [compileAndStore, hstatus, hd, ho, if_pos hlinks] at h
          exact absurd rfl h
        · simp only [compileAndStore, hstatus, hd, ho, if_neg hlinks]
          rfl
  · left
    by_cases hskip : obs.depText = none ∨ (inv.linkOne || inv.link) ∨
        containsText "file not found" obs.stderrText ∨ ¬obs.deterministic
    · rw [compileAndStore, if_pos hstatus, if_pos hskip] at h
      exact absurd rfl h
    · have hkeep := hskip
      rw [not_or, not_or, not_or, not_not] at hkeep
      obtain ⟨-, hlinks, -, hdet⟩ := hkeep
      rw [Observed.deterministic, Bool.and_eq_true, Bool.and_eq_true, decide_eq_true_eq] at hdet
      refine ⟨hstatus, hdet.1.1, by simpa using hlinks, ?_⟩
      rw [compileAndStore, if_pos hstatus, if_neg hskip]

/-- What an entry can hold under its result key, and that it holds nothing under another one. -/
structure Slots (b : Build dir) (cache : Cache) (key : Bytes) (obs : Observed) : Prop where
  stderr : ∀ v ∈ cache (Slot.stderr key), v = b.store.maskOut obs.stderrText
  failed : obs.status ≠ 0 → cache (Slot.object key) = none ∧ cache (Slot.depfile key) = none ∧
    ∀ v ∈ cache (Slot.exitStatus key), v = decimal obs.status
  succeeded : obs.status = 0 → cache (Slot.exitStatus key) = none ∧
    ∀ o ∈ obs.object, ∀ d ∈ obs.depText,
      (∀ v ∈ cache (Slot.object key), v = b.store.maskOut o) ∧
        ∀ v ∈ cache (Slot.depfile key), v = b.store.maskOut (b.maskForReplay d)
  others : ∀ part key', part ≠ .manifest → key' ≠ key → cache (Slot.of part key') = none

theorem slots_of_held {requestKey : Bytes} {cache : Cache}
    (hstored : b.compileAndStore blake3 requestKey inv obs ≠ [])
    (hheld : Held cache (b.compileAndStore blake3 requestKey inv obs)) :
    b.Slots cache (b.buildManifest blake3 requestKey obs.inputs inv.source obs.absent).resultKey
      obs := by
  obtain ⟨hstatus, -, -, hputs⟩ | ⟨hstatus, o, d, ho, hd, hputs⟩ := compileAndStore_cases hstored
  · rw [hputs] at hheld
    refine ⟨?_, fun _ => ⟨?_, ?_, ?_⟩, fun h => absurd h hstatus, ?_⟩
    · intro v hv
      simpa using hheld _ v hv
    · exact hheld.eq_none (by simp [Slot.object])
    · exact hheld.eq_none (by simp [Slot.depfile])
    · intro v hv
      simpa using hheld _ v hv
    · intro part key' hpart hkey
      apply hheld.eq_none
      cases part <;> simp_all
  · rw [hputs] at hheld
    refine ⟨?_, fun h => absurd hstatus h, fun _ => ⟨?_, ?_⟩, ?_⟩
    · intro v hv
      have := hheld _ v hv
      split_ifs at this <;> simpa using this
    · apply hheld.eq_none
      intro v
      split_ifs <;> simp [Slot.exitStatus]
    · intro o' ho' d' hd'
      obtain rfl : o = o' := some.inj (ho.symm.trans ho')
      obtain rfl : d = d' := some.inj (hd.symm.trans hd')
      constructor
      · intro v hv
        have := hheld _ v hv
        split_ifs at this <;> simpa using this
      · intro v hv
        have := hheld _ v hv
        split_ifs at this <;> simp at this
        exact this
    · intro part key' hpart hkey
      apply hheld.eq_none
      intro v
      split_ifs <;> cases part <;> simp_all

/-- Whatever the daemon has dropped of an entry, a lookup for the same request misses or hands out
the original result, if and only if, should enough be left for a hit, the texts come back from the
masking of the output's hash, and the standard error is still there or was empty. -/
theorem lookup_evicted_iff (b b' : Build dir) (henv : b'.env = b.env) (requestKey : Bytes)
    (inv inv' : Invocation) (hlinks : (inv'.linkOne || inv'.link) = (inv.linkOne || inv.link))
    (obs : Observed) (hstored : b.compileAndStore blake3 requestKey inv obs ≠ []) (cache : Cache)
    (hheld : Held cache (b.compileAndStore blake3 requestKey inv obs)) :
    let key := (b.buildManifest blake3 requestKey obs.inputs inv.source obs.absent).resultKey
    ((∃ why, b'.lookup blake3 cache requestKey inv' = .error why) ∨
        b'.lookup blake3 cache requestKey inv' = .ok (b.original inv' obs)) ↔
      (b'.Usable cache requestKey key inv' obs blake3 →
        (obs.status = 0 → (∀ o ∈ obs.object, b.Restorable o) ∧
          (inv'.wantsDepfile → ∀ d ∈ obs.depText, b.Restorable (b.maskForReplay d))) ∧
        if cache (Slot.stderr key) = none then obs.stderrText = []
        else b.Restorable obs.stderrText) := by
  intro key
  cases hfind : b'.findResult blake3 cache requestKey with
  | error why => simp [lookup, hfind, Usable]
  | ok found =>
    have hlookup : b'.lookup blake3 cache requestKey inv' =
        b'.assemble inv' (cache (Slot.exitStatus found)) (cache (Slot.object found))
          (cache (Slot.depfile found)) (cache (Slot.stderr found)) := by
      rw [lookup, hfind]
    rw [hlookup]
    by_cases hkey : found = key
    · have hslots : b.Slots cache found obs := hkey ▸ slots_of_held hstored hheld
      have husable : b'.Usable cache requestKey key inv' obs blake3 ↔
          if obs.status = 0 then (cache (Slot.object found)).isSome ∧
            (inv'.wantsDepfile → (cache (Slot.depfile found)).isSome)
          else (cache (Slot.exitStatus found)).isSome := by
        rw [Usable, hfind, ← hkey]
        simp
      rw [husable, ← hkey]
      obtain ⟨hstatus, hlt, hlinks', -⟩ | ⟨hstatus, o, d, ho, hd, -⟩ :=
        compileAndStore_cases hstored
      · obtain ⟨hobject, hdepfile, hexit⟩ := hslots.failed hstatus
        rw [hobject, hdepfile,
          assemble_failed henv (hlinks.trans hlinks') hstatus hlt hexit hslots.stderr]
        simp [hstatus]
      · obtain ⟨hexit, htexts⟩ := hslots.succeeded hstatus
        obtain ⟨hobject, hdepfile⟩ := htexts o ho d hd
        rw [hexit, assemble_succeeded henv hstatus ho hd hobject hdepfile hslots.stderr]
        simp [hstatus, ho, hd]
    · have hslots := slots_of_held hstored hheld
      have hgone : ∀ part, part ≠ .manifest → cache (Slot.of part found) = none :=
        fun part hpart => hslots.others part found hpart hkey
      have hzero : statusOf inv' none = 0 := by
        rw [statusOf]
        split <;> rfl
      have hmiss : ¬b'.Usable cache requestKey key inv' obs blake3 := by
        rintro ⟨hok, -⟩
        exact hkey (Except.ok.inj (hfind.symm.trans hok))
      simp only [Slot.exitStatus, Slot.object, hgone .exitStatus (by decide),
        hgone .object (by decide), assemble, hzero, hmiss, false_imp_iff, iff_true]
      exact .inl ⟨_, rfl⟩

/-! ## An evicted warning -/

def without (puts : List (Bytes × Bytes)) (dropped : Bytes) : Cache :=
  fun k => if k = dropped then none else puts.lookup k

def warned : Observed where
  status := 0
  stderrText := ascii "a.c:1: warning"
  depText := some (ascii "a.o: a.c a.h")
  linkDepText := none
  inputs := [ascii "a.c", ascii "a.h"]
  absent := []
  object := some (ascii "ELF")

def compileA : Invocation :=
  { (Parsing.start []).inv with source := ascii "a.c", output := ascii "a.o", compileOnly := true }

def buildA : Build (ascii "/nix/store") := oneFile (ascii "a.h") (by decide)

theorem held_without (puts : List (Bytes × Bytes)) (dropped : Bytes) :
    Held (without puts dropped) puts := by
  intro k v h
  rw [without] at h
  split_ifs at h with hk
  obtain ⟨front, back, rfl, -⟩ := lookup_eq_some_iff.mp h
  exact mem_append_right _ mem_cons_self

theorem restorable_of_no_out (h : b.store.outHash = []) (text : Bytes) :
    b.Restorable text := by
  rw [Restorable, Store.unmaskOut, if_pos h, Store.maskOut, if_pos h]

/-- The daemon has dropped the depfile, which the lookup does not want: the compile is replayed. -/
theorem lookup_evicted_iff_warned :
    let puts := buildA.compileAndStore id [] { compileA with wantsDepfile := true } warned
    let key := (buildA.buildManifest id [] warned.inputs compileA.source warned.absent).resultKey
    (puts.lookup (Slot.depfile key)).isSome ∧ Held (without puts (Slot.depfile key)) puts ∧
      ((∃ why, buildA.lookup id (without puts (Slot.depfile key)) [] compileA = .error why) ∨
        buildA.lookup id (without puts (Slot.depfile key)) [] compileA =
          .ok (buildA.original compileA warned)) := by
  intro puts key
  have hstored : puts ≠ [] := by decide +kernel
  have hheld := held_without puts (Slot.depfile key)
  have hout : buildA.store.outHash = [] := rfl
  refine ⟨by decide +kernel, hheld, (lookup_evicted_iff buildA buildA rfl []
    { compileA with wantsDepfile := true } compileA rfl warned hstored _ hheld).mpr
    fun _ => ⟨fun _ => ⟨?_, ?_⟩, ?_⟩⟩
  · exact fun o _ => restorable_of_no_out hout o
  · exact fun _ d _ => restorable_of_no_out hout _
  · rw [if_neg (by decide +kernel)]
    exact restorable_of_no_out hout _

/-- The daemon has dropped the standard error: the object is replayed without the warning. -/
theorem dropped_stderr_replays_empty :
    let puts := buildA.compileAndStore id [] compileA warned
    let key := (buildA.buildManifest id [] warned.inputs compileA.source warned.absent).resultKey
    warned.stderrText ≠ [] ∧
      buildA.lookup id (without puts (Slot.stderr key)) [] compileA =
        .ok ⟨0, some (ascii "ELF"), none, []⟩ := by
  decide +kernel

end Build

/-! ## The own prefix -/

namespace Store

def ownPrefix (dir hash : Bytes) : Bytes := dir ++ 47 :: hash ++ [45]

theorem ownPrefix_ne_nil (dir hash : Bytes) : ownPrefix dir hash ≠ [] := by simp [ownPrefix]

variable {env : StoreEnv} {dir : Bytes}

theorem length_outHash (h : (Store.new dir env).outHash ≠ []) :
    (Store.new dir env).outHash.length = kStoreHashLength := by
  unfold Store.new at h ⊢
  dsimp only at h ⊢
  split_ifs at h ⊢ with hcontent hout
  · obtain ⟨hlt, -⟩ := List.getElem?_eq_some_iff.mp hout.2
    rw [List.length_take, List.length_drop]
    omega
  · exact absurd rfl h
  · exact absurd rfl h

theorem dir_new (dir : Bytes) (env : StoreEnv) : (Store.new dir env).dir = dir := by
  unfold Store.new
  split <;> rfl

theorem maskOut_eq (h : (Store.new dir env).outHash ≠ []) (bytes : Bytes) :
    (Store.new dir env).maskOut bytes = replaceAll (ownPrefix dir (Store.new dir env).outHash)
      (ownPrefix dir (replicate kStoreHashLength 101)) bytes := by
  rw [maskOut, if_neg h, dir_new]
  rfl

theorem unmaskOut_eq (h : (Store.new dir env).outHash ≠ []) (bytes : Bytes) :
    (Store.new dir env).unmaskOut bytes =
      replaceAll (ownPrefix dir (replicate kStoreHashLength 101))
        (ownPrefix dir (Store.new dir env).outHash) bytes := by
  rw [unmaskOut, if_neg h, dir_new]
  rfl

/-- From one build to another: only the own prefix was masked, so only it is replaced. -/
theorem unmaskOut_maskOut {env' : StoreEnv}
    (h : (Store.new dir env).outHash ≠ []) (h' : (Store.new dir env').outHash ≠ []) {bytes : Bytes}
    (hfree : ¬ownPrefix dir (replicate kStoreHashLength 101) <:+: bytes) :
    (Store.new dir env').unmaskOut ((Store.new dir env).maskOut bytes) =
      replaceAll (ownPrefix dir (Store.new dir env).outHash)
        (ownPrefix dir (Store.new dir env').outHash) bytes := by
  rw [maskOut_eq h, unmaskOut_eq h']
  exact replaceAll_replaceAll _ (by decide) hfree

/-- `MaskOut` and `UnmaskOut` over bytes without the placeholder, in one build and from one build to
another.  The pieces are what stands between the occurrences of the own prefix. -/
theorem own_prefix_round_trip (dir : Bytes) (env env' : StoreEnv) (bytes : Bytes)
    (hfree : ¬ownPrefix dir (replicate kStoreHashLength 101) <:+: bytes) :
    (Store.new dir env).unmaskOut ((Store.new dir env).maskOut bytes) = bytes ∧
      ((Store.new dir env).maskOut bytes).length = bytes.length ∧
      ((Store.new dir env).outHash ≠ [] → (Store.new dir env').outHash ≠ [] → ∃ pieces,
        Text.Between (ownPrefix dir (Store.new dir env).outHash) pieces ∧
        bytes = (ownPrefix dir (Store.new dir env).outHash).intercalate pieces ∧
        (Store.new dir env').unmaskOut ((Store.new dir env).maskOut bytes) =
          (ownPrefix dir (Store.new dir env').outHash).intercalate pieces) := by
  refine ⟨?_, ?_, fun h h' => ?_⟩
  · by_cases h : (Store.new dir env).outHash = []
    · rw [maskOut, unmaskOut, if_pos h, if_pos h]
    · rw [unmaskOut_maskOut h h hfree, replaceAll_self (ownPrefix_ne_nil _ _)]
  · by_cases h : (Store.new dir env).outHash = []
    · rw [maskOut, if_pos h]
    · rw [maskOut_eq h]
      apply length_replaceAll (ownPrefix_ne_nil _ _)
      simp [ownPrefix, length_outHash h]
  · obtain ⟨pieces, hpieces, hbytes, hall⟩ :=
      exists_between (ownPrefix_ne_nil dir (Store.new dir env).outHash) bytes
    exact ⟨pieces, hpieces, hbytes, (unmaskOut_maskOut h h' hfree).trans (hall _)⟩

def lettered (letter : UInt8) : StoreEnv where
  identity := some (ascii "content")
  out := some (ascii "/nix/store/" ++ replicate 32 letter ++ ascii "-zlib")
  roots := none

theorem own_prefix_round_trip_zlib :
    (Store.new (ascii "/nix/store") (lettered 97)).outHash = replicate 32 97 ∧
      (Store.new (ascii "/nix/store") (lettered 98)).unmaskOut
          ((Store.new (ascii "/nix/store") (lettered 97)).maskOut
            (ownPrefix (ascii "/nix/store") (replicate 32 97) ++ ascii "zlib/lib")) =
        ownPrefix (ascii "/nix/store") (replicate 32 98) ++ ascii "zlib/lib" ∧
      (Store.new (ascii "/nix/store") (lettered 97)).unmaskOut
          ((Store.new (ascii "/nix/store") (lettered 97)).maskOut
            (ownPrefix (ascii "/nix/store") (replicate 32 97) ++ ascii "zlib/lib")) =
        ownPrefix (ascii "/nix/store") (replicate 32 97) ++ ascii "zlib/lib" :=
  ⟨by decide +kernel, by decide +kernel, (own_prefix_round_trip (ascii "/nix/store") (lettered 97)
    (lettered 98) _ (by decide +kernel)).1⟩

end Store

/-- A text comes back exactly when it does not hold the placeholder. -/
theorem Build.restorable_iff {dir : Bytes} {b : Build dir} (hdir : 45 ∉ dir)
    (hhash : isStoreHash b.store.outHash = true) (text : Bytes) :
    b.Restorable text ↔ ¬Store.ownPrefix dir (replicate kStoreHashLength 101) <:+: text := by
  have hlen := length_of_isStoreHash hhash
  have hne : b.store.outHash ≠ [] := by
    intro h
    rw [h] at hlen
    cases hlen
  rw [Restorable, Store.unmaskOut, Store.maskOut, if_neg hne, if_neg hne, b.store_dir]
  constructor
  · intro h hin
    have hdash := notMem_of_isStoreHash hhash (b := 45) (by decide)
    have hwords : replicate kStoreHashLength 101 ≠ b.store.outHash := fun heq =>
      notMem_of_isStoreHash hhash (b := 101) (by decide) (heq ▸ by decide)
    rw [← h] at hin
    exact not_infix_replaceAll (by simp [hdir, kStoreHashLength]) (by simp [hdir, hdash])
      (by simp [hlen]) (by simpa using hwords) hin
  · intro h
    exact (replaceAll_replaceAll _ (by decide) h).trans (replaceAll_self (by simp) text)

end Corepkgs.Jig
