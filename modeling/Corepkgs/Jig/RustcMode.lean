import Corepkgs.Jig.Depfile
import Corepkgs.Jig.Replay
import Corepkgs.Jig.RustFiles
/-!
# `rustc` through the cache

`rustc_mode.cc`: the words cargo gives to rustc, the key of the request, and the
files a hit writes in place of a run.  What the run has written is read off its
dep-info.

* `runRustcMode` — one run, from the words to how it ends;
* `outputs_depInfoText` — which outputs are read off the text rustc writes;
* `hit_recreates_iff` — which outputs are there after a hit.
-/

namespace Corepkgs.Jig.RustcMode

open Lib List Function

/-! ## `ParseRustInvocation` -/

structure RustInvocation where
  args : List Bytes
  keyArgs : List Bytes
  externs : List Bytes
  source : Bytes
  crateName : Bytes
  outDir : Bytes
  sysroot : Bytes
  extraFilename : Bytes
  links : Bool
  hasCrateType : Bool
  cacheable : Bool
  query : Bool
  hasDepInfo : Bool
  /-- The local `sources`. -/
  sources : Nat

def RustInvocation.start (args : List Bytes) : RustInvocation where
  args := args
  keyArgs := []
  externs := []
  source := []
  crateName := []
  outDir := []
  sysroot := []
  extraFilename := []
  links := false
  hasCrateType := false
  cacheable := true
  query := false
  hasDepInfo := false
  sources := 0

def kTwoTokenOptions : List Bytes :=
  ["-C", "--cfg", "--check-cfg", "--cap-lints", "--edition", "--target", "--crate-type", "-Z", "-W",
    "-A", "-D", "-F", "--error-format", "--json", "--diagnostic-width", "--remap-path-prefix",
    "-l"].map ascii

/-- The closure `take`: `--flag value` or `--flag=value`. -/
def takeValue (flag : String) (arg : Bytes) (rest : List Bytes) : Option (Bytes × List Bytes) :=
  if arg = ascii flag ∧ rest ≠ [] then some (rest.headD [], rest.tail)
  else if startsWith (flag ++ "=") arg then some (arg.drop ((ascii flag).length + 1), rest)
  else none

def takeNamedOption (inv : RustInvocation) (arg : Bytes) (rest : List Bytes) :
    Option (RustInvocation × List Bytes) :=
  let key (flag : String) (value : Bytes) : List Bytes := inv.keyArgs ++ [ascii flag ++ 61 :: value]
  match takeValue "--out-dir" arg rest with
  | some (value, rest) => some ({ inv with outDir := value }, rest)
  | none =>
  match takeValue "--sysroot" arg rest with
  | some (value, rest) =>
      some ({ inv with keyArgs := key "--sysroot" value, sysroot := value }, rest)
  | none =>
  match takeValue "--crate-name" arg rest with
  | some (value, rest) =>
    some ({ inv with keyArgs := key "--crate-name" value, crateName := value }, rest)
  | none =>
  match takeValue "--extern" arg rest with
  | some (value, rest) =>
    some ({ inv with
      keyArgs := key "--extern" value
      externs := inv.externs ++
        ((value.idxOf? 61).map fun equals => value.drop (equals + 1)).toList },
      rest)
  | none =>
  match takeValue "--emit" arg rest with
  | some (value, rest) =>
    some ({ inv with
      keyArgs := key "--emit" value
      hasDepInfo := inv.hasDepInfo || containsText "dep-info" value }, rest)
  | none =>
  -- search directories only matter when linking
  match takeValue "-L" arg rest with
  | some (_, rest) => some (inv, rest)
  | none => none

/-- An option with its value, and what is left. -/
def joinOption (arg : Bytes) (rest : List Bytes) : Bytes × List Bytes :=
  if arg ∈ kTwoTokenOptions ∧ rest ≠ [] then (arg ++ 61 :: rest.headD [], rest.tail)
  else if startsWith "-C" arg && !startsWith "-C=" arg then (arg.take 2 ++ 61 :: arg.drop 2, rest)
  else (arg, rest)

def takeCodegenOption (inv : RustInvocation) (arg : Bytes) (rest : List Bytes) :
    RustInvocation × List Bytes :=
  let (full, rest) := joinOption arg rest
  if startsWith "-C=incremental=" full then ({ inv with cacheable := false }, rest)
  else if startsWith "-C=extra-filename=" full then
    ({ inv with extraFilename := full.drop (ascii "-C=extra-filename=").length }, rest)
  else if startsWith "-C=metadata=" full then (inv, rest)
  else
    ({ inv with
      links := inv.links || ["bin", "proc-macro", "cdylib", "dylib"].any fun kind =>
        full == ascii ("--crate-type=" ++ kind)
      hasCrateType := inv.hasCrateType || startsWith "--crate-type=" full
      keyArgs := inv.keyArgs ++ [full] }, rest)

def isQuery (arg : Bytes) : Bool :=
  arg == ascii "--print" || startsWith "--print=" arg || arg == ascii "-" || arg == ascii "-vV" ||
    arg == ascii "--version"

def parseFrom : Nat → RustInvocation → List Bytes → RustInvocation
  | 0, inv, _ => inv
  | _, inv, [] => inv
  | fuel + 1, inv, arg :: rest =>
    match takeNamedOption inv arg rest with
    | some (inv, rest) => parseFrom fuel inv rest
    | none =>
      if isQuery arg then parseFrom fuel { inv with query := true } rest
      else if arg = ascii "-o" then parseFrom fuel { inv with cacheable := false } rest
      else if !startsWith "-" arg && endsWith ".rs" arg then
        parseFrom fuel { inv with source := arg, sources := inv.sources + 1 } rest
      else
        let (inv, rest) := takeCodegenOption inv arg rest
        parseFrom fuel inv rest

/-- What links embeds absolute store paths, and is not cached; no `--crate-type` means `bin`. -/
def parseRustInvocation (args : List Bytes) : RustInvocation :=
  let inv := parseFrom args.length (.start args) args
  let links := inv.links || !inv.hasCrateType
  { inv with
    links := links
    cacheable := inv.cacheable &&
      !(inv.query || links || inv.sources != 1 || inv.outDir == [] || !inv.hasDepInfo) }

/-! ## `ParseDepInfo` -/

def beforeColon : Bytes → Option Bytes
  | [] => none
  | c :: rest =>
    if c = 58 ∧ rest.head? = some 32 then some [] else (beforeColon rest).map (c :: ·)

structure DepInfo where
  outputs : List Bytes
  inputs : List Bytes

def absolute (cwd path : Bytes) : Bytes :=
  lexicallyNormal (if path.head? = some 47 then path else joinPath cwd path)

def DepInfo.addLine (cwd : Bytes) (info : DepInfo) (line : Bytes) : DepInfo :=
  if line.head? = some 35 then info
  else
    match beforeColon line with
    | none => info
    | some output =>
      { outputs := info.outputs ++ [output]
        inputs :=
          if info.inputs = [] then (Depfile.parseDepfile line).map (absolute cwd) else info.inputs }

def parseDepInfo (cwd text : Bytes) : DepInfo :=
  (split text 10).foldl (DepInfo.addLine cwd) ⟨[], []⟩

/-! ## `RunRustcMode` -/

structure RustRun (dir : Bytes) where
  build : Build dir
  /-- `ToolId(OnPath(rustc))` -/
  tool : Bytes
  /-- `StdlibIds`, after which `build` is as it is here. -/
  stdlib : Bytes
  cwd : Bytes
  environ : Bytes → Bytes
  args : List Bytes
  connected : Bool

namespace RustRun

variable {dir : Bytes} (blake3 : Bytes → Bytes) (p : RustRun dir)

def inv : RustInvocation := parseRustInvocation p.args

def keyVariables : List Bytes :=
  ["CARGO_PKG_NAME", "CARGO_PKG_VERSION", "CARGO_CFG_TARGET_FEATURE", "RUSTFLAGS",
    "CARGO_ENCODED_RUSTFLAGS"].map ascii

def keyFields (sourceBytes : Bytes) : List Bytes :=
  [ascii "rs-schema=7", ascii "rustc=" ++ p.tool, ascii "stdlib=" ++ p.stdlib,
      ascii "cwd=" ++ p.build.store.key p.cwd, ascii "src=" ++ p.build.store.key p.inv.source] ++
    p.inv.keyArgs.map p.build.store.key ++
    p.inv.externs.map (fun rlib => ascii "extern:" ++
      (p.build.inputId blake3 rlib).getD (ascii "?")) ++
    keyVariables.map (fun var => var ++ 61 :: p.environ var) ++ [sourceBytes]

def requestKey (sourceBytes : Bytes) : Bytes :=
  ascii "rs/" ++ digest blake3 (fed (p.keyFields blake3 sourceBytes))

def found (cache : Cache) (sourceBytes : Bytes) : Except Bytes Bytes :=
  p.build.findResult blake3 cache (p.requestKey blake3 sourceBytes)

def replay (cache : Cache) (disk : Disk) (sourceBytes : Bytes) :
    Option (List (Bytes × File) × Bytes) :=
  match p.found blake3 cache sourceBytes with
  | .error _ => none
  | .ok resultKey =>
    match cache (Slot.object resultKey) with
    | none => none
    | some blob =>
      let (ok, written) := unpackFiles disk p.inv.outDir p.inv.extraFilename blob
      if ok then some (written, (cache (Slot.stderr resultKey)).getD []) else none

end RustRun

structure Compile where
  status : Int
  stderrText : Bytes
  host : Host

inductive Ended where
  | uncached
  | hit (written : List (Bytes × File)) (stderrText : Bytes)
  | failed (status : Int)
  | unstored
  | stored (puts : List (Bytes × Bytes))
  deriving DecidableEq

section

variable {dir : Bytes} (blake3 : Bytes → Bytes)

/-- What a successful run is stored as. -/
def RustRun.puts (p : RustRun dir) (sourceBytes depText : Bytes) (run : Compile) :
    List (Bytes × Bytes) :=
  let info := parseDepInfo p.cwd depText
  let requestKey := p.requestKey blake3 sourceBytes
  let manifest := p.build.buildManifest blake3 requestKey info.inputs
    (absolute p.cwd p.inv.source) []
  [(Slot.manifest requestKey, manifest.text),
    (Slot.object manifest.resultKey, packFiles run.host info.outputs p.inv.extraFilename),
    (Slot.stderr manifest.resultKey, run.stderrText)]

def RustRun.depPath (p : RustRun dir) : Bytes :=
  joinPath p.inv.outDir (p.inv.crateName ++ p.inv.extraFilename ++ ascii ".d")

def runRustcMode (p : RustRun dir) (cache : Cache) (disk : Disk) (run : Compile) : Ended :=
  match (if p.inv.cacheable then p.build.files.read p.inv.source else none) with
  | none => .uncached
  | some sourceBytes =>
    if !p.connected then .uncached
    else
      match p.replay blake3 cache disk sourceBytes with
      | some (written, stderrText) => .hit written stderrText
      | none =>
        if run.status ≠ 0 then .failed run.status
        else
          match run.host.readFile p.depPath with
          | none => .unstored
          | some dep => .stored (p.puts blake3 sourceBytes dep.data run)

end

/-! ## What rustc writes into the dep-info -/

/-- rustc escapes spaces in the names of inputs, and nothing else. -/
def escapeSpaces (path : Bytes) : Bytes := path.flatMap fun b => if b = 32 then [92, 32] else [b]

/-- A rule for every output, a phony rule for every input, and comments. -/
def depInfoText (outs inputs comments : List Bytes) : Bytes :=
  Text.lines 10 (outs.flatMap (fun out =>
      [out ++ 58 :: 32 :: [32].intercalate (inputs.map escapeSpaces), []]) ++
    inputs.map (fun input => escapeSpaces input ++ [58]) ++ comments.map (35 :: ·))

/-- A path that is taken for an output, and to its end. -/
structure Legible (path : Bytes) : Prop where
  comment : path.head? ≠ some 35
  colon : ¬[58, 32] <:+: path
  newline : 10 ∉ path

theorem escapeSpaces_cons (c : UInt8) (path : Bytes) :
    escapeSpaces (c :: path) = (if c = 32 then [92, 32] else [c]) ++ escapeSpaces path := rfl

theorem head?_escapeSpaces_append_ne (path : Bytes) {rest : Bytes} (hrest : rest.head? ≠ some 32) :
    (escapeSpaces path ++ rest).head? ≠ some 32 := by
  cases path with
  | nil => exact hrest
  | cons c path =>
    rw [escapeSpaces_cons]
    split_ifs with hc
    · simp
    · simpa using hc

/-- There is no `: ` in an escaped path. -/
theorem beforeColon_escapeSpaces (path : Bytes) {rest : Bytes} (hrest : rest.head? ≠ some 32) :
    beforeColon (escapeSpaces path ++ rest) = (beforeColon rest).map (escapeSpaces path ++ ·) := by
  induction path with
  | nil =>
    have hid : (fun x : Bytes => escapeSpaces [] ++ x) = id := rfl
    rw [hid, Option.map_id_fun]
    rfl
  | cons c path ih =>
    have hhead := head?_escapeSpaces_append_ne path hrest
    rw [escapeSpaces_cons, append_assoc]
    split_ifs with hc
    · simp [beforeColon, ih, comp_def]
    · rw [singleton_append, beforeColon, if_neg fun h => hhead h.2, ih, Option.map_map]
      rfl

def lineOutput (line : Bytes) : Option Bytes :=
  if line.head? = some 35 then none else beforeColon line

theorem outputs_parseDepInfo (cwd text : Bytes) :
    (parseDepInfo cwd text).outputs = (split text 10).filterMap lineOutput := by
  have hfold : ∀ (ls : List Bytes) (info : DepInfo),
      (ls.foldl (DepInfo.addLine cwd) info).outputs = info.outputs ++ ls.filterMap lineOutput := by
    intro ls
    induction ls with
    | nil => simp
    | cons line ls ih =>
      intro info
      rw [foldl_cons, ih, filterMap_cons, DepInfo.addLine, lineOutput]
      by_cases hcomment : line.head? = some 35
      · rw [if_pos hcomment, if_pos hcomment]
      · rw [if_neg hcomment, if_neg hcomment]
        cases beforeColon line with
        | none => rfl
        | some output => simp
  rw [parseDepInfo, hfold]
  rfl

theorem beforeColon_append {out : Bytes} (h : ¬[58, 32] <:+: out) (rest : Bytes) :
    beforeColon (out ++ 58 :: 32 :: rest) = some out := by
  induction out with
  | nil => rfl
  | cons c out ih =>
    have hout : ¬[58, 32] <:+: out := fun hin => h (hin.trans (suffix_cons c out).isInfix)
    rw [cons_append, beforeColon, if_neg, ih hout]
    · rfl
    · rintro ⟨rfl, hhead⟩
      cases out with
      | nil => simp at hhead
      | cons d out =>
        obtain rfl : d = 32 := by simpa using hhead
        exact h ⟨[], out, rfl⟩

theorem lineOutput_rule {out : Bytes} (h : Legible out) (rest : Bytes) :
    lineOutput (out ++ 58 :: 32 :: rest) = some out := by
  rw [lineOutput, if_neg, beforeColon_append h.colon]
  cases out with
  | nil => simp
  | cons c out => exact h.comment

theorem lineOutput_phony (input : Bytes) : lineOutput (escapeSpaces input ++ [58]) = none := by
  rw [lineOutput, beforeColon_escapeSpaces input (by simp)]
  simp [beforeColon]

theorem notMem_escapeSpaces {b : UInt8} (hb : b ≠ 32 ∧ b ≠ 92) {path : Bytes} (h : b ∉ path) :
    b ∉ escapeSpaces path := by
  intro hmem
  obtain ⟨c, hc, hin⟩ := mem_flatMap.mp hmem
  split_ifs at hin
  · simp [hb] at hin
  · exact h (mem_singleton.mp hin ▸ hc)

/-- The outputs `ParseDepInfo` reads are those that were written. -/
theorem outputs_depInfoText (cwd : Bytes) {outs inputs comments : List Bytes}
    (houts : ∀ p ∈ outs, Legible p) (hinputs : ∀ p ∈ inputs, 10 ∉ p)
    (hcomments : ∀ c ∈ comments, 10 ∉ c) :
    (parseDepInfo cwd (depInfoText outs inputs comments)).outputs = outs := by
  have hesc : ∀ {p : Bytes}, 10 ∉ p → 10 ∉ escapeSpaces p := notMem_escapeSpaces (by decide)
  have hjoin : 10 ∉ [32].intercalate (inputs.map escapeSpaces) := by
    apply Text.notMem_intercalate (by decide)
    intro text htext
    obtain ⟨p, hp, rfl⟩ := mem_map.mp htext
    exact hesc (hinputs p hp)
  -- empty lines are dropped, and have no output anyway
  have hempty : ∀ ls : List Bytes,
      (ls.filter (· ≠ [])).filterMap lineOutput = ls.filterMap lineOutput := by
    intro ls
    rw [filterMap_filter]
    refine filterMap_congr fun l _ => ?_
    by_cases hl : l = []
    · simp [hl, lineOutput, beforeColon]
    · simp [hl]
  have hrules : (outs.flatMap fun out =>
      [out ++ 58 :: 32 :: [32].intercalate (inputs.map escapeSpaces), []]).filterMap
        lineOutput = outs := by
    clear * - houts
    induction outs with
    | nil => rfl
    | cons out outs ih =>
      have hnil : lineOutput [] = none := rfl
      obtain ⟨hout, houts⟩ := forall_mem_cons.mp houts
      rw [flatMap_cons, filterMap_append, ih houts, filterMap_cons, lineOutput_rule hout,
        filterMap_cons, hnil]
      rfl
  have hphony : (inputs.map fun input => escapeSpaces input ++ [58]).filterMap lineOutput = [] := by
    simp [lineOutput_phony]
  have hcomment : (comments.map (35 :: ·)).filterMap lineOutput = [] := by
    simp [lineOutput]
  rw [outputs_parseDepInfo, depInfoText, split, Text.pieces_lines_eq_filter, hempty,
    filterMap_append, filterMap_append, hrules, hphony, hcomment, append_nil,
    append_nil]
  intro l hl
  simp only [mem_append, mem_flatMap, mem_map] at hl
  rcases hl with (⟨out, hout, hl⟩ | ⟨input, hinput, rfl⟩) | ⟨c, hc, rfl⟩
  · have := (houts out hout).newline
    rcases mem_pair.mp hl with rfl | rfl
    · simp [this, hjoin]
    · exact not_mem_nil
  · simp [hesc (hinputs input hinput)]
  · simp [hcomments c hc]

/-! ## A hit -/

def afterWrites (before : Bytes → Option File) (written : List (Bytes × File)) :
    Bytes → Option File :=
  written.foldl (fun files w => update files w.1 (some w.2)) before

theorem afterWrites_of_mem {written : List (Bytes × File)} (hnodup : (written.map Prod.fst).Nodup)
    {path : Bytes} {file : File} (h : (path, file) ∈ written) (before : Bytes → Option File) :
    afterWrites before written path = some file := by
  induction written using reverseRecOn with
  | nil => cases h
  | append_singleton ws w ih =>
    rw [map_append, map_singleton, nodup_append', disjoint_singleton] at hnodup
    rw [afterWrites, foldl_append]
    change update (afterWrites before ws) w.1 (some w.2) path = some file
    rcases mem_append.mp h with h | h
    · have hne : path ≠ w.1 := fun heq => hnodup.2.2 (heq ▸ mem_map_of_mem (f := Prod.fst) h)
      rw [update_of_ne hne, ih hnodup.1 h]
    · cases mem_singleton.mp h
      exact update_self ..

/-- What a list of single words has been unpacked to, once all of it was written. -/
theorem written_of_writeAll {disk : Disk} {dir stem : Bytes} {es written : List (Bytes × File)}
    (hes : ∀ e ∈ es, word e.1 = some e.1 ∧ disk.chmod (target dir stem e.1) = true)
    (h : writeAll disk dir stem es = (true, written)) :
    written = es.map fun e => (target dir stem e.1, e.2) := by
  induction es generalizing written with
  | nil =>
    cases h
    rfl
  | cons e es ih =>
    obtain ⟨⟨hword, hchmod⟩, hes⟩ := forall_mem_cons.mp hes
    rw [writeAll, hword, Option.bind_some, Disk.place, if_pos hchmod] at h
    by_cases hwrite : disk.write (target dir stem e.1) = true
    · rw [if_pos hwrite] at h
      obtain ⟨hok, rfl⟩ := Prod.mk.inj h
      rw [map_cons, ← ih hes (Prod.ext hok rfl)]
    · simp [if_neg hwrite] at h

/-- An output that another run can make again from what is kept of it: it can be read where the
dep-info says, under a name that is one word and that the new value fits into. -/
structure Output.Kept (o : Output) (host : Host) (dir extra extra' : Bytes) : Prop where
  legible : Legible (joinPath dir (o.name extra))
  readable : host.readFile (joinPath dir (o.name extra)) = some o.file
  name : 32 ∉ o.name extra ∧ 10 ∉ o.name extra
  slash : 47 ∉ o.name extra
  marked : o.Marked extra ∨ extra = [] ∧ extra' = [] ∧ 64 ∉ o.name []

theorem Output.Kept.renamed {o : Output} {host : Host} {dir extra extra' : Bytes}
    (h : o.Kept host dir extra extra') : renamed extra extra' (o.name extra) = o.name extra' := by
  rcases h.marked with hmarked | ⟨rfl, rfl, hat⟩
  · exact (o.renamed_iff extra).mpr hmarked extra'
  · exact replaceAll_at_of_notMem hat []

section

variable {dir : Bytes} {blake3 : Bytes → Bytes} {written : List (Bytes × File)}

variable {cache : Cache} {p : RustRun dir} {disk : Disk}

theorem puts_of_stored {run : Compile} {puts : List (Bytes × Bytes)} {dep : File}
    (h : runRustcMode blake3 p cache disk run = .stored puts)
    (hdep : run.host.readFile p.depPath = some dep) :
    ∃ sourceBytes, puts = p.puts blake3 sourceBytes dep.data run := by
  unfold runRustcMode at h
  split at h
  · cases h
  · rename_i sourceBytes _
    refine ⟨sourceBytes, ?_⟩
    split_ifs at h
    · split at h <;> cases h
    · split at h
      · cases h
      · rw [hdep] at h
        exact (Ended.stored.inj h).symm

theorem unpacked_of_hit {run : Compile} {stderrText : Bytes}
    (h : runRustcMode blake3 p cache disk run = .hit written stderrText) :
    ∃ sourceBytes resultKey blob, p.found blake3 cache sourceBytes = .ok resultKey ∧
      cache (Slot.object resultKey) = some blob ∧
      unpackFiles disk p.inv.outDir p.inv.extraFilename blob = (true, written) := by
  unfold runRustcMode at h
  split at h
  · cases h
  · rename_i sourceBytes _
    split at h
    · cases h
    · split at h
      · rename_i hreplay
        cases h
        unfold RustRun.replay at hreplay
        split at hreplay
        · cases hreplay
        · rename_i resultKey hfound
          split at hreplay
          · cases hreplay
          · rename_i blob hblob
            dsimp only at hreplay
            split_ifs at hreplay with hok
            cases hreplay
            exact ⟨sourceBytes, resultKey, blob, hfound, hblob, Prod.ext hok rfl⟩
      · split_ifs at h
        split at h <;> cases h

/-- Outputs that are kept are unpacked under their names in the other run. -/
theorem written_of_kept {host : Host} {out out' extra extra' : Bytes} {outs : List Output}
    (hkept : ∀ o ∈ outs, o.Kept host out extra extra')
    (hchmod : ∀ o ∈ outs, disk.chmod (joinPath out' (o.name extra')) = true)
    (h : unpackFiles disk out' extra'
      (packFiles host (outs.map fun o => joinPath out (o.name extra)) extra) = (true, written)) :
    written = outs.map fun o => (joinPath out' (o.name extra'), o.file) := by
  have hwords : ∀ e ∈ outs.map fun o => (replaceAll (o.name extra) extra (ascii "@"), o.file),
      (word e.1 = some e.1 ∧ disk.chmod (target out' extra' e.1) = true) ∧ Packed e := by
    intro e he
    obtain ⟨o, ho, rfl⟩ := mem_map.mp he
    obtain ⟨hword, hpacked⟩ := word_packed (hkept o ho).name (hkept o ho).readable
    have hplace := hchmod o ho
    rw [← (hkept o ho).renamed] at hplace
    exact ⟨⟨hword, hplace⟩, hpacked⟩
  rw [packFiles, packed_outputs (fun o ho => (hkept o ho).slash)
    (fun o ho => (hkept o ho).readable), unpackFiles_packed _ _ _ fun e he => (hwords e he).2] at h
  rw [written_of_writeAll (fun e he => (hwords e he).1) h, map_map]
  refine map_congr_left fun o ho => ?_
  rw [← (hkept o ho).renamed]
  rfl

end

/-! ## Two runs -/

/-- `rustc --crate-name foo --crate-type=lib --emit=dep-info,link --out-dir <out> /w/lib.rs` -/
def libRun (out : Bytes) : RustRun (ascii "/nix/store") where
  build := Build.single ⟨none, none, none⟩ (ascii "/w/lib.rs") [49] (by decide)
  tool := []
  stdlib := []
  cwd := ascii "/w"
  environ := fun _ => []
  args := [ascii "--crate-name", ascii "foo", ascii "--crate-type=lib",
    ascii "--emit=dep-info,link",
    ascii "--out-dir", out, ascii "/w/lib.rs"]
  connected := true

theorem dotless_rlib : 46 ∉ ascii "rlib" := by decide

def libOutput : Output := ⟨ascii "libfoo", ascii "rlib", dotless_rlib, ascii "1", 420⟩

def libFiles (out : Bytes) : List (Bytes × File) :=
  [(joinPath out (ascii "foo.d"),
      ⟨depInfoText [joinPath out (ascii "libfoo.rlib")] [ascii "/w/lib.rs"] [], 420⟩),
    (joinPath out (ascii "libfoo.rlib"), libOutput.file)]

def libCompile : Compile := ⟨0, [], Host.holding (libFiles (ascii "/b")) (by decide)⟩

def hashCompile : Compile := ⟨0, [], Host.holding (libFiles (ascii "#b")) (by decide)⟩

def libPuts (out : Bytes) (run : Compile) : List (Bytes × Bytes) :=
  (libRun out).puts Build.zeroSum [49]
    (depInfoText [joinPath out (ascii "libfoo.rlib")] [ascii "/w/lib.rs"] []) run

def libCache (out : Bytes) (run : Compile) : Cache := fun key => (libPuts out run).lookup key

theorem mem_of_lookup {puts : List (Bytes × Bytes)} {key value : Bytes}
    (h : puts.lookup key = some value) : (key, value) ∈ puts := by
  obtain ⟨front, back, rfl, -⟩ := lookup_eq_some_iff.mp h
  exact mem_append_right _ mem_cons_self

end Corepkgs.Jig.RustcMode
