import Corepkgs.Jig.Driver
import Mathlib
/-!
# Invocations of `cc`

`cc_mode.cc` up to the request key: the user's words are read into an
`Invocation`, the driver makes the real command line of them, and
`ComputeRequestKey` feeds the hasher what the compile depends on.

The loop of `ParseInvocation` takes one option with its values at a time.  Here
the words are first cut into such chunks (`Chunk`) and the invocation is folded
over them.
-/

namespace Corepkgs.Jig

open Lib

/-! ## Response files -/

def isSpace (b : UInt8) : Bool := b == 32 || (9 ≤ b.toNat && b.toNat ≤ 13)

/-- The loop of `TokenizeGnu`; `quote` is the open quote, if any. -/
def tokenizeFrom (word : Bytes) (inWord : Bool) (quote : Option UInt8) : Bytes → List Bytes
  | [] => if inWord then [word] else []
  -- a backslash makes the next character literal
  | 92 :: next :: text => tokenizeFrom (word ++ [next]) true quote text
  | chr :: text =>
    if quote = some chr then tokenizeFrom word inWord none text
    else if quote = none ∧ (chr = 39 ∨ chr = 34) then tokenizeFrom word true (some chr) text
    else if quote = none ∧ isSpace chr then
      if inWord then word :: tokenizeFrom [] false none text else tokenizeFrom word false none text
    else tokenizeFrom (word ++ [chr]) true quote text

def tokenizeGnu (text : Bytes) : List Bytes := tokenizeFrom [] false none text

def expandResponseFiles (files : Files) (args : List Bytes) : List Bytes :=
  args.flatMap fun arg =>
    match (if arg.head? = some 64 then files.read (arg.drop 1) else none) with
    | none => [arg]
    | some body => tokenizeGnu body

/-! ## Kinds of words -/

def hasSuffix (suffixes : List String) (arg : Bytes) : Bool :=
  suffixes.any fun suffix => (ascii suffix).length < arg.length && endsWith suffix arg

def isSourceFile (arg : Bytes) : Bool :=
  !startsWith "-" arg &&
    hasSuffix [".c", ".cc", ".cpp", ".cxx", ".c++", ".C", ".S", ".s", ".sx", ".m"] arg

def isObjectInput (arg : Bytes) : Bool :=
  !startsWith "-" arg &&
    (hasSuffix [".o", ".os", ".lo", ".a", ".so", ".obj"] arg || containsText ".so." arg)

def hasLinkerSideOutput (arg : Bytes) : Bool :=
  (startsWith "-Wl," arg || startsWith "-Xlinker" arg) &&
    (["-Map", "--print-map", ",-M,", "--dependency-file", "--out-implib", "--trace", ",-t,",
        "--verbose", "--print-gc-sections", "--stats"].any (containsText · arg) ||
      endsWith ",-M" arg || endsWith ",-t" arg)

/-- Options after which caching is pointless. -/
def isNoOutputOption (arg : Bytes) : Bool :=
  [ascii "-M", ascii "-MM", ascii "-", ascii "-v", ascii "-V", ascii "--version", ascii "-###",
    ascii "-fsyntax-only"].contains arg ||
    startsWith "-print" arg || startsWith "--print" arg || startsWith "-dump" arg

/-! ## Paths of outputs -/

def pathElements (p : Bytes) : List Bytes :=
  (if p.head? = some 47 then [[47]] else []) ++ Text.pieces 47 p ++
    (if p.getLast? = some 47 ∧ Text.pieces 47 p ≠ [] then [[]] else [])

def extension (p : Bytes) : Bytes :=
  let name := fileName p
  let tail := (name.reverse.takeWhile (· ≠ 46)).reverse
  if name = ascii "." ∨ name = ascii ".." ∨ 46 ∉ name ∨ tail.length + 1 = name.length then []
  else 46 :: tail

def stem (p : Bytes) : Bytes :=
  (fileName p).take ((fileName p).length - (extension p).length)

def replaceExtension (p ext : Bytes) : Bytes := p.take (p.length - (extension p).length) ++ ext

def joinPath (dir name : Bytes) : Bytes :=
  if dir = [] ∨ dir.getLast? = some 47 then dir ++ name else dir ++ 47 :: name

/-! ## Chunks -/

inductive Chunk where
  | depfile (words : List Bytes) (file target : Option Bytes)
  /-- `-c`, `-S` or `-E` -/
  | stop (arg : Bytes)
  | output (words : List Bytes) (value : Bytes)
  | query (arg : Bytes)
  | source (arg : Bytes)
  | pch (words : List Bytes) (file : Option Bytes)
  | object (arg : Bytes)
  | other (arg : Bytes)
  deriving DecidableEq, Repr

/-- Depfile options stay out of the key. -/
def takeDepfileOption (arg : Bytes) (rest : List Bytes) : Option (Chunk × List Bytes) :=
  if arg = ascii "-MF" then
    match rest with
    | value :: rest => some (.depfile [arg, value] (some value) none, rest)
    | [] => none
  else if arg = ascii "-MT" ∨ arg = ascii "-MQ" then
    match rest with
    | value :: rest => some (.depfile [arg, value] none (some value), rest)
    | [] => none
  else if startsWith "-Wp,-MD," arg || startsWith "-Wp,-MMD," arg then
    some (.depfile [arg] (some (((arg.drop 5).dropWhile (· ≠ 44)).drop 1)) none, rest)
  else if arg = ascii "-MD" ∨ arg = ascii "-MMD" ∨ arg = ascii "-MP" then
    some (.depfile [arg] none none, rest)
  else none

/-- `-include-pch <file>`: the file is the next word that is not `-Xclang`. -/
def takePchOption (arg : Bytes) (rest : List Bytes) : Option (Chunk × List Bytes) :=
  if arg = ascii "-include-pch" then
    let after := rest.dropWhile (· = ascii "-Xclang")
    some (.pch (arg :: rest.takeWhile (· = ascii "-Xclang") ++ after.head?.toList) after.head?,
      after.drop 1)
  else none

/-- One round of the loop: the chunk that starts at `arg` and the words behind it. -/
def takeChunk (arg : Bytes) (rest : List Bytes) : Chunk × List Bytes :=
  match takeDepfileOption arg rest with
  | some taken => taken
  | none =>
    if arg = ascii "-c" ∨ arg = ascii "-S" ∨ arg = ascii "-E" then (.stop arg, rest)
    else
      match (if arg = ascii "-o" then rest else []) with
      | value :: rest => (.output [arg, value] value, rest)
      | [] =>
        if startsWith "-o" arg && 2 < arg.length then (.output [arg] (arg.drop 2), rest)
        else if isNoOutputOption arg then (.query arg, rest)
        else if isSourceFile arg then (.source arg, rest)
        else
          match takePchOption arg rest with
          | some taken => taken
          | none => if isObjectInput arg then (.object arg, rest) else (.other arg, rest)

def chunksFrom : Nat → List Bytes → List Chunk
  | 0, _ => []
  | _ + 1, [] => []
  | n + 1, arg :: rest =>
    let taken := takeChunk arg rest
    taken.1 :: chunksFrom n taken.2

def chunks (args : List Bytes) : List Chunk := chunksFrom args.length args

/-! ## ParseInvocation -/

structure Invocation where
  args : List Bytes
  /-- What influences the output: all but `-o`, depfile options, the source. -/
  keyArgs : List Bytes
  source : Bytes
  inputs : List Bytes
  pch : List Bytes
  output : Bytes
  compileOnly : Bool
  toStdout : Bool
  linkOne : Bool
  link : Bool
  cacheable : Bool
  query : Bool
  wantsDepfile : Bool
  depfile : Bytes
  depfileTarget : Bytes
  deriving DecidableEq, Repr

structure Parsing where
  inv : Invocation
  objects : Bool
  sources : Nat
  stop : Option UInt8

/-- `-Wl,@rsp`, linker side outputs and precompiled headers are never replayed. -/
def replayable (arg : Bytes) : Bool :=
  !startsWith "@" arg && !containsText ",@" arg && !hasLinkerSideOutput arg &&
    !endsWith "-header" arg

def Parsing.step (p : Parsing) : Chunk → Parsing
  | .depfile _ file target =>
    { p with inv := { p.inv with
        depfile := file.getD p.inv.depfile
        depfileTarget := target.getD p.inv.depfileTarget
        wantsDepfile := true } }
  | .stop arg =>
    { p with
      inv := { p.inv with compileOnly := true, keyArgs := p.inv.keyArgs ++ [arg] }
      stop := arg[1]? }
  | .output _ value => { p with inv := { p.inv with output := value } }
  | .query _ => { p with inv := { p.inv with cacheable := false, query := true } }
  | .source arg => { p with inv := { p.inv with source := arg }, sources := p.sources + 1 }
  | .pch words file =>
    { p with inv := { p.inv with
        keyArgs := p.inv.keyArgs ++ words
        pch := p.inv.pch ++ file.toList } }
  | .object arg =>
    { p with
      inv := { p.inv with inputs := p.inv.inputs ++ [arg], keyArgs := p.inv.keyArgs ++ [arg] }
      objects := true }
  | .other arg =>
    { p with
      inv := { p.inv with
        cacheable := p.inv.cacheable && replayable arg
        keyArgs := p.inv.keyArgs ++ [arg] }
      objects := p.objects || arg == ascii "-shared" || arg == ascii "-r" }

structure Process where
  cwd : Bytes
  /-- `$TMPDIR`, or `/tmp` -/
  tmpDir : Bytes
  pid : Nat
  libraryPath : Bytes

def classifyCompile (proc : Process) (p : Parsing) : Invocation :=
  let inv := { p.inv with
    cacheable := p.inv.cacheable && p.sources == 1
    query := p.inv.query ||
      (p.stop == some 69 && (p.sources == 0 || p.inv.source == ascii "/dev/null")) }
  if p.stop = some 69 ∧ (inv.output = [] ∨ pathElements inv.output = pathElements (ascii "-")) then
    { inv with
      toStdout := true
      output := joinPath proc.tmpDir (ascii "jig" ++ decimal proc.pid ++ ascii ".i") }
  else if inv.output = [] then
    { inv with output := stem inv.source ++ ascii (if p.stop = some 83 then ".s" else ".o") }
  else inv

def classifyLink (p : Parsing) : Invocation :=
  let linkOne := !p.objects && p.sources == 1
  let link := p.objects && p.sources == 0 && !p.inv.inputs.isEmpty
  let output := if p.inv.output = [] then ascii "a.out" else p.inv.output
  { p.inv with
    linkOne := linkOne
    link := link
    cacheable := p.inv.cacheable && (linkOne || link)
    output := output
    source := if link then fileName output else p.inv.source }

def nameDepfile (inv : Invocation) : Invocation :=
  if inv.wantsDepfile ∧ inv.depfile = [] then
    { inv with depfile := replaceExtension inv.output (ascii ".d") }
  else inv

def classify (proc : Process) (p : Parsing) : Invocation :=
  nameDepfile (if p.inv.compileOnly then classifyCompile proc p else classifyLink p)

def Parsing.start (args : List Bytes) : Parsing where
  inv :=
    { args := args, keyArgs := [], source := [], inputs := [], pch := [], output := [],
      compileOnly := false, toStdout := false, linkOne := false, link := false, cacheable := true,
      query := false, wantsDepfile := false, depfile := [], depfileTarget := [] }
  objects := false
  sources := 0
  stop := none

def parsed (args : List Bytes) : Parsing := (chunks args).foldl Parsing.step (.start args)

/-- A flag probe that writes to `/dev/null`, and precompiled headers, are not cached. -/
def cacheableOutput (output : Bytes) : Bool :=
  extension output != ascii ".pch" && extension output != ascii ".gch" &&
    pathElements output != pathElements (ascii "/dev/null")

def Parsing.checkOutput (p : Parsing) : Parsing :=
  { p with inv := { p.inv with cacheable := p.inv.cacheable && cacheableOutput p.inv.output } }

def parseInvocation (proc : Process) (args : List Bytes) : Invocation :=
  classify proc (parsed args).checkOutput

/-! ## RunCcMode -/

/-- One run of `cc`: its words, what the driver is configured to, and the world it runs in. -/
structure Request where
  rawArgs : List Bytes
  conf : DriverConf
  lang : Language
  store : Store
  files : Files
  env : DriverEnv
  proc : Process

namespace Request

variable (r : Request)

def userArgs : List Bytes := expandResponseFiles r.files r.rawArgs

def compiler : Bytes := if r.lang = .fortran then r.conf.fc else r.conf.cc

def before : List Bytes :=
  if r.conf.present then
    headWords r.env r.conf r.lang (scanUserArgs r.conf.binfmt r.userArgs) else []

def passed : List Bytes :=
  if r.conf.present then passedWords r.env r.conf (scanUserArgs r.conf.binfmt r.userArgs)
  else r.userArgs

def after : List Bytes :=
  if r.conf.present then
    tailWords r.store.dir r.env r.conf r.lang (scanUserArgs r.conf.binfmt r.userArgs)
  else []

/-- The invocation on what the build system said.  Only ELF links report their inputs, and Fortran
is not cached. -/
def classified : Invocation :=
  let inv := parseInvocation r.proc r.userArgs
  { inv with cacheable := inv.cacheable &&
      !(((inv.link || inv.linkOne) && r.conf.binfmt != .elf) || r.lang == .fortran) }

/-- The invocation `RunCcMode` looks up, compiles and stores: the driver's words are part of the key
unless the user wrote them as well. -/
def invocation : Invocation :=
  if r.conf.present then
    let args := buildDriverArgs r.store.dir r.env r.conf r.lang r.userArgs
    { r.classified with
      args := args
      keyArgs := r.classified.keyArgs ++ args.filter (· ∉ r.userArgs) }
  else r.classified

def toolId (path : Bytes) : Bytes :=
  r.store.key <|
    match r.env.canonical (parentPath path) with
    | none => path
    | some dir => joinPath dir (fileName path)

def maskForReplay (text : Bytes) : Bytes :=
  if r.store.byContent then maskHashes r.store.dir text else text

/-- A word of the command line in the request key: paths a link embeds are not masked. -/
def spell (links : Bool) (arg : Bytes) : Bytes :=
  if links && (containsText "dynamic-linker" arg || containsText "rpath" arg) then
    r.store.maskOut arg
  else r.store.key (r.store.maskOut arg)

def keyFields (inv : Invocation) (primary : Bytes) : List Bytes :=
  let links := inv.linkOne || inv.link
  [ascii "cc=" ++ r.toolId r.compiler, ascii "cwd=" ++ r.store.key r.proc.cwd] ++
    (if inv.link then [] else [ascii "src=" ++ r.store.key (r.store.maskOut inv.source)]) ++
    [ascii (if inv.link then "mode=link" else if inv.linkOne then "mode=link-one"
      else "mode=compile")] ++
    (if links then [ascii "LIBRARY_PATH=" ++ r.maskForReplay r.proc.libraryPath] else []) ++
    inv.keyArgs.map (r.spell links) ++ [r.store.maskOut primary]

end Request

end Corepkgs.Jig
