import Corepkgs.Jig.Store
/-!
# The compiler driver

`driver.cc`: what turns the words a build system gives to `cc` into the command
line of the real compiler.  The driver puts its own words before and after the
user's, and some words of the user's are taken out or respelled on the way,
depending on the binary format.
-/

namespace Corepkgs.Jig

open Lib

inductive Language where
  | c
  | cxx
  | fortran
  deriving DecidableEq, Repr

inductive BinFmt where
  | elf
  | machO
  | coff
  deriving DecidableEq, Repr

structure PackageCcFlags where
  cflags : List Bytes
  cxxflags : List Bytes
  ldflags : List Bytes

structure DriverConf where
  cc : Bytes
  fc : Bytes
  binfmt : BinFmt
  libc : Bytes
  interp : Bytes
  crt : Bytes
  runtimes : Bytes
  flags : List Bytes
  cxxflags : List Bytes
  fflags : List Bytes
  prefixMap : List Bytes
  package : PackageCcFlags
  /-- Without a configuration only `cc` is set. -/
  present : Bool

structure DriverEnv where
  /-- `PKGS_PREFIX_MAP` -/
  prefixMap : Option Bytes
  existing : Bytes → Bool
  /-- `fs::canonical`, `none` on an error. -/
  canonical : Bytes → Option Bytes

/-! ## Paths -/

def fileName (p : Bytes) : Bytes := (p.reverse.takeWhile (· ≠ 47)).reverse

def parentPath (p : Bytes) : Bytes :=
  let parent := ((p.reverse.dropWhile (· ≠ 47)).dropWhile (· = 47)).reverse
  if parent = [] ∧ p.head? = some 47 then [47] else parent

def startsWith (text : String) (arg : Bytes) : Bool := (ascii text).isPrefixOf arg

def endsWith (text : String) (arg : Bytes) : Bool := (ascii text).isSuffixOf arg

def containsText (pat : String) : Bytes → Bool
  | [] => pat.isEmpty
  | c :: text => (ascii pat).isPrefixOf (c :: text) || containsText pat text

def afterLast (pat : Bytes) : Bytes → Option Bytes
  | [] => none
  | c :: text =>
    match afterLast pat text with
    | some tail => some tail
    | none => if pat.isPrefixOf (c :: text) then some ((c :: text).drop pat.length) else none

/-- `"libfoo.so"` or `"libfoo.so.1.2"` -/
def isSharedLibName (base : Bytes) : Bool :=
  endsWith ".dylib" base ||
    match afterLast (ascii ".so") base with
    | none => false
    | some [] => true
    | some (c :: tail) => c == 46 && tail.all fun b => b == 46 || (48 ≤ b.toNat && b.toNat ≤ 57)

def realDir (env : DriverEnv) (path : Bytes) : Bytes := (env.canonical path).getD path

def isHostDir (path : Bytes) : Bool :=
  startsWith "/usr" path || startsWith "/lib" path || startsWith "/opt" path

/-! ## RUNPATH -/

def kRunpathSlack : Nat := 48
def kNeededSlack : Nat := 80
def kInterpSlack : Nat := 12

structure RunpathList where
  verbatim : Bytes
  entries : List Bytes

namespace RunpathList

variable (r : RunpathList)

def add (dir : Bytes) : RunpathList :=
  if isHostDir dir ∨ dir ∈ r.entries then r else { r with entries := r.entries ++ [dir] }

/-- The build system's own text, empty elements and duplicates included, host directories not. -/
def addVerbatim (rpath : Bytes) : RunpathList :=
  (rpath.splitOn 58).foldl
    (fun r part => if isHostDir part then r
      else { r with verbatim := r.verbatim ++ part ++ [58] }) r

def render (libs : Nat) : Bytes :=
  let stores := r.entries.length + r.verbatim.count 58
  r.verbatim ++ r.entries.flatMap (· ++ ascii "/.:") ++ ascii "/" ++
    List.replicate (max stores 1 * kRunpathSlack + libs * kNeededSlack - 1) 95

end RunpathList

/-- `-Wl,-rpath` in all the spellings build systems use: the value and the words after it. -/
def takeRpathArg : List Bytes → Option (Bytes × List Bytes)
  | [] => none
  | arg :: rest =>
    match (if arg = ascii "-Wl,-rpath" ∨ arg = ascii "-Wl,--rpath" then
        match rest with
        | next :: rest => if startsWith "-Wl," next then some (next.drop 4, rest) else none
        | [] => none
      else none) with
    | some taken => some taken
    | none =>
      match ["-Wl,-rpath,", "-Wl,--rpath,", "-Wl,-rpath=", "-Wl,--rpath="].find?
        (startsWith · arg) with
      | some spelling => some (arg.drop (ascii spelling).length, rest)
      | none =>
        match rest with
        | flag :: again :: value :: rest =>
          if arg = ascii "-Xlinker" ∧ (flag = ascii "-rpath" ∨ flag = ascii "--rpath") ∧
              again = ascii "-Xlinker" then some (value, rest)
          else none
        | _ => none

/-- `"-Lx"` or `"-L x"`: the value, if the first word is that flag. -/
def flagValue (flag : String) : List Bytes → Option Bytes
  | [] => none
  | arg :: rest =>
    if startsWith flag arg then
      if (ascii flag).length < arg.length then some (arg.drop (ascii flag).length) else rest.head?
    else none

def isRuntimeLib (lib : Bytes) : Bool :=
  [ascii "c++", ascii "stdc++", ascii "gcc_s", ascii "unwind", ascii ":libunwind.so"].contains lib

structure LinkScan where
  libDirs : List Bytes
  libs : List Bytes
  linksRuntime : Bool
  runpath : RunpathList

def LinkScan.visit (dir : Bytes) (env : DriverEnv) (s : LinkScan) : List Bytes → LinkScan
  | [] => s
  | arg :: rest =>
    let s :=
      match flagValue "-L" (arg :: rest), flagValue "-l" (arg :: rest) with
      | some d, _ => { s with libDirs := s.libDirs ++ [d] }
      | none, some lib =>
        { s with libs := s.libs ++ [lib], linksRuntime := s.linksRuntime || isRuntimeLib lib }
      | none, none =>
        if isStorePath dir arg && isSharedLibName (fileName arg) then
          { s with runpath := s.runpath.add (parentPath (realDir env arg)) }
        else s
    let s := if arg = ascii "-nostdlib++" ∨ arg = ascii "-nostdlib" then
      { s with linksRuntime := false }
      else s
    LinkScan.visit dir env s rest

def provides (env : DriverEnv) (libs : List Bytes) (dir : Bytes) : Bool :=
  libs.any fun lib => env.existing (dir ++ ascii "/lib" ++ lib ++ ascii ".so") ||
    env.existing (dir ++ ascii "/lib" ++ lib ++ ascii ".dylib")

/-- The runpath with the store directories a link needs, and the number of `-l`. -/
def addRunpathEntries (dir : Bytes) (env : DriverEnv) (conf : DriverConf) (cxx : Bool)
    (args : List Bytes) (runpath : RunpathList) : RunpathList × Nat :=
  let s := LinkScan.visit dir env
    { libDirs := [], libs := [], linksRuntime := cxx, runpath := runpath } args
  let runpath := s.libDirs.foldl
    (fun r d =>
      let real := realDir env d
      if isStorePath dir real && provides env s.libs real then r.add real else r) s.runpath
  let runpath := if s.linksRuntime ∧ conf.runtimes ≠ [] then runpath.add conf.runtimes else runpath
  (runpath.add (conf.libc ++ ascii "/lib"), s.libs.length)

/-! ## The user's words -/

def isOutputOnlyMode (arg : Bytes) : Bool :=
  [ascii "-c", ascii "-E", ascii "-S", ascii "-M", ascii "-MM", ascii "-fsyntax-only",
    ascii "-###"].contains arg

def refusesLinkPolicy (arg : Bytes) : Bool :=
  [ascii "-static", ascii "-static-pie", ascii "-r", ascii "-Wl,-r",
    ascii "-nostartfiles"].contains arg

def isFortifyArg (arg : Bytes) : Bool :=
  startsWith "-D_FORTIFY_SOURCE" arg || arg == ascii "-U_FORTIFY_SOURCE" ||
    startsWith "-Wp,-D_FORTIFY_SOURCE" arg || startsWith "-Wp,-U_FORTIFY_SOURCE" arg

def isPicArg (arg : Bytes) : Bool :=
  [ascii "-fPIC", ascii "-fpic", ascii "-fPIE", ascii "-fpie", ascii "-fno-PIC", ascii "-fno-pic",
    ascii "-pie"].contains arg

structure UserArgs where
  args : List Bytes
  runpath : RunpathList
  linking : Bool
  haveInput : Bool
  shared : Bool
  noPolicy : Bool
  optimizes : Bool
  setsFortify : Bool

/-- ELF: the build system's dynamic linker request is dropped. -/
def elfArg (arg : Bytes) : Option Bytes :=
  if startsWith "-Wl,--dynamic-linker" arg || startsWith "-Wl,-dynamic-linker" arg then none
  else some arg

/-- COFF: no PIC flags, and no C++ older than C++14. -/
def coffArg (arg : Bytes) : Option Bytes :=
  if isPicArg arg then none
  else if ["++98", "++03", "++0x", "++11"].any fun old =>
      (startsWith "-std=c" arg || startsWith "-std=gnu" arg) && endsWith old arg then
    some (arg.take (arg.length - 2) ++ ascii "14")
  else some arg

/-- `policy.arg`: a word as passed on, `none` drops it. -/
def BinFmt.arg : BinFmt → Bytes → Option Bytes
  | .elf => elfArg
  | .machO => some
  | .coff => coffArg

def UserArgs.visit (user : UserArgs) (binfmt : BinFmt) (arg : Bytes) : UserArgs :=
  match binfmt.arg arg with
  | none => user
  | some kept =>
    { args := user.args ++ [kept]
      runpath := user.runpath
      linking := user.linking && !isOutputOnlyMode arg
      shared := user.shared || arg == ascii "-shared" || arg == ascii "-dynamiclib"
      noPolicy := user.noPolicy || refusesLinkPolicy arg
      haveInput := user.haveInput || arg.head? != some 45
      setsFortify := user.setsFortify || isFortifyArg arg
      optimizes := if startsWith "-O" arg then arg != ascii "-O0" else user.optimizes }

/-- The loop of `ScanUserArgs`; only ELF takes rpath requests. -/
def scanFrom (binfmt : BinFmt) : Nat → UserArgs → List Bytes → UserArgs
  | 0, user, _ => user
  | _ + 1, user, [] => user
  | n + 1, user, arg :: rest =>
    match (if binfmt = .elf then takeRpathArg (arg :: rest) else none) with
    | some (rpath, rest) =>
      scanFrom binfmt n { user with runpath := user.runpath.addVerbatim rpath } rest
    | none => scanFrom binfmt n (user.visit binfmt arg) rest

def scanUserArgs (binfmt : BinFmt) (raw : List Bytes) : UserArgs :=
  scanFrom binfmt raw.length
    { args := [], runpath := { verbatim := [], entries := [] }, linking := true, haveInput := false,
      shared := false, noPolicy := false, optimizes := true, setsFortify := false } raw

/-! ## Policies -/

def BinFmt.always : BinFmt → List Bytes
  | .elf => [ascii "-Wl,--build-id=sha1",
      ascii "-Wl,--package-metadata=\x7b\"type\":\"repkgs\"\x7d"]
  | _ => []

/-- RUNPATH over the store directories, our dynamic linker, the interp stub. -/
def elfLink (dir : Bytes) (env : DriverEnv) (conf : DriverConf) (cxx : Bool) (user : UserArgs) :
    List Bytes :=
  let (runpath, libs) :=
    addRunpathEntries dir env conf cxx (user.args ++ conf.package.ldflags) user.runpath
  let words := [ascii "-Wl,--undefined-version", ascii "-Wl,-rpath," ++ runpath.render libs,
    ascii "-Wl,--enable-new-dtags"]
  let libcLib := conf.libc ++ ascii "/lib/"
  if user.shared then words
  else if conf.crt = [] then words ++ [ascii "-Wl,--dynamic-linker=" ++ libcLib ++ conf.interp]
  else words ++ [ascii "-x", ascii "none", conf.crt,
    ascii "-Wl,--dynamic-linker=" ++ libcLib ++
      (List.replicate kInterpSlack (ascii "./")).flatten ++
      conf.interp,
    ascii "-Wl,--export-dynamic-symbol=__reloc_start"]

def BinFmt.link (dir : Bytes) (env : DriverEnv) (conf : DriverConf) (cxx : Bool) (user : UserArgs) :
    List Bytes :=
  match conf.binfmt with
  | .elf => elfLink dir env conf cxx user
  | .machO => [ascii "-Wl,-headerpad_max_install_names"]
  | .coff => []

def toLower (b : UInt8) : UInt8 := if 65 ≤ b.toNat ∧ b.toNat ≤ 90 then b + 32 else b

def flagValues (flag : String) : List Bytes → List Bytes
  | [] => []
  | arg :: rest => (flagValue flag (arg :: rest)).toList ++ flagValues flag rest

/-- A `-l` that no `-L` directory has as spelled is lower-cased. -/
def coffLibs (env : DriverEnv) (conf : DriverConf) (args : List Bytes) : List Bytes :=
  let dirs := flagValues "-L" args ++ flagValues "-L" conf.package.ldflags
  let present := fun name : Bytes => dirs.any fun d =>
    env.existing (d ++ ascii "/lib" ++ name ++ ascii ".dll.a") ||
      env.existing (d ++ ascii "/lib" ++ name ++ ascii ".a") ||
        env.existing (d ++ ascii "/" ++ name)
  args.map fun arg =>
    if !startsWith "-l" arg || arg.contains 47 || present (arg.drop 2) then arg
    else arg.take 2 ++ (arg.drop 2).map toLower

/-! ## The command line -/

def headWords (env : DriverEnv) (conf : DriverConf) (lang : Language) (user : UserArgs) :
    List Bytes :=
  let fortran := lang = .fortran
  [ascii (if fortran then "-Qunused-arguments" else "--start-no-unused-arguments")] ++
    (if fortran then conf.fflags else conf.flags) ++
    (if fortran then [] else
      conf.package.cflags.filter fun flag =>
        !(isFortifyArg flag && (user.setsFortify || !user.optimizes))) ++
    (if lang = .cxx then [ascii "--driver-mode=g++"] ++ conf.cxxflags ++ conf.package.cxxflags
      else []) ++
    (if fortran then [] else
      (conf.prefixMap ++ split (env.prefixMap.getD []) 58).map (ascii "-ffile-prefix-map=" ++ ·)) ++
    conf.binfmt.always ++ (if fortran then [] else [ascii "--end-no-unused-arguments"])

def passedWords (env : DriverEnv) (conf : DriverConf) (user : UserArgs) : List Bytes :=
  if user.linking ∧ user.haveInput ∧ conf.binfmt = .coff then coffLibs env conf user.args
    else user.args

def tailWords (dir : Bytes) (env : DriverEnv) (conf : DriverConf) (lang : Language)
    (user : UserArgs) :
    List Bytes :=
  if user.linking ∧ user.haveInput then
    conf.package.ldflags ++
      if user.noPolicy then []
      else BinFmt.link dir env conf (lang == .cxx) { user with args := passedWords env conf user }
  else []

def buildDriverArgs (dir : Bytes) (env : DriverEnv) (conf : DriverConf) (lang : Language)
    (raw : List Bytes) : List Bytes :=
  let user := scanUserArgs conf.binfmt raw
  headWords env conf lang user ++ passedWords env conf user ++ tailWords dir env conf lang user

end Corepkgs.Jig
