import Corepkgs.Jig.CcMode
import Corepkgs.Lib.Stream
/-!
# jig as Go's cache program

`gocache_mode.cc`: `go build` writes one request a line to the program's
standard input, a put followed by its body as one more line, and a killed build
leaves the stream cut anywhere.  What the program stores is the effect of the
lines it was handed, the last of which need not be complete.
-/

namespace Corepkgs.Jig.GoCache

open Lib Lib.Text List

/-! ## Base64 -/

def kAlphabet : Bytes := ascii "ABCDEFGHIJKLMNOPQRSTUVWXYZabcdefghijklmnopqrstuvwxyz0123456789+/"

structure Decoder where
  acc : Nat
  bits : Nat
  out : Bytes

/-- One character: what is not of the alphabet is skipped. -/
def Decoder.feed (d : Decoder) (chr : UInt8) : Decoder :=
  match kAlphabet.idxOf? chr with
  | none => d
  | some sextet =>
    let acc := d.acc * 64 + sextet
    let bits := d.bits + 6
    if 8 ≤ bits then
      ⟨acc % 2 ^ (bits - 8), bits - 8, d.out ++ [UInt8.ofNat (acc / 2 ^ (bits - 8))]⟩
    else ⟨acc % 2 ^ bits, bits, d.out⟩

def base64Decode (text : Bytes) : Bytes := (text.foldl Decoder.feed ⟨0, 0, []⟩).out

/-! ## Fields of a request -/

def pattern (key : Bytes) : Bytes := 34 :: (key ++ [34, 58])

def jsonField (line key : Bytes) : Bytes :=
  match afterFirst (pattern key) line with
  | none => []
  | some (34 :: value) => if 34 ∈ value then value.takeWhile (· ≠ 34) else []
  | some value => value.takeWhile fun b => b ≠ 44 && b ≠ 125

/-- The unsigned value, read as a 64-bit signed one. -/
def jsonInt (line key : Bytes) : Int :=
  let value := (parseUint 10 (jsonField line key)).getD 0
  if value < 2 ^ 63 then value else value - 2 ^ 64

def kId : Bytes := ascii "ID"
def kCommand : Bytes := ascii "Command"
def kActionId : Bytes := ascii "ActionID"
def kOutputId : Bytes := ascii "OutputID"
def kBodySize : Bytes := ascii "BodySize"
def kGet : Bytes := ascii "get"
def kPut : Bytes := ascii "put"
def kClose : Bytes := ascii "close"

/-! ## The program -/

def goAction (actionHex : Bytes) : Bytes := ascii "go/a/" ++ actionHex

def goOutput (outputHex : Bytes) : Bytes := ascii "go/o/" ++ outputHex

structure GoSession where
  /-- The connection to the daemon was made. -/
  live : Bool
  dir : Bytes

inductive Effect where
  /-- A line on standard output. -/
  | reply (text : Bytes)
  /-- `HandleGet`, whose answer is the cache's. -/
  | get (requestId : Int) (action : Bytes)
  | writeFile (path body : Bytes)
  /-- `cache.Put` -/
  | put (slot value : Bytes)
  deriving DecidableEq

def Effect.stores : Effect → Bool
  | .writeFile _ _ | .put _ _ => true
  | .reply _ | .get _ _ => false

structure Put where
  requestId : Int
  action : Bytes
  outputId : Bytes
  bodySize : Int
  sized : 0 < bodySize

def signed (n : Int) : Bytes :=
  if n < 0 then 45 :: decimal n.natAbs else decimal n.natAbs

def answer (requestId : Int) (more : Bytes) : Bytes :=
  ascii "\x7b\"ID\":" ++ signed requestId ++ more ++ ascii "\x7d"

def storeBody (session : GoSession) (requestId : Int) (action outputId body : Bytes) :
    List Effect :=
  let diskPath := joinPath session.dir (hexEncode outputId)
  .writeFile diskPath body ::
    (if session.live then
      [.put (goOutput (hexEncode outputId)) body, .put (goAction action) outputId] else []) ++
    [.reply (answer requestId (ascii ",\"DiskPath\":\"" ++ diskPath ++ ascii "\""))]

/-- The body in its line, `"base64"`; empty when the line is anything else. -/
def bodyOf (bodyLine : Bytes) : Bytes :=
  if 2 ≤ bodyLine.length ∧ bodyLine.head? = some 34 ∧ bodyLine.getLast? = some 34 then
    base64Decode (bodyLine.drop 1).dropLast
  else []

def finishPut (session : GoSession) (put : Put) (bodyLine : Bytes) : List Effect :=
  let body := bodyOf bodyLine
  if body.length ≠ put.bodySize then
    [.reply (answer put.requestId (ascii ",\"Err\":\"body: got " ++ decimal body.length ++
      ascii " of " ++ signed put.bodySize ++ ascii " bytes\""))]
  else storeBody session put.requestId put.action put.outputId body

inductive Phase where
  | ready
  /-- In `HandlePut`, before the body line. -/
  | body (put : Put)
  | closed

def request (session : GoSession) (line : Bytes) : Phase × List Effect :=
  let requestId := jsonInt line kId
  let command := jsonField line kCommand
  let action := hexEncode (base64Decode (jsonField line kActionId))
  if command = kClose then (.closed, [.reply (answer requestId [])])
  else if command = kGet then (.ready, [.get requestId action])
  else if command = kPut then
    let outputId := base64Decode (jsonField line kOutputId)
    if h : 0 < jsonInt line kBodySize then
      (.body ⟨requestId, action, outputId, jsonInt line kBodySize, h⟩, [])
    else (.ready, storeBody session requestId action outputId [])
  else (.ready, [])

/-- One line: blank ones are skipped before a request and before a body. -/
def step (session : GoSession) : Phase → Bytes → Phase × List Effect
  | phase, [] => (phase, [])
  | .ready, line => request session line
  | .body put, line => (.ready, finishPut session put line)
  | .closed, _ => (.closed, [])

def steps (session : GoSession) : Phase → List Bytes → Phase × List Effect
  | phase, [] => (phase, [])
  | phase, line :: lines =>
    let (phase', effects) := step session phase line
    let (last, more) := steps session phase' lines
    (last, effects ++ more)

/-- The end of the stream: `HandlePut` goes on without a body line. -/
def atEnd (session : GoSession) : Phase → List Effect
  | .body put => finishPut session put []
  | .ready | .closed => []

def linesOf : Nat → Stream → List Bytes
  | 0, _ => []
  | n + 1, input =>
    match Stream.upToNewline [] input.pending input.reads with
    | (line, some input') => line :: linesOf n input'
    | (line, none) => if line = [] then [] else [line]

/-- `RunGoCacheProg`: every line takes a byte at least off the stream. -/
def runGoCacheProg (session : GoSession) (input : Stream) : List Effect :=
  let (phase, effects) := steps session .ready (linesOf (input.rest.length + 1) input)
  effects ++ atEnd session phase

def stored (session : GoSession) (input : Stream) : List Effect :=
  (runGoCacheProg session input).filter Effect.stores

/-! ## Reading -/

theorem linesOf_eq {n : Nat} {input : Stream} (h : input.rest.length < n) :
    linesOf n input = textLines input.rest := by
  induction n generalizing input with
  | zero => omega
  | succ n ih =>
    rw [linesOf]
    by_cases hmem : 10 ∈ input.rest
    · obtain ⟨l, tail, htext, hl⟩ := eq_append_cons_of_mem hmem
      obtain ⟨s, hs, hrest⟩ := Stream.upToNewline_line hl tail input.reads [] input.pending htext
      have hlt : s.rest.length < n := by
        rw [htext, length_append, length_cons] at h
        rw [hrest]
        omega
      rw [hs, htext, textLines_line hl, ← hrest, ← ih hlt]
      rfl
    · rw [Stream.upToNewline_end input.reads [] input.pending hmem]
      show (if input.rest = [] then [] else [input.rest]) = textLines input.rest
      split_ifs with hnil
      · rw [hnil, textLines_nil]
      · rw [textLines_of_notMem hmem hnil]

/-- What a text of requests does from a phase on. -/
def effectsFrom (session : GoSession) (phase : Phase) (text : Bytes) : List Effect :=
  (steps session phase (textLines text)).2 ++ atEnd session (steps session phase (textLines text)).1

variable (session : GoSession)

/-- Only the bytes of the stream matter, not how `read` cuts them. -/
theorem runGoCacheProg_eq (input : Stream) :
    runGoCacheProg session input = effectsFrom session .ready input.rest := by
  rw [runGoCacheProg, linesOf_eq (Nat.lt_succ_self _), effectsFrom]

variable (phase : Phase)

theorem steps_cons (l : Bytes) (ls : List Bytes) :
    steps session phase (l :: ls) =
      ((steps session (step session phase l).1 ls).1,
        (step session phase l).2 ++ (steps session (step session phase l).1 ls).2) := rfl

theorem steps_append (ls ls' : List Bytes) :
    steps session phase (ls ++ ls') =
      ((steps session (steps session phase ls).1 ls').1,
        (steps session phase ls).2 ++ (steps session (steps session phase ls).1 ls').2) := by
  induction ls generalizing phase with
  | nil => rfl
  | cons l ls ih => rw [cons_append, steps_cons, steps_cons, ih, append_assoc]

theorem steps_closed (ls : List Bytes) :
    steps session .closed ls = (.closed, []) := by
  induction ls with
  | nil => rfl
  | cons l ls ih =>
    have hstep : step session .closed l = (.closed, []) := by
      cases l with
      | nil | cons => rfl
    rw [steps_cons, hstep, ih, nil_append]

theorem steps_blank (n : Nat) :
    steps session phase (replicate n []) = (phase, []) := by
  induction n with
  | zero => rfl
  | succ n ih =>
    have hstep : step session phase [] = (phase, []) := by
      cases phase with
      | ready | body | closed => rfl
    rw [replicate_succ, steps_cons, hstep, ih, nil_append]

/-- A put that is missing its body line stores nothing. -/
theorem filter_finishPut_of_torn (put : Put) {bodyLine : Bytes}
    (h : bodyOf bodyLine = []) : (finishPut session put bodyLine).filter Effect.stores = [] := by
  have hsized := put.sized
  rw [finishPut, h, if_pos (by simp only [length_nil]; omega)]
  rfl

theorem filter_atEnd :
    (atEnd session phase).filter Effect.stores = [] := by
  cases phase with
  | body put => exact filter_finishPut_of_torn session put rfl
  | ready | closed => rfl

/-- A request line stores at once when it is a put that names no size. -/
theorem filter_request_eq_nil_iff (line : Bytes) :
    (request session line).2.filter Effect.stores = [] ↔
      ¬(jsonField line kCommand = kPut ∧ ¬0 < jsonInt line kBodySize) := by
  have hclose : kClose ≠ kPut := by decide
  have hget : kGet ≠ kPut := by decide
  rw [request]
  split_ifs with h₁ h₂ h₃ h₄ <;> simp_all [Effect.stores, storeBody]

end Corepkgs.Jig.GoCache
