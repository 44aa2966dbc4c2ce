import Corepkgs.Jig.Base
import Corepkgs.Lib.Stream
import Corepkgs.Lib.Table
/-!
# The daemon's line protocol

`serve` of `main.go`: requests are lines, a put's followed by its body, and the
answers go out in the order of the requests.  The store, the identities and the
slots behind it are a machine that is asked and changes as it likes; this module
is about the bytes.
-/

namespace Corepkgs.Jigd.Wire

open Lib Jig

/-! ## Fields -/

/-- What `unicode.IsSpace` takes for a space, in UTF-8.  None of the bytes but the first is in
ASCII, and a byte that begins one is in the middle of none: scanning bytes finds the same spaces as
scanning runes. -/
def spaces : List Bytes :=
  [[9], [10], [11], [12], [13], [32], [0xC2, 0x85], [0xC2, 0xA0], [0xE1, 0x9A, 0x80],
    [0xE2, 0x80, 0x80], [0xE2, 0x80, 0x81], [0xE2, 0x80, 0x82], [0xE2, 0x80, 0x83],
    [0xE2, 0x80, 0x84], [0xE2, 0x80, 0x85], [0xE2, 0x80, 0x86], [0xE2, 0x80, 0x87],
    [0xE2, 0x80, 0x88], [0xE2, 0x80, 0x89], [0xE2, 0x80, 0x8A], [0xE2, 0x80, 0xA8],
    [0xE2, 0x80, 0xA9], [0xE2, 0x80, 0xAF], [0xE2, 0x81, 0x9F], [0xE3, 0x80, 0x80]]

/-- The bytes of the space in front, none when there is no space. -/
def spaceLength (text : Bytes) : Nat :=
  ((spaces.find? fun space => space.isPrefixOf text).map List.length).getD 0

def fieldsFrom : Nat → Bytes → Bytes → List Bytes
  | n + 1, word, c :: text =>
    if spaceLength (c :: text) = 0 then fieldsFrom n (word ++ [c]) text
    else
      (if word = [] then [] else [word]) ++
        fieldsFrom n [] ((c :: text).drop (spaceLength (c :: text)))
  | _, word, _ => if word = [] then [] else [word]

def fields (line : Bytes) : List Bytes := fieldsFrom line.length [] line

def parseInt (text : Bytes) : Option Int :=
  let magnitude (digits : Bytes) : Option Nat :=
    if digits ≠ [] ∧ digits.all (Jig.isDigit 10) then some (digitsValue 10 digits) else none
  match text with
  | 45 :: digits => (magnitude digits).bind fun n => if n ≤ 2 ^ 63 then some (-n) else none
  | 43 :: digits => (magnitude digits).bind fun n => if n < 2 ^ 63 then some n else none
  | digits => (magnitude digits).bind fun n => if n < 2 ^ 63 then some n else none

inductive Command where
  | get (key : Bytes)
  | has (key : Bytes)
  | put (key : Bytes) (size : Int)
  | ids (count : Nat)
  | slot (build : Bytes)
  | done (build : Bytes)
  | stats
  | bad
  deriving DecidableEq

def pairCommand (verb arg : Bytes) : Command :=
  if verb = ascii "GET" then .get arg
  else if verb = ascii "HAS" then .has arg
  else if verb = ascii "IDS" then
    match parseInt arg with
    | some count => if 0 ≤ count ∧ count ≤ 2 ^ 20 then .ids count.toNat else .bad
    | none => .bad
  else if verb = ascii "SLOT" then .slot arg
  else if verb = ascii "DONE" then .done arg
  else .bad

def command (line : Bytes) : Command :=
  match fields line with
  | [verb] => if verb = ascii "STATS" then .stats else .bad
  | [verb, arg] => pairCommand verb arg
  | [verb, key, size] =>
    if verb = ascii "PUT" then
      match parseInt size with
      | some size => .put key size
      | none => .bad
    else .bad
  | _ => .bad

/-! ## Serving -/

/-- What is behind the protocol.  Other connections, evictions and restarts are changes of the state
that an answer depends on. -/
structure World (σ : Type) where
  /-- `store.Get`: the size of the value and what its pack file has of it. -/
  get : σ → Bytes → σ × Option (Nat × Bytes)
  /-- A section of the file is read, which may end early. -/
  bounded : ∀ {s key state size bytes}, get s key = (state, some (size, bytes)) →
    bytes.length ≤ size
  /-- `store.Put` once it has the body; `false` on an error. -/
  put : σ → Bytes → Bytes → σ × Bool
  identity : σ → Bytes → σ × Bytes
  /-- Identities are empty or `C:` and hexadecimal digits. -/
  plain : ∀ s path, 10 ∉ (identity s path).2
  /-- Returns once there is a slot. -/
  acquire : σ → Bytes → σ
  release : σ → Bytes → σ
  stats : σ → Bytes

structure Server (σ : Type) where
  state : σ
  held : Table Bytes Nat

/-- One round of the loop in `serve`: the bytes written and what is left of the input, or the bytes
written before it hangs up. -/
inductive Served (σ : Type) where
  | next (server : Server σ) (out : Bytes) (input : Stream)
  | hangUp (out : Bytes)

def bufferSize : Nat := 65536

def readLine (input : Stream) : Option (Bytes × Stream) :=
  Stream.boundedLine bufferSize input.pending input.reads

section

variable {σ : Type} (world : World σ)

def get (server : Server σ) (input : Stream) (key : Bytes) : Served σ :=
  match world.get server.state key with
  | (state, none) => .next { server with state := state } (ascii "MISS\n") input
  | (state, some (size, bytes)) =>
    let out := ascii "OK " ++ decimal size ++ 10 :: bytes
    if bytes.length = size then .next { server with state := state } out input else .hangUp out

def maxBody : Nat := 2 ^ 31

def put (server : Server σ) (input : Stream) (key : Bytes) (size : Int) : Served σ :=
  if key = [] ∨ 4096 < key.length ∨ 10 ∈ key ∨ 32 ∈ key ∨ size < 0 ∨ (maxBody : Int) < size then
    .hangUp []
  else
    match Stream.takeBytes size.toNat input.pending input.reads with
    | none => .hangUp []
    | some (body, input) =>
      match world.put server.state key body with
      | (state, true) => .next { server with state := state } (ascii "OK\n") input
      | (_, false) => .hangUp []

def ids (server : Server σ) (input : Stream) : Nat → Served σ
  | 0 => .next server [] input
  | count + 1 =>
    match readLine input with
    | none => .hangUp []
    | some (path, input) =>
      let (state, id) := world.identity server.state path
      match ids { server with state := state } input count with
      | .next server out input => .next server (id ++ 10 :: out) input
      | .hangUp out => .hangUp (id ++ 10 :: out)

def count (server : Server σ) (build : Bytes) : Nat := (server.held.lookup build).getD 0

def dispatch (server : Server σ) (input : Stream) : Command → Served σ
  | .get key => get world server input key
  | .has key =>
    .next { server with state := (world.get server.state key).1 }
      (ascii (if (world.get server.state key).2.isSome then "1\n" else "0\n")) input
  | .put key size => put world server input key size
  | .ids n => ids world server input n
  | .slot build =>
    .next ⟨world.acquire server.state build, server.held.insert build (count server build + 1)⟩
      (ascii "OK\n") input
  | .done build =>
    if 0 < count server build then
      .next ⟨world.release server.state build, server.held.insert build (count server build - 1)⟩
        (ascii "OK\n") input
    else .next server (ascii "OK\n") input
  | .stats => .next server (world.stats server.state) input
  | .bad => .hangUp []

def serveOne (server : Server σ) (input : Stream) : Served σ :=
  match readLine input with
  | none => .hangUp []
  | some (line, input) => dispatch world server input (command line)

/-- The loop of `serve` on what a client has sent: the bytes it writes, and where it then waits for
more unless it has hung up. -/
def serve : Nat → Server σ → Stream → Bytes × Option (Server σ)
  | 0, server, _ => ([], some server)
  | n + 1, server, input =>
    if input.rest = [] then ([], some server)
    else
      match serveOne world server input with
      | .next server out input =>
        let (more, last) := serve n server input
        (out ++ more, last)
      | .hangUp out => (out, none)

end

end Corepkgs.Jigd.Wire
