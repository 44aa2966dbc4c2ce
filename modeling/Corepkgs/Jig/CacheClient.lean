import Corepkgs.Jigd.Answers
/-!
# The client of the cache daemon

`cache_client.cc`: every call sends its requests and then reads the answers to
them.  What is read too much waits in `pending_` for the next call.  zstd is a
parameter.
-/

namespace Corepkgs.Jig

open Lib Jigd.Wire

/-- `ZSTD_compress` and `ZSTD_decompress`, `none` on an error. -/
structure Zstd where
  compress : Bytes → Option Bytes
  /-- Into a buffer of the given size. -/
  decompress : Nat → Bytes → Option Bytes

namespace Zstd

variable (z : Zstd)

/-- `Compress`: the raw size and one frame, nothing on an error. -/
def wire (value : Bytes) : Bytes :=
  match z.compress value with
  | none => []
  | some frame => leBytes 4 value.length ++ frame

def unwire (wire : Bytes) : Option Bytes :=
  if wire.length < 4 then none
  else
    (z.decompress (leNat (wire.take 4)) (wire.drop 4)).filter
      fun out => out.length = leNat (wire.take 4)

end Zstd

structure CacheClient where
  connected : Bool
  stream : Stream

def kMaxObjectSize : Nat := 2 ^ 31

namespace CacheClient

def lastRead (s : Stream) : Bytes := (s.reads.getLast?.map Subtype.val).getD s.pending

variable (c : CacheClient)

/-- `RecvLine`: at the end of the stream `pending_` keeps what was read last. -/
def recvLine : Option Bytes × CacheClient :=
  match Stream.upToNewline [] c.stream.pending c.stream.reads with
  | (line, some stream) => (some line, { c with stream := stream })
  | (_, none) => (none, { c with stream := ⟨lastRead c.stream, []⟩ })

def recvExactly (count : Nat) : Option Bytes × CacheClient :=
  match Stream.takeBytes count c.stream.pending c.stream.reads with
  | some (bytes, stream) => (some bytes, { c with stream := stream })
  | none => (none, { c with stream := ⟨[], []⟩ })

/-- `fd_ = UniqueFd()`: nothing more is read, what is pending stays. -/
def drop : CacheClient := ⟨false, ⟨c.stream.pending, []⟩⟩

def recvBody (z : Zstd) (c : CacheClient) (len : Nat) : Option Bytes × CacheClient :=
  match c.recvExactly len with
  | (none, c) => (none, c)
  | (some wire, c) => (z.unwire wire, c)

def recvValue (z : Zstd) (c : CacheClient) : Option Bytes × CacheClient :=
  match c.recvLine with
  | (none, c) => (none, c)
  | (some line, c) =>
    if (ascii "OK ").isPrefixOf line then
      match parseUint 10 (line.drop 3) with
      | none => (none, c.drop)
      | some len =>
        if kMaxObjectSize < len then (none, c.drop) else c.recvBody z len
    else (none, c)

def recvFlag : Bool × CacheClient :=
  (c.recvLine.1 == some (ascii "1"), c.recvLine.2)

def recvMany {α : Type} (recv : CacheClient → α × CacheClient) :
    Nat → CacheClient → List α × CacheClient
  | 0, c => ([], c)
  | n + 1, c =>
    let (a, c) := recv c
    let (as, c) := recvMany recv n c
    (a :: as, c)

/-- The loop of `Identities`, which gives up at the first line that does not come. -/
def recvIds : Nat → CacheClient → Option (List Bytes) × CacheClient
  | 0, c => (some [], c)
  | n + 1, c =>
    match c.recvLine with
    | (none, c) => (none, c)
    | (some line, c) =>
      let (lines, c) := recvIds n c
      (lines.map (line :: ·), c)

end CacheClient

/-! ## Calls -/

inductive Call where
  | get (key : Bytes)
  | getMany (keys : List Bytes)
  | put (key value : Bytes)
  | putMany (items : List (Bytes × Bytes))
  | hasMany (keys : List Bytes)
  | identities (paths : List Bytes)
  | acquireSlot (build : Bytes)
  | releaseSlot (build : Bytes)

inductive CallResult where
  | value (v : Option Bytes)
  | values (vs : List (Option Bytes))
  | flags (bs : List Bool)
  | ids (identities : List Bytes)
  | admitted (b : Bool)
  | unit
  deriving DecidableEq

namespace Call

variable (z : Zstd)

/-- What a call asks.  A value that cannot be compressed is not put, nor is what follows it. -/
def requests : Call → List Jigd.Wire.Request
  | get key => [.get key]
  | getMany keys => keys.map .get
  | put key value => if z.wire value = [] then [] else [.put key (z.wire value)]
  | putMany items =>
    (items.takeWhile fun item => z.wire item.2 ≠ []).map fun item => .put item.1 (z.wire item.2)
  | hasMany keys => keys.map .has
  | identities paths => if paths = [] then [] else [.ids paths]
  | acquireSlot build => [.slot build]
  | releaseSlot build => [.done build]

/-- What a call returns without a connection. -/
def miss : Call → CallResult
  | get _ => .value none
  | getMany keys => .values (keys.map fun _ => none)
  | put _ _ | putMany _ | releaseSlot _ => .unit
  | hasMany keys => .flags (keys.map fun _ => false)
  | identities _ => .ids []
  | acquireSlot _ => .admitted false

/-- What a call reads once `sent` of its requests have been sent.  Only `PutMany` goes on after a
failed send, and reads the answers to what it has sent. -/
def receive (sent : Nat) (c : CacheClient) : Call → CallResult × CacheClient
  | get _ =>
    let (v, c) := c.recvValue z
    (.value v, c)
  | getMany keys =>
    let (vs, c) := CacheClient.recvMany (·.recvValue z) keys.length c
    (.values vs, c)
  | put _ value => if z.wire value = [] then (.unit, c) else (.unit, c.recvLine.2)
  | putMany _ => (.unit, (CacheClient.recvMany CacheClient.recvLine sent c).2)
  | hasMany keys =>
    let (bs, c) := CacheClient.recvMany CacheClient.recvFlag keys.length c
    (.flags bs, c)
  | identities paths =>
    let (ids, c) := c.recvIds paths.length
    (.ids (ids.getD []), c)
  | acquireSlot _ => (.admitted (c.recvLine.1 == some (ascii "OK")), c.recvLine.2)
  | releaseSlot _ => (.unit, c.recvLine.2)

def isPutMany : Call → Bool
  | putMany _ => true
  | _ => false

/-- A call of which `sent` requests can be sent. -/
def run (call : Call) (sent : Nat) (c : CacheClient) : CallResult × CacheClient :=
  if c.connected = false then (call.miss, c)
  else if sent < (call.requests z).length ∧ call.isPutMany = false then (call.miss, c)
  else call.receive z sent c

/-- The value of an answer, as far as the client takes it. -/
def valueOf : Option Reply → Option Bytes
  | some (.value (some wire)) => if kMaxObjectSize < wire.length then none else z.unwire wire
  | _ => none

def idsOf : Option Reply → List Bytes
  | some (.ids ids) => ids
  | _ => []

/-- What a call returns when these are the answers that came, in the order of its requests. -/
def result (replies : List Reply) : Call → CallResult
  | get _ => .value (valueOf z replies[0]?)
  | getMany keys => .values ((List.range keys.length).map fun i => valueOf z replies[i]?)
  | put _ _ | putMany _ | releaseSlot _ => .unit
  | hasMany keys => .flags ((List.range keys.length).map fun i => replies[i]? == some (.flag true))
  | identities _ => .ids (idsOf replies[0]?)
  | acquireSlot _ => .admitted (replies[0]? == some .ok)

end Call

end Corepkgs.Jig
