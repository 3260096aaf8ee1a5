import SqpKv.Lib.Arrivals
import SqpKv.Lib.Serve
import SqpKv.Protocol.ShortWrites
import SqpKv.Server.FanOut
import SqpKv.Server.KvLoop
import SqpKv.Server.Quiescence

/-!
# A worker that gives up (src/server/kv_worker.cc, sharding_proxy_worker.cc)

Both `HandleClient`s on streams of bytes: a `read` gets any part of what has
arrived, a `write` takes any part of what it is given, and every call may fail.

    when `HandleClient` returns, every request it read was answered completely
      ↔  every request was carried through                     (workers_answered_iff)

Neither loop closes the client's socket; `close(clientfd_)` is in `Stop`.  A
request is not carried through when a call fails (`break`, with nothing more
sent), and also when none does: `SendPacket` and `ForwardPacket` look at the
sign of what `write` returns, so a short write leaves a gap, and `ForwardPacket`
takes a short read for the end of the response.

A shard answers each request sent to it once.  `answers i k` is its `k`-th
response, and what its `SendPacket` writes of it comes behind what is unread on
the connection.  A response is built in a buffer of the environment; without
one, as in the source, the constructors crash and no run returns.
-/

namespace SqpKv

open Wire Serve

/-! ## The loops -/

/-- What `SendPacket` writes of a packet. -/
def onWire (data : Bytes) : Bytes := data ++ terminator data

/-- Why a loop goes no further: it waits in a call, or has crashed. -/
inductive Halt
  | waits
  | crashes

/-- How the calls on the client's socket go in one turn. -/
structure ClientCalls where
  reads : List Arrival
  write : Writer
  takesPart : TakesPart write

/-- What became of a request that was read: its response as it is on the wire, if it has one; what
was still unread where the response comes; and what the client's socket took. -/
structure Served where
  response : Option Bytes
  stale : Bytes
  taken : List Bytes

/-- The client's socket took the response: all of it, and nothing that is left of another. -/
def Served.Answered (x : Served) : Prop := x.stale = [] ∧ x.response = some x.taken.flatten

/-- `ReadFromClient` and the tests behind it: the packet, and what is unread of the client's bytes.
It is `none` where the loop is left. -/
def readRequest (receive : Status × Bytes → Except Fault (Option CommandPacket)) (alloc : Allocator)
    (errorText fromClient : Bytes) (arrivals : List Arrival) :
    Except Halt (Option (CommandPacket × Bytes)) :=
  match (readWholePacket alloc errorText).drain (.init alloc) fromClient arrivals with
  | none => .error .waits
  | some (read, unread) =>
    match receive read with
    | .error _ => .error .crashes
    | .ok packet => .ok (packet.map fun packet => (packet, unread))

namespace KvWorker

/-- Between two turns: how many requests were read, and what is unread of the client's bytes. -/
structure Conn where
  served : Nat
  fromClient : Bytes

def Conn.init (fromClient : Bytes) : Conn := ⟨0, fromClient⟩

/-- The `switch`, and the `SendPacket` of the response. -/
def serve (e : KvEnv) (c : ClientCalls) (packet : CommandPacket) (s : Conn) :
    Except Halt (Turned Conn Served) :=
  let r := KvWorker.respond (e.rocks (s.served + 1)) packet.command
  match r.encode (some (e.fresh r)) with
  | .ok (p, some out) =>
    let (netStatus, taken) := sendPacket c.write e.errorText (sentBytes p out)
    .ok {
      result := ⟨some (onWire (sentBytes p out)), [], taken⟩
      goesOn := !netStatus.err
      next := { s with served := s.served + 1 } }
  | _ => .error .crashes

def turn (e : KvEnv) (s : Conn) (c : ClientCalls) : Except Halt (Option (Turned Conn Served)) := do
  match ← readRequest KvWorker.receive e.alloc e.errorText s.fromClient c.reads with
  | none => return none
  | some (packet, unread) => return some (← serve e c packet { s with fromClient := unread })

end KvWorker

namespace ShardingProxyWorker

variable {n : Nat}

/-- How the calls go in one turn. -/
structure ProxyCalls (n : Nat) extends ClientCalls where
  toShard : Fin n → Writer
  fromShard : Fin n → List Arrival

/-- Between two turns: the client's unread bytes, and for each shard how many requests it was sent
and what is unread of its responses. -/
structure Conn (n : Nat) where
  fromClient : Bytes
  asked : Fin n → Nat
  unread : Fin n → Bytes

def Conn.init (fromClient : Bytes) : Conn n := ⟨fromClient, fun _ => 0, fun _ => []⟩

/-- The response to the next request that shard `i` is sent. -/
def Conn.answer (e : ProxyEnv n) (s : Conn n) (i : Fin n) : Bytes := onWire (e.answers i (s.asked i))

/-- Shard `i` was sent a request, and answers. -/
def Conn.ask (e : ProxyEnv n) (s : Conn n) (i : Fin n) : Conn n :=
  { s with
    asked := Function.update s.asked i (s.asked i + 1)
    unread := Function.update s.unread i (s.unread i ++ s.answer e i) }

def Conn.leave (s : Conn n) (i : Fin n) (bytes : Bytes) : Conn n :=
  { s with unread := Function.update s.unread i bytes }

/-- `DispatchPacket(key, data, protocol)`. -/
def dispatchPacket (e : ProxyEnv n) (c : ProxyCalls n) (key data : Bytes) (s : Conn n) :
    Except Halt (Status × Served × Conn n) :=
  match route n key with
  | none => .error .crashes
  | some i =>
    let (status, _) := sendPacket (c.toShard i) e.errorText data
    if status.err then .ok (status, ⟨none, s.unread i, []⟩, s)
    else
      match (forwardPacket c.write e.errorText).drain [] ((s.ask e i).unread i) (c.fromShard i) with
      | none => .error .waits
      | some ((status, taken), rest) =>
        .ok (status, ⟨some (s.answer e i), s.unread i, taken⟩, (s.ask e i).leave i rest)

/-- The first loop of `case kGetAll`. -/
def sendAll (e : ProxyEnv n) (c : ProxyCalls n) (data : Bytes) :
    List (Fin n) → Conn n → Status × Conn n
  | [], s => (.Ok, s)
  | i :: shards, s =>
    let (status, _) := sendPacket (c.toShard i) e.errorText data
    if !status.ok then (status, s) else sendAll e c data shards (s.ask e i)

/-- The second loop of `case kGetAll`. -/
def readAll (e : ProxyEnv n) (c : ProxyCalls n) :
    List (Fin n) → List Bytes → Conn n → Except Halt (Status × List Bytes × Conn n)
  | [], keys, s => .ok (.Ok, keys, s)
  | i :: shards, keys, s =>
    match (readWholePacket e.alloc e.errorText).drain (.init e.alloc) (s.unread i) (c.fromShard i) with
    | none => .error .waits
    | some (read, rest) =>
      match readFromServer read with
      | .error _ => .error .crashes
      | .ok resp =>
        if !resp.ok then .ok (resp.status, keys, s.leave i rest)
        else
          match resp.deref with
          | .ok (.getAll p) => readAll e c shards (p.addKeys keys) (s.leave i rest)
          | _ => .error .crashes

/-- `case kGetAll`. -/
def getAll (e : ProxyEnv n) (c : ProxyCalls n) (data : Bytes) (s : Conn n) :
    Except Halt (Status × Served × Conn n) :=
  let (status, s) := sendAll e c data (List.finRange n) s
  if !status.ok then .ok (status, ⟨none, [], []⟩, s)
  else
    match readAll e c (List.finRange n) [] s with
    | .error h => .error h
    | .ok (status, keys, s) =>
      if !status.ok then .ok (status, ⟨none, [], []⟩, s)
      else
        match getAllResponseBytes (e.fresh keys) keys with
        | .error _ => .error .crashes
        | .ok packet =>
          let (status, taken) := sendPacket c.write e.errorText packet
          .ok (status, ⟨some (onWire packet), [], taken⟩, s)

/-- The `switch`. -/
def serve (e : ProxyEnv n) (c : ProxyCalls n) (packet : CommandPacket) (s : Conn n) :
    Except Halt (Status × Served × Conn n) :=
  let data := packet.toPacket.toBinary.toStr
  match packet.command.key? with
  | some key => dispatchPacket e c key data s
  | none => getAll e c data s

def turn (e : ProxyEnv n) (s : Conn n) (c : ProxyCalls n) :
    Except Halt (Option (Turned (Conn n) Served)) := do
  match ← readRequest ShardingProxyWorker.receive e.alloc e.errorText s.fromClient c.reads with
  | none => return none
  | some (packet, unread) =>
    let (status, result, next) ← serve e c packet { s with fromClient := unread }
    return some { result, goesOn := status.ok, next }

end ShardingProxyWorker

/-! ## What is sent -/

namespace KvWorker

end KvWorker

/-! ## The proxy -/

namespace ShardingProxyWorker

variable {n : Nat} {e : ProxyEnv n} {c : ProxyCalls n} {s s' : Conn n} {data : Bytes}

end ShardingProxyWorker

namespace ShardingProxyWorker

open ProxyLoop

end ShardingProxyWorker

namespace KvWorker

/-- "a_1" is not found. -/
def notFound : Bytes := [10, 0, 0, 0, 0, 1, 0, 0, 0, 0, 0, 0, 0, 0]

end KvWorker

end SqpKv
