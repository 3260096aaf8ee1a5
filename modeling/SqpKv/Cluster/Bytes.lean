import SqpKv.Client.CallLoop
import SqpKv.Server.KvLoop
import SqpKv.Cluster.Calls

/-!
# The cluster on the level of bytes

The threads of a running deployment, call by call: for each client the
connection (`ClientLoop`), its proxy worker (`ProxyLoop`) and the workers of the
shards at the other ends of the proxy's connections (`KvLoop`).  They share
nothing but the databases of the shards; what one writes the network carries to
the other, piece by piece and in order: a call of `write` takes a piece whole
and a call of `read` gets one piece.  Any of these calls may fail at any time.

What the code does not see to is asked of each step (`ByteCluster.Admits`): that
a packet is built in a buffer with room for it, where the constructors are
called without any, and that a client does not call again behind a call that has
failed.
-/

namespace SqpKv

open Wire Machine History

/-- What the programs do not decide: the allocator, the text of `strerror(errno)` and of RocksDB's
status of a missing key, and the buffers in which packets are built, large enough or not. -/
structure ByteEnv where
  alloc : Allocator
  errorText : Bytes
  notFound : Bytes
  command : Command → Block
  response : Response → Block

namespace ByteEnv

variable (e : ByteEnv)

def client : ClientEnv := ⟨e.alloc, e.errorText, e.command⟩

/-- The proxy's answers come over its connections. -/
def proxy (n : Nat) : ProxyEnv n :=
  ⟨e.alloc, e.errorText, fun keys => e.response (.getAll .Ok keys), fun _ _ => []⟩

def kv (db : Store) : KvEnv :=
  ⟨e.alloc, e.errorText, fun _ => .ofStore e.notFound db, e.response⟩

/-- The packet of the command has fewer than `2 ^ 32` bytes, and room in its buffer. -/
def BuildsCommand (c : Command) : Prop :=
  c.encoding.length < 2 ^ 32 ∧ c.encoding.length ≤ (e.command c).bytes.length

def BuildsResponse (r : Response) : Prop :=
  r.announced + 4 < 2 ^ 32 ∧ r.announced + 4 ≤ (e.response r).bytes.length

end ByteEnv

/-- The command that the next step of a worker carries out, if its read is the last of a packet. -/
def KvLoop.command (e : KvEnv) (r : Call) (s : KvLoop) : Option Command :=
  match s.control with
  | .reading packet => do
    let (result, _) ← r.read id s.fromClient
    match (readWholePacket e.alloc e.errorText).deliver packet result with
    | .inl _ => none
    | .inr read =>
      match KvWorker.receive read with
      | .ok packet => packet.map CommandPacket.command
      | .error _ => none
  | _ => none

/-- The key of the command, if it has one, is routed to a shard. -/
def Command.Routed (n : Nat) (c : Command) : Prop :=
  ∀ key, c.key? = some key → ∃ i : Fin n, route n key = some i

/-- A client with the threads that serve it. -/
structure ByteSession (n : Nat) where
  client : ClientLoop
  proxy : ProxyLoop n
  shard : Fin n → KvLoop

/-- A call of one of the threads of a session, or the network carries a piece. -/
inductive ByteSession.Action (n : Nat)
  | client (r w : Call)
  | proxy (r w : Call)
  | worker (shard : Fin n) (r w : Call)
  | carryUp
  | carryDown
  | carryToShard (shard : Fin n)
  | carryToProxy (shard : Fin n)

namespace ByteSession

variable {n : Nat}

def init : ByteSession n := ⟨.init, .init, fun _ => .init⟩

def setShard (s : ByteSession n) (i : Fin n) (k : KvLoop) : ByteSession n :=
  { s with shard := Function.update s.shard i k }

/-- A piece goes from a queue to the next. -/
def carry (s : ByteSession n) : Action n → Option (ByteSession n)
  | .carryUp =>
    match s.client.toServer with
    | [] => none
    | bs :: toServer => some { s with
      client := { s.client with toServer }
      proxy := { s.proxy with fromClient := s.proxy.fromClient ++ [bs] } }
  | .carryDown =>
    match s.proxy.toClient with
    | [] => none
    | p :: toClient => some { s with
      proxy := { s.proxy with toClient }
      client := { s.client with fromServer := s.client.fromServer ++ [p.bytes] } }
  | .carryToShard i =>
    match (s.proxy.link i).toShard with
    | [] => none
    | p :: toShard => some { s.setShard i { s.shard i with
        fromClient := (s.shard i).fromClient ++ [p.bytes] } with
      proxy := s.proxy.setLink i { s.proxy.link i with toShard } }
  | .carryToProxy i =>
    match (s.shard i).toClient with
    | [] => none
    | (k, bs) :: toClient => some { s.setShard i { s.shard i with toClient } with
      proxy := s.proxy.setLink i { s.proxy.link i with
        toProxy := (s.proxy.link i).toProxy ++ [⟨k, bs⟩] } }
  | _ => none

end ByteSession

structure ByteCluster (Cl : Type) (n : Nat) where
  session : Cl → ByteSession n
  db : Fin n → Store
  history : List (CallEvent Cl)

/-- A client calls, or one of its session's threads or the network goes on. -/
inductive ByteCluster.Action (Cl : Type) (n : Nat)
  | call (cl : Cl) (c : Command)
  | session (cl : Cl) (a : ByteSession.Action n)

namespace ByteCluster

variable {Cl : Type} {n : Nat}

def init (db : Fin n → Store) : ByteCluster Cl n := ⟨fun _ => .init, db, []⟩

variable [DecidableEq Cl]

def setSession (s : ByteCluster Cl n) (cl : Cl) (t : ByteSession n) : ByteCluster Cl n :=
  { s with session := Function.update s.session cl t }

/-- What the history records when a call returns. -/
def returned (id : Cl × Nat) : Option (Command × CallResult) → List (CallEvent Cl)
  | some (c, ret) => Cluster.log c (.res id ret)
  | none => []

def step (e : ByteEnv) (s : ByteCluster Cl n) : Action Cl n → Option (ByteCluster Cl n)
  | .call cl c => do
    let client ← (s.session cl).client.call e.client c
    return { s.setSession cl { s.session cl with client } with
      history := s.history ++ Cluster.log c (.inv (cl, (s.session cl).client.calls) c) }
  | .session cl (.client r w) => do
    let (client, ret) ← (s.session cl).client.step e.client r w
    return { s.setSession cl { s.session cl with client } with
      history := s.history ++ returned (cl, (s.session cl).client.calls) ret }
  | .session cl (.proxy r w) => do
    let proxy ← (s.session cl).proxy.proxyStep (e.proxy n) r w
    return s.setSession cl { s.session cl with proxy }
  | .session cl (.worker i r w) => do
    let worker ← ((s.session cl).shard i).workerStep (e.kv (s.db i)) r w
    -- the worker calls RocksDB between two of its calls of `read` and `write`
    let db :=
      match ((s.session cl).shard i).command (e.kv (s.db i)) r with
      | some c => (KvWorker.handle e.notFound (s.db i) c).1
      | none => s.db i
    return { s.setSession cl ((s.session cl).setShard i worker) with
      db := Function.update s.db i db }
  | .session cl a => do
    let t ← (s.session cl).carry a
    return s.setSession cl t

/-- The calls that start or return with a step, GetAll among them. -/
def event (e : ByteEnv) (s : ByteCluster Cl n) : Action Cl n → List (CallEvent Cl)
  | .call cl c => [.inv (cl, (s.session cl).client.calls) c]
  | .session cl (.client r w) =>
    match (s.session cl).client.step e.client r w with
    | some (_, some (_, ret)) => [.res (cl, (s.session cl).client.calls) ret]
    | _ => []
  | _ => []

/-- The call that a worker carries out with a step. -/
def deeds (e : ByteEnv) (s : ByteCluster Cl n) : Action Cl n → List (Happening Cl n)
  | .session cl (.worker i r _) =>
    match ((s.session cl).shard i).command (e.kv (s.db i)) r with
    | some c => [.deed (cl, (s.session cl).client.calls) i c]
    | none => []
  | _ => []

def happens (e : ByteEnv) (s : ByteCluster Cl n) (a : Action Cl n) : List (Happening Cl n) :=
  (event e s a).map .call ++ deeds e s a

omit [DecidableEq Cl] in
theorem happens_calls (e : ByteEnv) (s : ByteCluster Cl n) (a : Action Cl n) :
    (happens e s a).filterMap Happening.call? = event e s a := by
  have hdeeds : (deeds e s a).filterMap Happening.call? = [] := by
    unfold deeds
    split
    · split <;> rfl
    · rfl
  rw [happens, List.filterMap_append, Happening.filterMap_call?, hdeeds, List.append_nil]

/-- A client none of whose calls has failed asks for keys that have a shard, and the packets that are
built have fewer than `2 ^ 32` bytes and room in their buffers. -/
def Admits (e : ByteEnv) (s : ByteCluster Cl n) : Action Cl n → Prop
  | .call cl c => (s.session cl).client.control ≠ .failed ∧ c.Routed n ∧ e.BuildsCommand c
  | .session cl (.worker i r _) =>
    ∀ c, ((s.session cl).shard i).command (e.kv (s.db i)) r = some c →
      e.BuildsResponse (KvWorker.handle e.notFound (s.db i) c).2
  | .session cl (.proxy _ _) =>
    ∀ next packet keys sources, (s.session cl).proxy.control = .collect next packet keys sources →
      n ≤ next → e.BuildsResponse (.getAll .Ok keys)
  | _ => True

end ByteCluster

end SqpKv
