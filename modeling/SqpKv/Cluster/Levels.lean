import SqpKv.Protocol.Pieces
import SqpKv.Cluster.Bytes

/-!
# A session on its two levels

`ByteSession.Matches s t` says of a session `s` on the level of bytes which
session `t` on the level of messages it is.  A packet counts as a message from
the moment its last piece is written until its last piece is read:

    the client's command     got ++ s.up ++ left          of which left is not written yet
    a request to a shard     got ++ toShard ++ rest
    a shard's response       taken ++ toProxy ++ rest     taken is what the proxy has read of it
    the client's response    got ++ on the way            sofar is what the proxy has written of it

A thread that has given up leaves its packet as it is: the pieces of it that
were written begin a packet and never end it, so that no reader takes it for a
message (`LaneRel.gone`, `ControlRel.gone`, `ClientRel.failed`).  Whether threads
may have given up at all is the parameter `lost`.
-/

namespace SqpKv

open Wire

/-- The factory decodes the bytes to `r`, whatever follows them. -/
def DecodesTo (data : Bytes) (r : Response) : Prop :=
  ∀ tail, ∃ q, createResponsePacket (data ++ tail) = .ok (some q) ∧ q.response = r

/-! ## Threads that read a command, and threads that have given up -/

namespace KvControl

/-- The worker is about to read a command, or has read `got` of it. -/
def Got (got : List Bytes) : KvControl → Prop
  | .head err => err = false ∧ got = []
  | .reading packet => packet.Reads got
  | _ => False

def Gone : KvControl → Prop
  | .head err => err = true
  | .returned => True
  | _ => False

end KvControl

namespace Control

variable {n : Nat}

/-- The proxy is about to read a command, or has read `got` of it. -/
def Got (got : List Bytes) : Control n → Prop
  | .head status => status.ok = true ∧ got = []
  | .reading packet => packet.Reads got
  | _ => False

def Gone : Control n → Prop
  | .head status => status.ok = false
  | .returned => True
  | _ => False

end Control

/-! ## One connection between the proxy and a shard -/

/-- The pieces on their way to the worker, the worker, and the pieces on their way to the proxy. -/
structure ByteLane where
  toShard : List Bytes
  worker : KvControl
  toProxy : List Bytes

/-- The network and the queues at its ends are one. -/
def ByteLane.of (l : Link) (k : KvLoop) : ByteLane where
  toShard := k.fromClient ++ l.toShard.map Piece.bytes
  worker := k.control
  toProxy := l.toProxy.map Piece.bytes ++ k.toClient.map Prod.snd

/-- What the proxy has still to write of a command. -/
abbrev Todo := Option (Command × List Bytes)

/-- The two levels of a connection: `todo` is what the proxy is writing, `taken` what it has read of
the shard's response. -/
inductive LaneRel (lost : Prop) (v : ByteLane) (l : Lane) (todo : Todo) (taken : List Bytes) : Prop
  | quiet (hw : v.worker.Got []) (hto : v.toShard = []) (hfrom : v.toProxy = []) (hl : l = .quiet)
      (htodo : todo = none) (htaken : taken = []) : LaneRel lost v l todo taken
  | asking {c : Command} {got rest : List Bytes} (hw : v.worker.Got got)
      (hto : got ++ v.toShard ++ rest = pieces c.encoding) (hrest : rest ≠ []) (hfrom : v.toProxy = [])
      (hl : l = .quiet) (hsize : c.encoding.length < 2 ^ 32) (htodo : todo = some (c, rest))
      (htaken : taken = []) : LaneRel lost v l todo taken
  | asked {c : Command} {got : List Bytes} (hw : v.worker.Got got)
      (hto : got ++ v.toShard = pieces c.encoding) (hfrom : v.toProxy = []) (hl : l = ⟨[c], .idle, []⟩)
      (hsize : c.encoding.length < 2 ^ 32) (htodo : todo = none) (htaken : taken = []) :
      LaneRel lost v l todo taken
  | answered {r : Response} {data : Bytes} {rest : List Bytes}
      (hw : (v.worker = .sending rest ∧ rest ≠ []) ∨
        (rest = [] ∧ (v.worker.Got [] ∨ (lost ∧ v.worker.Gone))))
      (hto : v.toShard = []) (hfrom : taken ++ v.toProxy ++ rest = pieces data)
      (hdata : DecodesTo data r) (hl : l = ⟨[], .idle, [r]⟩) (htodo : todo = none) :
      LaneRel lost v l todo taken
  | gone (hlost : lost) (hw : v.worker.Gone) (hfrom : Begins (taken ++ v.toProxy)) :
      LaneRel lost v l todo taken

/-! ## The two ends of the connection to the client -/

/-- The pieces of the client's command that have been written and not been used, and those that are
`left` to write; the message they are. -/
inductive UpRel (n : Nat) (ps left : List Bytes) : List Command → Prop
  | none (hps : ps = []) (hleft : left = []) : UpRel n ps left []
  | some {c : Command} (hkey : c.Routed n) (hsize : c.encoding.length < 2 ^ 32)
      (hps : ps ++ left = pieces c.encoding) : UpRel n ps left [c]

/-- The pieces that the client has got or gets: those of a response that is being written, or all of
one that has been. -/
inductive DownRel (ps sofar : List Bytes) : List Response → Prop
  | none (hps : ps = sofar) : DownRel ps sofar []
  | some {r : Response} {data : Bytes} (hsofar : sofar = []) (hps : ps = pieces data)
      (hdata : DecodesTo data r) : DownRel ps sofar [r]

/-- The call that is `pending`, the client and the messages `down` to it; `ps` is on its way to it. -/
inductive ClientRel (lost : Prop) (pending : Option Command) (down : List Response)
    (left sofar ps : List Bytes) : ClientControl → Prop
  | idle (hp : pending = none) (hleft : left = []) (hsofar : sofar = []) (hps : ps = []) :
      ClientRel lost pending down left sofar ps .idle
  | sending {c : Command} (hp : pending = some c) (hd : down = []) (hleft : left ≠ [])
      (hsofar : sofar = []) (hps : ps = []) :
      ClientRel lost pending down left sofar ps (.sending c left)
  | reading {c : Command} {packet : ReadState} {got : List Bytes} (hp : pending = some c)
      (hleft : left = []) (hgot : packet.Reads got) (hd : DownRel (got ++ ps) sofar down) :
      ClientRel lost pending down left sofar ps (.reading c packet)
  | failed (hlost : lost) : ClientRel lost pending down left sofar ps .failed

section

variable {n : Nat}

/-- `HandleClient` on the two levels. -/
inductive ControlRel (lost : Prop) : Control n → ProxyWorker n → (got sofar : List Bytes) →
    (Fin n → Todo) → (Fin n → List Bytes) → Prop
  | idle {c : Control n} {got : List Bytes} (hc : c.Got got) :
      ControlRel lost c .idle got [] (fun _ => none) fun _ => []
  | dispatch {c : Command} {i : Fin n} {rest : List Bytes} :
      ControlRel lost (.dispatch i rest) (.dispatch c i) [] []
        (Function.update (fun _ => none) i (some (c, rest))) fun _ => []
  | forward {i : Fin n} {sofar : List Bytes} :
      ControlRel lost (.forward i) (.forward i) [] sofar (fun _ => none)
        (Function.update (fun _ => []) i sofar)
  | fanOut {keyPrefix : Bytes} {next : Nat} {rest : List Bytes}
      (hsize : (Command.getAll keyPrefix).encoding.length < 2 ^ 32) :
      ControlRel lost (.fanOut (Command.getAll keyPrefix).encoding next rest) (.fanOut keyPrefix next)
        [] [] (fun j => if j.val = next then some (.getAll keyPrefix, rest) else none) fun _ => []
  | collect {next : Nat} {packet : ReadState} {keys : List Bytes} {sources : List Nat}
      {got : List Bytes} (hgot : packet.Reads got) :
      ControlRel lost (.collect next packet keys sources) (.collect next keys) [] [] (fun _ => none)
        fun j => if j.val = next then got else []
  | respond {rest sofar : List Bytes} {sources : List Nat} {keys : List Bytes} {data : Bytes}
      (hrest : rest ≠ []) (hps : sofar ++ rest = pieces data)
      (hdata : DecodesTo data (.getAll .Ok keys)) :
      ControlRel lost (.respond rest sources) (.respond keys) [] sofar (fun _ => none) fun _ => []
  | gone {c : Control n} {x : ProxyWorker n} {got sofar : List Bytes} {todo : Fin n → Todo}
      {taken : Fin n → List Bytes} (hlost : lost) (hc : c.Gone) : ControlRel lost c x got sofar todo taken

end

namespace ByteSession

variable {n : Nat} (s : ByteSession n)

/-- The connection to the shard `i`. -/
def lane (i : Fin n) : ByteLane := .of (s.proxy.link i) (s.shard i)

/-- The pieces on their way from the client to the proxy. -/
def up : List Bytes := s.proxy.fromClient ++ s.client.toServer

/-- The pieces on their way to the client. -/
def down : List Bytes := s.client.fromServer ++ s.proxy.toClient.map Written.bytes

/-- The session `t` is what `s` is on the level of messages. -/
structure Matches (lost : Prop) (t : Session n) (left sofar got : List Bytes) (todo : Fin n → Todo)
    (taken : Fin n → List Bytes) : Prop where
  calls : s.client.calls = t.calls
  begins : Begins sofar
  client : ClientRel lost t.pending t.down left sofar s.down s.client.control
  control : ControlRel lost s.proxy.control t.proxy got sofar todo taken
  up : UpRel n (got ++ s.up) left t.up
  lanes : ∀ j, LaneRel lost (s.lane j) (t.lane j) (todo j) (taken j)

/-- The two levels of a session. -/
def Rel (lost : Prop) (t : Session n) : Prop :=
  ∃ left sofar got todo taken, s.Matches lost t left sofar got todo taken

theorem rel_init {lost : Prop} : (init : ByteSession n).Rel lost .init := by
  refine ⟨[], [], [], fun _ => none, fun _ => [], rfl, begins_nil, .idle rfl rfl rfl rfl,
    .idle ⟨rfl, rfl⟩, .none rfl rfl, ?_⟩
  intro j
  exact .quiet ⟨rfl, rfl⟩ rfl rfl rfl rfl rfl

end ByteSession

end SqpKv
