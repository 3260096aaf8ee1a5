import SqpKv.Client.Connection
import SqpKv.Server.ProxyLoop

/-!
# A connection, call by call (src/client/connection.cc)

`Connection::Get`, `Put`, `Delete` and `GetAll` on the level of `read` and
`write`: the command goes out in the pieces in which `SendPacket` writes it, a
read gets one piece, and any of these calls may fail.  A call that has failed
leaves the connection as it is: the next one writes to the same socket and reads
what comes over it first.  The buffer in which a command is built is a parameter;
`connection.cc` passes none.
-/

namespace SqpKv

open Wire

/-- The packet of a command in the buffer `b`, as many bytes as its size field says. -/
def commandBytes (b : Block) (c : Command) : Except Fault Bytes := do
  let (p, out) ← c.encode (some b)
  return ((out.map Block.bytes).getD []).take (toUInt32 (p.toPacket.payloadSize + 4))

/-- A connection between two calls of `read` or `write`; `left` are the pieces of the command that
`SendPacket` has still to write. -/
inductive ClientControl
  | idle
  | sending (c : Command) (left : List Bytes)
  | reading (c : Command) (packet : ReadState)
  | failed
  | crashed

structure ClientEnv where
  alloc : Allocator
  errorText : Bytes
  fresh : Command → Block

/-- `calls` counts the calls that were over when the last one began or returned with a response. -/
structure ClientLoop where
  control : ClientControl
  calls : Nat
  toServer : List Bytes
  fromServer : List Bytes

namespace ClientLoop

def init : ClientLoop := ⟨.idle, 0, [], []⟩

/-- The constructor of the packet. -/
def build (e : ClientEnv) (c : Command) (s : ClientLoop) : ClientLoop :=
  match commandBytes (e.fresh c) c with
  | .ok data => { s with control := .sending c (pieces data) }
  | .error _ => { s with control := .crashed }

/-- A call begins, on the same socket also behind one that has failed. -/
def call (e : ClientEnv) (c : Command) (s : ClientLoop) : Option ClientLoop :=
  match s.control with
  | .idle => some (s.build e c)
  | .failed => some (build e c { s with calls := s.calls + 1 })
  | _ => none

/-- `ReadFromServer` goes on or returns; then the call returns, with the response if there is one. -/
def serverRead (s : ClientLoop) (c : Command) :
    ReadState ⊕ (Status × Bytes) → ClientLoop × Option (Command × CallResult)
  | .inl packet => ({ s with control := .reading c packet }, none)
  | .inr read =>
    match readFromServer read with
    | .error _ => ({ s with control := .crashed }, none)
    | .ok resp =>
      if resp.ok then
        match resp.obj.bind fun q => Connection.finish c q.response with
        | some ret => ({ s with control := .idle, calls := s.calls + 1 }, some (c, ret))
        | none => ({ s with control := .crashed }, none)
      else ({ s with control := .failed }, none)

/-- A call up to the end of its next `read` or `write`, which goes as `r` or `w` says; and what it
returns, if it does. -/
def step (e : ClientEnv) (r w : Call) (s : ClientLoop) :
    Option (ClientLoop × Option (Command × CallResult)) :=
  match s.control with
  | .idle => none
  | .sending c left =>
    match left with
    | [] => none
    | bs :: left =>
      if w.written bs ≤ 0 then some ({ s with control := .failed }, none)
      else some ({ s with
        toServer := s.toServer ++ [bs]
        control := if left = [] then .reading c (.init e.alloc) else .sending c left }, none)
  | .reading c packet => do
    let (result, _, fromServer) ← r.read id s.fromServer
    return { s with fromServer }.serverRead c
      ((readWholePacket e.alloc e.errorText).deliver packet result)
  | .failed => none
  | .crashed => none

end ClientLoop

end SqpKv
