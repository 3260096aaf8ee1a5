import SqpKv.Server.RequestHandler
import SqpKv.Lib.Machine

/-!
# One queue pair of an `RDMAConnection` (src/rdma/rdma_connection.cc)

`Endpoint` is a queue pair from the return of `BuildContext` on, which has
posted one receive into `local_buffer`.  Three parties move it:

* `OnConnection`, on the thread of the connection events, in three steps: it
  sets `connected`, copies the memory region into `remote_buffer` (`SendMr`),
  and posts the send;
* the poller, which takes completions from the queue one after the other
  (`OnWorkCompletion`), calls the handler, posts what it returned, waiting for
  `connected`, and posts the next receive;
* the device, which puts a message of the peer into `local_buffer` when a
  receive is posted, and completes the sends in their order.

Every call of the verbs library succeeds, and so does every completion.  That
`BuildContext` returns is presupposed: with `RegisterMemoryRegion` as it stands
it never does (`Build.of_ne_returned`).
-/

namespace SqpKv

open Wire

/-- The flags of the object; an `RDMAServer` has them once for all its clients. -/
structure RDMAConnection where
  terminate : Bool := false
  mrSent : Bool := false
  mrReceived : Bool := false

/-- `OnWorkCompletion` of a receive up to the call of the handler, and `peer_mr`, of `mrSize` bytes.
The handler is called either way. -/
def RDMAConnection.receive (mrSize : Nat) (conn : RDMAConnection) (localBuffer : Bytes)
    (peerMr : Option Bytes) : RDMAConnection × Option Bytes :=
  if conn.mrReceived then (conn, peerMr)
  else ({ conn with mrReceived := true }, some (localBuffer.take mrSize))

/-- `OnWorkCompletion` of a send, and whether it calls `HandleWriteCompletion`. -/
def RDMAConnection.send (conn : RDMAConnection) : RDMAConnection × Bool :=
  if conn.mrSent then (conn, true) else ({ conn with mrSent := true }, false)

/-- What `OnWorkCompletion` does behind the call of the handler. -/
inductive AfterRead
  | disconnect
  | postSend (size : Nat)
  | postReceive

def afterRead (statusOr : StatusOr Nat) : Except Fault AfterRead := do
  if statusOr.eof then return .disconnect
  let sizeWritten ← statusOr.deref
  if sizeWritten > 0 then return .postSend sizeWritten else return .postReceive

/-- A call of `HandleReadCompletion`: of `local_buffer` and `remote_buffer`. -/
abbrev ReadHandler := Bytes → Block → Except Fault (StatusOr Nat × Block)

/-! ## The machine -/

/-- How far `OnConnection` is. -/
inductive Phase
  | waiting
  | connected
  | copied
  | posted
deriving DecidableEq

/-- Where the poller is: between completions, at the call of the handler, before `PostSend`. -/
inductive Poller
  | idle
  | reading
  | posting (size : Nat)
  | crashed
deriving DecidableEq

/-- The receives the poller has still to post for the message it handles. -/
def Poller.busy : Poller → Nat
  | .reading => 1
  | .posting _ => 1
  | .idle => 0
  | .crashed => 0

/-- A completion of the queue; that of a receive with the message that arrived. -/
inductive Completion
  | recv (message : Bytes)
  | send

/-- A posted send: its bytes, and what had been stored to `remote_buffer` when it was posted. -/
structure Send where
  bytes : Bytes
  stored : List Nat

structure Endpoint where
  conn : RDMAConnection := {}
  phase : Phase := .waiting
  localBuffer : Bytes
  remoteBuffer : Block
  peerMr : Option Bytes := none
  /-- receives posted and not used by a message -/
  receives : Nat := 1
  /-- sends posted and not completed -/
  inFlight : List Send := []
  completions : List Completion := []
  poller : Poller := .idle
  /-- the messages whose completions were taken, and what `local_buffer` held at each call -/
  received : List Bytes := []
  handled : List Bytes := []
  /-- the sends posted so far -/
  sent : List Send := []

namespace Endpoint

inductive Action
  | connect
  | copyMr
  | postMr
  | deliver (message : Bytes)
  | complete
  | poll
  | handle
  | post

/-- `BuildContext`: the buffers are not initialised. -/
def init (localBuffer remoteBuffer : Bytes) : Endpoint where
  localBuffer := localBuffer
  remoteBuffer := { bytes := remoteBuffer }

/-- `PostReceive`. -/
def postReceive (s : Endpoint) : Endpoint := { s with receives := s.receives + 1 }

/-- `PostSend`, when `connected` is set. -/
def postSend (s : Endpoint) (size : Nat) : Endpoint :=
  let send := ⟨s.remoteBuffer.bytes.take size, s.remoteBuffer.stored⟩
  { s with inFlight := s.inFlight ++ [send], sent := s.sent ++ [send] }

/-- The completion of a send. -/
def takeSend (s : Endpoint) (rest : List Completion) : Endpoint :=
  { s with conn := s.conn.send.1, completions := rest }.postReceive

/-- The completion of a receive, up to the call of the handler. -/
def takeReceive (mrSize : Nat) (s : Endpoint) (message : Bytes) (rest : List Completion) : Endpoint :=
  { s with
    conn := (s.conn.receive mrSize s.localBuffer s.peerMr).1
    peerMr := (s.conn.receive mrSize s.localBuffer s.peerMr).2
    completions := rest
    poller := .reading
    received := s.received ++ [message]
    handled := s.handled ++ [s.localBuffer] }

/-- The call of the handler has returned, or has faulted. -/
def returned (s : Endpoint) : Except Fault (StatusOr Nat × Block) → Endpoint
  | .error _ => { s with poller := .crashed }
  | .ok (statusOr, out) =>
    match afterRead statusOr with
    | .error _ => { s with remoteBuffer := out, poller := .crashed }
    | .ok .disconnect => { s with remoteBuffer := out, poller := .idle }
    | .ok (.postSend size) => { s with remoteBuffer := out, poller := .posting size }
    | .ok .postReceive => { s with remoteBuffer := out, poller := .idle }.postReceive

variable (mr : Bytes) (handler : Nat → ReadHandler)

/-- One step; `mr` is the memory region, `handler n` the handler at its `n`-th call. -/
def step (s : Endpoint) (a : Action) : Option Endpoint :=
  if s.poller = .crashed then none else
  match a with
  | .connect => if s.phase = .waiting then some { s with phase := .connected } else none
  | .copyMr =>
    if s.phase = .connected then
      some { s with phase := .copied, remoteBuffer := s.remoteBuffer.overwrite mr }
    else none
  | .postMr =>
    if s.phase = .copied then some ({ s with phase := .posted }.postSend mr.length) else none
  | .deliver message =>
    if 0 < s.receives ∧ message.length ≤ kMaxBufferSize then
      some { s with
        receives := s.receives - 1
        localBuffer := message ++ s.localBuffer.drop message.length
        completions := s.completions ++ [.recv message] }
    else none
  | .complete =>
    match s.inFlight with
    | _ :: rest => some { s with inFlight := rest, completions := s.completions ++ [.send] }
    | [] => none
  | .poll =>
    match s.poller, s.completions with
    | .idle, .send :: rest => some (s.takeSend rest)
    | .idle, .recv message :: rest => some (s.takeReceive mr.length message rest)
    | _, _ => none
  | .handle =>
    match s.poller with
    | .reading =>
      some (s.returned (handler s.handled.length s.localBuffer s.remoteBuffer))
    | _ => none
  | .post =>
    match s.poller with
    | .posting size =>
      if s.phase = .waiting then none
      else some ({ s with poller := .idle }.postSend size).postReceive
    | _ => none

/-! ## What a step does -/

/-- The steps, with what must hold before each. -/
inductive Moves (s : Endpoint) : Action → Endpoint → Prop
  | connect : s.phase = .waiting → Moves s .connect { s with phase := .connected }
  | copyMr : s.phase = .connected →
      Moves s .copyMr { s with phase := .copied, remoteBuffer := s.remoteBuffer.overwrite mr }
  | postMr : s.phase = .copied → Moves s .postMr ({ s with phase := .posted }.postSend mr.length)
  | deliver (message : Bytes) : 0 < s.receives →
      Moves s (.deliver message) { s with
        receives := s.receives - 1
        localBuffer := message ++ s.localBuffer.drop message.length
        completions := s.completions ++ [.recv message] }
  | complete {send : Send} {rest : List Send} : s.inFlight = send :: rest →
      Moves s .complete { s with inFlight := rest, completions := s.completions ++ [.send] }
  | takeSend {rest : List Completion} : s.poller = .idle → s.completions = .send :: rest →
      Moves s .poll (s.takeSend rest)
  | takeReceive {message : Bytes} {rest : List Completion} : s.poller = .idle →
      s.completions = .recv message :: rest → Moves s .poll (s.takeReceive mr.length message rest)
  | handle : s.poller = .reading →
      Moves s .handle (s.returned (handler s.handled.length s.localBuffer s.remoteBuffer))
  | post {size : Nat} : s.poller = .posting size → s.phase ≠ .waiting →
      Moves s .post ({ s with poller := .idle }.postSend size).postReceive

variable {mr handler}

theorem step_cases {s t : Endpoint} {a : Action} (h : step mr handler s a = some t) :
    Moves mr handler s a t := by
  unfold step at h
  split at h
  · cases h
  · cases a with
    | connect =>
      obtain ⟨hphase, h⟩ := Option.ite_none_right_eq_some.1 h
      cases h
      exact .connect hphase
    | copyMr =>
      obtain ⟨hphase, h⟩ := Option.ite_none_right_eq_some.1 h
      cases h
      exact .copyMr hphase
    | postMr =>
      obtain ⟨hphase, h⟩ := Option.ite_none_right_eq_some.1 h
      cases h
      exact .postMr hphase
    | deliver message =>
      obtain ⟨⟨hroom, -⟩, h⟩ := Option.ite_none_right_eq_some.1 h
      cases h
      exact .deliver message hroom
    | complete =>
      dsimp only at h
      split at h
      · next hflight =>
        cases h
        exact .complete hflight
      · cases h
    | poll =>
      dsimp only at h
      split at h
      · next hidle hqueue =>
        cases h
        exact .takeSend hidle hqueue
      · next hidle hqueue =>
        cases h
        exact .takeReceive hidle hqueue
      · cases h
    | handle =>
      dsimp only at h
      split at h
      · next hreading =>
        cases h
        exact .handle hreading
      · cases h
    | post =>
      dsimp only at h
      split at h
      · next hposting =>
        obtain ⟨hphase, h⟩ := Option.ite_none_left_eq_some.1 h
        cases h
        exact .post hposting hphase
      · cases h

/-- The call of the handler changes `remote_buffer`, the poller, and the receives that are posted: a
receive is posted only when the poller is done with the message. -/
theorem returned_cases (s : Endpoint) (call : Except Fault (StatusOr Nat × Block)) :
    ∃ (out : Block) (poller : Poller) (receives : Nat),
      s.returned call = { s with remoteBuffer := out, poller := poller, receives := receives } ∧
      poller ≠ .reading ∧ receives + poller.busy ≤ s.receives + 1 ∧
      ∀ statusOr b, call = .ok (statusOr, b) → out = b := by
  cases call with
  | error e =>
    exact ⟨s.remoteBuffer, .crashed, s.receives, rfl, nofun, Nat.le_succ _, nofun⟩
  | ok result =>
    obtain ⟨statusOr, out⟩ := result
    have hout : ∀ statusOr' b, (.ok (statusOr, out) : Except Fault _) = .ok (statusOr', b) →
        out = b := by
      rintro _ _ ⟨⟩
      rfl
    cases hnext : afterRead statusOr with
    | error e =>
      exact ⟨out, .crashed, s.receives, by simp [returned, hnext], nofun, Nat.le_succ _, hout⟩
    | ok next =>
      cases next with
      | disconnect =>
        exact ⟨out, .idle, s.receives, by simp [returned, hnext], nofun, Nat.le_succ _, hout⟩
      | postSend size =>
        exact ⟨out, .posting size, s.receives, by simp [returned, hnext], nofun, Nat.le_refl _, hout⟩
      | postReceive =>
        exact ⟨out, .idle, s.receives + 1, by simp [returned, hnext, postReceive], nofun,
          Nat.le_refl _, hout⟩

/-! ## A queue pair of a server with an empty store -/

def emptyStore : Nat → ReadHandler := fun _ => KvRequestHandler.handleReadCompletion (.ofStore [] ∅)

def fresh : Endpoint := init freshBuffer.bytes freshBuffer.bytes

/-- `OnConnection` has run, with a memory region of one byte. -/
def mrSent : Endpoint :=
  { fresh with phase := .posted, remoteBuffer := freshBuffer.overwrite [9] }.postSend 1

theorem run_onConnection :
    Machine.run (step [9] emptyStore) fresh [.connect, .copyMr, .postMr] = some mrSent := rfl

end Endpoint

end SqpKv
