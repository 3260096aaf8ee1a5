import SqpKv.Server.RequestHandler

/-!
# A shard's worker when calls fail (src/server/kv_worker.cc)

`KvWorker::HandleClient` call by call: a read gets one write of the client, a
response goes out in the pieces in which `SendPacket` writes it, and any call
may fail.  What RocksDB answers is a parameter, one for each request, and so is
the buffer in which a response is built.
-/

namespace SqpKv

open Wire

/-- `HandleClient` between two of its calls; `left` are the pieces of the response that `SendPacket`
has still to write. -/
inductive KvControl
  | head (err : Bool)
  | reading (packet : ReadState)
  | sending (left : List Bytes)
  | returned
  | crashed

/-- `served` counts the requests read so far; a write to the client is for a request. -/
structure KvLoop where
  control : KvControl
  served : Nat
  fromClient : List Bytes
  toClient : List (Nat × Bytes)

structure KvEnv where
  alloc : Allocator
  errorText : Bytes
  rocks : Nat → Rocks
  fresh : Response → Block

namespace KvLoop

def init : KvLoop := ⟨.head false, 0, [], []⟩

/-- The `switch`, up to the `SendPacket` of the response. -/
def start (e : KvEnv) (s : KvLoop) (packet : CommandPacket) : KvLoop :=
  let r := KvWorker.respond (e.rocks (s.served + 1)) packet.command
  match r.encode (some (e.fresh r)) with
  | .ok (p, some out) =>
    { s with served := s.served + 1, control := .sending (pieces (sentBytes p out)) }
  | _ => { s with control := .crashed }

/-- `ReadFromClient` goes on or returns. -/
def clientRead (e : KvEnv) (s : KvLoop) : ReadState ⊕ (Status × Bytes) → KvLoop
  | .inl packet => { s with control := .reading packet }
  | .inr read =>
    match KvWorker.receive read with
    | .ok none => { s with control := .returned }
    | .ok (some packet) => s.start e packet
    | .error _ => { s with control := .crashed }

/-- `HandleClient` up to the end of its next call, which goes as `r` or `w` says. -/
def workerStep (e : KvEnv) (r w : Call) (s : KvLoop) : Option KvLoop :=
  match s.control with
  | .head err =>
    if err then some { s with control := .returned }
    else some { s with control := .reading (.init e.alloc) }
  | .reading packet => do
    let (result, _, fromClient) ← r.read id s.fromClient
    return { s with fromClient }.clientRead e
      ((readWholePacket e.alloc e.errorText).deliver packet result)
  | .sending left =>
    match left with
    | [] => none
    | bs :: left =>
      if w.written bs ≤ 0 then some { s with control := .head true }
      else some { s with
        toClient := s.toClient ++ [(s.served, bs)]
        control := if left = [] then .head false else .sending left }
  | .returned => none
  | .crashed => none

/-- A call of the worker, or a write of the client. -/
inductive Action
  | worker (r w : Call)
  | client (bs : Bytes)

def step (e : KvEnv) (s : KvLoop) : Action → Option KvLoop
  | .worker r w => s.workerStep e r w
  | .client bs => some { s with fromClient := s.fromClient ++ [bs] }

/-- The steps, with what must hold before each. -/
inductive Moves (e : KvEnv) (s : KvLoop) : Action → KvLoop → Prop
  | client (bs : Bytes) : Moves e s (.client bs) { s with fromClient := s.fromClient ++ [bs] }
  | leave {r w : Call} : s.control = .head true →
      Moves e s (.worker r w) { s with control := .returned }
  | loop {r w : Call} : s.control = .head false →
      Moves e s (.worker r w) { s with control := .reading (.init e.alloc) }
  | read {r w : Call} {packet : ReadState} {fromClient : List Bytes} {result : ReadResult} :
      s.control = .reading packet → Moves e s (.worker r w) ({ s with fromClient }.clientRead e
        ((readWholePacket e.alloc e.errorText).deliver packet result))
  | fail {r w : Call} {bs : Bytes} {left : List Bytes} : s.control = .sending (bs :: left) →
      w.written bs ≤ 0 → Moves e s (.worker r w) { s with control := .head true }
  | write {r w : Call} {bs : Bytes} {left : List Bytes} : s.control = .sending (bs :: left) →
      ¬ w.written bs ≤ 0 → Moves e s (.worker r w) { s with
        toClient := s.toClient ++ [(s.served, bs)]
        control := if left = [] then .head false else .sending left }

theorem step_cases {e : KvEnv} {s t : KvLoop} {a : Action} (h : step e s a = some t) :
    Moves e s a t := by
  cases a with
  | client bs =>
    cases h
    exact .client bs
  | worker r w =>
    unfold step workerStep at h
    cases hc : s.control with
    | head err =>
      simp only [hc] at h
      cases err with
      | true =>
        cases h
        exact .leave hc
      | false =>
        cases h
        exact .loop hc
    | reading packet =>
      simp only [hc] at h
      obtain ⟨⟨result, taken, fromClient⟩, -, h⟩ := Option.bind_eq_some_iff.1 h
      cases h
      exact .read hc
    | sending left =>
      simp only [hc] at h
      cases left with
      | nil => cases h
      | cons bs left =>
        dsimp only at h
        by_cases hw : w.written bs ≤ 0
        · rw [if_pos hw] at h
          cases h
          exact .fail hc hw
        · rw [if_neg hw] at h
          cases h
          exact .write hc hw
    | returned =>
      simp only [hc] at h
      cases h
    | crashed =>
      simp only [hc] at h
      cases h

end KvLoop

end SqpKv
