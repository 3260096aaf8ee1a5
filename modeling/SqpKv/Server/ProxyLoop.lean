import Mathlib.Data.List.Basic
import SqpKv.Lib.Machine
import SqpKv.Protocol.Transfer
import SqpKv.Server.ShardingProxyWorker

/-!
# The proxy's loop when calls fail (src/server/sharding_proxy_worker.cc)

`HandleClient` call by call: what is written and read are the pieces in which
`SendPacket` writes a packet, every read gets one piece, and any call may fail.
A shard reads a request piece by piece and answers it once.  Pieces carry the
number of the client's request they belong to.  A packet's size is a
`uint32_t`, and below `2 ^ 32` bytes its `pieces` are what `SendPacket` writes
(`sendPacket_eq`).
-/

namespace SqpKv

open Wire Machine

/-! ## Connections to the shards -/

/-- One write, for the client's request of this number. -/
structure Piece where
  request : Nat
  bytes : Bytes

/-- A read ends the packet with it. -/
def Piece.Short (p : Piece) : Prop := p.bytes.length < kMaxNetPacketSize

instance (p : Piece) : Decidable p.Short := inferInstanceAs (Decidable (_ < _))

/-- A connection with the shard at its end: the pieces on the way to the shard, what the shard has
read of a request, how many requests it has answered, the pieces of an answer it has still to
write, and those on the way to the proxy. -/
structure Link where
  toShard : List Piece
  reading : List Piece
  answered : Nat
  writing : List Piece
  toProxy : List Piece

/-- `SendPacket` of the answer to the request `k`. -/
def answerPieces (k : Nat) (data : Bytes) : List Piece := (pieces data).map (Piece.mk k)

namespace Link

def init : Link := ⟨[], [], 0, [], []⟩

/-- Nothing is unanswered, unwritten or unread. -/
def Quiet (l : Link) : Prop :=
  l.toShard = [] ∧ l.reading = [] ∧ l.writing = [] ∧ l.toProxy = []

/-- The proxy writes. -/
def write (l : Link) (p : Piece) : Link := { l with toShard := l.toShard ++ [p] }

/-- The shard reads; behind the last piece of a request it has the answer, `answers k` to its
`k`-th request. -/
def shardRead (answers : Nat → Bytes) (l : Link) : Option Link :=
  match l.writing, l.toShard with
  | [], p :: toShard =>
    if p.Short then
      some { l with
        toShard
        reading := []
        answered := l.answered + 1
        writing := answerPieces p.request (answers l.answered) }
    else some { l with toShard, reading := l.reading ++ [p] }
  | _, _ => none

/-- The shard writes. -/
def shardWrite (l : Link) : Option Link :=
  match l.writing with
  | p :: writing => some { l with writing, toProxy := l.toProxy ++ [p] }
  | [] => none

end Link

/-! ## The loop -/

/-- How a call of `read` or `write` goes: a `read` gets one of the writes that were made, and a `write`
is taken whole.  `zero` is the end of the stream. -/
inductive Call
  | done
  | failed
  | zero

/-- `read` from a queue of writes: what it gives, the write it took and the writes that are left.
It waits while there is none. -/
def Call.read {α : Type} (bytes : α → Bytes) : Call → List α → Option (ReadResult × List α × List α)
  | .done, p :: queue => some (.data (bytes p), [p], queue)
  | .done, [] => none
  | .failed, queue => some (.failed, [], queue)
  | .zero, queue => some (.data [], [], queue)

/-- What `write` returns. -/
def Call.written (bs : Bytes) : Call → Int
  | .done => bs.length
  | .failed => -1
  | .zero => 0

theorem Call.written_pos {bs : Bytes} (h : 0 < bs.length) : ¬ Call.done.written bs ≤ 0 := by
  show ¬ (bs.length : Int) ≤ 0
  omega

theorem Call.written_nonpos {w : Call} (h : w ≠ .done) (bs : Bytes) : w.written bs ≤ 0 := by
  cases w with
  | done => exact absurd rfl h
  | failed =>
    show (-1 : Int) ≤ 0
    omega
  | zero => exact Int.le_refl 0

theorem Call.read_done {α : Type} {bytes : α → Bytes} {queue : List α} {result : ReadResult}
    {taken rest : List α} (h : Call.done.read bytes queue = some (result, taken, rest)) :
    ∃ a, queue = a :: rest ∧ result = .data (bytes a) ∧ taken = [a] := by
  cases queue with
  | nil => cases h
  | cons a queue =>
    cases h
    exact ⟨a, rfl, rfl, rfl⟩

/-- A call of `read` that fails, or is at the end of the stream. -/
theorem Call.read_of_ne {α : Type} {bytes : α → Bytes} {r : Call} (hr : r ≠ .done) {queue : List α}
    {result : ReadResult} {taken rest : List α} (h : r.read bytes queue = some (result, taken, rest)) :
    result = .failed ∨ result = .data [] := by
  cases r with
  | done => exact absurd rfl hr
  | failed =>
    cases h
    exact .inl rfl
  | zero =>
    cases h
    exact .inr rfl

/-- `HandleClient` between two of its calls; `left` are the pieces a `SendPacket` has still to
write, `sources` the requests whose responses the keys were read from. -/
inductive Control (n : Nat)
  | head (status : Status)
  | reading (packet : ReadState)
  | dispatch (shard : Fin n) (left : List Bytes)
  | forward (shard : Fin n)
  | fanOut (data : Bytes) (next : Nat) (left : List Bytes)
  | collect (next : Nat) (packet : ReadState) (keys : List Bytes) (sources : List Nat)
  | respond (left : List Bytes) (sources : List Nat)
  | returned
  | crashed

/-- A write to the client: for which request, and from responses to which. -/
structure Written where
  request : Nat
  sources : List Nat
  bytes : Bytes

/-- `served` counts the requests read so far. -/
structure ProxyLoop (n : Nat) where
  control : Control n
  served : Nat
  fromClient : List Bytes
  toClient : List Written
  link : Fin n → Link

/-- What the proxy does not decide: the allocator, the text of `strerror(errno)`, the buffer in which
the response of a GetAll is built, and the answers of the shards. -/
structure ProxyEnv (n : Nat) where
  alloc : Allocator
  errorText : Bytes
  fresh : List Bytes → Block
  answers : Fin n → Nat → Bytes

/-- `GetAllResponsePacket(Status::Ok(), keys)` in the buffer `b`, as many bytes as its size field
says. -/
def getAllResponseBytes (b : Block) (keys : List Bytes) : Except Fault Bytes := do
  let (p, out) ← GetAllResponsePacket.encode .Ok keys (some b)
  return ((out.map Block.bytes).getD []).take (toUInt32 (p.payloadSize + 4))

namespace ProxyLoop

variable {n : Nat}

def init : ProxyLoop n := ⟨.head .Ok, 0, [], [], fun _ => .init⟩

def setLink (s : ProxyLoop n) (i : Fin n) (l : Link) : ProxyLoop n :=
  { s with link := Function.update s.link i l }

/-- The `switch` on the packet that was read. -/
def start (s : ProxyLoop n) (buf : Bytes) : ProxyLoop n :=
  match createCommandPacket buf with
  | .ok (some packet) =>
    let data := packet.toPacket.toBinary.toStr
    { s with
      served := s.served + 1
      control :=
        match packet.command.key? with
        | none => .fanOut data 0 (pieces data)
        | some key =>
          match route n key with
          | some i => .dispatch i (pieces data)
          | none => .crashed }
  | _ => { s with control := .crashed }

/-- A `SendPacket` to shard `i` writes its next piece `bs`; it goes on with `next`. -/
def sendPiece (e : ProxyEnv n) (w : Call) (s : ProxyLoop n) (i : Fin n) (bs : Bytes)
    (next : Control n) : ProxyLoop n :=
  if w.written bs ≤ 0 then { s with control := .head (.Err e.errorText) }
  else { s.setLink i ((s.link i).write ⟨s.served, bs⟩) with control := next }

/-- `ReadFromClient` goes on or returns. -/
def clientRead (s : ProxyLoop n) : ReadState ⊕ (Status × Bytes) → ProxyLoop n
  | .inl packet => { s with control := .reading packet }
  | .inr (status, buf) =>
    if status.err || status.eof then { s with control := .returned } else s.start buf

/-- `ForwardPacket` from shard `i` goes on or returns, having written `sent` of what it read. -/
def forwarded (s : ProxyLoop n) (i : Fin n) (taken : List Piece) :
    List Bytes ⊕ (Status × List Bytes) → ProxyLoop n
  | .inl sent => { s with
    toClient := s.toClient ++ sent.map (Written.mk s.served (taken.map Piece.request))
    control := .forward i }
  | .inr (status, sent) => { s with
    toClient := s.toClient ++ sent.map (Written.mk s.served (taken.map Piece.request))
    control := .head status }

/-- `ReadFromServer` of the shard `next` goes on or returns. -/
def serverRead (e : ProxyEnv n) (s : ProxyLoop n) (next : Nat) (keys : List Bytes)
    (sources : List Nat) : ReadState ⊕ (Status × Bytes) → ProxyLoop n
  | .inl packet => { s with control := .collect next packet keys sources }
  | .inr (status, buf) =>
    if status.ok then
      match createResponsePacket buf with
      | .ok (some (.getAll p)) =>
        { s with control := .collect (next + 1) (.init e.alloc) (p.addKeys keys) sources }
      | _ => { s with control := .crashed }
    else { s with control := .head status }

/-- `HandleClient` up to the end of its next calls, which go as `r` and `w` say. -/
def proxyStep (e : ProxyEnv n) (r w : Call) (s : ProxyLoop n) : Option (ProxyLoop n) :=
  match s.control with
  | .head status =>
    if status.ok then some { s with control := .reading (.init e.alloc) }
    else some { s with control := .returned }
  | .reading packet => do
    let (result, _, fromClient) ← r.read id s.fromClient
    return { s with fromClient }.clientRead
      ((readWholePacket e.alloc e.errorText).deliver packet result)
  | .dispatch i left =>
    match left with
    | [] => none
    | bs :: left => some (s.sendPiece e w i bs (if left = [] then .forward i else .dispatch i left))
  | .forward i => do
    let (result, taken, toProxy) ← r.read Piece.bytes (s.link i).toProxy
    return (s.setLink i { s.link i with toProxy }).forwarded i taken
      ((forwardPacket (fun _ bs => w.written bs) e.errorText).deliver [] result)
  | .fanOut data next left =>
    if h : next < n then
      match left with
      | [] => none
      | bs :: left =>
        some (s.sendPiece e w ⟨next, h⟩ bs
          (if left = [] then .fanOut data (next + 1) (pieces data) else .fanOut data next left))
    else some { s with control := .collect 0 (.init e.alloc) [] [] }
  | .collect next packet keys sources =>
    if h : next < n then do
      let (result, taken, toProxy) ← r.read Piece.bytes (s.link ⟨next, h⟩).toProxy
      return (s.setLink ⟨next, h⟩ { s.link ⟨next, h⟩ with toProxy }).serverRead e next keys
        (sources ++ taken.map Piece.request)
        ((readWholePacket e.alloc e.errorText).deliver packet result)
    else
      match getAllResponseBytes (e.fresh keys) keys with
      | .ok data => some { s with control := .respond (pieces data) sources }
      | .error _ => some { s with control := .crashed }
  | .respond left sources =>
    match left with
    | [] => none
    | bs :: left =>
      if w.written bs ≤ 0 then some { s with control := .head (.Err e.errorText) }
      else some { s with
        toClient := s.toClient ++ [⟨s.served, sources, bs⟩]
        control := if left = [] then .head .Ok else .respond left sources }
  | .returned => none
  | .crashed => none

/-- A call of the proxy, of a shard, or a write of the client. -/
inductive Action (n : Nat)
  | proxy (r w : Call)
  | shardRead (i : Fin n)
  | shardWrite (i : Fin n)
  | client (bs : Bytes)

def step (e : ProxyEnv n) (s : ProxyLoop n) : Action n → Option (ProxyLoop n)
  | .proxy r w => s.proxyStep e r w
  | .shardRead i => do
    let l ← (s.link i).shardRead (e.answers i)
    return s.setLink i l
  | .shardWrite i => do
    let l ← (s.link i).shardWrite
    return s.setLink i l
  | .client bs => some { s with fromClient := s.fromClient ++ [bs] }

/-! ## What a step of the proxy does -/

section Steps

variable {e : ProxyEnv n} {r w : Call} {s t : ProxyLoop n} (hs : s.proxyStep e r w = some t)

include hs

theorem proxyStep_head {status : Status} (hc : s.control = .head status) :
    t = if status.ok then { s with control := .reading (.init e.alloc) }
      else { s with control := .returned } := by
  simp only [proxyStep, hc] at hs
  split at hs
  · next hok =>
    rw [if_pos hok]
    exact (Option.some.inj hs).symm
  · next hok =>
    rw [if_neg hok]
    exact (Option.some.inj hs).symm

theorem proxyStep_reading {packet : ReadState} (hc : s.control = .reading packet) :
    ∃ result taken fromClient, r.read id s.fromClient = some (result, taken, fromClient) ∧
      t = { s with fromClient }.clientRead
        ((readWholePacket e.alloc e.errorText).deliver packet result) := by
  simp only [proxyStep, hc] at hs
  obtain ⟨⟨result, taken, fromClient⟩, hread, hs⟩ := Option.bind_eq_some_iff.1 hs
  exact ⟨result, taken, fromClient, hread, (Option.some.inj hs).symm⟩

theorem proxyStep_dispatch {i : Fin n} {left : List Bytes} (hc : s.control = .dispatch i left) :
    ∃ bs rest, left = bs :: rest ∧
      t = s.sendPiece e w i bs (if rest = [] then .forward i else .dispatch i rest) := by
  simp only [proxyStep, hc] at hs
  cases left with
  | nil => cases hs
  | cons bs rest => exact ⟨bs, rest, rfl, (Option.some.inj hs).symm⟩

theorem proxyStep_forward {i : Fin n} (hc : s.control = .forward i) :
    ∃ result taken toProxy,
      r.read Piece.bytes (s.link i).toProxy = some (result, taken, toProxy) ∧
      t = (s.setLink i { s.link i with toProxy }).forwarded i taken
        ((forwardPacket (fun _ bs => w.written bs) e.errorText).deliver [] result) := by
  simp only [proxyStep, hc] at hs
  obtain ⟨⟨result, taken, toProxy⟩, hread, hs⟩ := Option.bind_eq_some_iff.1 hs
  exact ⟨result, taken, toProxy, hread, (Option.some.inj hs).symm⟩

/-- The loop over the shards sends to the next, or is over. -/
theorem proxyStep_fanOut {data : Bytes} {next : Nat} {left : List Bytes}
    (hc : s.control = .fanOut data next left) :
    (∃ (hn : next < n) (bs : Bytes) (rest : List Bytes), left = bs :: rest ∧
      t = s.sendPiece e w ⟨next, hn⟩ bs
        (if rest = [] then .fanOut data (next + 1) (pieces data) else .fanOut data next rest)) ∨
    (n ≤ next ∧ t = { s with control := .collect 0 (.init e.alloc) [] [] }) := by
  simp only [proxyStep, hc] at hs
  by_cases hn : next < n
  · rw [dif_pos hn] at hs
    cases left with
    | nil => cases hs
    | cons bs rest => exact .inl ⟨hn, bs, rest, rfl, (Option.some.inj hs).symm⟩
  · rw [dif_neg hn] at hs
    exact .inr ⟨Nat.not_lt.1 hn, (Option.some.inj hs).symm⟩

/-- The loop over the answers reads from the next shard, or is over and the response is built. -/
theorem proxyStep_collect {next : Nat} {packet : ReadState} {keys : List Bytes} {sources : List Nat}
    (hc : s.control = .collect next packet keys sources) :
    (∃ (hn : next < n) (result : ReadResult) (taken toProxy : List Piece),
      r.read Piece.bytes (s.link ⟨next, hn⟩).toProxy = some (result, taken, toProxy) ∧
      t = (s.setLink ⟨next, hn⟩ { s.link ⟨next, hn⟩ with toProxy }).serverRead e next keys
        (sources ++ taken.map Piece.request)
        ((readWholePacket e.alloc e.errorText).deliver packet result)) ∨
    (n ≤ next ∧ ((∃ data, t = { s with control := .respond (pieces data) sources }) ∨
      t = { s with control := .crashed })) := by
  simp only [proxyStep, hc] at hs
  by_cases hn : next < n
  · rw [dif_pos hn] at hs
    obtain ⟨⟨result, taken, toProxy⟩, hread, hs⟩ := Option.bind_eq_some_iff.1 hs
    exact .inl ⟨hn, result, taken, toProxy, hread, (Option.some.inj hs).symm⟩
  · rw [dif_neg hn] at hs
    refine .inr ⟨Nat.not_lt.1 hn, ?_⟩
    split at hs
    · next data _ => exact .inl ⟨data, (Option.some.inj hs).symm⟩
    · exact .inr (Option.some.inj hs).symm

theorem proxyStep_respond {left : List Bytes} {sources : List Nat}
    (hc : s.control = .respond left sources) :
    ∃ bs rest, left = bs :: rest ∧
      t = if w.written bs ≤ 0 then { s with control := .head (.Err e.errorText) }
        else { s with
          toClient := s.toClient ++ [⟨s.served, sources, bs⟩]
          control := if rest = [] then .head .Ok else .respond rest sources } := by
  simp only [proxyStep, hc] at hs
  cases left with
  | nil => cases hs
  | cons bs rest =>
    refine ⟨bs, rest, rfl, ?_⟩
    dsimp only at hs
    split at hs
    · next hw =>
      rw [if_pos hw]
      exact (Option.some.inj hs).symm
    · next hw =>
      rw [if_neg hw]
      exact (Option.some.inj hs).symm

/-- There is no step behind the end of the loop. -/
theorem proxyStep_running : s.control ≠ .returned ∧ s.control ≠ .crashed := by
  constructor
  · intro hc
    simp only [proxyStep, hc] at hs
    cases hs
  · intro hc
    simp only [proxyStep, hc] at hs
    cases hs

end Steps

end ProxyLoop

end SqpKv
