import SqpKv.Protocol.Decode
import SqpKv.Lib.ReadLoop

/-!
# Sending and receiving packets (src/protocol/protocol.h, protocol.cc)

`SendPacket` writes a packet in pieces of `kMaxNetPacketSize` bytes; the last
piece is shorter, if need be a single zero byte.  Both receivers take a read of
less than `kMaxNetPacketSize` bytes for the end of the packet:

* `ForwardPacket` asks for `kMaxNetPacketSize` bytes each time and writes on
  what it got;
* `ReadWholePacket` appends to a vector and asks for the room `buf_len` it has
  left.  When less than `kMaxNetPacketSize` is left it reserves twice the size.

A `read` or a `write` of the socket is a parameter: the receivers are
`Receiver`s, a `Writer` gives the return value of each `write`.  `errorText` is
what `strerror(errno)` says when a call has failed.
-/

namespace SqpKv

open Wire

def kMaxNetPacketSize : Nat := 131072

theorem kMaxNetPacketSize_pos : 0 < kMaxNetPacketSize := by decide

/-! ## `std::vector<char>` -/

/-- What an allocator gives when asked for room for `n` bytes. -/
structure Allocator where
  cap : Nat → Nat
  le : ∀ n, n ≤ cap n

/-- No more than was asked for. -/
def Allocator.exact : Allocator := ⟨id, fun _ => Nat.le_refl _⟩

structure Vec where
  data : Bytes
  cap : Nat
  fits : data.length ≤ cap

namespace Vec

def empty : Vec := ⟨[], 0, Nat.le_refl 0⟩

/-- `reserve(n)`. -/
def reserve (alloc : Allocator) (v : Vec) (n : Nat) : Vec where
  data := v.data
  cap := if n ≤ v.cap then v.cap else alloc.cap n
  fits := by
    have := v.fits
    have := alloc.le n
    split <;> omega

/-- `resize(n)`: cut off, or filled up with zero bytes. -/
def resize (alloc : Allocator) (v : Vec) (n : Nat) : Vec where
  data := v.data.take n ++ List.replicate (n - v.data.length) 0
  cap := (v.reserve alloc n).cap
  fits := by
    have := alloc.le n
    simp only [reserve, List.length_append, List.length_take, List.length_replicate]
    split <;> omega

/-- What `read` does to the vector: it stores `bs` at `off` and nothing behind the end. -/
def fill (v : Vec) (off : Nat) (bs : Bytes) : Vec where
  data := (v.data.take off ++ bs ++ v.data.drop (off + bs.length)).take v.data.length
  cap := v.cap
  fits := by
    have := v.fits
    rw [List.length_take]
    omega

@[simp] theorem reserve_data (alloc : Allocator) (v : Vec) (n : Nat) :
    (v.reserve alloc n).data = v.data := rfl

@[simp] theorem resize_length (alloc : Allocator) (v : Vec) (n : Nat) :
    (v.resize alloc n).data.length = n := by
  simp only [resize, List.length_append, List.length_take, List.length_replicate]
  omega

@[simp] theorem fill_cap (v : Vec) (off : Nat) (bs : Bytes) : (v.fill off bs).cap = v.cap := rfl

theorem le_reserve_cap (alloc : Allocator) (v : Vec) (n : Nat) : n ≤ (v.reserve alloc n).cap := by
  have := alloc.le n
  unfold reserve
  dsimp only
  split <;> omega

theorem reserve_exact_cap {v : Vec} {n : Nat} (h : v.cap < n) : (v.reserve .exact n).cap = n :=
  if_neg (Nat.not_le.2 h)

theorem cap_le_reserve_cap (alloc : Allocator) (v : Vec) (n : Nat) :
    v.cap ≤ (v.reserve alloc n).cap := by
  have := alloc.le n
  unfold reserve
  dsimp only
  split <;> omega

theorem cap_le_resize_cap (alloc : Allocator) (v : Vec) (n : Nat) :
    v.cap ≤ (v.resize alloc n).cap :=
  v.cap_le_reserve_cap alloc n

/-- No reallocation when there is room. -/
theorem resize_cap {alloc : Allocator} {v : Vec} {n : Nat} (h : n ≤ v.cap) :
    (v.resize alloc n).cap = v.cap := by
  simp only [resize, reserve, if_pos h]

/-- Making room, reading into it and cutting off the rest appends what was read. -/
theorem resize_fill_resize (alloc : Allocator) (v : Vec) {n : Nat} {bs : Bytes}
    (h : bs.length ≤ n) :
    (((v.resize alloc (v.data.length + n)).fill v.data.length bs).resize alloc
      (v.data.length + bs.length)).data = v.data ++ bs := by
  have hgrown : (v.resize alloc (v.data.length + n)).data = v.data ++ List.replicate n 0 := by
    simp only [resize]
    rw [List.take_of_length_le (by omega), Nat.add_sub_cancel_left]
  have hfilled : ((v.resize alloc (v.data.length + n)).fill v.data.length bs).data =
      v.data ++ bs ++ List.replicate (n - bs.length) 0 := by
    simp only [fill]
    rw [hgrown, List.take_left, ← List.drop_drop, List.drop_left, List.drop_replicate]
    refine List.take_of_length_le ?_
    simp only [List.length_append, List.length_replicate]
    omega
  show List.take _ _ ++ List.replicate _ _ = _
  rw [hfilled, List.take_left' (by simp), Nat.sub_eq_zero_of_le (by simp),
    List.replicate_zero, List.append_nil]

end Vec

/-! ## Sending -/

/-- The return value of the `i`-th `write` of a run, given the bytes to be written. -/
abbrev Writer := (i : Nat) → Bytes → Int

/-- Every write completes. -/
def Writer.Completes (w : Writer) : Prop := ∀ i bs, w i bs = bs.length

/-- The `while` loop of `SendPacket` and the write behind it; `sent` is what the socket took so
far, write by write. -/
def sendLoop (w : Writer) (errorText data : Bytes) (size sizeWritten : Nat) (sent : List Bytes) :
    Status × List Bytes :=
  if 0 < size then
    if kMaxNetPacketSize ≤ size then
      let piece := (data.drop sizeWritten).take kMaxNetPacketSize
      let rc := w sent.length piece
      if rc ≤ 0 then (.Err errorText, sent)
      else sendLoop w errorText data (size - kMaxNetPacketSize)
        (toUInt32 (sizeWritten + kMaxNetPacketSize)) (sent ++ [piece.take rc.toNat])
    else
      let piece := (data.drop sizeWritten).take size
      let rc := w sent.length piece
      if rc ≤ 0 then (.Err errorText, sent) else (.Ok, sent ++ [piece.take rc.toNat])
  else
    -- the size was a multiple of `kMaxNetPacketSize`
    let rc := w sent.length [0]
    if rc ≤ 0 then (.Err errorText, sent) else (.Ok, sent ++ [[0]])
termination_by size
decreasing_by
  simp only [kMaxNetPacketSize] at *
  omega

/-- `SendPacket(sock, data)`: the status, and what the socket took, write by write. -/
def sendPacket (w : Writer) (errorText data : Bytes) : Status × List Bytes :=
  sendLoop w errorText data data.length 0 []

/-! ## Receiving -/

/-- `ForwardPacket(from, to)`: its state is what the socket `to` took so far. -/
def forwardPacket (w : Writer) (errorText : Bytes) :
    Receiver (List Bytes) (Status × List Bytes) where
  request _ := kMaxNetPacketSize
  deliver sent
    | .failed => .inr (.Err errorText, sent)
    | .data bs =>
      let rc := toInt32 bs.length
      if rc = 0 then .inr (.Eof, sent)
      else if rc < 0 then .inr (.Err errorText, sent)
      else
        let bytesRead := bs.take rc.toNat
        let written := w sent.length bytesRead
        if written ≤ 0 then .inr (.Eof, sent)
        else
          let sent := sent ++ [bytesRead.take written.toNat]
          if rc.toNat < kMaxNetPacketSize then .inr (.Ok, sent) else .inl sent

/-- `ReadWholePacket` between two reads: the vector, and `buf_len`, for which it has room. -/
structure ReadState where
  buf : Vec
  bufLen : Nat
  room : buf.data.length + bufLen ≤ buf.cap

namespace ReadState

/-- Before the first read. -/
def init (alloc : Allocator) : ReadState where
  buf := Vec.empty.reserve alloc kMaxNetPacketSize
  bufLen := kMaxNetPacketSize
  room := by
    have := Vec.empty.le_reserve_cap alloc kMaxNetPacketSize
    simpa [Vec.empty] using this

/-- The head of the loop: `if (buf_len < kMaxNetPacketSize) { .. }`. -/
def prepare (alloc : Allocator) (s : ReadState) : ReadState :=
  if s.bufLen < kMaxNetPacketSize then
    let buf := s.buf.reserve alloc (s.buf.data.length * 2)
    { buf, bufLen := buf.cap - buf.data.length
      room := by
        have := buf.fits
        omega }
  else s

/-- The vector and `buf_len` after `rc` of the bytes `bs` were read. -/
def received (alloc : Allocator) (s : ReadState) (bs : Bytes) (rc : Nat) : ReadState where
  buf := ((s.buf.resize alloc (s.buf.data.length + s.bufLen)).fill s.buf.data.length bs).resize alloc
    (s.buf.data.length + rc)
  bufLen := s.bufLen - rc
  room := by
    have hroom := s.room
    have hgrown := s.buf.cap_le_resize_cap alloc (s.buf.data.length + s.bufLen)
    have hcut := Vec.cap_le_resize_cap alloc
      ((s.buf.resize alloc (s.buf.data.length + s.bufLen)).fill s.buf.data.length bs)
      (s.buf.data.length + rc)
    have hfits := (((s.buf.resize alloc (s.buf.data.length + s.bufLen)).fill s.buf.data.length
      bs).resize alloc (s.buf.data.length + rc)).fits
    rw [Vec.fill_cap] at hcut
    rw [Vec.resize_length] at hfits ⊢
    omega

end ReadState

/-- `ReadWholePacket`: the status, and the vector it leaves. -/
def readWholePacket (alloc : Allocator) (errorText : Bytes) : Receiver ReadState (Status × Bytes) where
  request s := (s.prepare alloc).bufLen
  deliver s
    | .failed => .inr (.Err errorText, [])
    | .data bs =>
      let s := s.prepare alloc
      let rc := toInt32 bs.length
      if rc = 0 then .inr (.Eof, [])
      else if rc < 0 then .inr (.Err errorText, [])
      else
        let s := s.received alloc bs rc.toNat
        if rc.toNat < kMaxNetPacketSize then .inr (.Ok, s.buf.data) else .inl s

/-- `ReadFromClient` and `ReadFromServer` behind their `ReadWholePacket`, which returned `read`: the
factory's pointer is converted to a `StatusOr`. -/
def readFrom {α : Type} (create : Bytes → Except Fault (Option α)) (read : Status × Bytes) :
    Except Fault (StatusOr α) :=
  if read.1.ok then do return .ofPtr (← create read.2) else .ok (.ofStatus read.1)

/-- `ReadFromClient`. -/
def readFromClient : Status × Bytes → Except Fault (StatusOr CommandPacket) :=
  readFrom createCommandPacket

/-- `ReadFromServer`. -/
def readFromServer : Status × Bytes → Except Fault (StatusOr AnyResponse) :=
  readFrom createResponsePacket

end SqpKv
