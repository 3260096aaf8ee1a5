import SqpKv.Protocol.Transfer

/-!
# The vector under `ReadWholePacket` (src/protocol/protocol.cc)

Between two reads the vector is cut to what was read; before a read it is
resized to its size and `buf_len`.  With `bytes` read so far the next call is

    read(sock, buf.data() + |bytes|, n)     kMaxNetPacketSize ≤ n,   |bytes| + n ≤ buf.size()

whatever the reads gave and whatever capacity `reserve` picks
(`readWholePacket_buffer`).  What it returns is the bytes read, or nothing.
-/

namespace SqpKv

open Wire

/-- One call of `read`: what the vector holds, the offset of the pointer passed, and the length. -/
structure ReadCall where
  vec : Bytes
  offset : Nat
  requested : Nat

/-- The call that `ReadWholePacket` makes next: behind `buf_len`'s update it resizes and reads. -/
def ReadState.call (alloc : Allocator) (s : ReadState) : ReadCall :=
  let s := s.prepare alloc
  { vec := (s.buf.resize alloc (s.buf.data.length + s.bufLen)).data
    offset := s.buf.data.length
    requested := s.bufLen }

/-- The call reads a piece or more, into the vector, right behind `bytes`. -/
structure ReadCall.Behind (c : ReadCall) (bytes : Bytes) : Prop where
  long : kMaxNetPacketSize ≤ c.requested
  offset : c.offset = bytes.length
  held : c.vec.take c.offset = bytes
  inside : c.offset + c.requested ≤ c.vec.length

/-- What the kernel promises: no more bytes than requested, and fewer than `2 ^ 31`. -/
def kernelRead (requested : Nat) : ReadResult → Prop
  | .data bs => bs.length ≤ requested ∧ bs.length < 2 ^ 31
  | .failed => True

/-- The vector between two reads: it holds what was read, and has room or has outgrown a piece. -/
structure ReadState.Holds (s : ReadState) (bytes : Bytes) : Prop where
  data : s.buf.data = bytes
  grown : s.Grown

theorem ReadState.Holds.call {alloc : Allocator} {s : ReadState} {bytes : Bytes} (h : s.Holds bytes) :
    (s.call alloc).Behind bytes := by
  have hdata : (s.prepare alloc).buf.data = bytes := by
    rw [prepare_data]
    exact h.data
  have hoffset : (s.call alloc).offset = bytes.length := by
    rw [← hdata]
    rfl
  have hvec : (s.call alloc).vec = bytes ++ List.replicate (s.call alloc).requested 0 := by
    show List.take _ _ ++ List.replicate _ _ = _
    rw [hdata, List.take_of_length_le (Nat.le_add_right _ _), Nat.add_sub_cancel_left]
    rfl
  constructor
  · exact h.grown.le_request
  · exact hoffset
  · rw [hvec, hoffset, List.take_left]
  · rw [hvec, hoffset, List.length_append, List.length_replicate]

section Step

variable {alloc : Allocator} {errorText : Bytes} {s : ReadState} {bytes : Bytes}

/-- A read after which the loop goes on. -/
theorem ReadState.Holds.read (h : s.Holds bytes) {x : ReadResult}
    (hx : kernelRead ((readWholePacket alloc errorText).request s) x) {s' : ReadState}
    (hd : (readWholePacket alloc errorText).deliver s x = .inl s') :
    s'.Holds (bytes ++ Receiver.bytesRead [x]) := by
  cases x with
  | failed => cases hd
  | data bs =>
    by_cases hshort : bs.length < kMaxNetPacketSize
    · -- a short read ends the packet, an empty one is the end of the stream
      by_cases hne : bs = []
      · subst hne
        cases hd
      · have hret := readWholePacket_short alloc errorText s (List.length_pos_of_ne_nil hne) hshort hx.1
        rw [hret] at hd
        cases hd
    · have hge := Nat.not_lt.1 hshort
      rw [readWholePacket_long alloc errorText s hge hx.2 hx.1] at hd
      cases hd
      constructor
      · rw [ReadState.after_data alloc s hx.1, h.data]
        show bytes ++ bs = bytes ++ (bs ++ [])
        rw [List.append_nil]
      · exact .after hge hx.1

/-- The read with which it returns. -/
theorem ReadState.Holds.last (h : s.Holds bytes) {x : ReadResult}
    (hx : kernelRead ((readWholePacket alloc errorText).request s) x) {status : Status} {buf : Bytes}
    (hd : (readWholePacket alloc errorText).deliver s x = .inr (status, buf)) :
    buf = if status.ok then bytes ++ Receiver.bytesRead [x] else [] := by
  cases x with
  | failed =>
    cases hd
    rfl
  | data bs =>
    by_cases hne : bs = []
    · subst hne
      cases hd
      rfl
    · have hpos := List.length_pos_of_ne_nil hne
      have hint : bs.length < 2 ^ 32 := Nat.lt_trans hx.2 (by decide)
      rw [readWholePacket_deliver alloc errorText s hpos hint hx.1, if_neg (Nat.not_le.2 hx.2)] at hd
      split at hd
      · cases hd
        show s.buf.data ++ bs = bytes ++ (bs ++ [])
        rw [h.data, List.append_nil]
      · cases hd

end Step

/-- **The vector of a run.**  Every read asks for a piece or more and stores right behind the
bytes read so far, inside the vector; with Ok it returns these bytes, else nothing. -/
structure BufferKept (alloc : Allocator) (errorText : Bytes) (results : List ReadResult) : Prop where
  issued : ∀ used later s, results = used ++ later →
    (readWholePacket alloc errorText).run (.init alloc) used = .waiting s →
    (s.call alloc).Behind (Receiver.bytesRead used)
  returned : ∀ status buf unread,
    (readWholePacket alloc errorText).run (.init alloc) results = .returned (status, buf) unread →
    ∃ used, results = used ++ unread ∧ buf = if status.ok then Receiver.bytesRead used else []

/-- **The buffer of `ReadWholePacket`**, for all results that `read` can give: before each read it holds
the bytes that were read, with room behind them for what is asked; and it is returned with these bytes,
or empty when the status is not Ok. -/
theorem readWholePacket_buffer (alloc : Allocator) (errorText : Bytes) {results : List ReadResult}
    (h : (readWholePacket alloc errorText).Answered kernelRead (.init alloc) results) :
    BufferKept alloc errorText results := by
  have hinit : (ReadState.init alloc).Holds (Receiver.bytesRead []) :=
    ⟨ReadState.init_data alloc, ReadState.init_grown alloc⟩
  have hkeep : ∀ (s : ReadState) (used : List ReadResult) (x : ReadResult) (s' : ReadState),
      s.Holds (Receiver.bytesRead used) →
      kernelRead ((readWholePacket alloc errorText).request s) x →
      (readWholePacket alloc errorText).deliver s x = .inl s' →
      s'.Holds (Receiver.bytesRead (used ++ [x])) := by
    intro s used x s' hs hx hd
    rw [Receiver.bytesRead_append]
    exact hs.read hx hd
  constructor
  · intro used later s hresults hrun
    subst hresults
    exact (Receiver.run_waiting _ hkeep hinit (Receiver.Answered.take _ h) hrun).call
  · intro status buf unread hrun
    obtain ⟨front, x, t, rfl, ht, hx, hd⟩ := Receiver.run_returned _ hkeep hinit h hrun
    refine ⟨front ++ [x], by rw [List.append_assoc]; rfl, ?_⟩
    rw [Receiver.bytesRead_append]
    exact ht.last hx hd

/-- A piece, then one byte. -/
theorem readWholePacket_buffer_two :
    BufferKept .exact [] [.data (List.replicate kMaxNetPacketSize 0), .data [1]] := by
  have hpiece : (List.replicate kMaxNetPacketSize (0 : UInt8)).length = kMaxNetPacketSize :=
    List.length_replicate
  refine readWholePacket_buffer .exact [] ⟨?_, ?_⟩
  · show _ ≤ ((ReadState.init .exact).prepare .exact).bufLen ∧ _
    rw [hpiece, ReadState.init_request]
    exact ⟨Nat.le_refl _, by decide⟩
  · intro s hs
    have hrequest : kMaxNetPacketSize ≤ (s.prepare .exact).bufLen := (readWholePacket_grown hs).le_request
    refine ⟨⟨?_, by decide⟩, fun _ _ => trivial⟩
    exact Nat.le_trans (by decide) hrequest

end SqpKv
