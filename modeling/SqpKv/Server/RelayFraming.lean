import SqpKv.Protocol.Transfer
import SqpKv.Server.RequestHandler

/-!
# What a client reads from the RDMA proxy (src/server/sharding_proxy_request_handler.cc)

`ShardingProxyRequestHandler` writes a packet to the client's socket as it is;
`SendPacket` would put a zero byte behind a packet that leaves no shorter piece.
A client whose reads are served all that has arrived, and a packet that fits a
buffer:

    ReadWholePacket returns exactly the packet, reading all of it and no more
      ↔  the packet does not have kMaxNetPacketSize bytes           (relay_framing_iff)
-/

namespace SqpKv

open Wire

/-- What `HandleReadCompletion` hands to `write`. -/
def ShardingProxyRequestHandler.relayed (inBuffer : Bytes) : Except Fault Bytes := do
  let (payloadSize, _) ← readLE 4 inBuffer
  let (data, _) ← readN (payloadSize + 4) inBuffer
  return data

theorem ShardingProxyRequestHandler.handleReadCompletion_eq (write : Bytes → Int)
    (errorText inBuffer : Bytes) (outBuffer : Block) :
    ShardingProxyRequestHandler.handleReadCompletion write errorText inBuffer outBuffer =
      ShardingProxyRequestHandler.relayed inBuffer >>= fun data =>
        if toInt32 (write data) = 0 then .ok (.ofStatus (.Err errorText), outBuffer)
        else if toInt32 (write data) < 0 then .ok (.ofStatus (.Err errorText), outBuffer)
        else .ok (.ofPtr (some (toInt32 (write data)).toNat), outBuffer) := by
  unfold handleReadCompletion relayed
  rw [bind_assoc]
  congr 1
  funext x
  rw [bind_assoc]
  rfl

theorem ShardingProxyRequestHandler.relayed_frame {payload : Bytes} (h : payload.length < 2 ^ 32)
    (tail : Bytes) :
    ShardingProxyRequestHandler.relayed (frame payload ++ tail) = .ok (frame payload) := by
  refine bind_eq_ok.2 ⟨(payload.length, payload ++ tail), readLE_eq_ok.2 ⟨h, ?_⟩, ?_⟩
  · rw [frame, List.append_assoc]
  · refine bind_eq_ok.2 ⟨(frame payload, tail), readN_eq_ok.2 ⟨?_, rfl⟩, rfl⟩
    rw [frame_length, Nat.add_comm]

/-- `ReadWholePacket` returns exactly `p` from a socket on which `p` has arrived, and reads no more. -/
def ReadsExactly (alloc : Allocator) (errorText p : Bytes) : Prop :=
  ∀ cs, (readWholePacket alloc errorText).Delivers greedy (.init alloc) p cs →
    (readWholePacket alloc errorText).feed (.init alloc) cs = .returned (.Ok, p) []

section

variable {alloc : Allocator} {errorText p : Bytes} {cs : List Bytes}
  (hcs : (readWholePacket alloc errorText).Delivers greedy (.init alloc) p cs)

include hcs

/-- A packet that is not longer than a piece arrives in one chunk. -/
theorem delivers_short (hpos : 0 < p.length) (hp : p.length ≤ kMaxNetPacketSize) : cs = [p] := by
  cases cs with
  | nil =>
    have hall := congrArg List.length hcs.all
    rw [List.flatten_nil, List.length_nil] at hall
    omega
  | cons c cs =>
    obtain ⟨-, hc, -⟩ := hcs.cons
    have hreq : (readWholePacket alloc errorText).request (.init alloc) = kMaxNetPacketSize :=
      ReadState.init_request alloc
    rw [greedy, hreq, Nat.min_eq_right hp] at hc
    have hnil := hcs.rest_eq_nil hc
    have hall := hcs.all
    rw [hnil, List.flatten_singleton] at hall
    rw [hnil, hall]

/-- A packet that is a little longer arrives in two. -/
theorem delivers_long (hlt : kMaxNetPacketSize < p.length) (hp : p.length ≤ kMaxBufferSize) :
    ShortAtEnd cs := by
  have hk : kMaxNetPacketSize = 131072 := rfl
  have hb : kMaxBufferSize = kMaxNetPacketSize + 4 := rfl
  cases cs with
  | nil =>
    have hall := congrArg List.length hcs.all
    rw [List.flatten_nil, List.length_nil] at hall
    omega
  | cons c cs =>
    obtain ⟨-, hc, -⟩ := hcs.cons
    have hrest := hcs.rest_length
    have hreq : (readWholePacket alloc errorText).request (.init alloc) = kMaxNetPacketSize :=
      ReadState.init_request alloc
    rw [greedy, hreq, Nat.min_eq_left (Nat.le_of_lt hlt)] at hc
    have hfits : c.length ≤ ((ReadState.init alloc).prepare alloc).bufLen := by
      rw [ReadState.init_request, hc]
    have hd := readWholePacket_long alloc errorText (.init alloc) (Nat.le_of_eq hc.symm)
      (by omega) hfits
    have htail := hcs.tail hd
    have hgrown : ((ReadState.init alloc).after alloc c).Grown := .after (Nat.le_of_eq hc.symm) hfits
    cases cs with
    | nil =>
      rw [List.flatten_nil, List.length_nil] at hrest
      omega
    | cons d cs =>
      obtain ⟨-, hlen, -⟩ := htail.cons
      have hreq' : kMaxNetPacketSize ≤
          (readWholePacket alloc errorText).request ((ReadState.init alloc).after alloc c) :=
        hgrown.le_request
      rw [greedy, Nat.min_eq_right (by omega)] at hlen
      rw [htail.rest_eq_nil hlen]
      refine ⟨[c], d, rfl, ?_, by omega⟩
      intro e he
      rw [List.mem_singleton.1 he]
      omega

end

theorem readsExactly_iff (alloc : Allocator) (errorText : Bytes) {p : Bytes} (hpos : 0 < p.length)
    (hp : p.length ≤ kMaxBufferSize) :
    ReadsExactly alloc errorText p ↔ p.length ≠ kMaxNetPacketSize := by
  have hgreedy : ∀ r a g, greedy r a g → g ≤ r := fun r a g h => by
    rw [greedy] at h
    omega
  constructor
  · intro h heq
    obtain ⟨cs, hcs⟩ := readWholePacket_exists_greedy alloc errorText p
    have hret := h cs hcs
    -- the first read fills its buffer, and the loop goes on
    rw [delivers_short hcs hpos (Nat.le_of_eq heq)] at hret
    have hk : kMaxNetPacketSize = 131072 := rfl
    have hd := readWholePacket_long alloc errorText (.init alloc) (Nat.le_of_eq heq.symm) (by omega)
      (by rw [ReadState.init_request, heq])
    rw [Receiver.feed_cons_of_inl _ hd] at hret
    cases hret
  · intro hne cs hcs
    have hshort : ShortAtEnd cs := by
      rcases Nat.lt_or_gt_of_ne hne with hlt | hgt
      · rw [delivers_short hcs hpos (Nat.le_of_lt hlt)]
        exact ⟨[], p, rfl, by simp, hlt⟩
      · exact delivers_long hcs hgt hp
    have hfeed := readWholePacket_of_shortAtEnd alloc errorText hgreedy hcs hshort
    rwa [ReadState.init_data, List.nil_append] at hfeed

/-- **Which packets the RDMA proxy frames as the client expects.**  A packet that lies at the start of
the buffer is written as it is; a write that completes is reported with its size. -/
theorem relay_framing_iff (alloc : Allocator) (errorText payload tail : Bytes) (write : Bytes → Int)
    (outBuffer : Block) (hwrite : ∀ bs, write bs = bs.length)
    (hsize : (frame payload).length ≤ kMaxBufferSize) :
    ShardingProxyRequestHandler.relayed (frame payload ++ tail) = .ok (frame payload) ∧
      ShardingProxyRequestHandler.handleReadCompletion write errorText (frame payload ++ tail)
        outBuffer = .ok (.ofPtr (some (frame payload).length), outBuffer) ∧
      (ReadsExactly alloc errorText (frame payload) ↔
        (frame payload).length ≠ kMaxNetPacketSize) := by
  have hb : kMaxBufferSize = 131076 := rfl
  have hlen := frame_length payload
  have hrelayed : ShardingProxyRequestHandler.relayed (frame payload ++ tail) = .ok (frame payload) :=
    ShardingProxyRequestHandler.relayed_frame (by omega) tail
  refine ⟨hrelayed, ?_, readsExactly_iff alloc errorText (by omega) hsize⟩
  rw [ShardingProxyRequestHandler.handleReadCompletion_eq, hrelayed, ok_bind, hwrite,
    toInt32_of_lt (by omega), if_neg (by omega), if_neg (by omega), Int.toNat_natCast]

/-- The response to a Put that succeeded. -/
theorem relay_framing_put :
    ShardingProxyRequestHandler.relayed (frame (Response.put .Ok).payload ++ []) =
        .ok (frame (Response.put .Ok).payload) ∧
      ShardingProxyRequestHandler.handleReadCompletion (fun bs => bs.length) []
        (frame (Response.put .Ok).payload ++ []) freshBuffer =
        .ok (.ofPtr (some (frame (Response.put .Ok).payload).length), freshBuffer) ∧
      (ReadsExactly .exact [] (frame (Response.put .Ok).payload) ↔
        (frame (Response.put .Ok).payload).length ≠ kMaxNetPacketSize) :=
  relay_framing_iff .exact [] (Response.put .Ok).payload [] (fun bs => bs.length) freshBuffer
    (fun _ => rfl) (by decide)

/-- A Get response of exactly one piece: the client reads it and waits for more. -/
theorem relay_not_framed :
    ShardingProxyRequestHandler.relayed
        (frame (Response.get .Ok (List.replicate 131056 7)).payload) =
        .ok (frame (Response.get .Ok (List.replicate 131056 7)).payload) ∧
      ¬ ReadsExactly .exact [] (frame (Response.get .Ok (List.replicate 131056 7)).payload) := by
  have hk : kMaxNetPacketSize = 131072 := rfl
  have hb : kMaxBufferSize = 131076 := rfl
  have hlen : (frame (Response.get .Ok (List.replicate 131056 7)).payload).length = 131072 := by
    rw [frame_length, Response.payload_length, Response.body, strCodec_write_length,
      List.length_replicate]
    rfl
  generalize (Response.get .Ok (List.replicate 131056 7)).payload = payload at hlen ⊢
  constructor
  · have hlt : payload.length < 2 ^ 32 := by
      rw [frame_length] at hlen
      omega
    have h := ShardingProxyRequestHandler.relayed_frame hlt []
    rwa [List.append_nil] at h
  · rw [readsExactly_iff .exact [] (by omega) (by omega)]
    omega

end SqpKv
