import SqpKv.Server.Dispatch

/-!
# Responses of the servers, and the request handlers

`KvWorker` and `KvRequestHandler` carry out a command the same way and build the
same response; what RocksDB answers is a parameter (`Rocks`), so that every
status can occur.  `HandleReadCompletion` returns a size, which its caller posts
to the peer from `out_buffer`.

* `KvRequestHandler` returns the size field of the response it encoded: that is
  what it wrote, except for GetAll (`KvRequestHandler.leavesMessage_iff`).
* `ShardingProxyRequestHandler` returns what `write` took of its input, and
  writes nothing to `out_buffer`.

The peer decodes a response by its op byte (`AnyResponse.classOp_of_sent`),
and a Delete response has that of Put.
-/

namespace SqpKv

open Wire

/-- `rdma_connection.cc`: the size of `local_buffer` and `remote_buffer`. -/
def kMaxBufferSize : Nat := kMaxNetPacketSize + 4

/-! ## What RocksDB answers -/

/-- An iterator behind its `Seek`: the keys at which it is valid, one `Next` after the other, and
`status()` where it is no longer valid. -/
structure Iterator where
  keys : List Bytes
  status : RocksStatus

/-- The answers to the calls of one request; `get` also fills `value`. -/
structure Rocks where
  get : Bytes → RocksStatus × Bytes
  put : Bytes → Bytes → RocksStatus
  delete : Bytes → RocksStatus
  seek : Bytes → Iterator

/-- The response that is built for a command. -/
def Rocks.respond (db : Rocks) : Command → Response
  | .get key => .get (.ofRocks (db.get key).1) (db.get key).2
  | .put key value => .put (.ofRocks (db.put key value))
  | .delete key => .delete (.ofRocks (db.delete key))
  | .getAll keyPrefix => .getAll .Ok (collect keyPrefix (db.seek keyPrefix).keys)

/-- The `switch` of `KvWorker::HandleClient`. -/
def KvWorker.respond : Rocks → Command → Response := Rocks.respond

/-- The `switch` of `KvRequestHandler::HandleReadCompletion`. -/
def KvRequestHandler.respond : Rocks → Command → Response := Rocks.respond

/-- A database whose calls succeed. -/
def Rocks.ofStore (notFound : Bytes) (db : Store) : Rocks where
  get key := match db[key]? with
    | some value => (.ok, value)
    | none => (.error notFound, [])
  put _ _ := .ok
  delete _ := .ok
  seek keyPrefix := ⟨SqpKv.seek db keyPrefix, .ok⟩

/-- The worker of the cluster model answers so. -/
theorem KvWorker.handle_respond (notFound : Bytes) (db : Store) (c : Command) :
    (KvWorker.handle notFound db c).2 = KvWorker.respond (.ofStore notFound db) c := by
  cases c with
  | get key =>
    simp only [KvWorker.handle, KvWorker.respond, Rocks.respond, Rocks.ofStore]
    cases db[key]? <;> rfl
  | _ => rfl

/-- **A GetAll is exact.**  Both servers answer with the keys that have the prefix, each once and in
ascending order. -/
theorem getAll_exact (notFound : Bytes) (db : Store) (keyPrefix : Bytes) :
    ∃ keys, KvWorker.respond (.ofStore notFound db) (.getAll keyPrefix) = .getAll .Ok keys ∧
      KvRequestHandler.respond (.ofStore notFound db) (.getAll keyPrefix) = .getAll .Ok keys ∧
      (∀ key, key ∈ keys ↔ key ∈ db ∧ keyPrefix <+: key) ∧
      keys.Nodup ∧ keys.Pairwise fun a b => compare a b = .lt := by
  refine ⟨collect keyPrefix (SqpKv.seek db keyPrefix), rfl, rfl, fun key => mem_scan,
    nodup_scan db keyPrefix, ?_⟩
  rw [collect_seek]
  exact db.ordered_keys.sublist List.filter_sublist

theorem Rocks.respond_fromServer (db : Rocks) (c : Command) : (db.respond c).FromServer := by
  cases c <;> trivial

theorem Response.announced_fromServer {r : Response} (h : r.FromServer) (hop : r.wireOp = .kGetAll) :
    r.announced = r.payload.length + 2 := by
  cases r with
  | getAll s keys =>
    obtain rfl : s = .Ok := h
    have hsum := Response.announced_getAll .Ok keys
    have hok : Status.Ok.message.length = 2 := rfl
    omega
  | _ => cases hop

theorem Rocks.respond_classOp (db : Rocks) (c : Command) : (db.respond c).classOp = c.op := by
  cases c <;> rfl

/-- Only the response to a Delete has another class's op code. -/
theorem Response.wireOp_eq_classOp_iff (r : Response) : r.wireOp = r.classOp ↔ r.classOp ≠ .kDelete := by
  cases r <;> simp [Response.wireOp, Response.classOp]

/-! ## The class of a response at the peer -/

/-- The class a call of `Connection` casts its response to, and the proxy that of a GetAll. -/
def Connection.castClass : Command → OpCode
  | .get _ => .kGet
  | .put _ _ => .kPut
  | .delete _ => .kDelete
  | .getAll _ => .kGetAll

/-- The class an object was built as. -/
def AnyResponse.classOp : AnyResponse → OpCode
  | .get _ => .kGet
  | .put _ => .kPut
  | .delete _ => .kDelete
  | .getAll _ => .kGetAll

theorem AnyResponse.response_classOp (q : AnyResponse) : q.response.classOp = q.classOp := by
  cases q <;> rfl

/-- As many bytes of the buffer `out` as the size of `p` says. -/
def sentBytes (p : AnyResponse) (out : Block) : Bytes :=
  out.bytes.take (toUInt32 (p.toResponsePacket.payloadSize + 4))

/-- What is sent begins with the encoding, when the size field covers it. -/
theorem sentBytes_of_encode {r : Response} {b out : Block} {p : AnyResponse}
    (hle : r.payload.length ≤ r.announced) (hsize : r.announced + 4 < 2 ^ 32)
    (h : r.encode (some b) = .ok (p, some out)) :
    sentBytes p out = r.encoding ++
      (b.bytes.drop r.encoding.length).take (r.announced - r.payload.length) := by
  have hlen := r.encoding_length
  have hmsg : 6 + r.status.message.length < 2 ^ 32 := by
    have := r.payload_length
    omega
  obtain ⟨hroom, hout, hp⟩ := Response.encode_eq_ok hmsg h
  cases hout
  have hcut : toUInt32 (p.toResponsePacket.payloadSize + 4) =
      r.encoding.length + (r.announced - r.payload.length) := by
    rw [hp, toUInt32_of_lt (show r.announced < 2 ^ 32 by omega), toUInt32_of_lt hsize]
    omega
  rw [sentBytes, hcut, Block.overwrite, List.take_length_add_append]

/-- A response in a buffer of its announced size is sent and decoded, whatever follows it. -/
theorem Response.sent_decoded {r : Response} {b : Block} (hcover : r.payload.length ≤ r.announced)
    (hsize : r.announced + 4 < 2 ^ 32) (hroom : r.announced + 4 ≤ b.bytes.length) :
    ∃ p out, r.encode (some b) = .ok (p, some out) ∧
      ∀ tail, ∃ q, createResponsePacket (sentBytes p out ++ tail) = .ok (some q) ∧
        q.response = r.decoded := by
  have hlen := r.encoding_length
  obtain ⟨p, hp, -, -⟩ := Response.encode_block (r := r) (b := b) (by omega) (by omega)
  refine ⟨p, _, hp, fun tail => ?_⟩
  rw [sentBytes_of_encode hcover hsize hp, List.append_assoc]
  apply createResponsePacket_encoding r hcover hsize
  rw [List.length_append, List.length_take, List.length_drop]
  omega

/-- The factory builds the class of the op code that was sent. -/
theorem AnyResponse.classOp_of_sent {r : Response} {rest : Bytes} {q : AnyResponse}
    (h : createResponsePacket (r.encoding ++ rest) = .ok (some q)) : q.classOp = r.wireOp := by
  rw [createResponsePacket_eq, dispatch_eq_ok] at h
  obtain ⟨b, tail, hb, ⟨-, hq⟩ | ⟨op, q', hop, hq', hq⟩⟩ := h
  · cases hq
  · cases hq
    have hbyte : (r.encoding ++ rest).drop 4 = r.wireOp.toByte :: (r.status.write ++ r.body ++ rest) := by
      rw [Response.encoding, List.append_assoc, List.drop_left' (by simp)]
      rfl
    rw [hbyte] at hb
    have hsame : op.toByte = r.wireOp.toByte := by
      rw [← hop]
      exact (List.cons.inj hb).1.symm
    have hops : op = r.wireOp := Option.some.inj
      ((OpCode.ofByte?_eq_some.2 rfl).symm.trans (OpCode.ofByte?_eq_some.2 hsame))
    rw [← q.response_classOp, (decodeResponseAs_sound hq').1, hops]

/-- **Which responses are decoded as the class they are cast to**: all but those to a Delete.  In a
buffer with room for its announced size, a response is built and decoded. -/
theorem response_castClass_iff (server : Rocks → Command → Response)
    (hserver : server = KvWorker.respond ∨ server = KvRequestHandler.respond) (db : Rocks)
    (c : Command) (b : Block) (hsize : (server db c).announced + 4 < 2 ^ 32) :
    (∀ p out, (server db c).encode (some b) = .ok (p, some out) →
      ∀ tail q, createResponsePacket (sentBytes p out ++ tail) = .ok (some q) →
        (q.classOp = Connection.castClass c ↔ c.op ≠ .kDelete)) ∧
    ((server db c).announced + 4 ≤ b.bytes.length →
      ∃ p out, (server db c).encode (some b) = .ok (p, some out) ∧
        ∀ tail, ∃ q, createResponsePacket (sentBytes p out ++ tail) = .ok (some q)) := by
  obtain rfl : server = Rocks.respond := by
    rcases hserver with rfl | rfl
    · rfl
    · rfl
  have hfrom := db.respond_fromServer c
  have hclass := db.respond_classOp c
  have hcast : Connection.castClass c = c.op := by cases c <;> rfl
  generalize db.respond c = r at *
  refine ⟨?_, ?_⟩
  · intro p out h tail q hq
    rw [sentBytes_of_encode hfrom.payload_le hsize h, List.append_assoc] at hq
    rw [AnyResponse.classOp_of_sent hq, hcast, ← hclass]
    exact r.wireOp_eq_classOp_iff
  · intro hroom
    obtain ⟨p, out, hp, hsent⟩ := Response.sent_decoded hfrom.payload_le hsize hroom
    refine ⟨p, out, hp, fun tail => ?_⟩
    obtain ⟨q, hq, -⟩ := hsent tail
    exact ⟨q, hq⟩

/-- The response to a Delete of "k", in 64 bytes. -/
theorem response_castClass_delete :
    (∀ p out, (KvWorker.respond (.ofStore [] ∅) (.delete [107])).encode
        (some { bytes := List.replicate 64 0 }) = .ok (p, some out) →
      ∀ tail q, createResponsePacket (sentBytes p out ++ tail) = .ok (some q) →
        (q.classOp = Connection.castClass (.delete [107]) ↔ OpCode.kDelete ≠ .kDelete)) ∧
    (12 ≤ 64 →
      ∃ p out, (KvWorker.respond (.ofStore [] ∅) (.delete [107])).encode
          (some { bytes := List.replicate 64 0 }) = .ok (p, some out) ∧
        ∀ tail, ∃ q, createResponsePacket (sentBytes p out ++ tail) = .ok (some q)) :=
  response_castClass_iff _ (.inl rfl) (.ofStore [] ∅) (.delete [107]) { bytes := List.replicate 64 0 }
    (by decide)

/-- `DeleteResponsePacket` writes `kPut`: the factory makes a `PutResponsePacket`. -/
theorem delete_not_castClass :
    ∃ p out q, (KvWorker.respond (.ofStore [] ∅) (.delete [107])).encode
        (some { bytes := List.replicate 64 0 }) = .ok (p, some out) ∧
      createResponsePacket (sentBytes p out) = .ok (some q) ∧
      q.classOp ≠ Connection.castClass (.delete [107]) := by
  have hsize : (Response.delete .Ok).announced + 4 < 2 ^ 32 := by decide
  have hfrom : (Response.delete .Ok).FromServer := trivial
  obtain ⟨p, out, hp, hsent⟩ := Response.sent_decoded (b := { bytes := List.replicate 64 0 })
    hfrom.payload_le hsize (by decide)
  obtain ⟨q, hq, -⟩ := hsent []
  refine ⟨p, out, q, hp, ?_, ?_⟩
  · rw [← hq, List.append_nil]
  · rw [sentBytes_of_encode hfrom.payload_le hsize hp, List.append_assoc] at hq
    rw [AnyResponse.classOp_of_sent hq]
    decide

/-! ## `HandleReadCompletion` -/

/-- `KvRequestHandler::HandleReadCompletion`: what it returns, and `out_buffer`. -/
def KvRequestHandler.handleReadCompletion (db : Rocks) (inBuffer : Bytes) (outBuffer : Block) :
    Except Fault (StatusOr Nat × Block) := do
  let packet ← KvRequestHandler.receive inBuffer
  let (resp, out) ← (KvRequestHandler.respond db packet.command).encode (some outBuffer)
  let size := resp.toResponsePacket.toPacket.toBinary.size
  return (.ofPtr (some size), out.getD outBuffer)

/-- `ShardingProxyRequestHandler::HandleReadCompletion`; `write` gives what `write` to the client's
socket returns, and `errorText` is that of `strerror(errno)`. -/
def ShardingProxyRequestHandler.handleReadCompletion (write : Bytes → Int) (errorText : Bytes)
    (inBuffer : Bytes) (outBuffer : Block) : Except Fault (StatusOr Nat × Block) := do
  let (payloadSize, _) ← readLE 4 inBuffer
  let (data, _) ← readN (payloadSize + 4) inBuffer
  let rc := toInt32 (write data)
  if rc = 0 then return (.ofStatus (.Err errorText), outBuffer)
  else if rc < 0 then return (.ofStatus (.Err errorText), outBuffer)
  else return (.ofPtr (some rc.toNat), outBuffer)

/-- The op a message names. -/
def opOf (inBuffer : Bytes) : Option OpCode := (inBuffer.drop 4).head?.bind OpCode.ofByte?

/-- The bytes of `out` that were stored to are its first `size` bytes. -/
def Wrote (out : Block) (size : Nat) : Prop := ∀ i, i ∈ out.stored ↔ i < size

theorem KvRequestHandler.receive_opOf {inBuffer : Bytes} {packet : CommandPacket}
    (h : KvRequestHandler.receive inBuffer = .ok packet) : opOf inBuffer = some packet.getOp := by
  obtain ⟨ptr, hptr, h⟩ := bind_eq_ok.1 h
  cases ptr with
  | none => cases h
  | some packet' =>
    cases h
    rw [createCommandPacket_eq, dispatch_eq_ok] at hptr
    obtain ⟨b, rest, hb, ⟨-, hq⟩ | ⟨op, q, rfl, hq, hsome⟩⟩ := hptr
    · cases hq
    · cases hsome
      unfold opOf
      rw [hb, ← packet.command_op, (decodeCommandAs_sound hq).1]
      exact OpCode.ofByte?_eq_some.2 rfl

/-- What was written over a fresh buffer. -/
theorem wrote_overwrite {b : Block} (hb : b.stored = []) (bs : Bytes) (size : Nat) :
    Wrote (b.overwrite bs) size ↔ bs.length = size := by
  unfold Wrote Block.overwrite
  rw [hb]
  simp only [List.nil_append, List.mem_range]
  constructor
  · intro h
    have hle := h bs.length
    have hge := h size
    omega
  · rintro rfl i
    rfl

/-- A call of `KvRequestHandler` that returns gives a size, and `out_buffer` holds as many bytes as
were written exactly when that size is the length of the response. -/
theorem KvRequestHandler.handleReadCompletion_eq_ok {db : Rocks} {inBuffer : Bytes} {b : Block}
    {res : StatusOr Nat} {out : Block} (hbuf : b.bytes.length < 2 ^ 32)
    (h : KvRequestHandler.handleReadCompletion db inBuffer b = .ok (res, out)) :
    ∃ packet r, KvRequestHandler.receive inBuffer = .ok packet ∧ r = db.respond packet.command ∧
      r.encoding.length ≤ b.bytes.length ∧ res = .ofPtr (some (toUInt32 (toUInt32 r.announced + 4))) ∧
      out = b.overwrite r.encoding := by
  obtain ⟨packet, hpacket, h⟩ := bind_eq_ok.1 h
  obtain ⟨⟨resp, out'⟩, hencode, h⟩ := bind_eq_ok.1 h
  have hroom := Response.encode_room hencode
  obtain ⟨hfits, rfl, hsize⟩ := Response.encode_eq_ok (by omega) hencode
  cases h
  refine ⟨packet, _, hpacket, rfl, hfits, ?_, rfl⟩
  rw [Packet.toBinary, hsize]
  rfl

/-- The size returned is the length of the response, except that GetAll's is two bytes more. -/
theorem Rocks.respond_size (db : Rocks) (c : Command) (hsize : (db.respond c).encoding.length < 2 ^ 32) :
    (db.respond c).encoding.length = toUInt32 (toUInt32 (db.respond c).announced + 4) ↔
      c.op ≠ .kGetAll := by
  have hlen := (db.respond c).encoding_length
  cases c with
  | getAll keyPrefix =>
    have hsum := Response.announced_getAll .Ok (collect keyPrefix (db.seek keyPrefix).keys)
    have hok : Status.Ok.message.length = 2 := rfl
    simp only [Rocks.respond] at *
    refine iff_of_false ?_ fun h => h rfl
    unfold toUInt32
    omega
  | _ =>
    rw [Response.announced_eq (by simp [Rocks.respond, Response.wireOp])]
    refine iff_of_true ?_ (by simp [Command.op])
    unfold toUInt32
    omega

/-- When the call returns Ok with a positive size, exactly that many bytes at the start of
`out_buffer` were written. -/
def LeavesMessage (call : Except Fault (StatusOr Nat × Block)) : Prop :=
  ∀ res out size, call = .ok (res, out) → res.ok = true → res.obj = some size → 0 < size →
    Wrote out size

theorem kMaxBufferSize_lt : kMaxBufferSize + 4 < 2 ^ 32 := by decide

theorem KvRequestHandler.leavesMessage_iff {db : Rocks} {inBuffer : Bytes} {b : Block}
    {x : StatusOr Nat × Block} (hfresh : b.stored = []) (hbuf : b.bytes.length = kMaxBufferSize)
    (hret : KvRequestHandler.handleReadCompletion db inBuffer b = .ok x) :
    LeavesMessage (KvRequestHandler.handleReadCompletion db inBuffer b) ↔
      opOf inBuffer ≠ some .kGetAll := by
  obtain ⟨res, out⟩ := x
  have hlt := kMaxBufferSize_lt
  obtain ⟨packet, r, hpacket, rfl, hsize, rfl, rfl⟩ :=
    KvRequestHandler.handleReadCompletion_eq_ok (by omega) hret
  have hop : opOf inBuffer ≠ some .kGetAll ↔ packet.command.op ≠ .kGetAll := by
    rw [KvRequestHandler.receive_opOf hpacket, packet.command_op, ne_eq, Option.some.injEq]
  have hlen := (db.respond packet.command).encoding_length
  have hpos : 0 < toUInt32 (toUInt32 (db.respond packet.command).announced + 4) := by
    have hcover : (db.respond packet.command).announced ≤
        (db.respond packet.command).payload.length + 2 := by
      by_cases hwire : (db.respond packet.command).wireOp = .kGetAll
      · exact Nat.le_of_eq
          (Response.announced_fromServer (db.respond_fromServer packet.command) hwire)
      · exact Nat.le_trans (Nat.le_of_eq (Response.announced_eq hwire)) (by omega)
    unfold toUInt32
    omega
  rw [hop, ← db.respond_size packet.command (by omega)]
  constructor
  · intro h
    exact (wrote_overwrite hfresh _ _).1 (h _ _ _ hret rfl rfl hpos)
  · intro h res out size hcall _ hobj _
    rw [hret] at hcall
    cases hcall
    cases hobj
    exact (wrote_overwrite hfresh _ _).2 h

theorem ShardingProxyRequestHandler.leavesMessage_iff {write : Bytes → Int} {errorText : Bytes}
    {inBuffer : Bytes} {b : Block} {x : StatusOr Nat × Block} (hfresh : b.stored = [])
    (hret : ShardingProxyRequestHandler.handleReadCompletion write errorText inBuffer b = .ok x) :
    LeavesMessage (ShardingProxyRequestHandler.handleReadCompletion write errorText inBuffer b) ↔
      toInt32 (write (inBuffer.take (ofLE (inBuffer.take 4) + 4))) ≤ 0 := by
  obtain ⟨⟨n, rest⟩, hn, h⟩ := bind_eq_ok.1 hret
  obtain ⟨⟨data, rest'⟩, hdata, h⟩ := bind_eq_ok.1 h
  have hsize : ofLE (inBuffer.take 4) = n := by
    obtain ⟨hlt, rfl⟩ := readLE_eq_ok.1 hn
    rw [List.take_left' (by simp), ofLE_toLE, Nat.mod_eq_of_lt hlt]
  have hbytes : inBuffer.take (n + 4) = data := by
    obtain ⟨hlen, hsplit⟩ := readN_eq_ok.1 hdata
    rw [hsplit, List.take_left' hlen]
  rw [hsize, hbytes]
  dsimp only at h
  constructor
  · intro hleaves
    by_contra hpos
    rw [if_neg (by omega), if_neg (by omega)] at h
    cases h
    -- the size is positive, but nothing was written
    have hwrote := hleaves _ _ _ hret rfl rfl (by omega) 0
    rw [hfresh] at hwrote
    exact absurd (hwrote.2 (by omega)) (fun h => nomatch h)
  · intro hle res out size hcall hok _ _
    rw [hret] at hcall
    cases hcall
    have herr : res = .ofStatus (.Err errorText) := by
      by_cases h0 : toInt32 (write data) = 0
      · rw [if_pos h0] at h
        cases h
        rfl
      · rw [if_neg h0, if_pos (by omega)] at h
        cases h
        rfl
    rw [herr] at hok
    cases hok

/-- The handler answers a command whose response has room. -/
theorem KvRequestHandler.handleReadCompletion_encoding (db : Rocks) (c : Command) (tail : Bytes)
    (b : Block) (hcommand : c.encoding.length < 2 ^ 32)
    (hsize : (db.respond c).encoding.length < 2 ^ 32)
    (hroom : (db.respond c).encoding.length ≤ b.bytes.length) :
    KvRequestHandler.handleReadCompletion db (c.encoding ++ tail) b =
      .ok (.ofPtr (some (toUInt32 (toUInt32 (db.respond c).announced + 4))),
        b.overwrite (db.respond c).encoding) := by
  obtain ⟨packet, hpacket, hc, -⟩ := createCommandPacket_encoding c hcommand tail
  obtain ⟨p, hp, hpacketSize, -⟩ := Response.encode_block hsize hroom
  unfold KvRequestHandler.handleReadCompletion KvRequestHandler.receive
  rw [hpacket]
  show ((KvRequestHandler.respond db packet.command).encode (some b) >>= _) = _
  rw [hc, show KvRequestHandler.respond db c = db.respond c from rfl, hp]
  show Except.ok (StatusOr.ofPtr (some p.toResponsePacket.toPacket.toBinary.size), _) = _
  rw [hpacketSize]
  rfl

/-- **When the size is that of the message left in `out_buffer`.**  For `KvRequestHandler`: when the
message is not a GetAll.  For `ShardingProxyRequestHandler`: when it returns no size. -/
theorem requestHandlers_leaveMessage_iff (db : Rocks) (write : Bytes → Int)
    (errorText inBuffer : Bytes) (b : Block) (hfresh : b.stored = [])
    (hbuf : b.bytes.length = kMaxBufferSize) :
    (∀ x, KvRequestHandler.handleReadCompletion db inBuffer b = .ok x →
      (LeavesMessage (KvRequestHandler.handleReadCompletion db inBuffer b) ↔
        opOf inBuffer ≠ some .kGetAll)) ∧
    (∀ x, ShardingProxyRequestHandler.handleReadCompletion write errorText inBuffer b = .ok x →
      (LeavesMessage (ShardingProxyRequestHandler.handleReadCompletion write errorText inBuffer b) ↔
        toInt32 (write (inBuffer.take (ofLE (inBuffer.take 4) + 4))) ≤ 0)) :=
  ⟨fun _ hret => KvRequestHandler.leavesMessage_iff hfresh hbuf hret,
    fun _ hret => ShardingProxyRequestHandler.leavesMessage_iff hfresh hret⟩

/-- `remote_buffer` before the first response. -/
def freshBuffer : Block := { bytes := List.replicate kMaxBufferSize 0 }

theorem freshBuffer_length : freshBuffer.bytes.length = kMaxBufferSize := List.length_replicate

theorem freshBuffer_room {n : Nat} (h : n ≤ 64) : n ≤ freshBuffer.bytes.length := by
  rw [freshBuffer_length]
  exact Nat.le_trans h (by decide)

/-- A Put of "v" under "k", and a message of one byte whose write fails. -/
theorem requestHandlers_leaveMessage_put :
    (LeavesMessage (KvRequestHandler.handleReadCompletion (.ofStore [] ∅)
        ((Command.put [107] [118]).encoding ++ []) freshBuffer) ↔
      opOf ((Command.put [107] [118]).encoding ++ []) ≠ some .kGetAll) ∧
    (LeavesMessage (ShardingProxyRequestHandler.handleReadCompletion (fun _ => -1) []
        [1, 0, 0, 0, 0] freshBuffer) ↔ toInt32 (-1) ≤ 0) :=
  ⟨(requestHandlers_leaveMessage_iff (.ofStore [] ∅) (fun _ => -1) [] _ _ rfl freshBuffer_length).1 _
      (KvRequestHandler.handleReadCompletion_encoding (.ofStore [] ∅) (.put [107] [118]) []
        freshBuffer (by decide) (by decide) (freshBuffer_room (by decide))),
    (requestHandlers_leaveMessage_iff (.ofStore [] ∅) (fun _ => -1) [] [1, 0, 0, 0, 0] freshBuffer rfl
      freshBuffer_length).2 _ rfl⟩

/-- A GetAll on an empty store: 16 bytes are written and 18 returned.  A message that the proxy's
handler writes on: 5 is returned and nothing written. -/
theorem requestHandlers_not_leaveMessage :
    ¬ LeavesMessage (KvRequestHandler.handleReadCompletion (.ofStore [] ∅)
        ((Command.getAll []).encoding ++ []) freshBuffer) ∧
      ¬ LeavesMessage (ShardingProxyRequestHandler.handleReadCompletion (fun _ => 5) []
        [1, 0, 0, 0, 0] freshBuffer) := by
  constructor
  · have hret := KvRequestHandler.handleReadCompletion_encoding (.ofStore [] ∅) (.getAll []) []
      freshBuffer (by decide) (by decide) (freshBuffer_room (by decide))
    rw [KvRequestHandler.leavesMessage_iff rfl freshBuffer_length hret]
    decide
  · have hret : ∀ b, ShardingProxyRequestHandler.handleReadCompletion (fun _ => 5) []
        [1, 0, 0, 0, 0] b = .ok (.ofPtr (some (toInt32 5).toNat), b) := fun _ => rfl
    rw [ShardingProxyRequestHandler.leavesMessage_iff rfl (hret freshBuffer)]
    decide

end SqpKv
