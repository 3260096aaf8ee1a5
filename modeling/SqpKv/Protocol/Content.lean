import SqpKv.Protocol.Packet

/-!
# What packets carry, and the encoding constructors

The abstract side of the wire format: a `Command` or a `Response` with its
strings, its payload as a byte string, and the payload size its constructor
announces.  `encoding` is the size field and the payload.  For the constructor
of every class,

    encode contents buf = put buf 0 encoding >>= (read the slices back, Release)      (*.encode_eq)

so in a block with room it overwrites the first `encoding.length` bytes and
nothing else, and leaves an object whose `payload_` is null (`*.encode_block`).
-/

namespace SqpKv

open Wire

/-- The contents of a command packet. -/
inductive Command
  | get (key : Bytes)
  | put (key value : Bytes)
  | delete (key : Bytes)
  | getAll (keyPrefix : Bytes)
deriving DecidableEq

/-- The contents of a response packet. -/
inductive Response
  | get (status : Status) (value : Bytes)
  | put (status : Status)
  | delete (status : Status)
  | getAll (status : Status) (keys : List Bytes)
deriving DecidableEq

/-! ## Payloads -/

namespace Command

def op : Command → OpCode
  | .get _ => .kGet
  | .put _ _ => .kPut
  | .delete _ => .kDelete
  | .getAll _ => .kGetAll

def body : Command → Bytes
  | .get key => strCodec.write key
  | .put key value => strCodec.write key ++ strCodec.write value
  | .delete key => strCodec.write key
  | .getAll keyPrefix => strCodec.write keyPrefix

def payload (c : Command) : Bytes := c.op.toByte :: c.body

def encoding (c : Command) : Bytes := toLE 4 c.payload.length ++ c.payload

end Command

/-- A status on the wire: its code, then the message behind its size. -/
def Status.write (s : Status) : Bytes := s.code.toByte :: strCodec.write s.message

namespace Response

def status : Response → Status
  | .get s _ => s
  | .put s => s
  | .delete s => s
  | .getAll s _ => s

/-- The op code on the wire; a Delete response goes out as one to Put. -/
def wireOp : Response → OpCode
  | .get _ _ => .kGet
  | .put _ => .kPut
  | .delete _ => .kPut
  | .getAll _ _ => .kGetAll

/-- What follows the status. -/
def body : Response → Bytes
  | .get _ value => strCodec.write value
  | .put _ => []
  | .delete _ => []
  | .getAll _ keys => keysCodec.write keys

def payload (r : Response) : Bytes := r.wireOp.toByte :: (r.status.write ++ r.body)

/-- The sum the constructor announces as payload size, before it is cut to 32 bits. -/
def announced : Response → Nat
  | .get s value => GetResponsePacket.headerSize + s.message.length + value.length
  | .put s => ResponsePacket.headerSize + s.message.length
  | .delete s => ResponsePacket.headerSize + s.message.length
  | .getAll _ keys => GetAllResponsePacket.headerSize + 4 + (keys.flatMap strCodec.write).length

def encoding (r : Response) : Bytes := toLE 4 r.announced ++ r.payload

/-- The response as the factory of the other side decodes it: a Delete response carries the op
code of Put. -/
def decoded : Response → Response
  | .delete s => .put s
  | r => r

end Response

@[simp] theorem Status.write_length (s : Status) : s.write.length = 5 + s.message.length := by
  simp [Status.write]
  omega

@[simp] theorem keysCodec_write_length (keys : List Bytes) :
    (keysCodec.write keys).length = 4 + (keys.flatMap strCodec.write).length := by
  rw [keysCodec_write, List.length_append, toLE_length]

theorem Command.encoding_length (c : Command) : c.encoding.length = 4 + c.payload.length := by
  simp [Command.encoding]

theorem Response.encoding_length (r : Response) : r.encoding.length = 4 + r.payload.length := by
  simp [Response.encoding]

theorem Response.payload_length (r : Response) :
    r.payload.length = 6 + r.status.message.length + r.body.length := by
  simp [Response.payload]
  omega

/-- The constructor of a GetAll response counts its number of keys twice and its status message
not at all. -/
theorem Response.announced_getAll (s : Status) (keys : List Bytes) :
    (Response.getAll s keys).announced + s.message.length =
      (Response.getAll s keys).payload.length + 4 := by
  rw [Response.payload_length]
  simp only [Response.announced, Response.status, Response.body, GetAllResponsePacket.headerSize,
    ResponsePacket.headerSize, Packet.headerSize, keysCodec_write_length]
  omega

/-- The others count what they write. -/
theorem Response.announced_eq {r : Response} (h : r.wireOp ≠ .kGetAll) :
    r.announced = r.payload.length := by
  rw [Response.payload_length]
  cases r with
  | get s value =>
    simp only [Response.announced, Response.status, Response.body, GetResponsePacket.headerSize,
      ResponsePacket.headerSize, Packet.headerSize, strCodec_write_length]
    omega
  | put s =>
    simp only [Response.announced, Response.status, Response.body, ResponsePacket.headerSize,
      Packet.headerSize, List.length_nil]
    omega
  | delete s =>
    simp only [Response.announced, Response.status, Response.body, ResponsePacket.headerSize,
      Packet.headerSize, List.length_nil]
    omega
  | getAll s keys => exact absurd rfl h

/-- Each key takes its 4-byte size, so the number of keys is small when their sum is. -/
theorem length_le_flatMap_strCodec (keys : List Bytes) :
    4 * keys.length ≤ (keys.flatMap strCodec.write).length := by
  induction keys with
  | nil => simp
  | cons key keys ih =>
    rw [List.flatMap_cons, List.length_append, List.length_cons, strCodec_write_length]
    omega

theorem mem_length_le_flatMap_strCodec {keys : List Bytes} {key : Bytes} (h : key ∈ keys) :
    key.length ≤ (keys.flatMap strCodec.write).length := by
  induction keys with
  | nil => simp at h
  | cons k keys ih =>
    rw [List.flatMap_cons, List.length_append, strCodec_write_length]
    rcases List.mem_cons.1 h with rfl | h
    · omega
    · have := ih h
      omega

/-- A list of keys whose encoding is short enough has few and short keys. -/
theorem keysCodec_valid {keys : List Bytes} (h : (keysCodec.write keys).length < 2 ^ 32) :
    keysCodec.valid keys := by
  rw [keysCodec_write_length] at h
  have hcount := length_le_flatMap_strCodec keys
  refine ⟨by omega, fun key hkey => strCodec_valid.2 ?_⟩
  have := mem_length_le_flatMap_strCodec hkey
  omega

/-- `SumSizes` is the length of the keys on the wire, modulo `2 ^ 32`. -/
theorem sumSizes_eq (keys : List Bytes) :
    sumSizes keys = toUInt32 (keys.flatMap strCodec.write).length := by
  have step : ∀ (keys : List Bytes) (n : Nat),
      keys.foldl (fun sum key => toUInt32 (sum + (4 + key.length))) (toUInt32 n) =
        toUInt32 (n + (keys.flatMap strCodec.write).length) := by
    intro keys
    induction keys with
    | nil => intro n; simp
    | cons key keys ih =>
      intro n
      have hcut : toUInt32 (toUInt32 n + (4 + key.length)) = toUInt32 (n + (4 + key.length)) := by
        simp [toUInt32]
      rw [List.foldl_cons, hcut, ih, List.flatMap_cons, List.length_append, strCodec_write_length,
        Nat.add_assoc]
  have h := step keys 0
  rw [Nat.zero_add] at h
  exact h

/-! ## The encoding constructors as one write -/

theorem StringPacket.encode_eq (op : OpCode) (str : Bytes) (buf : Option Block) :
    StringPacket.encode op str buf =
      put buf 0 (toLE 4 (5 + str.length) ++ ([op.toByte] ++ strCodec.write str)) >>= fun x => do
        let (slice, _) ← readSlice (← reach x.1 5)
        return ({ payloadSize := toUInt32 (5 + str.length),
                  payload := if buf.isSome then none else x.1, str := slice }, x.1) := by
  unfold StringPacket.encode Packet.ofSize
  simp only [addString_eq, bind_assoc, pure_bind, Packet.leave]
  rw [put_bind_putAt _ _ _ (by simp [Packet.payloadOff]), put_bind_put, List.append_assoc]
  simp only [StringPacket.headerSize, Packet.headerSize, Packet.payloadOff, toLE_toUInt32,
    Nat.zero_add]

theorem PutPacket.encode_eq (key value : Bytes) (buf : Option Block) :
    PutPacket.encode key value buf =
      put buf 0 (toLE 4 (9 + key.length + value.length) ++ ([OpCode.kPut.toByte] ++
        (strCodec.write key ++ strCodec.write value))) >>= fun x => do
        let (keySlice, rest) ← readSlice (← reach x.1 5)
        let (valueSlice, _) ← readSlice rest
        return ({ payloadSize := toUInt32 (9 + key.length + value.length),
                  payload := if buf.isSome then none else x.1,
                  key := keySlice, value := valueSlice }, x.1) := by
  unfold PutPacket.encode Packet.ofSize
  simp only [addString_eq, bind_assoc, pure_bind, Packet.leave]
  rw [put_bind_putAt _ _ _ (by simp [Packet.payloadOff]), put_bind_put, put_bind_put,
    List.append_assoc, List.append_assoc]
  simp only [PutPacket.headerSize, Packet.headerSize, Packet.payloadOff, toLE_toUInt32,
    Nat.zero_add]

/-- The response constructor of the base class writes the size, the op code and the status. -/
theorem ResponsePacket.ofSize_bind {β : Type} (n : Nat) (op : OpCode) (status : Status)
    (buf : Option Block) (k : ResponsePacket → Except Fault β) :
    (ResponsePacket.ofSize n op status buf >>= k) =
      put buf 0 (toLE 4 n ++ op.toByte :: status.write) >>= fun x =>
        k { payloadSize := n, payload := x.1, status := .Ok,
            extraHeaderSize := toUInt32 (6 + status.message.length) } := by
  unfold ResponsePacket.ofSize Packet.ofSize
  simp only [addString_eq, bind_assoc, pure_bind]
  rw [put_bind_putAt _ _ _ (by simp [Packet.payloadOff]), put_bind_put, put_bind_put,
    List.append_assoc, List.append_assoc]
  rfl

/-- Where the body of a response starts, when the message size is a `uint32_t`. -/
theorem bodyOff_eq {status : Status} (h : 6 + status.message.length < 2 ^ 32) (n : Nat)
    (op : OpCode) :
    Packet.payloadOff + toUInt32 (6 + status.message.length) =
      0 + (toLE 4 n ++ op.toByte :: status.write).length := by
  rw [toUInt32_of_lt h, List.length_append, toLE_length, List.length_cons, Status.write_length]
  unfold Packet.payloadOff
  omega

theorem GetResponsePacket.encode_eq {status : Status} (h : 6 + status.message.length < 2 ^ 32)
    (value : Bytes) (buf : Option Block) :
    GetResponsePacket.encode status value buf =
      put buf 0 (Response.get status value).encoding >>= fun x =>
        pure ({ payloadSize := toUInt32 (Response.get status value).announced,
                payload := if buf.isSome then none else x.1, status := .Ok,
                extraHeaderSize := toUInt32 (6 + status.message.length), value := .empty }, x.1) := by
  unfold GetResponsePacket.encode
  rw [ResponsePacket.ofSize_bind]
  simp only [addString_eq, Packet.leave, ResponsePacket.payloadOff]
  rw [put_bind_putAt _ _ _ (bodyOff_eq h _ _)]
  simp only [toLE_toUInt32, List.append_assoc, List.cons_append]
  rfl

theorem encodeStatusOnly_eq (op : OpCode) (status : Status) (buf : Option Block) :
    encodeStatusOnly op status buf =
      put buf 0 (toLE 4 (6 + status.message.length) ++ op.toByte :: status.write) >>= fun x =>
        pure ({ payloadSize := toUInt32 (6 + status.message.length),
                payload := if buf.isSome then none else x.1, status := .Ok,
                extraHeaderSize := toUInt32 (6 + status.message.length) }, x.1) := by
  unfold encodeStatusOnly
  rw [ResponsePacket.ofSize_bind]
  simp only [ResponsePacket.headerSize, Packet.headerSize, Packet.leave, toLE_toUInt32,
    Nat.zero_add]

theorem GetAllResponsePacket.encode_eq {status : Status} (h : 6 + status.message.length < 2 ^ 32)
    (keys : List Bytes) (buf : Option Block) :
    GetAllResponsePacket.encode status keys buf =
      put buf 0 (Response.getAll status keys).encoding >>= fun x => do
        let (numKeys, rest) ← readLE 4 (← reach x.1 (10 + status.message.length))
        let (slices, _) ← readSlices numKeys rest
        return ({ payloadSize := toUInt32 (Response.getAll status keys).announced,
                  payload := if buf.isSome then none else x.1, status := .Ok,
                  extraHeaderSize := toUInt32 (6 + status.message.length),
                  keys := slices }, x.1) := by
  have hcut : toUInt32 (headerSize + 4 + sumSizes keys) =
      toUInt32 (Response.getAll status keys).announced := by
    rw [sumSizes_eq]
    simp [toUInt32, Response.announced]
  have hoff : Packet.payloadOff + toUInt32 (6 + status.message.length) =
      10 + status.message.length := by
    rw [toUInt32_of_lt h]
    unfold Packet.payloadOff
    omega
  unfold GetAllResponsePacket.encode
  rw [ResponsePacket.ofSize_bind, hcut]
  simp only [addStrings_eq, Packet.leave, ResponsePacket.payloadOff]
  rw [put_bind_putAt _ _ _ (bodyOff_eq h _ _), put_bind_putEach, hoff]
  simp only [toLE_toUInt32, List.append_assoc, List.cons_append]
  rfl

end SqpKv
