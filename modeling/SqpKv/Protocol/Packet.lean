import SqpKv.Protocol.Status

/-!
# Packets (src/protocol/packet.h, packet.cc)

Every packet is a 4-byte payload size and the payload.  A class has two
constructors: one encodes its contents into a buffer (`encode`; `none` is
`buf = nullptr`), one decodes a received string (`ofBuf`).

* Encoding: `Packet(payload_size, buf)` lends `buf` to the `unique_ptr`
  `payload_`, the derived constructor writes behind the size field and reads its
  slices back, and `Release()` takes the buffer out again when `buf` is not null.
  `encode` returns the object and the caller's buffer as the constructor left it.
* Decoding: `Packet(const char *)` copies `payload_size_ + 4` bytes of what the
  pointer reaches; every later read is in that copy.

Sizes are `uint32_t` where the source has `uint32_t` (`toUInt32`).
`GetPacket`, `DeletePacket` and `GetAllPacket` are one class but for the op
code, and so are the responses to Put and Delete.
-/

namespace SqpKv

open Wire

inductive OpCode
  | kGet
  | kPut
  | kDelete
  | kGetAll
deriving DecidableEq, Repr

def OpCode.toByte : OpCode → UInt8
  | .kGet => 0
  | .kPut => 1
  | .kDelete => 2
  | .kGetAll => 3

/-- The `switch` of the factories; `none` is its default branch. -/
def OpCode.ofByte? (b : UInt8) : Option OpCode :=
  if b = 0 then some .kGet
  else if b = 1 then some .kPut
  else if b = 2 then some .kDelete
  else if b = 3 then some .kGetAll
  else none

/-- `rocksdb::Slice`: what the data pointer reaches (`none` when it is null), and the size. -/
structure Slice where
  data : Option Bytes
  size : Nat

/-- `Slice()`: the data pointer is that of an empty string literal. -/
def Slice.empty : Slice := ⟨some [], 0⟩

/-- `Slice::ToString()`. -/
def Slice.toStr (s : Slice) : Bytes := (s.data.getD []).take s.size

/-! ## The base class -/

/-- `payload` is the block `payload_` owns, or holds while a constructor runs. -/
structure Packet where
  payloadSize : Nat
  payload : Option Block

namespace Packet

/-- `Packet(const char *buf)`. -/
def ofBuf (buf : Bytes) : Except Fault Packet := do
  let (payloadSize, _) ← readLE 4 buf
  let (copy, _) ← readN (toUInt32 (payloadSize + 4)) buf
  return { payloadSize, payload := some { bytes := copy } }

/-- `Packet(uint32_t payload_size, char *buf)`. -/
def ofSize (payloadSize : Nat) (buf : Option Block) : Except Fault Packet := do
  let (payload, _) ← put buf 0 (toLE 4 payloadSize)
  return { payloadSize, payload }

def toBinary (p : Packet) : Slice :=
  ⟨p.payload.map Block.bytes, toUInt32 (p.payloadSize + 4)⟩

def headerSize : Nat := 0

/-- Offset of `Packet::Payload()` in the block. -/
def payloadOff : Nat := 4

/-- The end of an encoding constructor: `if (buf != nullptr) Release();`. -/
def leave (p : Packet) (buf payload : Option Block) : Packet :=
  { p with payload := if buf.isSome then none else payload }

end Packet

/-- `AddString`. -/
def addString (payload : Option Block) (off : Nat) (data : Bytes) :
    Except Fault (Option Block × Nat) := do
  let (payload, off) ← put payload off (toLE 4 (toUInt32 data.length))
  put payload off data

/-- `for (auto &key : keys) payload = AddString(payload, key);` -/
def addStrings (payload : Option Block) (off : Nat) :
    List Bytes → Except Fault (Option Block × Nat)
  | [] => .ok (payload, off)
  | key :: keys => do
    let (payload, off) ← addString payload off key
    addStrings payload off keys

/-- `ReadSlice`. -/
def readSlice : Reader Slice := fun buf => do
  let (size, data) ← readLE 4 buf
  -- the debug line copies the string out, so its bytes are read here
  let (_, rest) ← readN size data
  return (⟨some data, size⟩, rest)

/-- `for (i = 0; i < num_keys; i++) { payload = ReadSlice(payload, key); keys_.push_back(key); }` -/
def readSlices : Nat → Reader (List Slice)
  | 0, buf => .ok ([], buf)
  | n + 1, buf => do
    let (key, buf) ← readSlice buf
    let (keys, buf) ← readSlices n buf
    return (key :: keys, buf)

/-! ## Fields on the wire -/

/-- A string behind its 4-byte size, as `AddString` and `ReadSlice` have it. -/
def strCodec : Codec Bytes := Codec.counted 4

theorem strCodec_write (s : Bytes) : strCodec.write s = toLE 4 s.length ++ s := rfl

theorem strCodec_valid {s : Bytes} : strCodec.valid s ↔ s.length < 2 ^ 32 := Iff.rfl

@[simp] theorem strCodec_write_length (s : Bytes) : (strCodec.write s).length = 4 + s.length := by
  rw [strCodec_write, List.length_append, toLE_length]

theorem addString_eq (payload : Option Block) (off : Nat) (data : Bytes) :
    addString payload off data = put payload off (strCodec.write data) := by
  simp only [addString, toLE_toUInt32]
  exact put_put payload off _ _

theorem addStrings_eq (payload : Option Block) (off : Nat) (keys : List Bytes) :
    addStrings payload off keys = putEach strCodec.write payload off keys := by
  induction keys generalizing payload off with
  | nil => rfl
  | cons key keys ih => simp only [addStrings, putEach, addString_eq, ih]

theorem readSlice_eq_ok {p : Bytes} {s : Slice} {rest : Bytes} :
    readSlice p = .ok (s, rest) ↔
      ∃ str, str.length < 2 ^ 32 ∧ p = strCodec.write str ++ rest ∧
        s = ⟨some (str ++ rest), str.length⟩ := by
  unfold readSlice
  rw [bind_eq_ok]
  constructor
  · rintro ⟨⟨size, data⟩, hsize, hdata⟩
    obtain ⟨⟨str, rest'⟩, hstr, hs⟩ := bind_eq_ok.1 hdata
    obtain ⟨hlt, rfl⟩ := readLE_eq_ok.1 hsize
    obtain ⟨rfl, rfl⟩ := readN_eq_ok.1 hstr
    obtain ⟨rfl, rfl⟩ : ⟨some (str ++ rest'), str.length⟩ = s ∧ rest' = rest := by
      simpa [pure, Except.pure] using hs
    exact ⟨str, by simpa using hlt, by rw [strCodec_write, List.append_assoc], rfl⟩
  · rintro ⟨str, hlt, rfl, rfl⟩
    refine ⟨(str.length, str ++ rest), readLE_eq_ok.2 ⟨by simpa using hlt, ?_⟩, ?_⟩
    · rw [strCodec_write, List.append_assoc]
    · rw [bind_eq_ok]
      exact ⟨(str, rest), readN_eq_ok.2 ⟨rfl, rfl⟩, rfl⟩

theorem readSlice_write {str : Bytes} (h : str.length < 2 ^ 32) (rest : Bytes) :
    readSlice (strCodec.write str ++ rest) = .ok (⟨some (str ++ rest), str.length⟩, rest) :=
  readSlice_eq_ok.2 ⟨str, h, rfl, rfl⟩

@[simp] theorem Slice.toStr_mk (str rest : Bytes) :
    Slice.toStr ⟨some (str ++ rest), str.length⟩ = str := by
  simp [Slice.toStr]

theorem readSlices_toStr {n : Nat} {p : Bytes} {keys : List Bytes} {rest : Bytes} :
    (∃ slices, readSlices n p = .ok (slices, rest) ∧ slices.map Slice.toStr = keys) ↔
      strCodec.readMany n p = .ok (keys, rest) := by
  induction n generalizing p keys with
  | zero =>
    constructor
    · rintro ⟨slices, h, rfl⟩
      cases h
      rfl
    · intro h
      cases h
      exact ⟨[], rfl, rfl⟩
  | succ n ih =>
    rw [Codec.readMany, bind_eq_ok]
    constructor
    · rintro ⟨slices, h, rfl⟩
      obtain ⟨⟨slice, q⟩, hslice, hq⟩ := bind_eq_ok.1 h
      obtain ⟨⟨slices', r⟩, hslices, hr⟩ := bind_eq_ok.1 hq
      cases hr
      obtain ⟨str, hlt, rfl, rfl⟩ := readSlice_eq_ok.1 hslice
      refine ⟨(str, q), strCodec.read_write (strCodec_valid.2 hlt) q, ?_⟩
      rw [bind_eq_ok]
      exact ⟨(_, rest), ih.1 ⟨slices', hslices, rfl⟩, by simp [pure, Except.pure]⟩
    · rintro ⟨⟨str, q⟩, hstr, hq⟩
      obtain ⟨⟨strs, r⟩, hstrs, hr⟩ := bind_eq_ok.1 hq
      cases hr
      obtain ⟨hlt, rfl⟩ := (strCodec.read_eq_ok _ _ _).1 hstr
      obtain ⟨slices, hslices, rfl⟩ := ih.2 hstrs
      refine ⟨⟨some (str ++ q), str.length⟩ :: slices, ?_, by simp⟩
      rw [readSlices, readSlice_write (strCodec_valid.1 hlt)]
      show (readSlices n q >>= fun x => _) = _
      rw [hslices]
      rfl

/-- The keys of a GetAll response: their number, then each behind its size. -/
def keysCodec : Codec (List Bytes) := Codec.list 4 strCodec

theorem keysCodec_write (keys : List Bytes) :
    keysCodec.write keys = toLE 4 keys.length ++ keys.flatMap strCodec.write := rfl

/-- The keys are read exactly when they stand there behind their number. -/
theorem readKeys_iff {p : Bytes} {keys : List Bytes} {rest : Bytes} :
    (∃ n q slices, readLE 4 p = .ok (n, q) ∧ readSlices n q = .ok (slices, rest) ∧
        slices.map Slice.toStr = keys) ↔
      keysCodec.valid keys ∧ p = keysCodec.write keys ++ rest := by
  rw [← keysCodec.read_eq_ok, show keysCodec.read p = (readLE 4 p >>= fun x =>
    strCodec.readMany x.1 x.2) from rfl, bind_eq_ok]
  constructor
  · rintro ⟨n, q, slices, hn, hslices, hkeys⟩
    exact ⟨(n, q), hn, readSlices_toStr.1 ⟨slices, hslices, hkeys⟩⟩
  · rintro ⟨⟨n, q⟩, hn, hread⟩
    obtain ⟨slices, hslices, hkeys⟩ := readSlices_toStr.2 hread
    exact ⟨n, q, slices, hn, hslices, hkeys⟩

/-! ## Commands -/

/-- A command that carries one string: its op code, then the string. -/
structure StringPacket extends Packet where
  str : Slice

namespace StringPacket

/-- Op code and string size. -/
def headerSize : Nat := Packet.headerSize + 1 + 4

def ofBuf (buf : Bytes) : Except Fault StringPacket := do
  let p ← Packet.ofBuf buf
  -- the op code is skipped
  let (str, _) ← readSlice (← reach p.payload (Packet.payloadOff + 1))
  return { toPacket := p, str }

def encode (op : OpCode) (str : Bytes) (buf : Option Block) :
    Except Fault (StringPacket × Option Block) := do
  let p ← Packet.ofSize (toUInt32 (headerSize + str.length)) buf
  let (payload, off) ← put p.payload Packet.payloadOff [op.toByte]
  let (payload, _) ← addString payload off str
  let (slice, _) ← readSlice (← reach payload (Packet.payloadOff + 1))
  return ({ toPacket := p.leave buf payload, str := slice }, payload)

end StringPacket

abbrev GetPacket := StringPacket

def GetPacket.ofBuf : Bytes → Except Fault GetPacket := StringPacket.ofBuf
def GetPacket.encode (key : Bytes) (buf : Option Block) : Except Fault (GetPacket × Option Block) :=
  StringPacket.encode .kGet key buf

abbrev DeletePacket := StringPacket

def DeletePacket.ofBuf : Bytes → Except Fault DeletePacket := StringPacket.ofBuf
def DeletePacket.encode (key : Bytes) (buf : Option Block) :
    Except Fault (DeletePacket × Option Block) :=
  StringPacket.encode .kDelete key buf

abbrev GetAllPacket := StringPacket

def GetAllPacket.ofBuf : Bytes → Except Fault GetAllPacket := StringPacket.ofBuf
def GetAllPacket.encode (keyPrefix : Bytes) (buf : Option Block) :
    Except Fault (GetAllPacket × Option Block) :=
  StringPacket.encode .kGetAll keyPrefix buf

structure PutPacket extends Packet where
  key : Slice
  value : Slice

namespace PutPacket

/-- Op code, key size and value size. -/
def headerSize : Nat := Packet.headerSize + 1 + 4 + 4

def ofBuf (buf : Bytes) : Except Fault PutPacket := do
  let p ← Packet.ofBuf buf
  let (key, payload) ← readSlice (← reach p.payload (Packet.payloadOff + 1))
  let (value, _) ← readSlice payload
  return { toPacket := p, key, value }

def encode (key value : Bytes) (buf : Option Block) :
    Except Fault (PutPacket × Option Block) := do
  let p ← Packet.ofSize (toUInt32 (headerSize + key.length + value.length)) buf
  let (payload, off) ← put p.payload Packet.payloadOff [OpCode.kPut.toByte]
  let (payload, off) ← addString payload off key
  let (payload, _) ← addString payload off value
  let (keySlice, rest) ← readSlice (← reach payload (Packet.payloadOff + 1))
  let (valueSlice, _) ← readSlice rest
  return ({ toPacket := p.leave buf payload, key := keySlice, value := valueSlice }, payload)

end PutPacket

/-! ## Responses -/

structure ResponsePacket extends Packet where
  status : Status
  extraHeaderSize : Nat

namespace ResponsePacket

def headerSize : Nat := Packet.headerSize + 6

/-- Offset of `ResponsePacket::Payload()` in the block. -/
def payloadOff (r : ResponsePacket) : Nat := Packet.payloadOff + r.extraHeaderSize

/-- `ParseStatus`. -/
def parseStatus (p : Packet) : Except Fault ResponsePacket := do
  let (scode, payload) ← Codec.byte.read (← reach p.payload (Packet.payloadOff + 1))
  let (messageSize, payload) ← readLE 4 payload
  let (message, _) ← readN messageSize payload
  return { toPacket := p, status := ⟨Code.ofByte scode, message⟩,
           extraHeaderSize := toUInt32 (6 + messageSize) }

/-- `ResponsePacket(const char *buf)`. -/
def ofBuf (buf : Bytes) : Except Fault ResponsePacket := do
  let p ← Packet.ofBuf buf
  parseStatus p

/-- `ResponsePacket(payload_size, op, status, buf)`; it writes the status and leaves
the field `status_` default-constructed. -/
def ofSize (payloadSize : Nat) (op : OpCode) (status : Status) (buf : Option Block) :
    Except Fault ResponsePacket := do
  let p ← Packet.ofSize payloadSize buf
  let (payload, off) ← put p.payload Packet.payloadOff [op.toByte]
  let (payload, off) ← put payload off [status.code.toByte]
  let (payload, _) ← addString payload off status.message
  return { toPacket := { p with payload }, status := .Ok,
           extraHeaderSize := toUInt32 (6 + status.message.length) }

end ResponsePacket

structure GetResponsePacket extends ResponsePacket where
  value : Slice

namespace GetResponsePacket

def headerSize : Nat := ResponsePacket.headerSize + 4

def ofBuf (buf : Bytes) : Except Fault GetResponsePacket := do
  let r ← ResponsePacket.ofBuf buf
  let (value, _) ← readSlice (← reach r.payload r.payloadOff)
  return { toResponsePacket := r, value }

/-- The field `value_` stays default-constructed. -/
def encode (status : Status) (value : Bytes) (buf : Option Block) :
    Except Fault (GetResponsePacket × Option Block) := do
  let r ← ResponsePacket.ofSize (toUInt32 (headerSize + status.message.length + value.length))
    .kGet status buf
  let (payload, _) ← addString r.payload r.payloadOff value
  return ({ r with toPacket := r.leave buf payload, value := .empty }, payload)

end GetResponsePacket

/-- A response without a body, under the op code `op`. -/
def encodeStatusOnly (op : OpCode) (status : Status) (buf : Option Block) :
    Except Fault (ResponsePacket × Option Block) := do
  let r ← ResponsePacket.ofSize (toUInt32 (ResponsePacket.headerSize + status.message.length))
    op status buf
  return ({ r with toPacket := r.leave buf r.payload }, r.payload)

abbrev PutResponsePacket := ResponsePacket

def PutResponsePacket.ofBuf : Bytes → Except Fault PutResponsePacket := ResponsePacket.ofBuf
def PutResponsePacket.encode (status : Status) (buf : Option Block) :
    Except Fault (PutResponsePacket × Option Block) :=
  encodeStatusOnly .kPut status buf

abbrev DeleteResponsePacket := ResponsePacket

def DeleteResponsePacket.ofBuf : Bytes → Except Fault DeleteResponsePacket := ResponsePacket.ofBuf
/-- The op code it writes is `kPut`, as in the source. -/
def DeleteResponsePacket.encode (status : Status) (buf : Option Block) :
    Except Fault (DeleteResponsePacket × Option Block) :=
  encodeStatusOnly .kPut status buf

/-- `SumSizes`, a `uint32_t` sum. -/
def sumSizes (keys : List Bytes) : Nat :=
  keys.foldl (fun sum key => toUInt32 (sum + (4 + key.length))) 0

structure GetAllResponsePacket extends ResponsePacket where
  keys : List Slice

namespace GetAllResponsePacket

def headerSize : Nat := ResponsePacket.headerSize + 4

def ofBuf (buf : Bytes) : Except Fault GetAllResponsePacket := do
  let r ← ResponsePacket.ofBuf buf
  let (numKeys, payload) ← readLE 4 (← reach r.payload r.payloadOff)
  let (keys, _) ← readSlices numKeys payload
  return { toResponsePacket := r, keys }

def encode (status : Status) (keys : List Bytes) (buf : Option Block) :
    Except Fault (GetAllResponsePacket × Option Block) := do
  let r ← ResponsePacket.ofSize (toUInt32 (headerSize + 4 + sumSizes keys)) .kGetAll status buf
  let (payload, off) ← put r.payload r.payloadOff (toLE 4 (toUInt32 keys.length))
  let (payload, _) ← addStrings payload off keys
  let (numKeys, rest) ← readLE 4 (← reach payload r.payloadOff)
  let (slices, _) ← readSlices numKeys rest
  return ({ r with toPacket := r.leave buf payload, keys := slices }, payload)

/-- `AddKeys`: the keys behind what the caller has already. -/
def addKeys (p : GetAllResponsePacket) (keys : List Bytes) : List Bytes :=
  keys ++ p.keys.map Slice.toStr

end GetAllResponsePacket

/-! ## Factories -/

inductive CommandPacket
  | get (p : GetPacket)
  | put (p : PutPacket)
  | delete (p : DeletePacket)
  | getAll (p : GetAllPacket)

namespace CommandPacket

def toPacket : CommandPacket → Packet
  | .get p => p.toPacket
  | .put p => p.toPacket
  | .delete p => p.toPacket
  | .getAll p => p.toPacket

/-- `GetOp()`. -/
def getOp : CommandPacket → OpCode
  | .get _ => .kGet
  | .put _ => .kPut
  | .delete _ => .kDelete
  | .getAll _ => .kGetAll

end CommandPacket

/-- `CommandPacketFactory::CreateCommandPacket`; `none` is the null pointer. -/
def createCommandPacket (buf : Bytes) : Except Fault (Option CommandPacket) := do
  let (op, _) ← Codec.byte.read (buf.drop 4)
  match OpCode.ofByte? op with
  | some .kGet => return some (.get (← GetPacket.ofBuf buf))
  | some .kPut => return some (.put (← PutPacket.ofBuf buf))
  | some .kDelete => return some (.delete (← DeletePacket.ofBuf buf))
  | some .kGetAll => return some (.getAll (← GetAllPacket.ofBuf buf))
  | none => return none

/-- A response object with the class it was built as. -/
inductive AnyResponse
  | get (p : GetResponsePacket)
  | put (p : PutResponsePacket)
  | delete (p : DeleteResponsePacket)
  | getAll (p : GetAllResponsePacket)

def AnyResponse.toResponsePacket : AnyResponse → ResponsePacket
  | .get p => p.toResponsePacket
  | .put p => p
  | .delete p => p
  | .getAll p => p.toResponsePacket

/-- `ResponsePacketFactory::CreateResponsePacket`. -/
def createResponsePacket (buf : Bytes) : Except Fault (Option AnyResponse) := do
  let (op, _) ← Codec.byte.read (buf.drop 4)
  match OpCode.ofByte? op with
  | some .kGet => return some (.get (← GetResponsePacket.ofBuf buf))
  | some .kPut => return some (.put (← PutResponsePacket.ofBuf buf))
  | some .kDelete => return some (.delete (← DeleteResponsePacket.ofBuf buf))
  | some .kGetAll => return some (.getAll (← GetAllResponsePacket.ofBuf buf))
  | none => return none

end SqpKv
