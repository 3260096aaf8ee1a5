import SqpKv.Protocol.Content

/-!
# The encoding constructors

`Command.encode` and `Response.encode` dispatch to the constructor of the class.
With room in the caller's buffer and a total size below `2 ^ 32` the
constructor overwrites the buffer with `encoding` (`encode_block`); with
`buf = nullptr` it writes through the null pointer, and after either the object
has no payload left to hand out (`not_buildsInBothModes`).  The size field is the number
of bytes written except in a GetAll response whose status message does not have
four bytes (`sizeExact_iff`).
-/

namespace SqpKv

open Wire

/-! ## Dispatch -/

def Command.encode : Command → Option Block → Except Fault (CommandPacket × Option Block)
  | .get key, buf => do
    let (p, out) ← GetPacket.encode key buf
    return (.get p, out)
  | .put key value, buf => do
    let (p, out) ← PutPacket.encode key value buf
    return (.put p, out)
  | .delete key, buf => do
    let (p, out) ← DeletePacket.encode key buf
    return (.delete p, out)
  | .getAll keyPrefix, buf => do
    let (p, out) ← GetAllPacket.encode keyPrefix buf
    return (.getAll p, out)

def Response.encode : Response → Option Block → Except Fault (AnyResponse × Option Block)
  | .get status value, buf => do
    let (p, out) ← GetResponsePacket.encode status value buf
    return (.get p, out)
  | .put status, buf => do
    let (p, out) ← PutResponsePacket.encode status buf
    return (.put p, out)
  | .delete status, buf => do
    let (p, out) ← DeleteResponsePacket.encode status buf
    return (.delete p, out)
  | .getAll status keys, buf => do
    let (p, out) ← GetAllResponsePacket.encode status keys buf
    return (.getAll p, out)

/-- What the accessors of a command object return. -/
def CommandPacket.command : CommandPacket → Command
  | .get p => .get p.str.toStr
  | .put p => .put p.key.toStr p.value.toStr
  | .delete p => .delete p.str.toStr
  | .getAll p => .getAll p.str.toStr

/-- What the accessors of a response object return. -/
def AnyResponse.response : AnyResponse → Response
  | .get p => .get p.status p.value.toStr
  | .put p => .put p.status
  | .delete p => .delete p.status
  | .getAll p => .getAll p.status (p.keys.map Slice.toStr)

/-- What the accessors return on an object its encoding constructor has left: that
constructor fills neither the status nor the value of a Get response. -/
def Response.unset : Response → Response
  | .get _ _ => .get .Ok []
  | .put _ => .put .Ok
  | .delete _ => .delete .Ok
  | .getAll _ keys => .getAll .Ok keys

/-! ## A buffer with room -/

theorem StringPacket.encode_block (op : OpCode) {str payload : Bytes} {b : Block}
    (hpayload : payload = op.toByte :: strCodec.write str) (hsize : 4 + payload.length < 2 ^ 32)
    (hroom : 4 + payload.length ≤ b.bytes.length) :
    ∃ slice, StringPacket.encode op str (some b) =
        .ok ({ payloadSize := payload.length, payload := none, str := slice },
          some (b.overwrite (toLE 4 payload.length ++ payload))) ∧
      slice.toStr = str := by
  have hlen : payload.length = 5 + str.length := by
    rw [hpayload, List.length_cons, strCodec_write_length]
    omega
  rw [StringPacket.encode_eq, put_start (by simp; omega), ← List.append_assoc]
  refine ⟨⟨some (str ++ b.bytes.drop (9 + str.length)), str.length⟩, ?_, Slice.toStr_mk str _⟩
  simp only [ok_bind, reach_some]
  rw [b.overwrite_drop (m := 9 + str.length) (by simp) (by simp; omega),
    readSlice_write (by omega), toUInt32_of_lt (by omega), List.append_assoc, hlen, hpayload]
  rfl

theorem PutPacket.encode_block {key value payload : Bytes} {b : Block}
    (hpayload : payload = OpCode.kPut.toByte :: (strCodec.write key ++ strCodec.write value))
    (hsize : 4 + payload.length < 2 ^ 32) (hroom : 4 + payload.length ≤ b.bytes.length) :
    ∃ keySlice valueSlice, PutPacket.encode key value (some b) =
        .ok ({ payloadSize := payload.length, payload := none,
               key := keySlice, value := valueSlice },
          some (b.overwrite (toLE 4 payload.length ++ payload))) ∧
      keySlice.toStr = key ∧ valueSlice.toStr = value := by
  have hlen : payload.length = 9 + key.length + value.length := by
    rw [hpayload]
    simp
    omega
  rw [PutPacket.encode_eq, put_start (by simp; omega), ← List.append_assoc]
  let tail := b.bytes.drop (13 + key.length + value.length)
  refine ⟨⟨some (key ++ (strCodec.write value ++ tail)), key.length⟩,
    ⟨some (value ++ tail), value.length⟩, ?_, Slice.toStr_mk key _, Slice.toStr_mk value _⟩
  simp only [ok_bind, reach_some]
  rw [b.overwrite_drop (m := 13 + key.length + value.length) (by simp) (by simp; omega),
    List.append_assoc (strCodec.write key), readSlice_write (by omega)]
  simp only [ok_bind]
  rw [readSlice_write (by omega), toUInt32_of_lt (by omega), List.append_assoc, hlen, hpayload]
  rfl

/-- **A command in a buffer with room.**  The buffer is overwritten with the
encoding; the object announces the payload's size, has no payload left, and its
accessors return the contents. -/
theorem Command.encode_block {c : Command} {b : Block} (hsize : c.encoding.length < 2 ^ 32)
    (hroom : c.encoding.length ≤ b.bytes.length) :
    ∃ p, c.encode (some b) = .ok (p, some (b.overwrite c.encoding)) ∧
      p.toPacket = ⟨c.payload.length, none⟩ ∧ p.command = c := by
  rw [Command.encoding_length] at hsize hroom
  cases c with
  | get key =>
    obtain ⟨slice, h, hslice⟩ := StringPacket.encode_block .kGet rfl hsize hroom
    refine ⟨.get ⟨⟨_, none⟩, slice⟩, ?_, rfl, by simp [CommandPacket.command, hslice]⟩
    simp only [Command.encode, GetPacket.encode, h]
    rfl
  | put key value =>
    obtain ⟨keySlice, valueSlice, h, hkey, hvalue⟩ := PutPacket.encode_block rfl hsize hroom
    refine ⟨.put ⟨⟨_, none⟩, keySlice, valueSlice⟩, ?_, rfl, by
      simp [CommandPacket.command, hkey, hvalue]⟩
    simp only [Command.encode, h]
    rfl
  | delete key =>
    obtain ⟨slice, h, hslice⟩ := StringPacket.encode_block .kDelete rfl hsize hroom
    refine ⟨.delete ⟨⟨_, none⟩, slice⟩, ?_, rfl, by simp [CommandPacket.command, hslice]⟩
    simp only [Command.encode, DeletePacket.encode, h]
    rfl
  | getAll keyPrefix =>
    obtain ⟨slice, h, hslice⟩ := StringPacket.encode_block .kGetAll rfl hsize hroom
    refine ⟨.getAll ⟨⟨_, none⟩, slice⟩, ?_, rfl, by simp [CommandPacket.command, hslice]⟩
    simp only [Command.encode, GetAllPacket.encode, h]
    rfl

theorem GetAllResponsePacket.encode_block {s : Status} {keys : List Bytes} {b : Block}
    (hsize : (Response.getAll s keys).encoding.length < 2 ^ 32)
    (hroom : (Response.getAll s keys).encoding.length ≤ b.bytes.length) :
    ∃ slices, GetAllResponsePacket.encode s keys (some b) =
        .ok ({ payloadSize := toUInt32 (Response.getAll s keys).announced, payload := none,
               status := .Ok, extraHeaderSize := toUInt32 (6 + s.message.length), keys := slices },
          some (b.overwrite (Response.getAll s keys).encoding)) ∧
      slices.map Slice.toStr = keys := by
  have hlen : (Response.getAll s keys).encoding.length =
      10 + s.message.length + (keysCodec.write keys).length := by
    rw [Response.encoding_length, Response.payload_length]
    show 4 + (6 + s.message.length + (keysCodec.write keys).length) = _
    omega
  have hvalid : keysCodec.valid keys := keysCodec_valid (by omega)
  obtain ⟨numKeys, rest, slices, hnum, hslices, hkeys⟩ := readKeys_iff.2
    ⟨hvalid, (rfl : keysCodec.write keys ++
      b.bytes.drop (Response.getAll s keys).encoding.length = _)⟩
  refine ⟨slices, ?_, hkeys⟩
  rw [GetAllResponsePacket.encode_eq (by omega), put_start hroom]
  -- the encoding up to the body is what the read back skips
  have hsplit : (Response.getAll s keys).encoding =
      (toLE 4 (Response.getAll s keys).announced ++ OpCode.kGetAll.toByte :: s.write) ++
        keysCodec.write keys := by
    simp [Response.encoding, Response.payload, Response.wireOp, Response.body, Response.status]
  have hdrop : (b.overwrite (Response.getAll s keys).encoding).bytes.drop (10 + s.message.length) =
      keysCodec.write keys ++ b.bytes.drop (Response.getAll s keys).encoding.length := by
    rw [hsplit, b.overwrite_drop (m := (Response.getAll s keys).encoding.length)
      (by simp; omega) hlen.symm, ← hsplit]
  simp only [ok_bind, reach_some]
  rw [hdrop, hnum]
  simp only [ok_bind]
  rw [hslices]
  rfl

theorem Response.announced_put (s : Status) :
    (Response.put s).announced = 6 + s.message.length := by
  simp [Response.announced, ResponsePacket.headerSize, Packet.headerSize]

theorem Response.encoding_put (s : Status) : (Response.put s).encoding =
    toLE 4 (6 + s.message.length) ++ OpCode.kPut.toByte :: s.write := by
  rw [Response.encoding, Response.announced_put]
  simp [Response.payload, Response.body, Response.wireOp, Response.status]

theorem encodeStatusOnly_block {s : Status} {b : Block}
    (hroom : (Response.put s).encoding.length ≤ b.bytes.length) :
    encodeStatusOnly .kPut s (some b) =
      .ok ({ payloadSize := toUInt32 (Response.put s).announced, payload := none, status := .Ok,
             extraHeaderSize := toUInt32 (6 + s.message.length) },
        some (b.overwrite (Response.put s).encoding)) := by
  rw [encodeStatusOnly_eq, ← Response.encoding_put, put_start hroom, Response.announced_put]
  rfl

/-- **A response in a buffer with room.**  The accessors of the object return the
keys, but neither the status nor the value that were encoded. -/
theorem Response.encode_block {r : Response} {b : Block} (hsize : r.encoding.length < 2 ^ 32)
    (hroom : r.encoding.length ≤ b.bytes.length) :
    ∃ p, r.encode (some b) = .ok (p, some (b.overwrite r.encoding)) ∧
      p.toResponsePacket.toPacket = ⟨toUInt32 r.announced, none⟩ ∧ p.response = r.unset := by
  cases r with
  | get s value =>
    have hmsg : 6 + s.message.length < 2 ^ 32 := by
      rw [Response.encoding_length, Response.payload_length] at hsize
      have : (Response.get s value).status = s := rfl
      rw [this] at hsize
      omega
    refine ⟨.get ⟨⟨⟨toUInt32 (Response.get s value).announced, none⟩, .Ok,
      toUInt32 (6 + s.message.length)⟩, .empty⟩, ?_, rfl, rfl⟩
    simp only [Response.encode, GetResponsePacket.encode_eq hmsg, put_start hroom]
    rfl
  | put s =>
    refine ⟨.put ⟨⟨toUInt32 (Response.put s).announced, none⟩, .Ok,
      toUInt32 (6 + s.message.length)⟩, ?_, rfl, rfl⟩
    simp only [Response.encode, PutResponsePacket.encode, encodeStatusOnly_block hroom]
    rfl
  | delete s =>
    refine ⟨.delete ⟨⟨toUInt32 (Response.delete s).announced, none⟩, .Ok,
      toUInt32 (6 + s.message.length)⟩, ?_, rfl, rfl⟩
    have h := encodeStatusOnly_block (s := s) (b := b) hroom
    simp only [Response.encode, DeleteResponsePacket.encode, h]
    rfl
  | getAll s keys =>
    obtain ⟨slices, h, hkeys⟩ := GetAllResponsePacket.encode_block hsize hroom
    refine ⟨.getAll ⟨⟨⟨toUInt32 (Response.getAll s keys).announced, none⟩, .Ok,
      toUInt32 (6 + s.message.length)⟩, slices⟩, ?_, rfl, ?_⟩
    · simp only [Response.encode, h]
      rfl
    · simp [AnyResponse.response, Response.unset, hkeys]

/-- The response constructor of the base class has had room for the status. -/
theorem ResponsePacket.ofSize_room {β : Type} {n : Nat} {op : OpCode} {s : Status} {b : Block}
    {k : ResponsePacket → Except Fault β} {x : β}
    (h : (ResponsePacket.ofSize n op s (some b) >>= k) = .ok x) :
    10 + s.message.length ≤ b.bytes.length := by
  rw [ResponsePacket.ofSize_bind] at h
  obtain ⟨r, hput, -⟩ := bind_eq_ok.1 h
  have hroom := (put_start_eq_ok hput).1
  rw [List.length_append, toLE_length, List.length_cons, Status.write_length] at hroom
  omega

theorem Response.encode_room {r : Response} {b : Block} {x : AnyResponse × Option Block}
    (h : r.encode (some b) = .ok x) : 10 + r.status.message.length ≤ b.bytes.length := by
  cases r with
  | get s value =>
    obtain ⟨_, h, -⟩ := bind_eq_ok.1 h
    exact ResponsePacket.ofSize_room h
  | put s =>
    obtain ⟨_, h, -⟩ := bind_eq_ok.1 h
    exact ResponsePacket.ofSize_room h
  | delete s =>
    obtain ⟨_, h, -⟩ := bind_eq_ok.1 h
    exact ResponsePacket.ofSize_room h
  | getAll s keys =>
    obtain ⟨_, h, -⟩ := bind_eq_ok.1 h
    exact ResponsePacket.ofSize_room h

/-- A response that was built was built in a buffer with room. -/
theorem Response.encode_eq_ok {r : Response} {b : Block} {p : AnyResponse} {out : Option Block}
    (hmsg : 6 + r.status.message.length < 2 ^ 32) (h : r.encode (some b) = .ok (p, out)) :
    r.encoding.length ≤ b.bytes.length ∧ out = some (b.overwrite r.encoding) ∧
      p.toResponsePacket.payloadSize = toUInt32 r.announced := by
  cases r with
  | get s value =>
    obtain ⟨x, hx, h⟩ := bind_eq_ok.1 h
    rw [GetResponsePacket.encode_eq (show 6 + s.message.length < 2 ^ 32 from hmsg)] at hx
    obtain ⟨y, hput, hx⟩ := bind_eq_ok.1 hx
    obtain ⟨hroom, rfl⟩ := put_start_eq_ok hput
    cases hx
    cases h
    exact ⟨hroom, rfl, rfl⟩
  | put s =>
    obtain ⟨x, hx, h⟩ := bind_eq_ok.1 h
    rw [PutResponsePacket.encode, encodeStatusOnly_eq, ← Response.encoding_put] at hx
    obtain ⟨y, hput, hx⟩ := bind_eq_ok.1 hx
    obtain ⟨hroom, rfl⟩ := put_start_eq_ok hput
    cases hx
    cases h
    exact ⟨hroom, rfl, by rw [Response.announced_put]; rfl⟩
  | delete s =>
    obtain ⟨x, hx, h⟩ := bind_eq_ok.1 h
    rw [DeleteResponsePacket.encode, encodeStatusOnly_eq, ← Response.encoding_put] at hx
    obtain ⟨y, hput, hx⟩ := bind_eq_ok.1 hx
    obtain ⟨hroom, rfl⟩ := put_start_eq_ok hput
    cases hx
    cases h
    refine ⟨hroom, rfl, ?_⟩
    show _ = toUInt32 (Response.put s).announced
    rw [Response.announced_put]
    rfl
  | getAll s keys =>
    obtain ⟨x, hx, h⟩ := bind_eq_ok.1 h
    rw [GetAllResponsePacket.encode_eq (show 6 + s.message.length < 2 ^ 32 from hmsg)] at hx
    obtain ⟨y, hput, hx⟩ := bind_eq_ok.1 hx
    obtain ⟨hroom, rfl⟩ := put_start_eq_ok hput
    obtain ⟨_, -, hx⟩ := bind_eq_ok.1 hx
    obtain ⟨_, -, hx⟩ := bind_eq_ok.1 hx
    obtain ⟨_, -, hx⟩ := bind_eq_ok.1 hx
    cases hx
    cases h
    exact ⟨hroom, rfl, rfl⟩

/-! ## The two modes of the constructors -/

/-- The contents of a packet of any class. -/
inductive Content
  | command (c : Command)
  | response (r : Response)

namespace Content

def encode : Content → Option Block → Except Fault (Packet × Option Block)
  | .command c, buf => do
    let (p, out) ← c.encode buf
    return (p.toPacket, out)
  | .response r, buf => do
    let (p, out) ← r.encode buf
    return (p.toResponsePacket.toPacket, out)

def encoding : Content → Bytes
  | .command c => c.encoding
  | .response r => r.encoding

def payload : Content → Bytes
  | .command c => c.payload
  | .response r => r.payload

/-- The payload size the constructor hands to `Packet`. -/
def announced : Content → Nat
  | .command c => c.payload.length
  | .response r => toUInt32 r.announced

end Content

/-- The slice points to at least its size of bytes, and these are `bs`. -/
def Slice.Denotes (s : Slice) (bs : Bytes) : Prop :=
  ∃ d, s.data = some d ∧ s.size ≤ d.length ∧ d.take s.size = bs

/-- Built without a buffer or into any buffer with room, the packet's `ToBinary()` is one
and the same byte string. -/
def Content.BuildsInBothModes (c : Content) : Prop :=
  ∃ bs,
    (∃ p out, c.encode none = .ok (p, out) ∧ p.toBinary.Denotes bs) ∧
    ∀ b : Block, c.encoding.length ≤ b.bytes.length →
      ∃ p out, c.encode (some b) = .ok (p, out) ∧ p.toBinary.Denotes bs

/-- With `buf = nullptr` the size field is written through the null pointer. -/
theorem Content.encode_null (c : Content) : c.encode none = .error .nullPointer := by
  cases c with
  | command c => cases c <;> rfl
  | response r => cases r <;> rfl

theorem StringPacket.encode_payload (op : OpCode) (str : Bytes) (b : Block) :
    Returns (fun r => r.1.payload = none) (StringPacket.encode op str (some b)) :=
  .andThen fun _ => .andThen fun _ => .andThen fun _ => .andThen fun _ => .andThen fun _ => .pure rfl

theorem PutPacket.encode_payload (key value : Bytes) (b : Block) :
    Returns (fun r => r.1.payload = none) (PutPacket.encode key value (some b)) :=
  .andThen fun _ => .andThen fun _ => .andThen fun _ => .andThen fun _ => .andThen fun _ =>
    .andThen fun _ => .andThen fun _ => .pure rfl

theorem GetResponsePacket.encode_payload (s : Status) (value : Bytes) (b : Block) :
    Returns (fun r => r.1.payload = none) (GetResponsePacket.encode s value (some b)) :=
  .andThen fun _ => .andThen fun _ => .pure rfl

theorem encodeStatusOnly_payload (op : OpCode) (s : Status) (b : Block) :
    Returns (fun r => r.1.payload = none) (encodeStatusOnly op s (some b)) :=
  .andThen fun _ => .pure rfl

theorem GetAllResponsePacket.encode_payload (s : Status) (keys : List Bytes) (b : Block) :
    Returns (fun r => r.1.payload = none) (GetAllResponsePacket.encode s keys (some b)) :=
  .andThen fun _ => .andThen fun _ => .andThen fun _ => .andThen fun _ => .andThen fun _ =>
    .andThen fun _ => .pure rfl

/-- A constructor that was lent a buffer takes it out of the object at its end. -/
theorem Content.encode_payload (c : Content) (b : Block) :
    Returns (fun r => r.1.payload = none) (c.encode (some b)) := by
  cases c with
  | command c =>
    refine .bind (Q := fun r => r.1.toPacket.payload = none) ?_ fun r hr => .pure hr
    cases c with
    | get key => exact .bind (StringPacket.encode_payload _ key b) fun r hr => .pure hr
    | put key value => exact .bind (PutPacket.encode_payload key value b) fun r hr => .pure hr
    | delete key => exact .bind (StringPacket.encode_payload _ key b) fun r hr => .pure hr
    | getAll keyPrefix => exact .bind (StringPacket.encode_payload _ keyPrefix b) fun r hr => .pure hr
  | response r =>
    refine .bind (Q := fun r => r.1.toResponsePacket.payload = none) ?_ fun r hr => .pure hr
    cases r with
    | get s value => exact .bind (GetResponsePacket.encode_payload s value b) fun r hr => .pure hr
    | put s => exact .bind (encodeStatusOnly_payload _ s b) fun r hr => .pure hr
    | delete s => exact .bind (encodeStatusOnly_payload _ s b) fun r hr => .pure hr
    | getAll s keys => exact .bind (GetAllResponsePacket.encode_payload s keys b) fun r hr => .pure hr

/-- **No class can be built in either mode.**  Without a buffer the constructor
writes through a null pointer; with one, `ToBinary()` of the finished object has
a null data pointer. -/
theorem Content.not_buildsInBothModes (c : Content) :
    c.encode none = .error .nullPointer ∧
    (∀ b p out, c.encode (some b) = .ok (p, out) → p.toBinary.data = none) ∧
    ¬ c.BuildsInBothModes := by
  refine ⟨c.encode_null, ?_, ?_⟩
  · intro b p out h
    rw [Packet.toBinary, c.encode_payload b _ h]
    rfl
  · rintro ⟨bs, ⟨p, out, h, -⟩, -⟩
    rw [c.encode_null] at h
    cases h

/-- A Get of the key "a" built by the client, `GetPacket packet(key);`, does not return. -/
theorem get_not_buildsInBothModes : ¬ (Content.command (.get [97])).BuildsInBothModes := by
  rintro ⟨bs, ⟨p, out, h, -⟩, -⟩
  cases h

/-! ## The size field -/

/-- In every fresh buffer with room, the bytes stored to are exactly the first
`payload_size_ + 4`, each once. -/
def Content.SizeExact (c : Content) : Prop :=
  ∀ b : Block, b.stored = [] → c.encoding.length ≤ b.bytes.length →
    ∃ p out, c.encode (some b) = .ok (p, some out) ∧ out.stored = List.range (p.payloadSize + 4)

theorem Content.encode_block {c : Content} {b : Block} (hsize : c.encoding.length < 2 ^ 32)
    (hroom : c.encoding.length ≤ b.bytes.length) :
    c.encode (some b) = .ok (⟨c.announced, none⟩, some (b.overwrite c.encoding)) := by
  cases c with
  | command c =>
    obtain ⟨p, h, hp, -⟩ := Command.encode_block hsize hroom
    simp only [Content.encode, h, Content.announced, ← hp]
    rfl
  | response r =>
    obtain ⟨p, h, hp, -⟩ := Response.encode_block hsize hroom
    simp only [Content.encode, h, Content.announced, ← hp]
    rfl

theorem Content.encoding_length (c : Content) : c.encoding.length = 4 + c.payload.length := by
  cases c with
  | command c => exact c.encoding_length
  | response r => exact r.encoding_length

/-- The size field is exact when the announced size is the length of the payload. -/
theorem Content.sizeExact_iff_announced {c : Content} (hsize : c.encoding.length < 2 ^ 32) :
    c.SizeExact ↔ c.announced = c.payload.length := by
  have hlen := c.encoding_length
  constructor
  · intro h
    let b : Block := { bytes := List.replicate c.encoding.length 0 }
    have hroom : c.encoding.length ≤ b.bytes.length := by simp [b]
    obtain ⟨p, out, he, hs⟩ := h b rfl hroom
    rw [Content.encode_block hsize hroom] at he
    cases he
    have := congrArg List.length hs
    simp only [Block.overwrite, b, List.nil_append, List.length_range] at this
    omega
  · intro h b hb hroom
    refine ⟨_, _, Content.encode_block hsize hroom, ?_⟩
    rw [Block.overwrite, hb, List.nil_append, hlen, h, Nat.add_comm]

/-- Only the constructor of a GetAll response does not count its status message; it
counts four bytes in its place. -/
def Content.MessageCounted : Content → Prop
  | .response (.getAll s _) => s.message.length = 4
  | _ => True

/-- **Which size fields are exact.** -/
theorem Content.sizeExact_iff (c : Content) (hsize : c.encoding.length < 2 ^ 32) :
    c.SizeExact ↔ c.MessageCounted := by
  rw [Content.sizeExact_iff_announced hsize]
  rw [Content.encoding_length] at hsize
  cases c with
  | command c => simp [Content.announced, Content.payload, Content.MessageCounted]
  | response r =>
    simp only [Content.payload] at hsize
    by_cases hop : r.wireOp = .kGetAll
    · cases r with
      | getAll s keys =>
        have hsum := Response.announced_getAll s keys
        simp only [Content.announced, Content.payload, Content.MessageCounted, toUInt32]
        omega
      | _ => cases hop
    · have hcut : toUInt32 r.announced = r.payload.length := by
        rw [Response.announced_eq hop, toUInt32_of_lt (by omega)]
      have hcounted : Content.MessageCounted (.response r) := by
        cases r with
        | getAll s keys => exact absurd rfl hop
        | _ => trivial
      exact iff_of_true hcut hcounted

/-- The empty GetAll response of the servers, whose message is "OK": 16 bytes are written
and 18 are sent. -/
theorem getAll_not_sizeExact : ¬ (Content.response (.getAll .Ok [])).SizeExact := by
  intro h
  obtain ⟨p, out, he, hs⟩ := h { bytes := List.replicate 18 0 } rfl (by decide)
  cases he
  revert hs
  decide

/-- The response to a successful Put. -/
theorem putOk_sizeExact : (Content.response (.put .Ok)).SizeExact :=
  (Content.sizeExact_iff (.response (.put .Ok)) (by decide)).2 trivial

end SqpKv
