import SqpKv.Protocol.Encode

/-!
# The decoding constructors

`Packet(const char *)` copies the packet out of the received string; every field
is then read from the copy.  A class's constructor returns exactly on a string
that begins with a frame whose payload begins with the fields of the class
(`decodeCommandAs_sound`, `decodeCommandAs_complete` and the same for
responses), so the factories stay inside what was received exactly on

    CommandFits s   :  s = frame (c.payload ++ slack) ++ tail  for a command c, or the op is unknown
    ResponseFits s  :  the same for a response                        (factories_inBounds_iff)

and on what an encoding constructor wrote they return its contents
(`command_roundTrip`, `response_roundTrip`).
-/

namespace SqpKv

open Wire

/-! ## Frames -/

/-- A payload behind its size. -/
def frame (payload : Bytes) : Bytes := toLE 4 payload.length ++ payload

/-- The object `Packet(const char *)` makes of a frame. -/
def packetOf (payload : Bytes) : Packet :=
  { payloadSize := payload.length, payload := some { bytes := frame payload } }

@[simp] theorem frame_length (payload : Bytes) : (frame payload).length = 4 + payload.length := by
  simp [frame]

@[simp] theorem frame_drop_four (payload tail : Bytes) :
    (frame payload ++ tail).drop 4 = payload ++ tail := by
  rw [frame, List.append_assoc, List.drop_left' (by simp)]

theorem frame_drop_four_cons (b : UInt8) (body tail : Bytes) :
    (frame (b :: body) ++ tail).drop 4 = b :: (body ++ tail) := by
  rw [frame_drop_four]
  rfl

/-- Behind the size field and the op code. -/
@[simp] theorem frame_drop_five (op : UInt8) (body tail : Bytes) :
    (frame (op :: body) ++ tail).drop 5 = body ++ tail := by
  have h : ((frame (op :: body) ++ tail).drop 4).drop 1 = body ++ tail := by
    rw [frame_drop_four_cons]
    rfl
  rwa [List.drop_drop] at h

theorem packetOf_toBinary {payload : Bytes} (h : payload.length + 4 < 2 ^ 32) :
    (packetOf payload).toBinary.Denotes (frame payload) := by
  refine ⟨frame payload, rfl, ?_, ?_⟩
  · simp only [Packet.toBinary, packetOf, toUInt32_of_lt h, frame_length]
    omega
  · simp only [Packet.toBinary, packetOf, toUInt32_of_lt h]
    exact List.take_of_length_le (by rw [frame_length]; omega)

theorem Packet.ofBuf_frame {payload : Bytes} (h : payload.length + 4 < 2 ^ 32) (tail : Bytes) :
    Packet.ofBuf (frame payload ++ tail) = .ok (packetOf payload) := by
  have hsize : readLE 4 (frame payload ++ tail) = .ok (payload.length, payload ++ tail) :=
    readLE_eq_ok.2 ⟨by omega, by simp [frame]⟩
  have hcopy : readN (toUInt32 (payload.length + 4)) (frame payload ++ tail) =
      .ok (frame payload, tail) :=
    readN_eq_ok.2 ⟨by rw [frame_length, toUInt32_of_lt h, Nat.add_comm], rfl⟩
  unfold Packet.ofBuf
  rw [hsize]
  show (readN _ _ >>= fun x => _) = _
  rw [hcopy]
  rfl

/-- The copy of a string: when anything is left of it behind the op code, the string
begins with a frame and the copy is that frame. -/
theorem Packet.ofBuf_eq_frame {buf : Bytes} {p : Packet} (h : Packet.ofBuf buf = .ok p)
    {b : UInt8} {q : Bytes} (hq : reach p.payload (Packet.payloadOff + 1) = .ok (b :: q)) :
    ∃ op tail, (op :: b :: q).length + 4 < 2 ^ 32 ∧ buf = frame (op :: b :: q) ++ tail ∧
      p = packetOf (op :: b :: q) := by
  obtain ⟨⟨n, rest⟩, hn, h⟩ := bind_eq_ok.1 h
  obtain ⟨⟨copy, tail⟩, hcopy, h⟩ := bind_eq_ok.1 h
  cases h
  obtain ⟨hlt, rfl⟩ := readLE_eq_ok.1 hn
  obtain ⟨hlen, hbuf⟩ := readN_eq_ok.1 hcopy
  obtain hq : copy.drop 5 = b :: q := by simpa [reach, Packet.payloadOff] using hq
  have hlong : 5 < copy.length := by
    have := congrArg List.length hq
    simp only [List.length_drop, List.length_cons] at this
    omega
  -- a wrapped `payload_size_ + 4` is at most 3, so the copy would be shorter
  have hwrap : n + 4 < 2 ^ 32 := by
    unfold toUInt32 at hlen
    omega
  rw [toUInt32_of_lt hwrap] at hlen
  obtain ⟨payload, rfl⟩ : ∃ payload, copy = toLE 4 n ++ payload := by
    refine ⟨copy.drop 4, ?_⟩
    have htake : copy.take 4 = toLE 4 n := by
      have := congrArg (List.take 4) hbuf
      rw [List.take_left' (by simp), List.take_append_of_le_length (by omega)] at this
      exact this.symm
    rw [← htake, List.take_append_drop]
  have hpay : payload.length = n := by simpa [Nat.add_comm] using hlen
  subst hpay
  cases payload with
  | nil => simp at hlong
  | cons op payload =>
    obtain rfl : payload = b :: q := by
      have h5 := frame_drop_five op payload []
      rw [List.append_nil, List.append_nil] at h5
      exact h5.symm.trans hq
    exact ⟨op, tail, hwrap, by rw [hbuf, frame], rfl⟩

/-- A class whose constructor reads the op code and something behind it: `fields` returns on
no empty string, so the constructor returns exactly on frames. -/
theorem ofBuf_bind_eq_ok {α : Type} (fields : Packet → Bytes → Except Fault α)
    (hnil : ∀ p a, fields p [] ≠ .ok a) {buf : Bytes} {a : α} :
    (Packet.ofBuf buf >>= fun p => reach p.payload (Packet.payloadOff + 1) >>= fields p) = .ok a ↔
      ∃ op body tail, body.length + 5 < 2 ^ 32 ∧ buf = frame (op :: body) ++ tail ∧
        fields (packetOf (op :: body)) body = .ok a := by
  have hreach : ∀ op body, reach (packetOf (op :: body)).payload (Packet.payloadOff + 1) =
      .ok body := by
    intro op body
    have h := frame_drop_five op body []
    rw [List.append_nil, List.append_nil] at h
    exact congrArg Except.ok h
  constructor
  · intro h
    obtain ⟨p, hp, h⟩ := bind_eq_ok.1 h
    obtain ⟨q, hq, h⟩ := bind_eq_ok.1 h
    cases q with
    | nil => exact absurd h (hnil p a)
    | cons b q =>
      obtain ⟨op, tail, hlt, rfl, rfl⟩ := Packet.ofBuf_eq_frame hp hq
      exact ⟨op, b :: q, tail, by simpa using hlt, rfl, h⟩
  · rintro ⟨op, body, tail, hlt, rfl, h⟩
    rw [Packet.ofBuf_frame (by simpa using hlt)]
    show reach (packetOf (op :: body)).payload _ >>= _ = _
    rw [hreach]
    exact h

/-! ## Commands -/

/-- What `StringPacket.ofBuf` reads behind the op code. -/
def StringPacket.fields (p : Packet) (body : Bytes) : Except Fault StringPacket := do
  let (str, _) ← readSlice body
  return { toPacket := p, str }

theorem StringPacket.ofBuf_eq_ok {buf : Bytes} {q : StringPacket} :
    StringPacket.ofBuf buf = .ok q ↔
      ∃ op str slack tail, (strCodec.write str ++ slack).length + 5 < 2 ^ 32 ∧
        buf = frame (op :: (strCodec.write str ++ slack)) ++ tail ∧
        q = ⟨packetOf (op :: (strCodec.write str ++ slack)),
              ⟨some (str ++ slack), str.length⟩⟩ := by
  refine (ofBuf_bind_eq_ok StringPacket.fields ?_).trans ?_
  · rintro p a h
    cases h
  · constructor
    · rintro ⟨op, body, tail, hlt, rfl, h⟩
      obtain ⟨⟨s, slack⟩, hs, h⟩ := bind_eq_ok.1 h
      cases h
      obtain ⟨str, -, rfl, rfl⟩ := readSlice_eq_ok.1 hs
      exact ⟨op, str, slack, tail, hlt, rfl, rfl⟩
    · rintro ⟨op, str, slack, tail, hlt, rfl, rfl⟩
      have hstr : str.length < 2 ^ 32 := by simp at hlt; omega
      refine ⟨op, _, tail, hlt, rfl, ?_⟩
      unfold fields
      rw [readSlice_write hstr]
      rfl

/-- What `PutPacket.ofBuf` reads behind the op code. -/
def PutPacket.fields (p : Packet) (body : Bytes) : Except Fault PutPacket := do
  let (key, rest) ← readSlice body
  let (value, _) ← readSlice rest
  return { toPacket := p, key, value }

theorem PutPacket.ofBuf_eq_ok {buf : Bytes} {q : PutPacket} :
    PutPacket.ofBuf buf = .ok q ↔
      ∃ op key value slack tail,
        (strCodec.write key ++ (strCodec.write value ++ slack)).length + 5 < 2 ^ 32 ∧
        buf = frame (op :: (strCodec.write key ++ (strCodec.write value ++ slack))) ++ tail ∧
        q = ⟨packetOf (op :: (strCodec.write key ++ (strCodec.write value ++ slack))),
              ⟨some (key ++ (strCodec.write value ++ slack)), key.length⟩,
              ⟨some (value ++ slack), value.length⟩⟩ := by
  refine (ofBuf_bind_eq_ok PutPacket.fields ?_).trans ?_
  · rintro p a h
    cases h
  · constructor
    · rintro ⟨op, body, tail, hlt, rfl, h⟩
      obtain ⟨⟨ks, rest⟩, hks, h⟩ := bind_eq_ok.1 h
      obtain ⟨⟨vs, slack⟩, hvs, h⟩ := bind_eq_ok.1 h
      cases h
      obtain ⟨key, -, rfl, rfl⟩ := readSlice_eq_ok.1 hks
      obtain ⟨value, -, rfl, rfl⟩ := readSlice_eq_ok.1 hvs
      exact ⟨op, key, value, slack, tail, hlt, rfl, rfl⟩
    · rintro ⟨op, key, value, slack, tail, hlt, rfl, rfl⟩
      have hkv : key.length < 2 ^ 32 ∧ value.length < 2 ^ 32 := by
        simp at hlt
        omega
      refine ⟨op, _, tail, hlt, rfl, ?_⟩
      unfold fields
      rw [readSlice_write hkv.1]
      simp only [ok_bind]
      rw [readSlice_write hkv.2]
      rfl

/-- The decoding constructor of the class with the op code `op`. -/
def decodeCommandAs (op : OpCode) (buf : Bytes) : Except Fault CommandPacket :=
  match op with
  | .kGet => do return .get (← GetPacket.ofBuf buf)
  | .kPut => do return .put (← PutPacket.ofBuf buf)
  | .kDelete => do return .delete (← DeletePacket.ofBuf buf)
  | .kGetAll => do return .getAll (← GetAllPacket.ofBuf buf)

theorem decodeCommandAs_sound {op : OpCode} {buf : Bytes} {q : CommandPacket}
    (h : decodeCommandAs op buf = .ok q) :
    q.command.op = op ∧ ∃ b slack tail, (q.command.body ++ slack).length + 5 < 2 ^ 32 ∧
      buf = frame (b :: (q.command.body ++ slack)) ++ tail := by
  cases op with
  | kPut =>
    obtain ⟨p, hp, h⟩ := bind_eq_ok.1 h
    cases h
    obtain ⟨b, key, value, slack, tail, hlt, rfl, rfl⟩ := PutPacket.ofBuf_eq_ok.1 hp
    refine ⟨rfl, b, slack, tail, ?_⟩
    simp only [CommandPacket.command, Command.body, Slice.toStr_mk, List.append_assoc]
    exact ⟨hlt, trivial⟩
  | _ =>
    obtain ⟨p, hp, h⟩ := bind_eq_ok.1 h
    cases h
    obtain ⟨b, str, slack, tail, hlt, rfl, rfl⟩ := StringPacket.ofBuf_eq_ok.1 hp
    refine ⟨rfl, b, slack, tail, ?_⟩
    simp only [CommandPacket.command, Command.body, Slice.toStr_mk]
    exact ⟨hlt, trivial⟩

theorem decodeCommandAs_complete (c : Command) (b : UInt8) {slack : Bytes} (tail : Bytes)
    (h : (c.body ++ slack).length + 5 < 2 ^ 32) :
    ∃ q, decodeCommandAs c.op (frame (b :: (c.body ++ slack)) ++ tail) = .ok q ∧
      q.command = c ∧ q.toPacket = packetOf (b :: (c.body ++ slack)) := by
  have string : ∀ str, (strCodec.write str ++ slack).length + 5 < 2 ^ 32 →
      StringPacket.ofBuf (frame (b :: (strCodec.write str ++ slack)) ++ tail) =
        .ok ⟨packetOf (b :: (strCodec.write str ++ slack)), ⟨some (str ++ slack), str.length⟩⟩ :=
    fun str h => StringPacket.ofBuf_eq_ok.2 ⟨b, str, slack, tail, h, rfl, rfl⟩
  cases c with
  | put key value =>
    simp only [Command.body, List.append_assoc] at h ⊢
    have hp := PutPacket.ofBuf_eq_ok.2 ⟨b, key, value, slack, tail, h, rfl, rfl⟩
    exact ⟨.put _, by simp only [decodeCommandAs, Command.op, hp]; rfl,
      by simp [CommandPacket.command], rfl⟩
  | get key =>
    have hp := string key h
    exact ⟨.get _, by simp only [decodeCommandAs, Command.op, Command.body, GetPacket.ofBuf, hp]; rfl,
      by simp [CommandPacket.command], rfl⟩
  | delete key =>
    have hp := string key h
    exact ⟨.delete _,
      by simp only [decodeCommandAs, Command.op, Command.body, DeletePacket.ofBuf, hp]; rfl,
      by simp [CommandPacket.command], rfl⟩
  | getAll keyPrefix =>
    have hp := string keyPrefix h
    exact ⟨.getAll _,
      by simp only [decodeCommandAs, Command.op, Command.body, GetAllPacket.ofBuf, hp]; rfl,
      by simp [CommandPacket.command], rfl⟩

/-! ## Responses -/

/-- The object `ResponsePacket(const char *)` makes of a frame with the status `s`. -/
def responseOf (op : UInt8) (s : Status) (rest : Bytes) : ResponsePacket :=
  ⟨packetOf (op :: (s.write ++ rest)), s, 6 + s.message.length⟩

/-- What `ParseStatus` reads behind the op code. -/
def ResponsePacket.fields (p : Packet) (body : Bytes) : Except Fault ResponsePacket := do
  let (scode, payload) ← Codec.byte.read body
  let (messageSize, payload) ← readLE 4 payload
  let (message, _) ← readN messageSize payload
  return ⟨p, ⟨Code.ofByte scode, message⟩, toUInt32 (6 + messageSize)⟩

theorem ResponsePacket.ofBuf_eq_ok {buf : Bytes} {r : ResponsePacket} :
    ResponsePacket.ofBuf buf = .ok r ↔
      ∃ op s rest tail, (s.write ++ rest).length + 5 < 2 ^ 32 ∧
        buf = frame (op :: (s.write ++ rest)) ++ tail ∧ r = responseOf op s rest := by
  refine (ofBuf_bind_eq_ok ResponsePacket.fields ?_).trans ?_
  · rintro p a h
    cases h
  · constructor
    · rintro ⟨op, body, tail, hlt, rfl, h⟩
      obtain ⟨⟨scode, payload⟩, hcode, h⟩ := bind_eq_ok.1 h
      obtain ⟨⟨messageSize, payload'⟩, hsize, h⟩ := bind_eq_ok.1 h
      obtain ⟨⟨message, rest⟩, hmessage, h⟩ := bind_eq_ok.1 h
      cases h
      obtain ⟨-, rfl⟩ := (Codec.byte.read_eq_ok _ _ _).1 hcode
      obtain ⟨-, rfl⟩ := readLE_eq_ok.1 hsize
      obtain ⟨rfl, rfl⟩ := readN_eq_ok.1 hmessage
      have hbody : Codec.byte.write scode ++ (toLE 4 message.length ++ (message ++ rest)) =
          Status.write ⟨Code.ofByte scode, message⟩ ++ rest := by
        simp [Status.write, Codec.byte, strCodec_write]
      rw [hbody] at hlt ⊢
      have hmsg : 6 + message.length < 2 ^ 32 := by
        simp at hlt
        omega
      refine ⟨op, ⟨Code.ofByte scode, message⟩, rest, tail, hlt, rfl, ?_⟩
      rw [responseOf, toUInt32_of_lt hmsg]
    · rintro ⟨op, s, rest, tail, hlt, rfl, rfl⟩
      have hmsg : 6 + s.message.length < 2 ^ 32 := by
        simp at hlt
        omega
      refine ⟨op, _, tail, hlt, rfl, ?_⟩
      have hbody : s.write ++ rest =
          Codec.byte.write s.code.toByte ++ (toLE 4 s.message.length ++ (s.message ++ rest)) := by
        simp [Status.write, Codec.byte, strCodec_write]
      refine bind_eq_ok.2 ⟨(s.code.toByte, toLE 4 s.message.length ++ (s.message ++ rest)),
        (Codec.byte.read_eq_ok _ _ _).2 ⟨trivial, hbody⟩, ?_⟩
      refine bind_eq_ok.2 ⟨(s.message.length, s.message ++ rest),
        readLE_eq_ok.2 ⟨by omega, rfl⟩, ?_⟩
      refine bind_eq_ok.2 ⟨(s.message, rest), readN_eq_ok.2 ⟨rfl, rfl⟩, ?_⟩
      simp only [Code.ofByte_toByte, toUInt32_of_lt hmsg]
      rfl

/-- The body of a response starts where its status ends. -/
theorem responseOf_reach (op : UInt8) (s : Status) (rest : Bytes) :
    reach (responseOf op s rest).payload (responseOf op s rest).payloadOff = .ok rest := by
  have h := frame_drop_five op (s.write ++ rest) []
  rw [List.append_nil, List.append_nil] at h
  have hoff : (responseOf op s rest).payloadOff = 5 + s.write.length := by
    simp only [ResponsePacket.payloadOff, responseOf, Packet.payloadOff, Status.write_length]
    omega
  show Except.ok (List.drop _ _) = _
  rw [hoff, ← List.drop_drop]
  show Except.ok (List.drop _ (List.drop 5 (frame (op :: (s.write ++ rest))))) = _
  rw [h, List.drop_left]

/-- The decoding constructor of the class with the op code `op`. -/
def decodeResponseAs (op : OpCode) (buf : Bytes) : Except Fault AnyResponse :=
  match op with
  | .kGet => do return .get (← GetResponsePacket.ofBuf buf)
  | .kPut => do return .put (← PutResponsePacket.ofBuf buf)
  | .kDelete => do return .delete (← DeleteResponsePacket.ofBuf buf)
  | .kGetAll => do return .getAll (← GetAllResponsePacket.ofBuf buf)

/-- The op code of a response's class. -/
def Response.classOp : Response → OpCode
  | .get _ _ => .kGet
  | .put _ => .kPut
  | .delete _ => .kDelete
  | .getAll _ _ => .kGetAll

theorem decodeResponseAs_sound {op : OpCode} {buf : Bytes} {q : AnyResponse}
    (h : decodeResponseAs op buf = .ok q) :
    q.response.classOp = op ∧ ∃ b slack tail,
      (q.response.status.write ++ (q.response.body ++ slack)).length + 5 < 2 ^ 32 ∧
      buf = frame (b :: (q.response.status.write ++ (q.response.body ++ slack))) ++ tail := by
  cases op with
  | kGet =>
    obtain ⟨p, hp, h⟩ := bind_eq_ok.1 h
    cases h
    obtain ⟨r, hr, hp⟩ := bind_eq_ok.1 hp
    obtain ⟨body, hbody, hp⟩ := bind_eq_ok.1 hp
    obtain ⟨⟨value, slack⟩, hvalue, hp⟩ := bind_eq_ok.1 hp
    cases hp
    obtain ⟨b, s, rest, tail, hlt, rfl, rfl⟩ := ResponsePacket.ofBuf_eq_ok.1 hr
    rw [responseOf_reach] at hbody
    cases hbody
    obtain ⟨str, -, rfl, rfl⟩ := readSlice_eq_ok.1 hvalue
    refine ⟨rfl, b, slack, tail, ?_⟩
    simp only [AnyResponse.response, Response.body, Response.status, Slice.toStr_mk, responseOf]
    exact ⟨hlt, trivial⟩
  | kPut =>
    obtain ⟨p, hp, h⟩ := bind_eq_ok.1 h
    cases h
    obtain ⟨b, s, slack, tail, hlt, rfl, rfl⟩ := ResponsePacket.ofBuf_eq_ok.1 hp
    exact ⟨rfl, b, slack, tail, hlt, rfl⟩
  | kDelete =>
    obtain ⟨p, hp, h⟩ := bind_eq_ok.1 h
    cases h
    obtain ⟨b, s, slack, tail, hlt, rfl, rfl⟩ := ResponsePacket.ofBuf_eq_ok.1 hp
    exact ⟨rfl, b, slack, tail, hlt, rfl⟩
  | kGetAll =>
    obtain ⟨p, hp, h⟩ := bind_eq_ok.1 h
    cases h
    obtain ⟨r, hr, hp⟩ := bind_eq_ok.1 hp
    obtain ⟨body, hbody, hp⟩ := bind_eq_ok.1 hp
    obtain ⟨⟨n, rest⟩, hn, hp⟩ := bind_eq_ok.1 hp
    obtain ⟨⟨slices, slack⟩, hslices, hp⟩ := bind_eq_ok.1 hp
    cases hp
    obtain ⟨b, s, rest', tail, hlt, rfl, rfl⟩ := ResponsePacket.ofBuf_eq_ok.1 hr
    rw [responseOf_reach] at hbody
    cases hbody
    obtain ⟨-, rfl⟩ := readKeys_iff.1 ⟨n, rest, slices, hn, hslices, rfl⟩
    exact ⟨rfl, b, slack, tail, hlt, rfl⟩

theorem decodeResponseAs_complete (r : Response) (b : UInt8) {slack : Bytes} (tail : Bytes)
    (h : (r.status.write ++ (r.body ++ slack)).length + 5 < 2 ^ 32) :
    ∃ q, decodeResponseAs r.classOp (frame (b :: (r.status.write ++ (r.body ++ slack))) ++ tail) =
        .ok q ∧ q.response = r ∧
      q.toResponsePacket.toPacket = packetOf (b :: (r.status.write ++ (r.body ++ slack))) := by
  have hbase := ResponsePacket.ofBuf_eq_ok.2 ⟨b, r.status, r.body ++ slack, tail, h, rfl, rfl⟩
  have hlen : r.body.length < 2 ^ 32 := by
    simp at h
    omega
  cases r with
  | get s value =>
    refine ⟨.get ⟨responseOf b s (strCodec.write value ++ slack),
      ⟨some (value ++ slack), value.length⟩⟩, ?_, ?_, rfl⟩
    · refine bind_eq_ok.2 ⟨_, ?_, rfl⟩
      refine bind_eq_ok.2 ⟨_, hbase, ?_⟩
      refine bind_eq_ok.2 ⟨_, responseOf_reach _ _ _, ?_⟩
      have hvalue : value.length < 2 ^ 32 := by
        simp [Response.body] at hlen
        omega
      exact bind_eq_ok.2 ⟨_, readSlice_write hvalue slack, rfl⟩
    · simp [AnyResponse.response, responseOf]
  | put s => exact ⟨.put _, bind_eq_ok.2 ⟨_, hbase, rfl⟩, rfl, rfl⟩
  | delete s => exact ⟨.delete _, bind_eq_ok.2 ⟨_, hbase, rfl⟩, rfl, rfl⟩
  | getAll s keys =>
    obtain ⟨n, q, slices, hn, hslices, hstr⟩ := readKeys_iff.2
      ⟨keysCodec_valid hlen, (rfl : keysCodec.write keys ++ slack = _)⟩
    refine ⟨.getAll ⟨responseOf b s (keysCodec.write keys ++ slack), slices⟩, ?_, ?_, rfl⟩
    · refine bind_eq_ok.2 ⟨_, ?_, rfl⟩
      refine bind_eq_ok.2 ⟨_, hbase, ?_⟩
      refine bind_eq_ok.2 ⟨_, responseOf_reach _ _ _, ?_⟩
      refine bind_eq_ok.2 ⟨_, hn, ?_⟩
      exact bind_eq_ok.2 ⟨_, hslices, rfl⟩
    · simp [AnyResponse.response, responseOf, hstr]

/-! ## The factories -/

theorem OpCode.ofByte?_eq_some {b : UInt8} {op : OpCode} :
    OpCode.ofByte? b = some op ↔ b = op.toByte := by
  unfold OpCode.ofByte?
  constructor
  · intro h
    split at h
    · next hb => cases h; exact hb
    · split at h
      · next hb => cases h; exact hb
      · split at h
        · next hb => cases h; exact hb
        · split at h
          · next hb => cases h; exact hb
          · cases h
  · rintro rfl
    cases op <;> rfl

/-- What both factories do: look at the op code, then leave the string to the constructor of
its class. -/
def dispatch {α : Type} (decodeAs : OpCode → Bytes → Except Fault α) (buf : Bytes) :
    Except Fault (Option α) := do
  let (b, _) ← Codec.byte.read (buf.drop 4)
  match OpCode.ofByte? b with
  | some op => return some (← decodeAs op buf)
  | none => return none

theorem createCommandPacket_eq (buf : Bytes) :
    createCommandPacket buf = dispatch decodeCommandAs buf := by
  unfold createCommandPacket dispatch
  congr 1
  funext ⟨b, rest⟩
  dsimp only
  generalize OpCode.ofByte? b = op
  rcases op with _ | op
  · rfl
  · cases op <;> simp only [decodeCommandAs, bind_assoc, pure_bind]

theorem createResponsePacket_eq (buf : Bytes) :
    createResponsePacket buf = dispatch decodeResponseAs buf := by
  unfold createResponsePacket dispatch
  congr 1
  funext ⟨b, rest⟩
  dsimp only
  generalize OpCode.ofByte? b = op
  rcases op with _ | op
  · rfl
  · cases op <;> simp only [decodeResponseAs, bind_assoc, pure_bind]

theorem dispatch_eq_ok {α : Type} {decodeAs : OpCode → Bytes → Except Fault α} {buf : Bytes}
    {r : Option α} :
    dispatch decodeAs buf = .ok r ↔
      ∃ b rest, buf.drop 4 = b :: rest ∧
        ((OpCode.ofByte? b = none ∧ r = none) ∨
          ∃ op q, b = op.toByte ∧ decodeAs op buf = .ok q ∧ r = some q) := by
  unfold dispatch
  rw [bind_eq_ok]
  constructor
  · rintro ⟨⟨b, rest⟩, hb, h⟩
    obtain ⟨-, hb⟩ := (Codec.byte.read_eq_ok _ _ _).1 hb
    refine ⟨b, rest, hb, ?_⟩
    rcases hop : OpCode.ofByte? b with _ | op
    · simp only [hop] at h
      cases h
      exact .inl ⟨rfl, rfl⟩
    · simp only [hop] at h
      obtain ⟨q, hq, h⟩ := bind_eq_ok.1 h
      cases h
      exact .inr ⟨op, q, OpCode.ofByte?_eq_some.1 hop, hq, rfl⟩
  · rintro ⟨b, rest, hb, h⟩
    refine ⟨(b, rest), (Codec.byte.read_eq_ok _ _ _).2 ⟨trivial, hb⟩, ?_⟩
    rcases h with ⟨hop, rfl⟩ | ⟨op, q, hb, hq, rfl⟩
    · simp only [hop]
      rfl
    · simp only [OpCode.ofByte?_eq_some.2 hb]
      exact bind_eq_ok.2 ⟨q, hq, rfl⟩

/-- The byte at offset 4 of a frame is its op code. -/
theorem dispatch_frame {α : Type} {decodeAs : OpCode → Bytes → Except Fault α} {op : OpCode}
    {body tail : Bytes} {q : α} (h : decodeAs op (frame (op.toByte :: body) ++ tail) = .ok q) :
    dispatch decodeAs (frame (op.toByte :: body) ++ tail) = .ok (some q) :=
  dispatch_eq_ok.2 ⟨op.toByte, body ++ tail, frame_drop_four_cons _ _ _,
    .inr ⟨op, q, rfl, h, rfl⟩⟩

/-! ## Round trips -/

/-- What `CreateCommandPacket` makes of a string that begins with the encoding of `c`. -/
theorem createCommandPacket_encoding (c : Command) (hsize : c.encoding.length < 2 ^ 32)
    (tail : Bytes) :
    ∃ q, createCommandPacket (c.encoding ++ tail) = .ok (some q) ∧ q.command = c ∧
      q.toPacket = packetOf c.payload := by
  have hlt : (c.body ++ []).length + 5 < 2 ^ 32 := by
    rw [c.encoding_length, Command.payload] at hsize
    simp at hsize ⊢
    omega
  obtain ⟨q, hq, hc, hp⟩ := decodeCommandAs_complete c c.op.toByte tail hlt
  rw [List.append_nil] at hq hp
  refine ⟨q, ?_, hc, hp⟩
  rw [createCommandPacket_eq]
  exact dispatch_frame hq

theorem CommandPacket.command_op (q : CommandPacket) : q.command.op = q.getOp := by
  cases q <;> rfl

/-- **Commands round trip.**  On the packet a constructor wrote into a buffer with room,
whatever follows it, the factory returns a packet with the op and the contents of the
command, and `ToBinary()` of this packet is what the constructor wrote. -/
theorem command_roundTrip (c : Command) (b : Block) (hsize : c.encoding.length < 2 ^ 32)
    (hroom : c.encoding.length ≤ b.bytes.length) :
    ∃ p out encoded, c.encode (some b) = .ok (p, some out) ∧
      encoded = out.bytes.take (p.toPacket.payloadSize + 4) ∧
      encoded.length = c.encoding.length ∧
      ∀ tail, ∃ q, createCommandPacket (encoded ++ tail) = .ok (some q) ∧
        q.getOp = c.op ∧ q.command = c ∧ q.toPacket.toBinary.Denotes encoded := by
  obtain ⟨p, hp, hsz, -⟩ := Command.encode_block hsize hroom
  have hlen := c.encoding_length
  refine ⟨p, _, c.encoding, hp, ?_, rfl, ?_⟩
  · rw [hsz]
    exact (List.take_left' (by rw [hlen, Nat.add_comm])).symm
  · intro tail
    obtain ⟨q, hq, hc, hpk⟩ := createCommandPacket_encoding c hsize tail
    refine ⟨q, hq, by rw [← hc, q.command_op], hc, ?_⟩
    rw [hpk]
    exact packetOf_toBinary (by omega)

/-- A Put of an empty value, into a buffer two bytes too long. -/
theorem command_roundTrip_put :
    (Command.put [116, 95, 49] []).encoding.length < 2 ^ 32 ∧
      ∃ p out encoded, (Command.put [116, 95, 49] []).encode
          (some { bytes := List.replicate 18 255 }) = .ok (p, some out) ∧
        encoded = out.bytes.take (p.toPacket.payloadSize + 4) ∧
        encoded.length = (Command.put [116, 95, 49] []).encoding.length ∧
        ∀ tail, ∃ q, createCommandPacket (encoded ++ tail) = .ok (some q) ∧
          q.getOp = .kPut ∧ q.command = .put [116, 95, 49] [] ∧
          q.toPacket.toBinary.Denotes encoded :=
  ⟨by decide, command_roundTrip (.put [116, 95, 49] []) _ (by decide) (by decide)⟩

/-- The servers answer GetAll with `Status::Ok()` only. -/
def Response.FromServer : Response → Prop
  | .getAll s _ => s = .Ok
  | _ => True

/-- What the constructor of a server's response announces covers what it writes. -/
theorem Response.FromServer.payload_le {r : Response} (h : r.FromServer) :
    r.payload.length ≤ r.announced := by
  by_cases hop : r.wireOp = .kGetAll
  · cases r with
    | getAll s keys =>
      have hsum := Response.announced_getAll s keys
      obtain rfl : s = .Ok := h
      have hok : Status.Ok.message.length = 2 := rfl
      omega
    | _ => cases hop
  · exact Nat.le_of_eq (Response.announced_eq hop).symm

/-- The buffer behind an encoded response, cut where the announced payload ends. -/
theorem Response.encoding_append {r : Response} (h : r.payload.length ≤ r.announced) {rest : Bytes}
    (hrest : r.announced - r.payload.length ≤ rest.length) :
    ∃ slack tail, (r.payload ++ slack).length = r.announced ∧
      r.encoding ++ rest = frame (r.payload ++ slack) ++ tail := by
  have hcut : (rest.take (r.announced - r.payload.length)).length =
      r.announced - r.payload.length := by
    rw [List.length_take]
    omega
  have hlen : (r.payload ++ rest.take (r.announced - r.payload.length)).length = r.announced := by
    rw [List.length_append, hcut]
    omega
  refine ⟨rest.take (r.announced - r.payload.length), rest.drop (r.announced - r.payload.length),
    hlen, ?_⟩
  rw [frame, hlen, Response.encoding]
  simp only [List.append_assoc, List.take_append_drop]

/-- What the decoding constructor of its class makes of a response in its buffer. -/
theorem decodeResponseAs_encoding (r : Response) (hcover : r.payload.length ≤ r.announced)
    (hsize : r.announced + 4 < 2 ^ 32) {rest : Bytes}
    (hrest : r.announced - r.payload.length ≤ rest.length) :
    ∃ q, decodeResponseAs r.classOp (r.encoding ++ rest) = .ok q ∧ q.response = r := by
  obtain ⟨slack, tail, hslack, hbuf⟩ := r.encoding_append hcover hrest
  have hlt : (r.status.write ++ (r.body ++ slack)).length + 5 < 2 ^ 32 := by
    have : (r.payload ++ slack).length = (r.status.write ++ (r.body ++ slack)).length + 1 := by
      simp [Response.payload]
    omega
  obtain ⟨q, hq, hr, -⟩ := decodeResponseAs_complete r r.wireOp.toByte tail hlt
  refine ⟨q, ?_, hr⟩
  rw [hbuf, ← hq]
  simp [Response.payload]

/-- **Responses round trip.**  The decoding constructor of the class recovers the contents
from the buffer a server's response was built in, also where the announced payload is longer
than what was written. -/
theorem response_roundTrip (r : Response) (b : Block) (hserver : r.FromServer)
    (hsize : r.announced + 4 < 2 ^ 32) (hroom : r.announced + 4 ≤ b.bytes.length) :
    ∃ p out, r.encode (some b) = .ok (p, some out) ∧
      ∃ q, decodeResponseAs r.classOp out.bytes = .ok q ∧ q.response = r := by
  have hle := hserver.payload_le
  have hlen := r.encoding_length
  obtain ⟨p, hp, -, -⟩ := Response.encode_block (r := r) (b := b) (by omega) (by omega)
  have hrest : r.announced - r.payload.length ≤ (b.bytes.drop r.encoding.length).length := by
    rw [List.length_drop]
    omega
  exact ⟨p, _, hp, decodeResponseAs_encoding r hle hsize hrest⟩

/-- Two keys, one empty, in a buffer of the announced size. -/
theorem response_roundTrip_getAll :
    ∃ p out, (Response.getAll .Ok [[97], []]).encode
        (some { bytes := List.replicate 27 255 }) = .ok (p, some out) ∧
      ∃ q, decodeResponseAs .kGetAll out.bytes = .ok q ∧
        q.response = .getAll .Ok [[97], []] :=
  response_roundTrip (.getAll .Ok [[97], []]) _ rfl (by decide) (by decide)

/-- What `CreateResponsePacket` makes of a response in its buffer: the class is that of the op
code. -/
theorem createResponsePacket_encoding (r : Response) (hcover : r.payload.length ≤ r.announced)
    (hsize : r.announced + 4 < 2 ^ 32) {rest : Bytes}
    (hrest : r.announced - r.payload.length ≤ rest.length) :
    ∃ q, createResponsePacket (r.encoding ++ rest) = .ok (some q) ∧ q.response = r.decoded := by
  obtain ⟨slack, tail, hslack, hbuf⟩ := r.encoding_append hcover hrest
  have hop : r.decoded.classOp = r.wireOp := by cases r <;> rfl
  have hstatus : r.decoded.status = r.status := by cases r <;> rfl
  have hbody : r.decoded.body = r.body := by cases r <;> rfl
  have hlt : (r.decoded.status.write ++ (r.decoded.body ++ slack)).length + 5 < 2 ^ 32 := by
    have : (r.payload ++ slack).length = (r.status.write ++ (r.body ++ slack)).length + 1 := by
      simp [Response.payload]
    rw [hstatus, hbody]
    omega
  obtain ⟨q, hq, hr, -⟩ := decodeResponseAs_complete r.decoded r.wireOp.toByte tail hlt
  refine ⟨q, ?_, hr⟩
  rw [hop, hstatus, hbody] at hq
  rw [hbuf, createResponsePacket_eq, Response.payload, List.cons_append, List.append_assoc]
  exact dispatch_frame hq

/-! ## Reading inside what was received -/

/-- `s` names no class of packet. -/
def UnknownOp (s : Bytes) : Prop :=
  ∃ b rest, s.drop 4 = b :: rest ∧ OpCode.ofByte? b = none

/-- `s` names no class, or it begins with a frame whose payload begins with that of a command. -/
def CommandFits (s : Bytes) : Prop :=
  UnknownOp s ∨ ∃ (c : Command) (slack tail : Bytes), (c.payload ++ slack).length + 4 < 2 ^ 32 ∧
    s = frame (c.payload ++ slack) ++ tail

/-- The payload of a response under the op code of its own class. -/
def Response.payloadAs (r : Response) : Bytes := r.classOp.toByte :: (r.status.write ++ r.body)

/-- `s` names no class, or it begins with a frame whose payload begins with that of a response. -/
def ResponseFits (s : Bytes) : Prop :=
  UnknownOp s ∨ ∃ (r : Response) (slack tail : Bytes),
    (r.payloadAs ++ slack).length + 4 < 2 ^ 32 ∧ s = frame (r.payloadAs ++ slack) ++ tail

/-- A factory reads nothing outside the string and its copy: it reports failure with a null
pointer, or returns an object whose `payload_size_ + 4` did not wrap. -/
def InBounds {α : Type} (packet : α → Packet) (run : Except Fault (Option α)) : Prop :=
  run = .ok none ∨ ∃ q, run = .ok (some q) ∧ (packet q).payloadSize + 4 < 2 ^ 32

/-- A factory stays inside the string exactly when the class the string names does. -/
theorem dispatch_inBounds {α : Type} {packet : α → Packet} {decodeAs : OpCode → Bytes → Except Fault α}
    {s : Bytes} :
    InBounds packet (dispatch decodeAs s) ↔
      UnknownOp s ∨ ∃ op q rest, s.drop 4 = op.toByte :: rest ∧ decodeAs op s = .ok q ∧
        (packet q).payloadSize + 4 < 2 ^ 32 := by
  constructor
  · rintro (h | ⟨q, h, hsize⟩)
    · obtain ⟨b, rest, hb, ⟨hop, -⟩ | ⟨op, q, -, -, hq⟩⟩ := dispatch_eq_ok.1 h
      · exact .inl ⟨b, rest, hb, hop⟩
      · cases hq
    · obtain ⟨b, rest, hb, ⟨-, hq⟩ | ⟨op, q', hop, hq, hsome⟩⟩ := dispatch_eq_ok.1 h
      · cases hq
      · cases hsome
        exact .inr ⟨op, q, rest, by rw [hb, hop], hq, hsize⟩
  · rintro (⟨b, rest, hb, hop⟩ | ⟨op, q, rest, hb, hq, hsize⟩)
    · exact .inl (dispatch_eq_ok.2 ⟨b, rest, hb, .inl ⟨hop, rfl⟩⟩)
    · exact .inr ⟨q, dispatch_eq_ok.2 ⟨op.toByte, rest, hb, .inr ⟨op, q, rfl, hq, rfl⟩⟩, hsize⟩

theorem createCommandPacket_inBounds (s : Bytes) :
    InBounds CommandPacket.toPacket (createCommandPacket s) ↔ CommandFits s := by
  rw [createCommandPacket_eq, dispatch_inBounds, CommandFits]
  refine or_congr_right ?_
  constructor
  · rintro ⟨op, q, rest, hs, hq, -⟩
    obtain ⟨hop, b, slack, tail, hlt, rfl⟩ := decodeCommandAs_sound hq
    rw [frame_drop_four_cons] at hs
    obtain ⟨rfl, -⟩ := List.cons.inj hs
    refine ⟨q.command, slack, tail, ?_, by rw [Command.payload, hop]; rfl⟩
    simp [Command.payload] at hlt ⊢
    omega
  · rintro ⟨c, slack, tail, hlt, rfl⟩
    have hlt' : (c.body ++ slack).length + 5 < 2 ^ 32 := by
      simp [Command.payload] at hlt ⊢
      omega
    obtain ⟨q, hq, -, hp⟩ := decodeCommandAs_complete c c.op.toByte tail hlt'
    refine ⟨c.op, q, c.body ++ slack ++ tail, frame_drop_four_cons _ _ _, hq, ?_⟩
    rw [hp]
    exact hlt

theorem createResponsePacket_inBounds (s : Bytes) :
    InBounds (·.toResponsePacket.toPacket) (createResponsePacket s) ↔ ResponseFits s := by
  rw [createResponsePacket_eq, dispatch_inBounds, ResponseFits]
  refine or_congr_right ?_
  have hassoc : ∀ (r : Response) (slack : Bytes),
      r.payloadAs ++ slack = r.classOp.toByte :: (r.status.write ++ (r.body ++ slack)) := by
    intro r slack
    simp [Response.payloadAs]
  constructor
  · rintro ⟨op, q, rest, hs, hq, -⟩
    obtain ⟨hop, b, slack, tail, hlt, rfl⟩ := decodeResponseAs_sound hq
    rw [frame_drop_four_cons] at hs
    obtain ⟨rfl, -⟩ := List.cons.inj hs
    exact ⟨q.response, slack, tail, by rw [hassoc]; exact hlt, by rw [hassoc, hop]⟩
  · rintro ⟨r, slack, tail, hlt, rfl⟩
    rw [hassoc] at hlt ⊢
    obtain ⟨q, hq, -, hp⟩ := decodeResponseAs_complete r r.classOp.toByte tail hlt
    refine ⟨r.classOp, q, _, frame_drop_four_cons _ _ _, hq, ?_⟩
    rw [hp]
    exact hlt

/-- **Which strings the factories read inside.** -/
theorem factories_inBounds_iff (s : Bytes) :
    (InBounds CommandPacket.toPacket (createCommandPacket s) ↔ CommandFits s) ∧
      (InBounds (·.toResponsePacket.toPacket) (createResponsePacket s) ↔ ResponseFits s) :=
  ⟨createCommandPacket_inBounds s, createResponsePacket_inBounds s⟩

end SqpKv
