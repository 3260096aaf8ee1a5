import SqpKv.Protocol.Fresh

/-!
# Sizes of packets beyond 32 bits

`SumSizes` adds in 32 bits, the parameter `payload_size` of the constructors has
32 bits, and so has `payload_size_ + 4`.  Nothing compares the contents with that:

    the payload size and the size of the packet are the true sums
      ↔  the packet has fewer than 2 ^ 32 bytes                  (sizesTrue_iff)

The size an object gets is known from its constructor (`encode_payloadSize`),
and a constructor with enough room does return (`encode_builds`).
-/

namespace SqpKv

open Wire

/-! ## The size field of what a constructor returns -/

theorem Packet.ofSize_payloadSize (n : Nat) (buf : Option Block) :
    Returns (fun p => p.payloadSize = n) (Packet.ofSize n buf) :=
  .andThen fun _ => .pure rfl

theorem ResponsePacket.ofSize_payloadSize (n : Nat) (op : OpCode) (s : Status) (buf : Option Block) :
    Returns (fun r => r.payloadSize = n) (ResponsePacket.ofSize n op s buf) :=
  .bind (Packet.ofSize_payloadSize n buf) fun _ hp =>
    .andThen fun _ => .andThen fun _ => .andThen fun _ => .pure hp

theorem StringPacket.encode_payloadSize (op : OpCode) (str : Bytes) (buf : Option Block) :
    Returns (fun x => x.1.payloadSize = toUInt32 (headerSize + str.length)) (encode op str buf) :=
  .bind (Packet.ofSize_payloadSize _ buf) fun _ hp =>
    .andThen fun _ => .andThen fun _ => .andThen fun _ => .andThen fun _ => .pure hp

theorem encodeStatusOnly_payloadSize (op : OpCode) (s : Status) (buf : Option Block) :
    Returns (fun x => x.1.payloadSize = toUInt32 (ResponsePacket.headerSize + s.message.length))
      (encodeStatusOnly op s buf) :=
  .bind (ResponsePacket.ofSize_payloadSize _ op s buf) fun _ hr => .pure hr

/-- The true size of a payload: what the constructor adds up, without a bound. -/
def Content.sum : Content → Nat
  | .command c => c.payload.length
  | .response r => r.announced

theorem Command.encode_payloadSize (c : Command) (buf : Option Block) :
    Returns (fun x => x.1.toPacket.payloadSize = toUInt32 c.payload.length) (c.encode buf) := by
  have hstr : ∀ str : Bytes, StringPacket.headerSize + str.length = 4 + str.length + 1 := by
    intro str
    simp only [StringPacket.headerSize, Packet.headerSize]
    omega
  cases c with
  | put key value =>
    have hsum : PutPacket.headerSize + key.length + value.length =
        (Command.put key value).payload.length := by
      simp only [PutPacket.headerSize, Packet.headerSize, Command.payload, Command.body,
        List.length_cons, List.length_append, strCodec_write_length]
      omega
    rw [← hsum]
    refine .bind (Q := fun x => x.1.payloadSize = _) ?_ fun _ hp => .pure hp
    exact .bind (Packet.ofSize_payloadSize _ buf) fun _ hp => .andThen fun _ => .andThen fun _ =>
      .andThen fun _ => .andThen fun _ => .andThen fun _ => .andThen fun _ => .pure hp
  | _ str =>
    simp only [Command.payload, Command.body, List.length_cons, strCodec_write_length, ← hstr]
    exact .bind (StringPacket.encode_payloadSize _ str buf) fun _ hp => .pure hp

theorem Response.encode_payloadSize (r : Response) (buf : Option Block) :
    Returns (fun x => x.1.toResponsePacket.payloadSize = toUInt32 r.announced) (r.encode buf) := by
  cases r with
  | get s value =>
    refine .bind (Q := fun x => x.1.payloadSize = _) ?_ fun _ hp => .pure hp
    exact .bind (ResponsePacket.ofSize_payloadSize _ _ s buf) fun _ hp => .andThen fun _ => .pure hp
  | put s => exact .bind (encodeStatusOnly_payloadSize _ s buf) fun _ hp => .pure hp
  | delete s => exact .bind (encodeStatusOnly_payloadSize _ s buf) fun _ hp => .pure hp
  | getAll s keys =>
    have hcut : toUInt32 (GetAllResponsePacket.headerSize + 4 + sumSizes keys) =
        toUInt32 (Response.getAll s keys).announced := by
      rw [sumSizes_eq]
      simp [toUInt32, Response.announced]
    rw [← hcut]
    refine .bind (Q := fun x => x.1.payloadSize = _) ?_ fun _ hp => .pure hp
    exact .bind (ResponsePacket.ofSize_payloadSize _ _ s buf) fun _ hp => .andThen fun _ =>
      .andThen fun _ => .andThen fun _ => .andThen fun _ => .andThen fun _ => .pure hp

theorem Content.encode_payloadSize (c : Content) (buf : Option Block) :
    Returns (fun x => x.1.payloadSize = toUInt32 c.sum) (c.encode buf) := by
  cases c with
  | command c => exact .bind (c.encode_payloadSize buf) fun _ hp => .pure hp
  | response r => exact .bind (r.encode_payloadSize buf) fun _ hp => .pure hp

/-! ## A constructor with enough room returns -/

/-- More than any 32-bit size. -/
def slack : Nat := 2 ^ 80

theorem readLE_of_long {p : Bytes} (h : 4 ≤ p.length) :
    ∃ n data, readLE 4 p = .ok (n, data) ∧ data.length = p.length - 4 := by
  refine ⟨ofLE (p.take 4), p.drop 4, readLE_eq_ok.2 ?_, List.length_drop⟩
  have hlen : (p.take 4).length = 4 := by
    rw [List.length_take]
    omega
  have hlt := ofLE_lt (p.take 4)
  have hback := toLE_ofLE (p.take 4)
  rw [hlen] at hlt hback
  exact ⟨hlt, by rw [hback, List.take_append_drop]⟩

theorem readSlice_of_long {p : Bytes} (h : 4 + 2 ^ 32 ≤ p.length) :
    ∃ s rest, readSlice p = .ok (s, rest) ∧ p.length ≤ rest.length + (4 + 2 ^ 32) := by
  obtain ⟨n, data, hn, hlen⟩ := readLE_of_long (show 4 ≤ p.length by omega)
  obtain ⟨hlt, -⟩ := readLE_eq_ok.1 hn
  have hread : readN n data = .ok (data.take n, data.drop n) :=
    readN_eq_ok.2 ⟨by rw [List.length_take]; omega, (List.take_append_drop n data).symm⟩
  refine ⟨⟨some data, n⟩, data.drop n, ?_, ?_⟩
  · unfold readSlice
    rw [hn]
    simp only [ok_bind, hread]
    rfl
  · rw [List.length_drop]
    omega

theorem readSlices_of_long {n m : Nat} (hm : 4 + 2 ^ 32 ≤ m) {p : Bytes} (h : n * m ≤ p.length) :
    ∃ x, readSlices n p = .ok x := by
  induction n generalizing p with
  | zero => exact ⟨_, rfl⟩
  | succ n ih =>
    rw [Nat.succ_mul] at h
    obtain ⟨s, rest, hs, hlen⟩ := readSlice_of_long (show 4 + 2 ^ 32 ≤ p.length by omega)
    obtain ⟨⟨slices, q⟩, hslices⟩ := ih (show n * m ≤ rest.length by omega)
    refine ⟨(s :: slices, q), ?_⟩
    rw [readSlices, hs]
    simp only [ok_bind, hslices]
    rfl

section

variable {N : Nat} {buf : Option Block} (hbuf : HasRoom N buf)

include hbuf

theorem StringPacket.encode_builds (op : OpCode) (str : Bytes) (h : str.length + slack ≤ N) :
    ∃ x, StringPacket.encode op str buf = .ok x := by
  unfold slack at h
  have hlen : (toLE 4 (5 + str.length) ++ ([op.toByte] ++ strCodec.write str)).length =
      9 + str.length := by
    simp
    omega
  obtain ⟨q, hq, hroom⟩ := hbuf.put (show 0 + (toLE 4 (5 + str.length) ++ ([op.toByte] ++
    strCodec.write str)).length ≤ N by omega)
  obtain ⟨bytes, hbytes, hreach⟩ := hroom.reach 5
  obtain ⟨s, rest, hs, -⟩ := readSlice_of_long (show 4 + 2 ^ 32 ≤ bytes.length by omega)
  rw [StringPacket.encode_eq]
  apply exists_bind_ok hq
  apply exists_bind_ok hbytes
  apply exists_bind_ok hs
  exact ⟨_, rfl⟩

theorem PutPacket.encode_builds (key value : Bytes) (h : key.length + value.length + slack ≤ N) :
    ∃ x, PutPacket.encode key value buf = .ok x := by
  unfold slack at h
  have hlen : (toLE 4 (9 + key.length + value.length) ++ ([OpCode.kPut.toByte] ++
      (strCodec.write key ++ strCodec.write value))).length = 13 + key.length + value.length := by
    simp
    omega
  obtain ⟨q, hq, hroom⟩ := hbuf.put (show 0 + (toLE 4 (9 + key.length + value.length) ++
    ([OpCode.kPut.toByte] ++ (strCodec.write key ++ strCodec.write value))).length ≤ N by omega)
  obtain ⟨bytes, hbytes, hreach⟩ := hroom.reach 5
  obtain ⟨s, rest, hs, hrest⟩ := readSlice_of_long (show 4 + 2 ^ 32 ≤ bytes.length by omega)
  obtain ⟨s', rest', hs', -⟩ := readSlice_of_long (show 4 + 2 ^ 32 ≤ rest.length by omega)
  rw [PutPacket.encode_eq]
  apply exists_bind_ok hq
  apply exists_bind_ok hbytes
  apply exists_bind_ok hs
  apply exists_bind_ok hs'
  exact ⟨_, rfl⟩

/-- The constructor of the base class writes the status; the rest of the constructor comes behind. -/
theorem ResponsePacket.ofSize_builds {β : Type} (n : Nat) (op : OpCode) (s : Status)
    (h : s.message.length + slack ≤ N) (k : ResponsePacket → Except Fault β)
    (hk : ∀ r : ResponsePacket, HasRoom N r.payload → r.payloadOff < 4 + 2 ^ 32 → ∃ x, k r = .ok x) :
    ∃ x, (ResponsePacket.ofSize n op s buf >>= k) = .ok x := by
  unfold slack at h
  have hlen : (toLE 4 n ++ op.toByte :: s.write).length = 10 + s.message.length := by
    simp
    omega
  obtain ⟨q, hq, hroom⟩ := hbuf.put (show 0 + (toLE 4 n ++ op.toByte :: s.write).length ≤ N by omega)
  rw [ResponsePacket.ofSize_bind]
  apply exists_bind_ok hq
  apply hk _ hroom
  show 4 + toUInt32 (6 + s.message.length) < 4 + 2 ^ 32
  unfold toUInt32
  omega

theorem GetResponsePacket.encode_builds (s : Status) (value : Bytes)
    (h : s.message.length + value.length + slack ≤ N) :
    ∃ x, GetResponsePacket.encode s value buf = .ok x := by
  unfold GetResponsePacket.encode
  refine ResponsePacket.ofSize_builds hbuf _ _ s (by omega) _ ?_
  intro r hr hoff
  unfold slack at h
  obtain ⟨q, hq, -⟩ := hr.put (show r.payloadOff + (strCodec.write value).length ≤ N by
    rw [strCodec_write_length]
    omega)
  rw [addString_eq]
  apply exists_bind_ok hq
  exact ⟨_, rfl⟩

theorem encodeStatusOnly_builds (op : OpCode) (s : Status) (h : s.message.length + slack ≤ N) :
    ∃ x, encodeStatusOnly op s buf = .ok x := by
  unfold encodeStatusOnly
  refine ResponsePacket.ofSize_builds hbuf _ _ s h _ ?_
  intro r _ _
  exact ⟨_, rfl⟩

theorem GetAllResponsePacket.encode_builds (s : Status) (keys : List Bytes)
    (h : s.message.length + (keys.flatMap strCodec.write).length + slack ≤ N) :
    ∃ x, GetAllResponsePacket.encode s keys buf = .ok x := by
  unfold GetAllResponsePacket.encode
  refine ResponsePacket.ofSize_builds hbuf _ _ s (by omega) _ ?_
  intro r hr hoff
  unfold slack at h
  have hcount : (toLE 4 (toUInt32 keys.length)).length = 4 := toLE_length _ _
  obtain ⟨q, hq, hqroom⟩ := hr.put
    (show r.payloadOff + (toLE 4 (toUInt32 keys.length)).length ≤ N by omega)
  obtain ⟨q', hq', hroom⟩ := hqroom.putEach (show r.payloadOff +
    (toLE 4 (toUInt32 keys.length)).length + (keys.flatMap strCodec.write).length ≤ N by omega)
  obtain ⟨bytes, hbytes, hreach⟩ := hroom.reach r.payloadOff
  obtain ⟨n, data, hn, hdata⟩ := readLE_of_long (show 4 ≤ bytes.length by omega)
  obtain ⟨hlt, -⟩ := readLE_eq_ok.1 hn
  have hmul : n * 2 ^ 33 ≤ 256 ^ 4 * 2 ^ 33 := Nat.mul_le_mul_right _ (Nat.le_of_lt hlt)
  obtain ⟨x, hx⟩ := readSlices_of_long (show 4 + 2 ^ 32 ≤ 2 ^ 33 by omega)
    (show n * 2 ^ 33 ≤ data.length by omega)
  simp only [addStrings_eq]
  apply exists_bind_ok hq
  apply exists_bind_ok hq'
  apply exists_bind_ok hbytes
  apply exists_bind_ok hn
  apply exists_bind_ok hx
  exact ⟨_, rfl⟩

theorem Command.encode_builds {c : Command} (h : c.payload.length + slack ≤ N) :
    ∃ x, c.encode buf = .ok x := by
  cases c with
  | put key value =>
    simp only [Command.payload, Command.body, List.length_cons, List.length_append,
      strCodec_write_length] at h
    obtain ⟨x, hx⟩ := PutPacket.encode_builds hbuf key value (by omega)
    exact exists_bind_ok hx ⟨_, rfl⟩
  | _ str =>
    simp only [Command.payload, Command.body, List.length_cons, strCodec_write_length] at h
    obtain ⟨x, hx⟩ := StringPacket.encode_builds hbuf _ str (by omega)
    exact exists_bind_ok hx ⟨_, rfl⟩

theorem Response.encode_builds {r : Response} (h : r.payload.length + slack ≤ N) :
    ∃ x, r.encode buf = .ok x := by
  rw [Response.payload_length] at h
  cases r with
  | get s value =>
    simp only [Response.status, Response.body, strCodec_write_length] at h
    obtain ⟨x, hx⟩ := GetResponsePacket.encode_builds hbuf s value (by omega)
    exact exists_bind_ok hx ⟨_, rfl⟩
  | getAll s keys =>
    simp only [Response.status, Response.body, keysCodec_write_length] at h
    obtain ⟨x, hx⟩ := GetAllResponsePacket.encode_builds hbuf s keys (by omega)
    exact exists_bind_ok hx ⟨_, rfl⟩
  | _ s =>
    simp only [Response.status] at h
    obtain ⟨x, hx⟩ := encodeStatusOnly_builds hbuf .kPut s (by omega)
    exact exists_bind_ok hx ⟨_, rfl⟩

end

/-! ## When the sizes are true -/

namespace Content

theorem encode_builds (c : Content) : ∃ buf p out, c.encode buf = .ok (p, out) := by
  obtain ⟨N, hN⟩ : ∃ N, c.payload.length + slack ≤ N := ⟨_, Nat.le_refl _⟩
  obtain ⟨buf, hbuf⟩ := exists_hasRoom N
  cases c with
  | command c =>
    obtain ⟨x, hx⟩ := Command.encode_builds hbuf hN
    exact ⟨buf, x.1.toPacket, x.2, bind_eq_ok.2 ⟨x, hx, rfl⟩⟩
  | response r =>
    obtain ⟨x, hx⟩ := Response.encode_builds hbuf hN
    exact ⟨buf, x.1.toResponsePacket.toPacket, x.2, bind_eq_ok.2 ⟨x, hx, rfl⟩⟩

/-- Every packet that is built has the true sizes.  (No constructor reports that its contents do not
fit.) -/
def SizesTrue (c : Content) : Prop :=
  ∀ buf p out, c.encode buf = .ok (p, out) → p.payloadSize = c.sum ∧ p.toBinary.size = c.sum + 4

theorem sizesTrue_of_lt {c : Content} (h : c.sum + 4 < 2 ^ 32) : c.SizesTrue := by
  intro buf p out hp
  have hsize : p.payloadSize = toUInt32 c.sum := c.encode_payloadSize buf _ hp
  rw [toUInt32_of_lt (by omega)] at hsize
  refine ⟨hsize, ?_⟩
  rw [Packet.toBinary, hsize]
  exact toUInt32_of_lt h

theorem not_sizesTrue_of_ge {c : Content} (h : 2 ^ 32 ≤ c.sum + 4) : ¬ c.SizesTrue := by
  intro htrue
  obtain ⟨buf, p, out, hp⟩ := c.encode_builds
  have hbinary : toUInt32 (p.payloadSize + 4) = c.sum + 4 := (htrue buf p out hp).2
  unfold toUInt32 at hbinary
  omega

/-- **When the sizes of a packet do not wrap.** -/
theorem sizesTrue_iff (c : Content) : c.SizesTrue ↔ c.sum + 4 < 2 ^ 32 := by
  constructor
  · intro h
    by_contra hge
    exact not_sizesTrue_of_ge (Nat.not_lt.1 hge) h
  · exact sizesTrue_of_lt

/-- A Get packet of `2 ^ 32` bytes. -/
theorem get_not_sizesTrue :
    ¬ (Content.command (.get (List.replicate 4294967287 0))).SizesTrue := by
  have hlen : (List.replicate 4294967287 (0 : UInt8)).length = 4294967287 := List.length_replicate
  generalize List.replicate 4294967287 (0 : UInt8) = key at hlen ⊢
  apply not_sizesTrue_of_ge
  rw [sum, Command.payload, List.length_cons, Command.body, strCodec_write_length, hlen]
  omega

end Content

end SqpKv
