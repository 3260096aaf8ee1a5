import SqpKv.Server.ProxyLoop

/-!
# From a received string to the `switch` on its op

`CreateCommandPacket` answers an unknown op with a null pointer, and
`ReadFromClient` converts that pointer to a `StatusOr` that is Ok.  The loops of
`KvWorker` and `ShardingProxyWorker` test `err()` and `eof()` and then call
`packet->GetOp()`; `KvRequestHandler` calls it on the factory's pointer.  Every
object has one of the four ops, so the default branches are never reached:

    the packet is there when it is asked for its op  ↔  the string names a class      (holdsObject_iff)
-/

namespace SqpKv

open Wire

/-- From `ReadFromClient` to the `switch` of a loop, when `ReadWholePacket` returned `read`: the loop
is left (`none`), or goes on with the packet. -/
def receivePacket (read : Status × Bytes) : Except Fault (Option CommandPacket) := do
  let packet ← readFromClient read
  if packet.err then return none
  else if packet.eof then return none
  else return some (← packet.deref)

/-- `KvWorker::HandleClient` up to `packet->GetOp()`. -/
def KvWorker.receive : Status × Bytes → Except Fault (Option CommandPacket) := receivePacket

/-- `ShardingProxyWorker::HandleClient` up to `packet->GetOp()`. -/
def ShardingProxyWorker.receive : Status × Bytes → Except Fault (Option CommandPacket) :=
  receivePacket

/-- `KvRequestHandler::HandleReadCompletion` up to `packet->GetOp()`. -/
def KvRequestHandler.receive (inBuffer : Bytes) : Except Fault CommandPacket := do
  match ← createCommandPacket inBuffer with
  | some packet => return packet
  | none => .error .nullPointer

/-! ## Decoding dereferences no null pointer -/

theorem readSlice_avoids_null (p : Bytes) : Avoids .nullPointer (readSlice p) :=
  .bind (readLE_avoids_null 4 p) fun _ _ => .bind (readN_avoids_null _ _) fun _ _ => .ok _

theorem Packet.ofBuf_avoids_null (buf : Bytes) : Avoids .nullPointer (Packet.ofBuf buf) :=
  .bind (readLE_avoids_null 4 buf) fun _ _ => .bind (readN_avoids_null _ _) fun _ _ => .ok _

/-- The decoding constructor of the base class owns its copy. -/
theorem Packet.ofBuf_reach {buf : Bytes} {p : Packet} (h : Packet.ofBuf buf = .ok p) (off : Nat) :
    Avoids .nullPointer (reach p.payload off) := by
  obtain ⟨_, -, h⟩ := bind_eq_ok.1 h
  obtain ⟨_, -, h⟩ := bind_eq_ok.1 h
  cases h
  exact .ok _

theorem StringPacket.ofBuf_avoids_null (buf : Bytes) : Avoids .nullPointer (StringPacket.ofBuf buf) :=
  .bind (Packet.ofBuf_avoids_null buf) fun _ hp =>
    .bind (Packet.ofBuf_reach hp _) fun _ _ => .bind (readSlice_avoids_null _) fun _ _ => .ok _

theorem PutPacket.ofBuf_avoids_null (buf : Bytes) : Avoids .nullPointer (PutPacket.ofBuf buf) :=
  .bind (Packet.ofBuf_avoids_null buf) fun _ hp =>
    .bind (Packet.ofBuf_reach hp _) fun _ _ => .bind (readSlice_avoids_null _) fun _ _ =>
      .bind (readSlice_avoids_null _) fun _ _ => .ok _

theorem createCommandPacket_avoids_null (buf : Bytes) :
    Avoids .nullPointer (createCommandPacket buf) := by
  rw [createCommandPacket_eq]
  unfold dispatch
  refine .bind ?_ fun ⟨b, rest⟩ _ => ?_
  · show Avoids _ (Codec.byte.read (buf.drop 4))
    cases buf.drop 4 with
    | nil => exact fun h => nomatch h
    | cons b rest => exact .ok _
  · dsimp only
    cases OpCode.ofByte? b with
    | none => exact .ok _
    | some op =>
      refine .bind ?_ fun _ _ => .ok _
      cases op with
      | kPut => exact .bind (PutPacket.ofBuf_avoids_null buf) fun _ _ => .ok _
      | kGet => exact .bind (StringPacket.ofBuf_avoids_null buf) fun _ _ => .ok _
      | kDelete => exact .bind (StringPacket.ofBuf_avoids_null buf) fun _ _ => .ok _
      | kGetAll => exact .bind (StringPacket.ofBuf_avoids_null buf) fun _ _ => .ok _

/-- The factory returns a null pointer exactly for an op it does not know. -/
theorem createCommandPacket_eq_none {buf : Bytes} :
    createCommandPacket buf = .ok none ↔ UnknownOp buf := by
  rw [createCommandPacket_eq, dispatch_eq_ok]
  constructor
  · rintro ⟨b, rest, hb, ⟨hop, -⟩ | ⟨_, _, -, -, hq⟩⟩
    · exact ⟨b, rest, hb, hop⟩
    · cases hq
  · rintro ⟨b, rest, hb, hop⟩
    exact ⟨b, rest, hb, .inl ⟨hop, rfl⟩⟩

/-! ## Where the packet is used -/

theorem readFromClient_ok (s : Bytes) :
    readFromClient (.Ok, s) = (createCommandPacket s >>= fun ptr => .ok (.ofPtr ptr)) := rfl

/-- The `StatusOr` of a string that was read is Ok, whatever the pointer. -/
theorem receivePacket_ok (s : Bytes) : receivePacket (.Ok, s) = createCommandPacket s >>= fun ptr =>
    match ptr with
    | some packet => .ok (some packet)
    | none => .error .nullPointer := by
  unfold receivePacket
  rw [readFromClient_ok, bind_assoc]
  congr 1
  funext ptr
  cases ptr <;> rfl

/-- A read that failed leaves the loop. -/
theorem receivePacket_failed {status : Status} (h : status.err = true ∨ status.eof = true)
    (s : Bytes) : receivePacket (status, s) = .ok none := by
  have hok : status.ok = false := by
    obtain ⟨code, message⟩ := status
    cases code with
    | kOk => rcases h with h | h <;> cases h
    | _ => rfl
  have hread : readFromClient (status, s) = .ok (.ofStatus status) := by
    simp only [readFromClient, readFrom, hok]
    rfl
  unfold receivePacket
  rw [hread]
  show (if status.err then _ else if status.eof then _ else _) = _
  rcases h with h | h
  · rw [if_pos h]
    rfl
  · rw [if_pos h, ite_self]
    rfl

theorem receivePacket_avoids_null {s : Bytes} :
    Avoids .nullPointer (receivePacket (.Ok, s)) ↔ ¬ UnknownOp s := by
  rw [receivePacket_ok, ← createCommandPacket_eq_none]
  constructor
  · intro h hnone
    rw [hnone] at h
    exact h rfl
  · intro h
    refine .bind (createCommandPacket_avoids_null s) fun ptr hptr => ?_
    cases ptr with
    | none => exact absurd hptr h
    | some packet => exact .ok _

theorem KvRequestHandler.receive_avoids_null {s : Bytes} :
    Avoids .nullPointer (KvRequestHandler.receive s) ↔ ¬ UnknownOp s := by
  unfold KvRequestHandler.receive
  rw [← createCommandPacket_eq_none]
  constructor
  · intro h hnone
    rw [hnone] at h
    exact h rfl
  · intro h
    refine .bind (createCommandPacket_avoids_null s) fun ptr hptr => ?_
    cases ptr with
    | none => exact absurd hptr h
    | some packet => exact .ok _

/-- What is gone on with holds an object whenever it is not an error, and no null packet is
dereferenced, when the string `s` was received. -/
structure HoldsObject (s : Bytes) : Prop where
  statusOr : ∀ packet, readFromClient (.Ok, s) = .ok packet →
    packet.err = false → packet.eof = false → packet.obj.isSome
  pointer : ∀ ptr, createCommandPacket s = .ok ptr → ptr.isSome
  kvWorker : Avoids .nullPointer (KvWorker.receive (.Ok, s))
  shardingProxyWorker : Avoids .nullPointer (ShardingProxyWorker.receive (.Ok, s))
  kvRequestHandler : Avoids .nullPointer (KvRequestHandler.receive s)

/-- **When no null packet is used**: when the op byte names a class. -/
theorem holdsObject_iff (s : Bytes) : HoldsObject s ↔ ¬ UnknownOp s := by
  constructor
  · intro h
    exact receivePacket_avoids_null.1 h.kvWorker
  · intro h
    have hptr : ∀ ptr, createCommandPacket s = .ok ptr → ptr.isSome := by
      intro ptr hptr
      cases ptr with
      | none => exact absurd (createCommandPacket_eq_none.1 hptr) h
      | some packet => rfl
    refine ⟨?_, hptr, receivePacket_avoids_null.2 h, receivePacket_avoids_null.2 h,
      KvRequestHandler.receive_avoids_null.2 h⟩
    intro packet hpacket _ _
    rw [readFromClient_ok] at hpacket
    obtain ⟨ptr, hcreate, hpacket⟩ := bind_eq_ok.1 hpacket
    cases hpacket
    exact hptr ptr hcreate

/-- A frame of one byte, the op 9. -/
theorem unknownOp_not_holdsObject : ¬ HoldsObject [1, 0, 0, 0, 9] := by
  intro h
  exact h.kvWorker rfl

/-- The proxy's loop on the bytes goes where `receive` says. -/
theorem ProxyLoop.clientRead_receive {n : Nat} (s : ProxyLoop n) (buf : Bytes) :
    (ShardingProxyWorker.receive (.Ok, buf) = .error .nullPointer →
        (s.clientRead (.inr (.Ok, buf))).control = .crashed) ∧
      ∀ status : Status, status.err = true ∨ status.eof = true →
        (s.clientRead (.inr (status, buf))).control = .returned := by
  constructor
  · intro h
    have hnone : createCommandPacket buf = .ok none := by
      by_contra hne
      exact receivePacket_avoids_null.2 (fun hu => hne (createCommandPacket_eq_none.2 hu)) h
    show (s.start buf).control = .crashed
    unfold ProxyLoop.start
    rw [hnone]
  · intro status h
    show (if status.err || status.eof then _ else _ : ProxyLoop n).control = _
    rw [if_pos (by simpa using h)]

end SqpKv
