import SqpKv.Server.RequestHandler

/-!
# Room for the responses of the RDMA server (src/server/kv_request_handler.cc)

Requests and responses pass through buffers of `kMaxBufferSize` bytes.  What
a Put can bring in, a Get need not be able to take out: around a value

    a Put has 13 bytes and the key,  a Get response 16 bytes

so a value fits when its key has three bytes or more.  A GetAll response grows
with the store.  `responses_fit_iff` says which commands are answered inside the
buffer, for every store that requests have built.
-/

namespace SqpKv

open Wire

/-- What the calls of `HandleReadCompletion` do to the database. -/
def KvRequestHandler.apply (db : Store) : Command → Store
  | .put key value => db.insert key value
  | .delete key => db.erase key
  | _ => db

theorem KvRequestHandler.apply_eq_handle (notFound : Bytes) (db : Store) (c : Command) :
    KvRequestHandler.apply db c = (KvWorker.handle notFound db c).1 := by
  cases c with
  | get key =>
    simp only [KvRequestHandler.apply, KvWorker.handle]
    cases db[key]? <;> rfl
  | _ => rfl

/-- The database behind these commands. -/
def storeAfter (history : List Command) : Store := history.foldl KvRequestHandler.apply ∅

/-- The command fits a message. -/
def Command.FitsMessage (c : Command) : Prop := c.encoding.length ≤ kMaxBufferSize

/-- The response is built inside `out_buffer`, and so is what its size has the caller post. -/
def Response.FitsBuffer (r : Response) : Prop :=
  ∀ b : Block, b.bytes.length = kMaxBufferSize →
    ∃ p out, r.encode (some b) = .ok (p, some out) ∧
      p.toResponsePacket.toPacket.toBinary.size ≤ kMaxBufferSize

/-- The call returns a size inside the buffer. -/
def ReturnsInside (call : Except Fault (StatusOr Nat × Block)) : Prop :=
  ∃ size out, call = .ok (.ofPtr (some size), out) ∧ size ≤ kMaxBufferSize

/-- What is written and what is posted are inside when what is announced is: the size is at most two
bytes more than what was written, so it does not wrap. -/
theorem Response.inside_iff {r : Response} (h : r.FromServer) :
    r.encoding.length ≤ kMaxBufferSize ∧ toUInt32 (toUInt32 r.announced + 4) ≤ kMaxBufferSize ↔
      r.announced + 4 ≤ kMaxBufferSize := by
  have hb : kMaxBufferSize = 131076 := rfl
  have hlen := r.encoding_length
  have hcover := h.payload_le
  have hle : r.announced ≤ r.payload.length + 2 := by
    by_cases hop : r.wireOp = .kGetAll
    · exact Nat.le_of_eq (Response.announced_fromServer h hop)
    · exact Nat.le_trans (Nat.le_of_eq (Response.announced_eq hop)) (by omega)
  unfold toUInt32
  omega

theorem Response.fitsBuffer_iff {r : Response} (h : r.FromServer) :
    r.FitsBuffer ↔ r.announced + 4 ≤ kMaxBufferSize := by
  have hb : kMaxBufferSize = 131076 := rfl
  rw [← Response.inside_iff h]
  constructor
  · intro hfits
    obtain ⟨p, out, hp, hsize⟩ := hfits freshBuffer freshBuffer_length
    have hmsg := Response.encode_room hp
    rw [freshBuffer_length] at hmsg
    obtain ⟨hroom, -, hannounced⟩ := Response.encode_eq_ok (by omega) hp
    rw [freshBuffer_length] at hroom
    simp only [Packet.toBinary, hannounced] at hsize
    exact ⟨hroom, hsize⟩
  · rintro ⟨hroom, hsize⟩ b hlength
    obtain ⟨p, hp, hpacket, -⟩ := Response.encode_block (r := r) (b := b) (by omega) (by omega)
    refine ⟨p, _, hp, ?_⟩
    simp only [hpacket, Packet.toBinary]
    exact hsize

/-- `HandleReadCompletion` on a command that came in a message. -/
theorem KvRequestHandler.returnsInside_iff (db : Rocks) {c : Command} (hc : c.FitsMessage)
    (tail : Bytes) {b : Block} (hlength : b.bytes.length = kMaxBufferSize) :
    ReturnsInside (KvRequestHandler.handleReadCompletion db (c.encoding ++ tail) b) ↔
      (db.respond c).announced + 4 ≤ kMaxBufferSize := by
  have hb : kMaxBufferSize = 131076 := rfl
  unfold Command.FitsMessage at hc
  rw [← Response.inside_iff (db.respond_fromServer c)]
  constructor
  · rintro ⟨size, out, hcall, hsize⟩
    obtain ⟨packet, r, hpacket, rfl, hroom, hres, -⟩ :=
      KvRequestHandler.handleReadCompletion_eq_ok (by omega) hcall
    -- the packet that was received is the command
    obtain ⟨packet', hptr, hcommand, -⟩ := createCommandPacket_encoding c (by omega) tail
    have hreceive : KvRequestHandler.receive (c.encoding ++ tail) = .ok packet' := by
      unfold KvRequestHandler.receive
      rw [hptr]
      rfl
    obtain rfl := Except.ok.inj (hpacket.symm.trans hreceive)
    rw [hcommand] at hroom hres
    rw [hlength] at hroom
    cases hres
    exact ⟨hroom, hsize⟩
  · rintro ⟨hroom, hsize⟩
    exact ⟨_, _, KvRequestHandler.handleReadCompletion_encoding db c tail b (by omega) (by omega)
      (by omega), hsize⟩

/-! ## What Puts can have stored -/

/-- Every entry fitted a Put. -/
def Stored (db : Store) : Prop :=
  ∀ key value, db[key]? = some value → (Command.put key value).FitsMessage

theorem Command.put_encoding_length (key value : Bytes) :
    (Command.put key value).encoding.length = 13 + key.length + value.length := by
  rw [Command.encoding_length, Command.payload, List.length_cons, Command.body, List.length_append,
    strCodec_write_length, strCodec_write_length]
  omega

theorem Stored.apply {db : Store} (h : Stored db) {c : Command} (hc : c.FitsMessage) :
    Stored (KvRequestHandler.apply db c) := by
  cases c with
  | get key => exact h
  | getAll keyPrefix => exact h
  | put key value =>
    intro k v hv
    rw [KvRequestHandler.apply, Std.TreeMap.getElem?_insert] at hv
    by_cases hk : compare key k = .eq
    · rw [if_pos hk] at hv
      obtain rfl := Std.LawfulEqOrd.eq_of_compare hk
      obtain rfl := Option.some.inj hv
      exact hc
    · rw [if_neg hk] at hv
      exact h k v hv
  | delete key =>
    intro k v hv
    rw [KvRequestHandler.apply, Std.TreeMap.getElem?_erase] at hv
    by_cases hk : compare key k = .eq
    · rw [if_pos hk] at hv
      cases hv
    · rw [if_neg hk] at hv
      exact h k v hv

theorem Stored.foldl {db : Store} (h : Stored db) {history : List Command}
    (hfits : ∀ c ∈ history, c.FitsMessage) : Stored (history.foldl KvRequestHandler.apply db) := by
  induction history generalizing db with
  | nil => exact h
  | cons c history ih =>
    rw [List.foldl_cons]
    apply ih (h.apply (hfits c List.mem_cons_self))
    intro c' hc'
    exact hfits c' (List.mem_cons_of_mem _ hc')

theorem stored_storeAfter {history : List Command} (hfits : ∀ c ∈ history, c.FitsMessage) :
    Stored (storeAfter history) := by
  apply Stored.foldl _ hfits
  intro key value h
  rw [Std.TreeMap.getElem?_emptyc] at h
  cases h

/-! ## Which commands are answered -/

/-- There is room for the response: for the value a Get finds if the key has three bytes or the value
is small, for the keys a GetAll finds if they are few. -/
def RoomFor (notFound : Bytes) (db : Store) : Command → Prop
  | .get key =>
    match db[key]? with
    | some value => 3 ≤ key.length ∨ 16 + value.length ≤ kMaxBufferSize
    | none => 14 + notFound.length ≤ kMaxBufferSize
  | .put _ _ => True
  | .delete _ => True
  | .getAll keyPrefix =>
    18 + ((db.keys.filter keyPrefix.isPrefixOf).flatMap strCodec.write).length ≤ kMaxBufferSize

theorem respond_announced_iff (notFound : Bytes) {db : Store} (hdb : Stored db) (c : Command) :
    ((Rocks.ofStore notFound db).respond c).announced + 4 ≤ kMaxBufferSize ↔
      RoomFor notFound db c := by
  have hb : kMaxBufferSize = 131076 := rfl
  have hok : Status.Ok.message.length = 2 := rfl
  cases c with
  | get key =>
    simp only [Rocks.respond, Rocks.ofStore, RoomFor]
    cases hv : db[key]? with
    | none =>
      show 10 + notFound.length + 0 + 4 ≤ kMaxBufferSize ↔ _
      omega
    | some value =>
      have hput := hdb key value hv
      rw [Command.FitsMessage, Command.put_encoding_length] at hput
      show 10 + 2 + value.length + 4 ≤ kMaxBufferSize ↔ _
      omega
  | put key value =>
    refine iff_of_true ?_ trivial
    show 6 + 2 + 4 ≤ kMaxBufferSize
    omega
  | delete key =>
    refine iff_of_true ?_ trivial
    show 6 + 2 + 4 ≤ kMaxBufferSize
    omega
  | getAll keyPrefix =>
    simp only [Rocks.respond, Rocks.ofStore, RoomFor]
    rw [collect_seek]
    show 10 + 4 + _ + 4 ≤ kMaxBufferSize ↔ _
    omega

/-- **Which responses fit.**  Whatever commands that fit a message were carried out before; for a
command that fits one itself, this is when `HandleReadCompletion` returns a size inside the buffer. -/
theorem responses_fit_iff (notFound : Bytes) (history : List Command)
    (hfits : ∀ c ∈ history, c.FitsMessage) (c : Command) :
    ((KvRequestHandler.respond (.ofStore notFound (storeAfter history)) c).FitsBuffer ↔
      RoomFor notFound (storeAfter history) c) ∧
    (c.FitsMessage → ∀ tail b, b.bytes.length = kMaxBufferSize →
      (ReturnsInside (KvRequestHandler.handleReadCompletion
          (.ofStore notFound (storeAfter history)) (c.encoding ++ tail) b) ↔
        RoomFor notFound (storeAfter history) c)) := by
  have hroom := respond_announced_iff notFound (stored_storeAfter hfits) c
  constructor
  · show (Rocks.respond _ c).FitsBuffer ↔ _
    rw [Response.fitsBuffer_iff (Rocks.respond_fromServer _ c)]
    exact hroom
  · intro hc tail b hlength
    rw [KvRequestHandler.returnsInside_iff _ hc tail hlength]
    exact hroom

/-- A Get of "k" behind a Put. -/
theorem responses_fit_put :
    ((KvRequestHandler.respond (.ofStore [] (storeAfter [.put [107] [118]])) (.get [107])).FitsBuffer ↔
      RoomFor [] (storeAfter [.put [107] [118]]) (.get [107])) ∧
    ((Command.get [107]).FitsMessage → ∀ tail b, b.bytes.length = kMaxBufferSize →
      (ReturnsInside (KvRequestHandler.handleReadCompletion
          (.ofStore [] (storeAfter [.put [107] [118]])) ((Command.get [107]).encoding ++ tail) b) ↔
        RoomFor [] (storeAfter [.put [107] [118]]) (.get [107]))) := by
  refine responses_fit_iff [] [.put [107] [118]] ?_ (.get [107])
  intro c hc
  rw [List.mem_singleton.1 hc, Command.FitsMessage]
  decide

/-- The largest value under the empty key: three bytes of the response do not fit. -/
theorem response_not_fits :
    (Command.put [] (List.replicate 131063 0)).FitsMessage ∧
      ¬ (KvRequestHandler.respond
        (.ofStore [] (storeAfter [.put [] (List.replicate 131063 0)])) (.get [])).FitsBuffer := by
  have hb : kMaxBufferSize = 131076 := rfl
  have hlen : (List.replicate 131063 (0 : UInt8)).length = 131063 := List.length_replicate
  generalize List.replicate 131063 (0 : UInt8) = value at hlen ⊢
  have hput : (Command.put [] value).FitsMessage := by
    rw [Command.FitsMessage, Command.put_encoding_length, hlen, List.length_nil]
    omega
  have hget : (storeAfter [.put [] value])[([] : Bytes)]? = some value :=
    Std.TreeMap.getElem?_insert_self
  have hstored : Stored (storeAfter [.put [] value]) := by
    apply stored_storeAfter
    intro c hc
    rw [List.mem_singleton.1 hc]
    exact hput
  refine ⟨hput, ?_⟩
  show ¬ (Rocks.respond _ _).FitsBuffer
  rw [Response.fitsBuffer_iff (Rocks.respond_fromServer _ _), respond_announced_iff [] hstored,
    RoomFor, hget]
  simp only [List.length_nil, hlen]
  omega

end SqpKv
