import SqpKv.Server.RequestHandler

/-!
# A GetAll when an iterator fails

The scan ends when the iterator is no longer valid, which it also is when it
failed; nobody asks for `iter->status()`.  The proxy joins the keys of the
shards' responses without looking at their statuses, and answers Ok:

    whatever client gets a GetAll response through the proxy, or from a server itself,
    gets one with status Ok                                                  (Received.status)

so the answer is to be trusted exactly when no iterator failed inside its range
and every shard's status was Ok (`getAll_reported_iff`).
-/

namespace SqpKv

open Wire

/-! ## Scans -/

/-- The iterator of a store for a prefix; it may fail behind the first `k` keys from the prefix on. -/
def Iterator.over (db : Store) (keyPrefix : Bytes) : Option (Nat × Bytes) → Iterator
  | none => ⟨seek db keyPrefix, .ok⟩
  | some (k, text) => ⟨(seek db keyPrefix).take k, .error text⟩

theorem collect_take (keyPrefix : Bytes) (keys : List Bytes) (k : Nat) :
    collect keyPrefix (keys.take k) = (collect keyPrefix keys).take k := by
  induction keys generalizing k with
  | nil => rw [List.take_nil, collect, List.take_nil]
  | cons key keys ih =>
    cases k with
    | zero => rfl
    | succ k =>
      rw [List.take_succ_cons, collect, collect]
      by_cases h : keyPrefix.isPrefixOf key = true
      · rw [if_pos h, if_pos h, ih, List.take_succ_cons]
      · rw [if_neg h, if_neg h, List.take_nil]

/-- A shard during a GetAll: its store, where its iterator fails, and the status its response
carries.  The workers of the source send `Status::Ok()`. -/
structure ShardScan where
  db : Store
  failure : Option (Nat × Bytes)
  status : Status

namespace ShardScan

def rocks (s : ShardScan) : Rocks :=
  { Rocks.ofStore [] s.db with seek := fun keyPrefix => .over s.db keyPrefix s.failure }

/-- The keys the loop of GetAll collects. -/
def keys (s : ShardScan) (keyPrefix : Bytes) : List Bytes :=
  collect keyPrefix (s.rocks.seek keyPrefix).keys

def response (s : ShardScan) (keyPrefix : Bytes) : Response :=
  .getAll s.status (s.keys keyPrefix)

/-- The scan went on to the end of its range: it passed every key with the prefix. -/
def Complete (s : ShardScan) (keyPrefix : Bytes) : Prop :=
  s.keys keyPrefix = s.db.keys.filter keyPrefix.isPrefixOf

/-- The iterator does not fail before it is past the keys with the prefix. -/
def FailsLate (s : ShardScan) (keyPrefix : Bytes) : Prop :=
  ∀ k text, s.failure = some (k, text) → (s.db.keys.filter keyPrefix.isPrefixOf).length ≤ k

theorem response_eq_respond {s : ShardScan} (h : s.status = .Ok) (keyPrefix : Bytes) :
    s.response keyPrefix = KvWorker.respond s.rocks (.getAll keyPrefix) := by
  rw [response, h]
  rfl

/-- A failed scan has the first keys of its range. -/
theorem keys_of_failure {s : ShardScan} {k : Nat} {text : Bytes} (h : s.failure = some (k, text))
    (keyPrefix : Bytes) :
    s.keys keyPrefix = (s.db.keys.filter keyPrefix.isPrefixOf).take k := by
  rw [keys, rocks, h, ← collect_seek, ← collect_take]
  rfl

theorem complete_iff (s : ShardScan) (keyPrefix : Bytes) :
    s.Complete keyPrefix ↔ s.FailsLate keyPrefix := by
  unfold Complete FailsLate
  cases hf : s.failure with
  | none =>
    refine iff_of_true ?_ fun _ _ h => nomatch h
    rw [keys, rocks, hf, ← collect_seek]
    rfl
  | some f =>
    obtain ⟨k, text⟩ := f
    rw [keys_of_failure hf]
    constructor
    · rintro h _ _ ⟨⟩
      have hlen := congrArg List.length h
      rw [List.length_take] at hlen
      omega
    · intro h
      exact List.take_of_length_le (h k text rfl)

end ShardScan

/-! ## The proxy's merge -/

/-- `ReadFromServer` has read `buf`; the response is cast and its keys are added.  `none` where the
loop crashes. -/
def addResponse (keys : List Bytes) (buf : Bytes) : Option (List Bytes) :=
  match readFromServer (.Ok, buf) >>= fun resp => resp.deref with
  | .ok (.getAll p) => some (p.addKeys keys)
  | _ => none

theorem addResponse_eq (keys : List Bytes) (buf : Bytes) : addResponse keys buf =
    match createResponsePacket buf with
    | .ok (some (.getAll p)) => some (p.addKeys keys)
    | _ => none := by
  have hread : readFromServer (.Ok, buf) =
      createResponsePacket buf >>= fun ptr => .ok (.ofPtr ptr) := rfl
  unfold addResponse
  rw [hread, bind_assoc]
  cases createResponsePacket buf with
  | error e => rfl
  | ok ptr =>
    cases ptr with
    | none => rfl
    | some resp => cases resp <;> rfl

/-- A shard's response is what the call-by-call loop adds to its keys. -/
theorem ProxyLoop.serverRead_addResponse {n : Nat} (e : ProxyEnv n) (s : ProxyLoop n) (next : Nat)
    (keys : List Bytes) (sources : List Nat) (buf : Bytes) :
    s.serverRead e next keys sources (.inr (.Ok, buf)) =
      match addResponse keys buf with
      | some keys => { s with control := .collect (next + 1) (.init e.alloc) keys sources }
      | none => { s with control := .crashed } := by
  show (match createResponsePacket buf with
    | .ok (some (.getAll p)) =>
      { s with control := .collect (next + 1) (.init e.alloc) (p.addKeys keys) sources }
    | _ => { s with control := .crashed }) = _
  rw [addResponse_eq]
  split
  · rfl
  · rfl

/-- A shard's bytes on the wire, from whatever buffer it built the response in. -/
def ShardScan.Sends (s : ShardScan) (keyPrefix : Bytes) (buf : Bytes) : Prop :=
  ∃ b p out, (s.response keyPrefix).encode (some b) = .ok (p, some out) ∧ buf = sentBytes p out

/-- What a client gets for a GetAll through the proxy, from these shards. -/
inductive Received (keyPrefix : Bytes) (shards : List ShardScan) : GetAllResponsePacket → Prop
  | intro {bufs : List Bytes} {keys : List Bytes} {fresh : Block} {data : Bytes}
      {q : GetAllResponsePacket}
      (hsent : List.Forall₂ (fun s buf => s.Sends keyPrefix buf) shards bufs)
      (hmerge : bufs.foldlM addResponse [] = some keys)
      (hsize : (Response.getAll .Ok keys).announced + 4 < 2 ^ 32)
      (hbuilt : getAllResponseBytes fresh keys = .ok data)
      (hread : createResponsePacket data = .ok (some (.getAll q))) : Received keyPrefix shards q

/-- What a client gets for a GetAll from a server itself; a peer's buffer has `tail` behind it. -/
inductive ReceivedFrom (server : Rocks → Command → Response) (keyPrefix : Bytes) (s : ShardScan) :
    GetAllResponsePacket → Prop
  | intro {b out : Block} {p : AnyResponse} {tail : Bytes} {q : GetAllResponsePacket}
      (hsize : (server s.rocks (.getAll keyPrefix)).announced + 4 < 2 ^ 32)
      (hbuilt : (server s.rocks (.getAll keyPrefix)).encode (some b) = .ok (p, some out))
      (hread : createResponsePacket (sentBytes p out ++ tail) = .ok (some (.getAll q))) :
      ReceivedFrom server keyPrefix s q

/-! ## What clients get -/

/-- A status and what follows it are told apart. -/
theorem Status.write_inj {s s' : Status} {x y : Bytes} (hs : s.message.length < 2 ^ 32)
    (hs' : s'.message.length < 2 ^ 32) (h : s.write ++ x = s'.write ++ y) : s = s' := by
  obtain ⟨hcode, hmessage⟩ := List.cons.inj h
  replace hmessage : strCodec.write s.message ++ x = strCodec.write s'.message ++ y := hmessage
  have hread := strCodec.read_write (strCodec_valid.2 hs) x
  rw [hmessage, strCodec.read_write (strCodec_valid.2 hs') y] at hread
  have hmsg : s'.message = s.message := congrArg Prod.fst (Except.ok.inj hread)
  have hcode' : s.code = s'.code := by
    rw [← Code.ofByte_toByte s.code, hcode, Code.ofByte_toByte]
  obtain ⟨code, message⟩ := s
  obtain ⟨code', message'⟩ := s'
  cases hcode'
  cases hmsg
  rfl

/-- The status of a response is read where it was written. -/
theorem status_of_sent {r : Response} {rest : Bytes} {q : AnyResponse}
    (hmsg : r.status.message.length < 2 ^ 32)
    (h : createResponsePacket (r.encoding ++ rest) = .ok (some q)) :
    q.response.status = r.status := by
  rw [createResponsePacket_eq, dispatch_eq_ok] at h
  obtain ⟨b, tail, -, ⟨-, hq⟩ | ⟨op, q', -, hq', hq⟩⟩ := h
  · cases hq
  · cases hq
    obtain ⟨-, b, slack, tail, hlt, hframe⟩ := decodeResponseAs_sound hq'
    have hsame := congrArg (List.drop 5) hframe
    rw [frame_drop_five] at hsame
    have hleft : (r.encoding ++ rest).drop 5 = r.status.write ++ (r.body ++ rest) := by
      rw [← List.drop_drop (i := 1) (j := 4)]
      rw [Response.encoding, List.append_assoc, List.drop_left' (by simp)]
      simp [Response.payload]
    rw [hleft, List.append_assoc] at hsame
    refine (Status.write_inj hmsg ?_ hsame).symm
    simp at hlt
    omega

/-- A GetAll response with `Status::Ok()`, in whatever buffer it was built. -/
theorem getAll_status_of_sent {keys : List Bytes} {b out : Block} {p : AnyResponse} {tail : Bytes}
    {q : GetAllResponsePacket} (hsize : (Response.getAll .Ok keys).announced + 4 < 2 ^ 32)
    (hbuilt : (Response.getAll .Ok keys).encode (some b) = .ok (p, some out))
    (hread : createResponsePacket (sentBytes p out ++ tail) = .ok (some (.getAll q))) :
    q.status = .Ok := by
  have hcover : (Response.getAll .Ok keys).payload.length ≤ (Response.getAll .Ok keys).announced :=
    Response.FromServer.payload_le rfl
  have hmsg : (Response.getAll .Ok keys).status.message.length < 2 ^ 32 := by
    show Status.Ok.message.length < 2 ^ 32
    decide
  rw [sentBytes_of_encode hcover hsize hbuilt, List.append_assoc] at hread
  exact status_of_sent hmsg hread

/-- What the proxy sends is its response as `sentBytes` has it. -/
theorem getAllResponseBytes_eq_ok {b : Block} {keys : List Bytes} {data : Bytes} :
    getAllResponseBytes b keys = .ok data ↔
      ∃ p out, (Response.getAll .Ok keys).encode (some b) = .ok (p, some out) ∧
        data = sentBytes p out := by
  have hmsg : 6 + (Response.getAll .Ok keys).status.message.length < 2 ^ 32 := by
    show 6 + Status.Ok.message.length < 2 ^ 32
    decide
  constructor
  · intro h
    obtain ⟨⟨p, out⟩, hencode, h⟩ := bind_eq_ok.1 h
    cases h
    have hbuilt : (Response.getAll .Ok keys).encode (some b) = .ok (.getAll p, out) := by
      simp only [Response.encode, hencode]
      rfl
    obtain ⟨-, rfl, -⟩ := Response.encode_eq_ok hmsg hbuilt
    exact ⟨.getAll p, _, hbuilt, rfl⟩
  · rintro ⟨p, out, hbuilt, rfl⟩
    obtain ⟨⟨p', out'⟩, hencode, hp⟩ := bind_eq_ok.1 hbuilt
    cases hp
    simp only [getAllResponseBytes, hencode]
    rfl

/-- **Whatever the shards said.** -/
theorem Received.status {keyPrefix : Bytes} {shards : List ShardScan} {q : GetAllResponsePacket}
    (h : Received keyPrefix shards q) : q.status = .Ok := by
  obtain ⟨-, -, hsize, hbuilt, hread⟩ := h
  obtain ⟨p, out, hencode, rfl⟩ := getAllResponseBytes_eq_ok.1 hbuilt
  rw [← List.append_nil (sentBytes p out)] at hread
  exact getAll_status_of_sent hsize hencode hread

theorem ReceivedFrom.status {server : Rocks → Command → Response}
    (hserver : server = KvWorker.respond ∨ server = KvRequestHandler.respond) {keyPrefix : Bytes}
    {s : ShardScan} {q : GetAllResponsePacket} (h : ReceivedFrom server keyPrefix s q) :
    q.status = .Ok := by
  obtain ⟨hsize, hbuilt, hread⟩ := h
  rcases hserver with rfl | rfl
  · exact getAll_status_of_sent hsize hbuilt hread
  · exact getAll_status_of_sent hsize hbuilt hread

/-- **When a GetAll that is reported as success is complete.**  Through the proxy: when no shard's
iterator failed inside its range and every shard's status was Ok.  From a server itself: when its
iterator did not. -/
theorem getAll_reported_iff (keyPrefix : Bytes) :
    (∀ shards q, Received keyPrefix shards q →
      ((q.status.ok = true → ∀ s ∈ shards, s.Complete keyPrefix ∧ s.status.ok = true) ↔
        ∀ s ∈ shards, s.FailsLate keyPrefix ∧ s.status.ok = true)) ∧
    (∀ server, server = KvWorker.respond ∨ server = KvRequestHandler.respond →
      ∀ s q, ReceivedFrom server keyPrefix s q →
        ((q.status.ok = true → s.Complete keyPrefix) ↔ s.FailsLate keyPrefix)) := by
  constructor
  · intro shards q h
    have hok : q.status.ok = true := by rw [h.status]; rfl
    constructor
    · intro himp s hs
      obtain ⟨hcomplete, hstatus⟩ := himp hok s hs
      exact ⟨(s.complete_iff keyPrefix).1 hcomplete, hstatus⟩
    · intro hall _ s hs
      obtain ⟨hlate, hstatus⟩ := hall s hs
      exact ⟨(s.complete_iff keyPrefix).2 hlate, hstatus⟩
  · intro server hserver s q h
    have hok : q.status.ok = true := by rw [h.status hserver]; rfl
    constructor
    · intro himp
      exact (s.complete_iff keyPrefix).1 (himp hok)
    · intro hlate _
      exact (s.complete_iff keyPrefix).2 hlate

/-! ## What is in the answer -/

/-- A GetAll response with `Status::Ok()` in a buffer with room, whatever follows it. -/
theorem getAll_sent_decoded {keys : List Bytes} {b out : Block} {p : AnyResponse}
    (hsize : (Response.getAll .Ok keys).announced + 4 < 2 ^ 32)
    (hroom : (Response.getAll .Ok keys).announced + 4 ≤ b.bytes.length)
    (hbuilt : (Response.getAll .Ok keys).encode (some b) = .ok (p, some out)) (tail : Bytes) :
    ∃ q, createResponsePacket (sentBytes p out ++ tail) = .ok (some (.getAll q)) ∧ q.status = .Ok ∧
      q.keys.map Slice.toStr = keys := by
  obtain ⟨p', out', hbuilt', hsent⟩ := Response.sent_decoded
    (Response.FromServer.payload_le (r := .getAll .Ok keys) rfl) hsize hroom
  rw [hbuilt] at hbuilt'
  cases hbuilt'
  obtain ⟨q, hq, hr⟩ := hsent tail
  cases q with
  | getAll q =>
    obtain ⟨hstatus, hkeys⟩ := Response.getAll.inj hr
    exact ⟨q, hq, hstatus, hkeys⟩
  | _ => cases hr

/-- The proxy joins the keys of a shard whose response's size field covers it. -/
theorem ShardScan.addResponse_sends {s : ShardScan} {keyPrefix : Bytes}
    (hcover : (s.response keyPrefix).payload.length ≤ (s.response keyPrefix).announced)
    (hsize : (s.response keyPrefix).announced + 4 < 2 ^ 32) :
    ∃ buf, s.Sends keyPrefix buf ∧ ∀ keys, addResponse keys buf = some (keys ++ s.keys keyPrefix) := by
  obtain ⟨p, out, hp, hsent⟩ := Response.sent_decoded
    (b := { bytes := List.replicate ((s.response keyPrefix).announced + 4) 0 }) hcover hsize
    (Nat.le_of_eq List.length_replicate.symm)
  obtain ⟨q, hq, hr⟩ := hsent []
  rw [List.append_nil] at hq
  refine ⟨_, ⟨_, p, out, hp, rfl⟩, fun keys => ?_⟩
  rw [addResponse_eq, hq]
  cases q with
  | getAll p =>
    obtain ⟨-, hkeys⟩ := Response.getAll.inj hr
    show some (keys ++ p.keys.map Slice.toStr) = _
    rw [hkeys]
  | _ => cases hr

theorem merge_sends {keyPrefix : Bytes} {shards : List ShardScan}
    (hfits : ∀ s ∈ shards, (s.response keyPrefix).payload.length ≤ (s.response keyPrefix).announced ∧
      (s.response keyPrefix).announced + 4 < 2 ^ 32) (keys : List Bytes) :
    ∃ bufs, List.Forall₂ (fun s buf => s.Sends keyPrefix buf) shards bufs ∧
      bufs.foldlM addResponse keys = some (keys ++ shards.flatMap (·.keys keyPrefix)) := by
  induction shards generalizing keys with
  | nil => exact ⟨[], .nil, by rw [List.flatMap_nil, List.append_nil]; rfl⟩
  | cons s shards ih =>
    obtain ⟨hcover, hsize⟩ := hfits s List.mem_cons_self
    obtain ⟨buf, hbuf, hadd⟩ := ShardScan.addResponse_sends hcover hsize
    obtain ⟨bufs, hbufs, hmerge⟩ := ih (fun s hs => hfits s (List.mem_cons_of_mem _ hs))
      (keys ++ s.keys keyPrefix)
    refine ⟨buf :: bufs, .cons hbuf hbufs, ?_⟩
    rw [List.foldlM_cons, hadd, List.flatMap_cons, ← List.append_assoc]
    exact hmerge

/-- The client gets the keys of all scans, as far as each of them went. -/
theorem received_of_fits {keyPrefix : Bytes} {shards : List ShardScan}
    (hfits : ∀ s ∈ shards, (s.response keyPrefix).payload.length ≤ (s.response keyPrefix).announced ∧
      (s.response keyPrefix).announced + 4 < 2 ^ 32)
    (hsize : (Response.getAll .Ok (shards.flatMap (·.keys keyPrefix))).announced + 4 < 2 ^ 32) :
    ∃ q, Received keyPrefix shards q ∧ q.status = .Ok ∧
      q.keys.map Slice.toStr = shards.flatMap (·.keys keyPrefix) := by
  obtain ⟨bufs, hbufs, hmerge⟩ := merge_sends hfits []
  rw [List.nil_append] at hmerge
  generalize shards.flatMap (·.keys keyPrefix) = keys at *
  have hcover : (Response.getAll .Ok keys).payload.length ≤ (Response.getAll .Ok keys).announced :=
    Response.FromServer.payload_le rfl
  have hroom : (Response.getAll .Ok keys).announced + 4 ≤
      (List.replicate ((Response.getAll .Ok keys).announced + 4) (0 : UInt8)).length :=
    Nat.le_of_eq List.length_replicate.symm
  obtain ⟨p, out, hp, -⟩ := Response.sent_decoded (b := { bytes := _ }) hcover hsize hroom
  obtain ⟨q, hq, hstatus, hkeys⟩ := getAll_sent_decoded hsize hroom hp []
  rw [List.append_nil] at hq
  exact ⟨q, .intro hbufs hmerge hsize (getAllResponseBytes_eq_ok.2 ⟨p, out, hp, rfl⟩) hq, hstatus,
    hkeys⟩

/-- A shard with the key "a" whose iterator fails at once. -/
def failedScan : ShardScan := ⟨(∅ : Store).insert [97] [], some (0, []), .Ok⟩

theorem failedScan_not_failsLate : ¬ failedScan.FailsLate [] := by
  intro h
  have hlen := h 0 [] rfl
  revert hlen
  decide

theorem failedScan_received : ∃ q, Received [] [failedScan] q ∧ q.status = .Ok ∧
    q.keys.map Slice.toStr = [failedScan].flatMap (·.keys []) := by
  refine received_of_fits ?_ (by decide)
  intro s hs
  rw [List.mem_singleton.1 hs]
  decide

/-- One shard, whose scan fails at once: the client gets an empty answer. -/
theorem getAll_reported_failedScan :
    ∃ q, Received [] [failedScan] q ∧
      ((q.status.ok = true → ∀ s ∈ [failedScan], s.Complete [] ∧ s.status.ok = true) ↔
        ∀ s ∈ [failedScan], s.FailsLate [] ∧ s.status.ok = true) := by
  obtain ⟨q, hq, -⟩ := failedScan_received
  exact ⟨q, hq, (getAll_reported_iff []).1 [failedScan] q hq⟩

/-- It is reported as success. -/
theorem incomplete_getAll_reported :
    ∃ q, Received [] [failedScan] q ∧ q.status.ok = true ∧ ¬ failedScan.Complete [] := by
  obtain ⟨q, hq, hstatus, -⟩ := failedScan_received
  refine ⟨q, hq, ?_, ?_⟩
  · rw [hstatus]
    rfl
  · rw [failedScan.complete_iff]
    exact failedScan_not_failsLate

end SqpKv
