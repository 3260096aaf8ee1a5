import SqpKv.Server.ScanFailure

/-!
# The GetAll case of `HandleClient` (src/server/sharding_proxy_worker.cc)

The request goes to every shard, then the answer of every shard is read, in the
order of `shard_servers_`.  The `break` of a call that fails leaves its loop
only, but the status it sets leaves the case behind the loop.  So

    the client is sent a response  ↔  no SendPacket and no ReadFromServer failed

and the response has the keys of all answers, in order (`getAll_allOrNothing`).

Packets are delivered whole, and a turn of the second loop is one of the loop
over calls (`readAll_serverRead`).  The response to the client is built in a
buffer that depends on its keys; the source hands the constructor none.
-/

namespace SqpKv

open Wire

/-- An element of `shard_servers_`, what `SendPacket` to it returns, and what the `ReadWholePacket` of
`ReadFromServer` from it does. -/
structure ShardServer where
  serverfd : Int
  send : Status
  read : Status × Bytes

namespace ShardServer

/-- `SendPacket` and `ReadFromServer` succeed. -/
def Succeeds (s : ShardServer) : Prop := s.send.ok = true ∧ s.read.1.ok = true

/-- If it can be read, the shard's answer has these keys, built in a buffer with room. -/
def Answers (s : ShardServer) (keys : List Bytes) : Prop :=
  s.read.1.ok = true → ∃ b p out, (Response.getAll .Ok keys).announced + 4 < 2 ^ 32 ∧
    (Response.getAll .Ok keys).announced + 4 ≤ b.bytes.length ∧
    (Response.getAll .Ok keys).encode (some b) = .ok (p, some out) ∧ s.read.2 = sentBytes p out

end ShardServer

/-- What became of a GetAll: the status at the end of the case, what was sent to which shard, and the
packet `SendPacket` is given for the client. -/
structure FanOut where
  status : Status
  sent : List (Int × Bytes)
  toClient : Option Bytes

/-- The first loop. -/
def sendAll (data : Bytes) : Status → List ShardServer → Status × List (Int × Bytes)
  | status, [] => (status, [])
  | _, s :: shards =>
    if !s.send.ok then (s.send, [])
    else
      let (status, sent) := sendAll data s.send shards
      (status, (s.serverfd, data) :: sent)

/-- The second loop: the status and `keys`.  `none` where it crashes. -/
def readAll : Status → List Bytes → List ShardServer → Option (Status × List Bytes)
  | status, keys, [] => some (status, keys)
  | status, keys, s :: shards =>
    match readFromServer s.read with
    | .error _ => none
    | .ok resp =>
      if !resp.ok then some (resp.status, keys)
      else
        match resp.deref with
        | .ok (.getAll p) => readAll status (p.addKeys keys) shards
        | _ => none

/-- `case kGetAll` in `HandleClient`; `client` is what `SendPacket` to the client returns. -/
def handleGetAll (fresh : List Bytes → Block) (status : Status) (shards : List ShardServer)
    (client : Status) (data : Bytes) : Option FanOut :=
  let (status, sent) := sendAll data status shards
  if !status.ok then some ⟨status, sent, none⟩
  else
    match readAll status [] shards with
    | none => none
    | some (status, keys) =>
      if !status.ok then some ⟨status, sent, none⟩
      else
        match getAllResponseBytes (fresh keys) keys with
        | .error _ => none
        | .ok packet => some ⟨client, sent, some packet⟩

/-! ## The loops -/

theorem sendAll_cases (data : Bytes) {status : Status} (hok : status.ok = true)
    (shards : List ShardServer) :
    ((∀ s ∈ shards, s.send.ok = true) ∧ (sendAll data status shards).1.ok = true ∧
      (sendAll data status shards).2 = shards.map fun s => (s.serverfd, data)) ∨
    ((∃ s ∈ shards, s.send.ok = false) ∧ (sendAll data status shards).1.ok = false) := by
  induction shards generalizing status with
  | nil => exact .inl ⟨fun s hs => (nomatch hs), hok, rfl⟩
  | cons s shards ih =>
    cases hsend : s.send.ok with
    | false =>
      refine .inr ⟨⟨s, List.mem_cons_self, hsend⟩, ?_⟩
      simp only [sendAll, hsend]
      exact hsend
    | true =>
      have hstep : sendAll data status (s :: shards) =
          ((sendAll data s.send shards).1, (s.serverfd, data) :: (sendAll data s.send shards).2) := by
        simp [sendAll, hsend]
      rw [hstep]
      obtain ⟨hall, hstatus, hsent⟩ | ⟨⟨t, ht, hfail⟩, hstatus⟩ := ih hsend
      · refine .inl ⟨?_, hstatus, ?_⟩
        · exact List.forall_mem_cons.2 ⟨hsend, hall⟩
        · rw [hsent, List.map_cons]
      · exact .inr ⟨⟨t, List.mem_cons_of_mem _ ht, hfail⟩, hstatus⟩

theorem readAll_failed {s : ShardServer} (h : s.read.1.ok = false) (status : Status)
    (keys : List Bytes) (shards : List ShardServer) :
    readAll status keys (s :: shards) = some (s.read.1, keys) := by
  have hread : readFromServer s.read = .ok (.ofStatus s.read.1) := by
    simp [readFromServer, readFrom, h]
  simp only [readAll, hread]
  exact if_pos (by simp [StatusOr.ok, StatusOr.ofStatus, h])

theorem readAll_read {s : ShardServer} (h : s.read.1.ok = true) (status : Status)
    (keys : List Bytes) (shards : List ShardServer) :
    readAll status keys (s :: shards) =
      (addResponse keys s.read.2).bind fun keys => readAll status keys shards := by
  have hread : readFromServer s.read =
      createResponsePacket s.read.2 >>= fun ptr => .ok (.ofPtr ptr) := by
    simp [readFromServer, readFrom, h]
    rfl
  rw [addResponse_eq]
  simp only [readAll, hread]
  cases createResponsePacket s.read.2 with
  | error e => rfl
  | ok ptr =>
    cases ptr with
    | none => rfl
    | some resp => cases resp <;> rfl

/-- A turn of the loop is what the call-by-call loop does with what `ReadWholePacket` returned. -/
theorem readAll_serverRead {n : Nat} (e : ProxyEnv n) (loop : ProxyLoop n) (next : Nat)
    (sources : List Nat) (s : ShardServer) (status : Status) (keys : List Bytes)
    (shards : List ShardServer) :
    readAll status keys (s :: shards) =
      match (loop.serverRead e next keys sources (.inr s.read)).control with
      | .collect _ _ keys _ => readAll status keys shards
      | .head status => some (status, keys)
      | _ => none := by
  obtain ⟨serverfd, send, read, buf⟩ := s
  cases hok : read.ok with
  | false =>
    have hleft : loop.serverRead e next keys sources (.inr (read, buf)) =
        { loop with control := .head read } := by
      unfold ProxyLoop.serverRead
      exact if_neg (by rw [hok]; exact Bool.false_ne_true)
    rw [readAll_failed hok, hleft]
  | true =>
    have hsame : loop.serverRead e next keys sources (.inr (read, buf)) =
        loop.serverRead e next keys sources (.inr (.Ok, buf)) := by
      unfold ProxyLoop.serverRead
      exact (if_pos hok).trans (if_pos rfl).symm
    rw [readAll_read hok, hsame, loop.serverRead_addResponse]
    cases addResponse keys buf with
    | none => rfl
    | some keys => rfl

theorem ShardServer.Answers.addResponse {s : ShardServer} {more : List Bytes} (h : s.Answers more)
    (hread : s.read.1.ok = true) (keys : List Bytes) :
    addResponse keys s.read.2 = some (keys ++ more) := by
  obtain ⟨b, p, out, hsize, hroom, hbuilt, hsent⟩ := h hread
  obtain ⟨q, hq, -, hkeys⟩ := getAll_sent_decoded hsize hroom hbuilt []
  rw [List.append_nil] at hq
  rw [hsent, addResponse_eq, hq]
  show some (keys ++ q.keys.map Slice.toStr) = _
  rw [hkeys]

theorem readAll_cases {shards : List ShardServer} {answers : List (List Bytes)}
    (hanswers : List.Forall₂ ShardServer.Answers shards answers) (status : Status)
    (keys : List Bytes) :
    ((∀ s ∈ shards, s.read.1.ok = true) ∧
      readAll status keys shards = some (status, keys ++ answers.flatten)) ∨
    ((∃ s ∈ shards, s.read.1.ok = false) ∧
      ∃ status' keys', readAll status keys shards = some (status', keys') ∧ status'.ok = false) := by
  induction hanswers generalizing keys with
  | nil =>
    refine .inl ⟨fun s hs => (nomatch hs), ?_⟩
    rw [List.flatten_nil, List.append_nil, readAll]
  | @cons s more shards answers hs _ ih =>
    cases hread : s.read.1.ok with
    | false =>
      refine .inr ⟨⟨s, List.mem_cons_self, hread⟩, s.read.1, keys, ?_, hread⟩
      exact readAll_failed hread status keys shards
    | true =>
      rw [readAll_read hread, hs.addResponse hread, Option.bind_some, List.flatten_cons,
        ← List.append_assoc]
      obtain ⟨hall, hmerge⟩ | ⟨⟨t, ht, hfail⟩, hmerge⟩ := ih (keys ++ more)
      · exact .inl ⟨List.forall_mem_cons.2 ⟨hread, hall⟩, hmerge⟩
      · exact .inr ⟨⟨t, List.mem_cons_of_mem _ ht, hfail⟩, hmerge⟩

/-! ## The case -/

/-- **The proxy's GetAll is all or nothing.**  A response is sent exactly when every shard was sent the
request and its answer was read; it decodes to Ok and the keys of all shards in order.  Otherwise
nothing is sent, and the loop around the case ends. -/
theorem getAll_allOrNothing {shards : List ShardServer} {answers : List (List Bytes)}
    (hanswers : List.Forall₂ ShardServer.Answers shards answers) (fresh : List Bytes → Block)
    (hfits : (∀ s ∈ shards, s.Succeeds) →
      (Response.getAll .Ok answers.flatten).announced + 4 < 2 ^ 32 ∧
      (Response.getAll .Ok answers.flatten).announced + 4 ≤ (fresh answers.flatten).bytes.length)
    {status : Status} (hok : status.ok = true) (client : Status) (data : Bytes) :
    ∃ run, handleGetAll fresh status shards client data = some run ∧
      (run.toClient.isSome = true ↔ ∀ s ∈ shards, s.Succeeds) ∧
      (∀ packet, run.toClient = some packet →
        (run.sent = shards.map fun s => (s.serverfd, data)) ∧
        ∀ tail, ∃ q, createResponsePacket (packet ++ tail) = .ok (some (.getAll q)) ∧
          q.status = .Ok ∧ q.keys.map Slice.toStr = answers.flatten) ∧
      (run.toClient = none → run.status.ok = false) := by
  unfold handleGetAll
  obtain ⟨hsends, hstatus, hsent⟩ | ⟨⟨s, hs, hfail⟩, hstatus⟩ := sendAll_cases data hok shards
  · generalize sendAll data status shards = first at *
    obtain ⟨status, sent⟩ := first
    replace hstatus : status.ok = true := hstatus
    simp only [hstatus]
    obtain ⟨hreads, hmerge⟩ | ⟨⟨s, hs, hfail⟩, status', keys, hmerge, hstatus'⟩ :=
      readAll_cases hanswers status []
    · have hall : ∀ s ∈ shards, s.Succeeds := fun s hs => ⟨hsends s hs, hreads s hs⟩
      obtain ⟨hsize, hroom⟩ := hfits hall
      obtain ⟨p, out, hbuilt, -⟩ := Response.sent_decoded
        (Response.FromServer.payload_le (r := .getAll .Ok answers.flatten) rfl) hsize hroom
      have hpacket := getAllResponseBytes_eq_ok.2 ⟨p, out, hbuilt, rfl⟩
      rw [hmerge, List.nil_append]
      simp only [hstatus, hpacket]
      refine ⟨_, rfl, iff_of_true rfl hall, ?_, fun h => nomatch h⟩
      rintro packet ⟨⟩
      exact ⟨hsent, getAll_sent_decoded hsize hroom hbuilt⟩
    · rw [hmerge]
      simp only [hstatus']
      refine ⟨_, rfl, iff_of_false (fun h => nomatch h) ?_, fun _ h => (nomatch h), fun _ => hstatus'⟩
      intro hall
      have hread := (hall s hs).2
      rw [hfail] at hread
      cases hread
  · generalize sendAll data status shards = first at *
    obtain ⟨status, sent⟩ := first
    replace hstatus : status.ok = false := hstatus
    simp only [hstatus]
    refine ⟨_, rfl, iff_of_false (fun h => nomatch h) ?_, fun _ h => (nomatch h), fun _ => hstatus⟩
    intro hall
    have hsend := (hall s hs).1
    rw [hfail] at hsend
    cases hsend

/-- The answer of a shard with a key of one letter, read from a buffer of 32 bytes. -/
def answeringShard (serverfd : Int) (letter : UInt8) : ShardServer where
  serverfd := serverfd
  send := .Ok
  read := (.Ok, [19, 0, 0, 0, 3, 0, 2, 0, 0, 0, 79, 75, 1, 0, 0, 0, 1, 0, 0, 0, letter, 0, 0])

theorem answeringShard_answers :
    (answeringShard 5 97).Answers [[97]] ∧ (answeringShard 6 98).Answers [[98]] := by
  constructor
  · intro _
    exact ⟨{ bytes := List.replicate 32 0 }, _, _, by decide, by decide, rfl, by decide⟩
  · intro _
    exact ⟨{ bytes := List.replicate 32 0 }, _, _, by decide, by decide, rfl, by decide⟩

/-- The connection to this one ends before its answer. -/
def lostShard : ShardServer where
  serverfd := 6
  send := .Ok
  read := (.Eof, [])

theorem lostShard_answers : lostShard.Answers [[98]] := by
  intro h
  cases h

/-- Two shards answer "a" and "b"; or the second does not answer. -/
theorem getAll_allOrNothing_answered :
    (∃ run, handleGetAll (fun _ => { bytes := List.replicate 64 0 }) .Ok
        [answeringShard 5 97, answeringShard 6 98] .Ok [5, 0, 0, 0, 3, 0, 0, 0, 0] = some run ∧
      run.toClient.isSome = true ∧
      (∀ packet, run.toClient = some packet →
        (run.sent = [(5, [5, 0, 0, 0, 3, 0, 0, 0, 0]), (6, [5, 0, 0, 0, 3, 0, 0, 0, 0])]) ∧
        ∀ tail, ∃ q, createResponsePacket (packet ++ tail) = .ok (some (.getAll q)) ∧
          q.status = .Ok ∧ q.keys.map Slice.toStr = [[97], [98]])) ∧
    ∃ run, handleGetAll (fun _ => { bytes := List.replicate 64 0 }) .Ok
        [answeringShard 5 97, lostShard] .Ok [5, 0, 0, 0, 3, 0, 0, 0, 0] = some run ∧
      run.toClient.isSome = false ∧ run.status.ok = false := by
  have hok : Status.Ok.ok = true := rfl
  constructor
  · obtain ⟨run, hrun, hsent, hpacket, -⟩ := getAll_allOrNothing
      (.cons answeringShard_answers.1 (.cons answeringShard_answers.2 .nil))
      (fun _ => { bytes := List.replicate 64 0 }) (fun _ => ⟨by decide, by decide⟩) hok .Ok
      [5, 0, 0, 0, 3, 0, 0, 0, 0]
    refine ⟨run, hrun, hsent.2 ?_, hpacket⟩
    intro s hs
    rcases List.mem_pair.1 hs with rfl | rfl
    · exact ⟨rfl, rfl⟩
    · exact ⟨rfl, rfl⟩
  · obtain ⟨run, hrun, hsent, -, hnone⟩ := getAll_allOrNothing
      (.cons answeringShard_answers.1 (.cons lostShard_answers .nil))
      (fun _ => { bytes := List.replicate 64 0 }) (fun _ => ⟨by decide, by decide⟩) hok .Ok
      [5, 0, 0, 0, 3, 0, 0, 0, 0]
    have hnot : run.toClient = none := by
      rw [← Option.not_isSome_iff_eq_none, hsent]
      intro hall
      have hread := (hall lostShard (List.mem_cons_of_mem _ List.mem_cons_self)).2
      cases hread
    exact ⟨run, hrun, by rw [hnot]; rfl, hnone hnot⟩

end SqpKv
