import SqpKv.Cluster.Lanes
import SqpKv.Server.ScanFailure

/-!
# The steps of a session on its two levels
-/

namespace SqpKv

open Wire

/-! ## The worker of a shard -/

namespace KvLoop

variable {e : KvEnv} {r w : Call} {s t : KvLoop} (hs : s.workerStep e r w = some t)

include hs

theorem workerStep_head {err : Bool} (hc : s.control = .head err) :
    t = { s with control := if err then .returned else .reading (.init e.alloc) } := by
  simp only [workerStep, hc] at hs
  cases err with
  | true => exact (Option.some.inj hs).symm
  | false => exact (Option.some.inj hs).symm

theorem workerStep_reading {packet : ReadState} (hc : s.control = .reading packet) :
    ∃ result taken fromClient, r.read id s.fromClient = some (result, taken, fromClient) ∧
      t = { s with fromClient }.clientRead e
        ((readWholePacket e.alloc e.errorText).deliver packet result) := by
  simp only [workerStep, hc] at hs
  obtain ⟨⟨result, taken, fromClient⟩, hread, hs⟩ := Option.bind_eq_some_iff.1 hs
  exact ⟨result, taken, fromClient, hread, (Option.some.inj hs).symm⟩

theorem workerStep_sending {left : List Bytes} (hc : s.control = .sending left) :
    ∃ bs rest, left = bs :: rest ∧
      t = if w.written bs ≤ 0 then { s with control := .head true }
        else { s with
          toClient := s.toClient ++ [(s.served, bs)]
          control := if rest = [] then .head false else .sending rest } := by
  simp only [workerStep, hc] at hs
  cases left with
  | nil => cases hs
  | cons bs rest =>
    refine ⟨bs, rest, rfl, ?_⟩
    dsimp only at hs
    by_cases hw : w.written bs ≤ 0
    · rw [if_pos hw] at hs ⊢
      exact (Option.some.inj hs).symm
    · rw [if_neg hw] at hs ⊢
      exact (Option.some.inj hs).symm

theorem workerStep_running : s.control ≠ .returned ∧ s.control ≠ .crashed := by
  constructor
  · intro hc
    simp only [workerStep, hc] at hs
    cases hs
  · intro hc
    simp only [workerStep, hc] at hs
    cases hs

end KvLoop

theorem KvLoop.command_reading {e : KvEnv} {r : Call} {s : KvLoop} {packet : ReadState}
    {result : ReadResult} {taken fromClient : List Bytes} (hc : s.control = .reading packet)
    (hread : r.read id s.fromClient = some (result, taken, fromClient)) :
    s.command e r =
      match (readWholePacket e.alloc e.errorText).deliver packet result with
      | .inl _ => none
      | .inr read =>
        match KvWorker.receive read with
        | .ok packet => packet.map CommandPacket.command
        | .error _ => none := by
  simp only [command, hc, hread]
  rfl

theorem KvLoop.command_of_control {e : KvEnv} {r : Call} {s : KvLoop}
    (hc : ∀ packet, s.control ≠ .reading packet) : s.command e r = none := by
  unfold command
  split
  · next packet h => exact absurd h (hc packet)
  · rfl

/-- A shard's worker, or the proxy, decodes what `SendPacket` has written of a command. -/
theorem KvWorker.receive_encoding {c : Command} (hsize : c.encoding.length < 2 ^ 32) (tail : Bytes) :
    ∃ q, KvWorker.receive (.Ok, c.encoding ++ tail) = .ok (some q) ∧ q.command = c := by
  obtain ⟨q, hq, hc, -⟩ := createCommandPacket_encoding c hsize tail
  refine ⟨q, ?_, hc⟩
  show receivePacket (.Ok, c.encoding ++ tail) = _
  rw [receivePacket_ok, hq]
  rfl

/-- The worker builds a response that decodes to what the store answers. -/
theorem KvLoop.start_sends {e : ByteEnv} {db : Store} (s : KvLoop) {q : CommandPacket}
    (hbuilds : e.BuildsResponse (KvWorker.handle e.notFound db q.command).2) :
    ∃ data, DecodesTo data (KvWorker.handle e.notFound db q.command).2.decoded ∧
      s.start (e.kv db) q = { s with served := s.served + 1, control := .sending (pieces data) } := by
  rw [KvWorker.handle_respond] at hbuilds ⊢
  obtain ⟨hsize, hroom⟩ := hbuilds
  obtain ⟨p, out, hp, hsent⟩ := Response.sent_decoded
    (Rocks.respond_fromServer (.ofStore e.notFound db) q.command).payload_le hsize hroom
  refine ⟨sentBytes p out, hsent, ?_⟩
  have hp' : (KvWorker.respond ((e.kv db).rocks (s.served + 1)) q.command).encode
      (some ((e.kv db).fresh (KvWorker.respond ((e.kv db).rocks (s.served + 1)) q.command))) =
        .ok (p, some out) := hp
  simp only [KvLoop.start, hp']

namespace LaneRel

variable {lost : Prop} {l : Lane} {todo : Todo} {taken : List Bytes} {link : Link} {k k' : KvLoop}
  {e : ByteEnv} {db : Store} {r w : Call}

/-- The command that a worker carries out is all that there is on its lane. -/
theorem of_command (h : LaneRel lost (.of link k) l todo taken) {c : Command}
    (hcommand : k.command (e.kv db) r = some c) : l = ⟨[c], .idle, []⟩ := by
  cases hc : k.control with
  | reading packet =>
    cases hread : r.read id k.fromClient with
    | none =>
      simp only [KvLoop.command, hc, hread] at hcommand
      cases hcommand
    | some x =>
      obtain ⟨result, got, fromClient⟩ := x
      rw [KvLoop.command_reading (e := e.kv db) hc hread] at hcommand
      rcases Call.read_cases hread with ⟨p, hqueue, rfl, -⟩ | ⟨-, hgives, -, -⟩
      · have hto : (ByteLane.of link k).toShard = p :: (fromClient ++ link.toShard.map Piece.bytes) := by
          show k.fromClient ++ _ = _
          rw [hqueue, List.cons_append]
        rcases h.worker_reads hc hto e.alloc e.errorText with ⟨packet', hd, -⟩ | ⟨c', hd, hsize, -, -, hl, -⟩
        · replace hd : (readWholePacket (e.kv db).alloc (e.kv db).errorText).deliver packet
            (.data (id p)) = .inl packet' := hd
          rw [hd] at hcommand
          cases hcommand
        · obtain ⟨q, hq, rfl⟩ := KvWorker.receive_encoding hsize (terminator c'.encoding)
          replace hd : (readWholePacket (e.kv db).alloc (e.kv db).errorText).deliver packet
            (.data (id p)) = .inr (.Ok, q.command.encoding ++ terminator q.command.encoding) := hd
          rw [hd] at hcommand
          simp only [hq] at hcommand
          cases hcommand
          exact hl
      · obtain ⟨status, hd, -, hgive⟩ := readWholePacket_givesUp e.alloc e.errorText packet hgives
        replace hd : (readWholePacket (e.kv db).alloc (e.kv db).errorText).deliver packet result =
          .inr (status, []) := hd
        have hnone : KvWorker.receive (status, []) = .ok none := receivePacket_failed hgive []
        rw [hd] at hcommand
        simp only [hnone] at hcommand
        cases hcommand
  | _ =>
    rw [KvLoop.command_of_control fun packet h => by rw [hc] at h; cases h] at hcommand
    cases hcommand

/-- The worker reads: it has the command when it has all of it. -/
theorem workerStep_reading (h : LaneRel lost (.of link k) l todo taken) {packet : ReadState}
    (hc : k.control = .reading packet) (hs : k.workerStep (e.kv db) r w = some k')
    (hcall : lost ∨ r = .done)
    (hfits : ∀ c, k.command (e.kv db) r = some c →
      e.BuildsResponse (KvWorker.handle e.notFound db c).2) :
    (k.command (e.kv db) r = none ∧ LaneRel lost (.of link k') l todo taken) ∨
      ∃ c, k.command (e.kv db) r = some c ∧ l = ⟨[c], .idle, []⟩ ∧
        LaneRel lost (.of link k') ⟨[], .idle, [(KvWorker.handle e.notFound db c).2.decoded]⟩ todo
          taken := by
  obtain ⟨result, got, fromClient, hread, rfl⟩ := KvLoop.workerStep_reading hs hc
  have hcommand := KvLoop.command_reading (e := e.kv db) hc hread
  rcases Call.read_cases hread with ⟨p, hqueue, rfl, -⟩ | ⟨hr, hgives, rfl, -⟩
  · have hto : (ByteLane.of link k).toShard = p :: (fromClient ++ link.toShard.map Piece.bytes) := by
      show k.fromClient ++ _ = _
      rw [hqueue, List.cons_append]
    rcases h.worker_reads hc hto e.alloc e.errorText with
      ⟨packet', hd, h'⟩ | ⟨c, hd, hsize, hnil, hfrom, rfl, rfl, rfl⟩
    · replace hd : (readWholePacket (e.kv db).alloc (e.kv db).errorText).deliver packet
        (.data (id p)) = .inl packet' := hd
      rw [hd] at hcommand ⊢
      exact .inl ⟨hcommand, h'⟩
    · obtain ⟨q, hq, rfl⟩ := KvWorker.receive_encoding hsize (terminator c.encoding)
      replace hd : (readWholePacket (e.kv db).alloc (e.kv db).errorText).deliver packet
        (.data (id p)) = .inr (.Ok, q.command.encoding ++ terminator q.command.encoding) := hd
      rw [hd] at hcommand ⊢
      simp only [hq] at hcommand
      obtain ⟨data, hdata, hstart⟩ := KvLoop.start_sends { k with fromClient } (hfits _ hcommand)
      have hread' : KvLoop.clientRead (e.kv db) { k with fromClient }
          (.inr (.Ok, q.command.encoding ++ terminator q.command.encoding)) =
          KvLoop.start (e.kv db) { k with fromClient } q := by
        simp only [KvLoop.clientRead, hq]
      rw [hread', hstart]
      refine .inr ⟨_, hcommand, rfl, worker_answers rfl ?_ ?_ hdata⟩
      · exact hnil
      · exact hfrom
  · obtain ⟨status, hd, -, hgive⟩ := readWholePacket_givesUp e.alloc e.errorText packet hgives
    replace hd : (readWholePacket (e.kv db).alloc (e.kv db).errorText).deliver packet result =
      .inr (status, []) := hd
    have hnone : KvWorker.receive (status, []) = .ok none := receivePacket_failed hgive []
    rw [hd] at hcommand ⊢
    simp only [hnone] at hcommand
    have hleave : KvLoop.clientRead (e.kv db) { k with fromClient := k.fromClient }
        (.inr (status, [])) = { k with control := .returned } := by
      simp only [KvLoop.clientRead, hnone]
    rw [hleave]
    refine .inl ⟨hcommand, ?_⟩
    exact h.worker_leaves (hcall.resolve_right hr) hc (w := .returned) trivial

/-- **A step of the worker of a shard**: it has a command and answers it, or both levels are as before. -/
theorem workerStep (h : LaneRel lost (.of link k) l todo taken)
    (hs : k.workerStep (e.kv db) r w = some k') (hcall : lost ∨ (r = .done ∧ w = .done))
    (hfits : ∀ c, k.command (e.kv db) r = some c →
      e.BuildsResponse (KvWorker.handle e.notFound db c).2) :
    (k.command (e.kv db) r = none ∧ LaneRel lost (.of link k') l todo taken) ∨
      ∃ c, k.command (e.kv db) r = some c ∧ l = ⟨[c], .idle, []⟩ ∧
        LaneRel lost (.of link k') ⟨[], .idle, [(KvWorker.handle e.notFound db c).2.decoded]⟩ todo
          taken := by
  cases hc : k.control with
  | head err =>
    have hnone : k.command (e.kv db) r = none := KvLoop.command_of_control fun packet h => by
      rw [hc] at h
      cases h
    obtain rfl := KvLoop.workerStep_head hs hc
    refine .inl ⟨hnone, h.worker_goes ?_ ?_ ?_⟩
    · intro got hgot
      rw [show (ByteLane.of link k).worker = .head err from hc] at hgot
      obtain ⟨rfl, rfl⟩ := hgot
      exact ReadState.init_reads e.alloc
    · intro hgone
      rw [show (ByteLane.of link k).worker = .head err from hc] at hgone
      have herr : err = true := hgone
      rw [herr]
      trivial
    · intro rest hsend
      rw [show (ByteLane.of link k).worker = .head err from hc] at hsend
      cases hsend
  | reading packet => exact h.workerStep_reading hc hs (hcall.imp_right And.left) hfits
  | sending left =>
    have hnone : k.command (e.kv db) r = none := KvLoop.command_of_control fun packet h => by
      rw [hc] at h
      cases h
    obtain ⟨bs, rest, rfl, rfl⟩ := KvLoop.workerStep_sending hs hc
    refine .inl ⟨hnone, ?_⟩
    by_cases hw : w.written bs ≤ 0
    · rw [if_pos hw]
      refine h.worker_fails (w := .head true) ?_ hc rfl
      exact hcall.resolve_right fun hdone => Call.ne_done_of_written (h.sending_pos hc) hw hdone.2
    · rw [if_neg hw]
      have h' := h.worker_writes hc
      simpa [ByteLane.of] using h'
  | returned => exact absurd hc (KvLoop.workerStep_running hs).1
  | crashed => exact absurd hc (KvLoop.workerStep_running hs).2

end LaneRel

/-! ## The client -/

namespace ClientLoop

variable {e : ClientEnv} {r w : Call} {s t : ClientLoop} {ret : Option (Command × CallResult)}

theorem call_idle {c : Command} {data : Bytes} (hdata : commandBytes (e.fresh c) c = .ok data)
    (hc : s.control = .idle) :
    s.call e c = some { s with control := .sending c (pieces data) } := by
  simp only [call, hc, build, hdata]

theorem call_eq {c : Command} {data : Bytes} (hdata : commandBytes (e.fresh c) c = .ok data)
    (hfailed : s.control ≠ .failed) (hs : s.call e c = some t) :
    s.control = .idle ∧ t = { s with control := .sending c (pieces data) } := by
  have hidle : s.control = .idle := by
    unfold call at hs
    split at hs
    · assumption
    · contradiction
    · cases hs
  rw [call_idle hdata hidle] at hs
  exact ⟨hidle, (Option.some.inj hs).symm⟩

section

variable (hs : s.step e r w = some (t, ret))

include hs

theorem step_sending {c : Command} {left : List Bytes} (hc : s.control = .sending c left) :
    ∃ bs rest, left = bs :: rest ∧ ret = none ∧
      t = if w.written bs ≤ 0 then { s with control := .failed }
        else { s with
          toServer := s.toServer ++ [bs]
          control := if rest = [] then .reading c (.init e.alloc) else .sending c rest } := by
  simp only [step, hc] at hs
  cases left with
  | nil => cases hs
  | cons bs rest =>
    refine ⟨bs, rest, rfl, ?_⟩
    dsimp only at hs
    by_cases hw : w.written bs ≤ 0
    · rw [if_pos hw] at hs ⊢
      cases hs
      exact ⟨rfl, rfl⟩
    · rw [if_neg hw] at hs ⊢
      cases hs
      exact ⟨rfl, rfl⟩

theorem step_reading {c : Command} {packet : ReadState} (hc : s.control = .reading c packet) :
    ∃ result taken fromServer, r.read id s.fromServer = some (result, taken, fromServer) ∧
      (t, ret) = { s with fromServer }.serverRead c
        ((readWholePacket e.alloc e.errorText).deliver packet result) := by
  simp only [step, hc] at hs
  obtain ⟨⟨result, taken, fromServer⟩, hread, hs⟩ := Option.bind_eq_some_iff.1 hs
  exact ⟨result, taken, fromServer, hread, (Option.some.inj hs).symm⟩

theorem step_running : s.control ≠ .idle ∧ s.control ≠ .failed ∧ s.control ≠ .crashed := by
  refine ⟨?_, ?_, ?_⟩
  · intro hc
    simp only [step, hc] at hs
    cases hs
  · intro hc
    simp only [step, hc] at hs
    cases hs
  · intro hc
    simp only [step, hc] at hs
    cases hs

end

/-- A read that fails ends the use of the connection. -/
theorem serverRead_failed (s : ClientLoop) (c : Command) {status : Status} (h : status.ok = false) :
    s.serverRead c (.inr (status, [])) = ({ s with control := .failed }, none) := by
  have hread : readFromServer (status, []) = .ok (.ofStatus status) := by
    simp only [readFromServer, readFrom, h]
    rfl
  simp only [serverRead, hread, StatusOr.ok, StatusOr.ofStatus, h]
  rfl

/-- A response of the class that the call takes it for. -/
theorem serverRead_response (s : ClientLoop) {c : Command} {res : CallResult} {buf : Bytes}
    {q : AnyResponse} (hq : createResponsePacket buf = .ok (some q))
    (hfinish : Connection.finish c q.response = some res) :
    s.serverRead c (.inr (.Ok, buf)) =
      ({ s with control := .idle, calls := s.calls + 1 }, some (c, res)) := by
  have hread : readFromServer (.Ok, buf) = .ok (.ofPtr (some q)) := by
    simp only [readFromServer, readFrom, hq]
    rfl
  have hbind : ((some q).bind fun q => Connection.finish c q.response) = some res := hfinish
  simp only [serverRead, hread, StatusOr.ok, StatusOr.ofPtr, hbind]
  rfl

end ClientLoop

/-- The packet of a command is its encoding. -/
theorem commandBytes_eq {c : Command} {b : Block} (hsize : c.encoding.length < 2 ^ 32)
    (hroom : c.encoding.length ≤ b.bytes.length) : commandBytes b c = .ok c.encoding := by
  obtain ⟨p, hp, hpacket, -⟩ := Command.encode_block hsize hroom
  have hlen : c.payload.length + 4 = c.encoding.length := by
    rw [c.encoding_length]
    omega
  unfold commandBytes
  rw [hp]
  show Except.ok (((b.overwrite c.encoding).bytes).take (toUInt32 (p.toPacket.payloadSize + 4))) = _
  rw [hpacket]
  show Except.ok (((b.overwrite c.encoding).bytes).take (toUInt32 (c.payload.length + 4))) = _
  rw [hlen, toUInt32_of_lt hsize]
  show Except.ok ((c.encoding ++ b.bytes.drop c.encoding.length).take c.encoding.length) = _
  rw [List.take_left]

end SqpKv
