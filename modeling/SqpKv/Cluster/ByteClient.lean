import SqpKv.Cluster.ByteSteps

/-!
# The client, the workers and the network on the two levels of a session

The call of the lower level that ends a step of the upper one is the first call
of the client, its last read, and for a shard's worker the read behind which it
calls RocksDB; nothing else is seen above.
-/

namespace SqpKv

open Wire

/-- A session that is in no call is at rest. -/
theorem Session.Shape.at_rest {n : Nat} {t : Session n} {st : Session.Stage} (h : t.Shape st)
    (hp : t.pending = none) : t.up = [] ∧ t.down = [] := by
  cases h with
  | idle _ hu _ hd => exact ⟨hu, hd⟩
  | _ =>
    rename t.pending = some _ => hp'
    rw [hp] at hp'
    cases hp'

/-- A connection changes its ends and carries the same. -/
theorem ByteSession.same_lane {n : Nat} {s : ByteSession n} {i : Fin n} {link : Link} {k : KvLoop}
    (hlane : ByteLane.of link k = s.lane i) (j : Fin n) :
    ByteLane.of (Function.update s.proxy.link i link j) (Function.update s.shard i k j) = s.lane j := by
  by_cases hj : j = i
  · subst hj
    rwa [Function.update_self, Function.update_self]
  · rw [Function.update_of_ne hj, Function.update_of_ne hj]
    rfl

namespace ByteSession.Matches

variable {n : Nat} {lost : Prop} {s : ByteSession n} {t : Session n} {left sofar got : List Bytes}
  {todo : Fin n → Todo} {taken : Fin n → List Bytes} (h : s.Matches lost t left sofar got todo taken)
  {e : ByteEnv} {r w : Call}

include h

/-! ## The client -/

/-- A call begins. -/
theorem call {c : Command} (hfailed : s.client.control ≠ .failed) (hc : c.Routed n)
    (hbuilds : e.BuildsCommand c) {client : ClientLoop} (hs : s.client.call e.client c = some client)
    {st : Session.Stage}
    (hshape : t.Shape st) :
    ∃ t', t.call c = some t' ∧ ({ s with client } : ByteSession n).Rel lost t' := by
  obtain ⟨hsize, hroom⟩ := hbuilds
  obtain ⟨hidle, rfl⟩ := ClientLoop.call_eq (commandBytes_eq hsize hroom) hfailed hs
  have hclient := h.client
  rw [hidle] at hclient
  cases hclient with
  | idle hp hleft hsofar hps =>
    obtain ⟨hu, hd⟩ := hshape.at_rest hp
    refine ⟨{ t with pending := some c, up := [c] }, ?_, pieces c.encoding, sofar, got, todo, taken,
      h.calls, h.begins, .sending rfl hd (pieces_ne_nil _) hsofar hps, h.control, ?_, h.lanes⟩
    · unfold Session.call
      rw [hp, hu]
      rfl
    · have hup := h.up
      rw [hu] at hup
      cases hup with
      | none hnil =>
        refine .some hc hsize ?_
        show got ++ s.up ++ _ = _
        rw [hnil]
        rfl

/-- The client writes a piece of its command, or gives up. -/
theorem client_writes {c : Command} {left' : List Bytes} (hc : s.client.control = .sending c left')
    {client : ClientLoop} {ret : Option (Command × CallResult)}
    (hs : s.client.step e.client r w = some (client, ret)) (hcall : lost ∨ w = .done) :
    ret = none ∧ ({ s with client } : ByteSession n).Rel lost t := by
  obtain ⟨bs, rest, rfl, rfl, rfl⟩ := ClientLoop.step_sending hs hc
  have hclient := h.client
  rw [hc] at hclient
  cases hclient with
  | sending hp hd _ hsofar hps =>
    refine ⟨rfl, ?_⟩
    obtain ⟨c', hkey, hsize, hall, hup⟩ : ∃ c' : Command, c'.Routed n ∧ c'.encoding.length < 2 ^ 32 ∧
        got ++ s.up ++ bs :: rest = pieces c'.encoding ∧ t.up = [c'] := by
      have hup := h.up
      generalize t.up = up at hup
      cases hup with
      | none _ hleft => cases hleft
      | some hkey hsize hall => exact ⟨_, hkey, hsize, hall, rfl⟩
    by_cases hw : w.written bs ≤ 0
    · rw [if_pos hw]
      refine ⟨bs :: rest, sofar, got, todo, taken, h.calls, h.begins, .failed ?_, h.control, h.up,
        h.lanes⟩
      exact hcall.resolve_right (Call.ne_done_of_written (piece_of_packet hall).1 hw)
    · rw [if_neg hw]
      refine ⟨rest, sofar, got, todo, taken, h.calls, h.begins, ?_, h.control, ?_, h.lanes⟩
      · show ClientRel lost t.pending t.down rest sofar s.down (if rest = [] then _ else _)
        by_cases hrest : rest = []
        · rw [if_pos hrest]
          refine .reading hp hrest (ReadState.init_reads e.alloc) ?_
          rw [hps, hsofar, hd]
          exact .none rfl
        · rw [if_neg hrest]
          exact .sending hp hd hrest hsofar hps
      · rw [hup]
        refine .some hkey hsize ?_
        show got ++ (s.proxy.fromClient ++ (s.client.toServer ++ [bs])) ++ rest = _
        rw [← hall]
        simp [ByteSession.up]

/-- The client reads a piece of a response: with the last one its call returns. -/
theorem client_reads {c : Command} {packet : ReadState} (hc : s.client.control = .reading c packet)
    {client : ClientLoop} {ret : Option (Command × CallResult)}
    (hs : s.client.step e.client r w = some (client, ret)) (hcall : lost ∨ r = .done)
    (hfinish : ∀ c r, t.pending = some c → t.down = [r] → ∃ res, Connection.finish c r = some res) :
    (ret = none ∧ ({ s with client } : ByteSession n).Rel lost t) ∨
      ∃ c res t', ret = some (c, res) ∧ t.result = some (c, res, t') ∧
        ({ s with client } : ByteSession n).Rel lost t' := by
  obtain ⟨result, took, fromServer, hread, heq⟩ := ClientLoop.step_reading hs hc
  have hclient := h.client
  rw [hc] at hclient
  cases hclient with
  | @reading _ _ got' hp hleft hgot hd =>
    rcases Call.read_cases hread with ⟨p, hqueue, rfl, -⟩ | ⟨hr, hgives, rfl, -⟩
    · have hdown : s.down = p :: (fromServer ++ s.proxy.toClient.map Written.bytes) := by
        show s.client.fromServer ++ _ = _
        rw [hqueue, List.cons_append]
      have more : ∀ packet', (readWholePacket e.client.alloc e.client.errorText).deliver packet
          (.data (id p)) = .inl packet' → packet'.Reads (got' ++ [p]) →
          ret = none ∧ ({ s with client } : ByteSession n).Rel lost t := by
        intro packet' hdeliver hgot'
        rw [hdeliver] at heq
        cases heq
        refine ⟨rfl, left, sofar, got, todo, taken, h.calls, h.begins, .reading hp hleft hgot' ?_,
          h.control, h.up, h.lanes⟩
        rw [hdown] at hd
        simpa [ByteSession.down] using hd
      rw [hdown] at hd
      generalize hdownmsg : t.down = down at hd
      cases hd with
      | none hps =>
        have hbegins := h.begins
        rw [← hps, List.append_cons] at hbegins
        obtain ⟨packet', hdeliver, hgot'⟩ := hgot.more e.alloc e.errorText hbegins.left
        exact .inl (more packet' hdeliver hgot')
      | @some resp data hsofar hps hdata =>
        rcases hgot.piece e.alloc e.errorText hps with ⟨hnil, hdeliver⟩ | ⟨-, packet', hdeliver, hgot'⟩
        · obtain ⟨q, hq, rfl⟩ := hdata (terminator data)
          obtain ⟨res, hres⟩ := hfinish c _ hp hdownmsg
          have hdeliver' : (readWholePacket e.client.alloc e.client.errorText).deliver packet
              (.data (id p)) = .inr (.Ok, data ++ terminator data) := hdeliver
          rw [hdeliver', ClientLoop.serverRead_response _ hq hres] at heq
          cases heq
          refine .inr ⟨c, res, { t with calls := t.calls + 1, pending := none, down := [] }, rfl, ?_,
            left, sofar, got, todo, taken, congrArg (· + 1) h.calls, h.begins, ?_, h.control, h.up,
            h.lanes⟩
          · unfold Session.result
            rw [hp, hdownmsg]
            simp only [hres]
            rfl
          · exact .idle rfl hleft hsofar hnil
        · exact .inl (more packet' hdeliver hgot')
    · obtain ⟨status, hdeliver, hok, -⟩ := readWholePacket_givesUp e.alloc e.errorText packet hgives
      have hdeliver' : (readWholePacket e.client.alloc e.client.errorText).deliver packet result =
          .inr (status, []) := hdeliver
      rw [hdeliver', ClientLoop.serverRead_failed _ _ hok] at heq
      cases heq
      exact .inl ⟨rfl, left, sofar, got, todo, taken, h.calls, h.begins,
        .failed (hcall.resolve_right hr), h.control, h.up, h.lanes⟩

/-- **A step of the client**: its call returns, or both levels are as before. -/
theorem clientStep {client : ClientLoop} {ret : Option (Command × CallResult)}
    (hs : s.client.step e.client r w = some (client, ret)) (hcall : lost ∨ (r = .done ∧ w = .done))
    (hfinish : ∀ c r, t.pending = some c → t.down = [r] → ∃ res, Connection.finish c r = some res) :
    (ret = none ∧ ({ s with client } : ByteSession n).Rel lost t) ∨
      ∃ c res t', ret = some (c, res) ∧ t.result = some (c, res, t') ∧
        ({ s with client } : ByteSession n).Rel lost t' := by
  cases hc : s.client.control with
  | sending c left' => exact .inl (h.client_writes hc hs (hcall.imp_right And.right))
  | reading c packet => exact h.client_reads hc hs (hcall.imp_right And.left) hfinish
  | idle => exact absurd hc (ClientLoop.step_running hs).1
  | failed => exact absurd hc (ClientLoop.step_running hs).2.1
  | crashed => exact absurd hc (ClientLoop.step_running hs).2.2

/-! ## A shard's worker -/

/-- **A step of a worker**: it has a command and answers it, or both levels are as before. -/
theorem workerStep {i : Fin n} {db : Store} {k : KvLoop}
    (hs : (s.shard i).workerStep (e.kv db) r w = some k) (hcall : lost ∨ (r = .done ∧ w = .done))
    (hfits : ∀ c, (s.shard i).command (e.kv db) r = some c →
      e.BuildsResponse (KvWorker.handle e.notFound db c).2) :
    ((s.shard i).command (e.kv db) r = none ∧ (s.setShard i k).Rel lost t) ∨
      ∃ c t₁ t₂ t₃, (s.shard i).command (e.kv db) r = some c ∧ t.workerRead i = some t₁ ∧
        (t₁.lane i).worker = .got c ∧ t₁.workerExec e.notFound i db = some ((KvWorker.handle e.notFound db c).1, t₂) ∧
        t₂.workerSend i = some t₃ ∧ (s.setShard i k).Rel lost t₃ := by
  have hlane : ∀ j, j ≠ i → (s.setShard i k).lane j = s.lane j := by
    intro j hj
    show ByteLane.of _ (Function.update s.shard i k j) = _
    rw [Function.update_of_ne hj]
    rfl
  have hself : (s.setShard i k).lane i = .of (s.proxy.link i) k := by
    show ByteLane.of _ (Function.update s.shard i k i) = _
    rw [Function.update_self]
    rfl
  rcases (h.lanes i).workerStep hs hcall hfits with ⟨hnone, hi⟩ | ⟨c, hcommand, hl, hi⟩
  · refine .inl ⟨hnone, left, sofar, got, todo, taken, h.calls, h.begins, h.client, h.control, h.up, ?_⟩
    intro j
    by_cases hj : j = i
    · subst hj
      rw [hself]
      exact hi
    · rw [hlane j hj]
      exact h.lanes j
  · have hr : t.workerRead i = some (t.setLane i ⟨[], .got c, []⟩) := by
      unfold Session.workerRead
      rw [hl]
      rfl
    have hx : (t.setLane i ⟨[], .got c, []⟩).workerExec e.notFound i db =
        some ((KvWorker.handle e.notFound db c).1,
          (t.setLane i ⟨[], .got c, []⟩).setLane i
            ⟨[], .reply (KvWorker.handle e.notFound db c).2, []⟩) := by
      unfold Session.workerExec
      rw [Session.setLane_lane_self]
      rfl
    have hw : ((t.setLane i ⟨[], .got c, []⟩).setLane i
          ⟨[], .reply (KvWorker.handle e.notFound db c).2, []⟩).workerSend i =
        some (((t.setLane i ⟨[], .got c, []⟩).setLane i
          ⟨[], .reply (KvWorker.handle e.notFound db c).2, []⟩).setLane i
            ⟨[], .idle, [(KvWorker.handle e.notFound db c).2.decoded]⟩) := by
      unfold Session.workerSend
      rw [Session.setLane_lane_self]
      rfl
    have hgot : ((t.setLane i ⟨[], .got c, []⟩).lane i).worker = .got c := by
      rw [Session.setLane_lane_self]
    refine .inr ⟨c, _, _, _, hcommand, hr, hgot, hx, hw, left, sofar, got, todo, taken, h.calls, h.begins,
      h.client, h.control, h.up, ?_⟩
    intro j
    by_cases hj : j = i
    · subst hj
      rw [hself, Session.setLane_lane_self]
      exact hi
    · rw [hlane j hj, Session.setLane_lane_of_ne hj, Session.setLane_lane_of_ne hj,
        Session.setLane_lane_of_ne hj]
      exact h.lanes j

/-! ## The network -/

/-- A session in which the threads are as they were and every connection carries the same. -/
theorem same {s' : ByteSession n} (hclient : s'.client.control = s.client.control)
    (hcalls : s'.client.calls = s.client.calls) (hproxy : s'.proxy.control = s.proxy.control)
    (hup : s'.up = s.up) (hdown : s'.down = s.down) (hlane : ∀ j, s'.lane j = s.lane j) :
    s'.Rel lost t := by
  refine ⟨left, sofar, got, todo, taken, hcalls.trans h.calls, h.begins, ?_, ?_, ?_, ?_⟩
  · rw [hclient, hdown]
    exact h.client
  · rw [hproxy]
    exact h.control
  · rw [hup]
    exact h.up
  · intro j
    rw [hlane j]
    exact h.lanes j

/-- **What the network carries** stays where it is for both levels. -/
theorem carry {a : Action n} {s' : ByteSession n} (hs : s.carry a = some s') : s'.Rel lost t := by
  cases a with
  | carryUp =>
    unfold ByteSession.carry at hs
    cases hq : s.client.toServer with
    | nil =>
      simp only [hq] at hs
      cases hs
    | cons bs rest =>
      simp only [hq] at hs
      cases hs
      refine h.same rfl rfl rfl ?_ rfl fun j => rfl
      show (s.proxy.fromClient ++ [bs]) ++ rest = s.proxy.fromClient ++ s.client.toServer
      rw [hq, List.append_assoc]
      rfl
  | carryDown =>
    unfold ByteSession.carry at hs
    cases hq : s.proxy.toClient with
    | nil =>
      simp only [hq] at hs
      cases hs
    | cons p rest =>
      simp only [hq] at hs
      cases hs
      refine h.same rfl rfl rfl rfl ?_ fun j => rfl
      show (s.client.fromServer ++ [p.bytes]) ++ rest.map Written.bytes =
        s.client.fromServer ++ s.proxy.toClient.map Written.bytes
      rw [hq, List.append_assoc]
      rfl
  | carryToShard i =>
    unfold ByteSession.carry at hs
    cases hq : (s.proxy.link i).toShard with
    | nil =>
      simp only [hq] at hs
      cases hs
    | cons p rest =>
      simp only [hq] at hs
      cases hs
      refine h.same rfl rfl rfl rfl rfl (same_lane ?_)
      simp [ByteSession.lane, ByteLane.of, hq]
  | carryToProxy i =>
    unfold ByteSession.carry at hs
    cases hq : (s.shard i).toClient with
    | nil =>
      simp only [hq] at hs
      cases hs
    | cons p rest =>
      simp only [hq] at hs
      cases hs
      refine h.same rfl rfl rfl rfl rfl (same_lane ?_)
      simp [ByteSession.lane, ByteLane.of, hq]
  | client r w => cases hs
  | proxy r w => cases hs
  | worker i r w => cases hs

end ByteSession.Matches

end SqpKv
