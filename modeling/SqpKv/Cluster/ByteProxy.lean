import SqpKv.Cluster.ByteClient

/-!
# The proxy on the two levels of a session

`HandleClient` of the lower level makes a step of the upper one when it reads
the last piece of a command, writes the last piece of a request or of its own
response, or reads the last piece of an answer; an answer that it forwards is
one step to read and one to relay.
-/

namespace SqpKv

open Wire

variable {n : Nat}

/-! ## What the control says -/

namespace ControlRel

variable {lost : Prop} {x : ProxyWorker n} {got sofar : List Bytes} {todo : Fin n → Todo}
  {taken : Fin n → List Bytes}

theorem of_head {status : Status} (h : ControlRel lost (.head status) x got sofar todo taken) :
    (x = .idle ∧ got = [] ∧ sofar = [] ∧ status.ok = true ∧ todo = (fun _ => none) ∧
      taken = fun _ => []) ∨ (lost ∧ status.ok = false) := by
  cases h with
  | idle hc => exact .inl ⟨rfl, hc.2, rfl, hc.1, rfl, rfl⟩
  | gone hlost hc => exact .inr ⟨hlost, hc⟩

theorem of_reading {packet : ReadState}
    (h : ControlRel lost (.reading packet) x got sofar todo taken) :
    x = .idle ∧ packet.Reads got ∧ sofar = [] ∧ todo = (fun _ => none) ∧
      taken = fun _ => [] := by
  cases h with
  | idle hc => exact ⟨rfl, hc, rfl, rfl, rfl⟩
  | gone _ hc => exact hc.elim

theorem of_dispatch {i : Fin n} {rest : List Bytes}
    (h : ControlRel lost (.dispatch i rest) x got sofar todo taken) :
    ∃ c, x = .dispatch c i ∧ got = [] ∧ sofar = [] ∧
      todo = Function.update (fun _ => none) i (some (c, rest)) ∧ taken = fun _ => [] := by
  cases h with
  | dispatch => exact ⟨_, rfl, rfl, rfl, rfl, rfl⟩
  | idle hc => exact hc.elim
  | gone _ hc => exact hc.elim

theorem of_forward {i : Fin n} (h : ControlRel lost (.forward i) x got sofar todo taken) :
    x = .forward i ∧ got = [] ∧ todo = (fun _ => none) ∧
      taken = Function.update (fun _ => []) i sofar := by
  cases h with
  | forward => exact ⟨rfl, rfl, rfl, rfl⟩
  | idle hc => exact hc.elim
  | gone _ hc => exact hc.elim

theorem of_fanOut {data : Bytes} {next : Nat} {rest : List Bytes}
    (h : ControlRel lost (.fanOut data next rest) x got sofar todo taken) :
    ∃ keyPrefix, x = .fanOut keyPrefix next ∧ got = [] ∧ sofar = [] ∧
      data = (Command.getAll keyPrefix).encoding ∧ (Command.getAll keyPrefix).encoding.length < 2 ^ 32 ∧
      todo = (fun j => if j.val = next then some (.getAll keyPrefix, rest) else none) ∧
      taken = fun _ => [] := by
  cases h with
  | fanOut hsize => exact ⟨_, rfl, rfl, rfl, rfl, hsize, rfl, rfl⟩
  | idle hc => exact hc.elim
  | gone _ hc => exact hc.elim

theorem of_collect {next : Nat} {packet : ReadState} {keys : List Bytes} {sources : List Nat}
    (h : ControlRel lost (.collect next packet keys sources) x got sofar todo taken) :
    ∃ took : List Bytes, x = .collect next keys ∧ got = [] ∧ sofar = [] ∧
      packet.Reads took ∧ todo = (fun _ => none) ∧
      taken = fun j => if j.val = next then took else [] := by
  cases h with
  | collect hgot => exact ⟨_, rfl, rfl, rfl, hgot, rfl, rfl⟩
  | idle hc => exact hc.elim
  | gone _ hc => exact hc.elim

theorem of_respond {rest : List Bytes} {sources : List Nat}
    (h : ControlRel lost (.respond rest sources) x got sofar todo taken) :
    ∃ keys data, x = .respond keys ∧ got = [] ∧ rest ≠ [] ∧ sofar ++ rest = pieces data ∧
      DecodesTo data (.getAll .Ok keys) ∧ todo = (fun _ => none) ∧ taken = fun _ => [] := by
  cases h with
  | respond hrest hps hdata => exact ⟨_, _, rfl, rfl, hrest, hps, hdata, rfl, rfl⟩
  | idle hc => exact hc.elim
  | gone _ hc => exact hc.elim

end ControlRel

/-! ## What the upper level adds -/

theorem Lane.At.eq_quiet {l : Lane} (h : l.At .quiet) : l = .quiet := by
  cases h
  rfl

namespace Session.Shape

variable {t : Session n} {st : Session.Stage} (h : t.Shape st)

include h

/-- While the proxy serves a command, nothing is on its way to it or to the client. -/
theorem serving (hx : t.proxy ≠ .idle) : ∃ c, t.pending = some c ∧ t.up = [] ∧ t.down = [] := by
  cases h with
  | idle _ _ hx' => exact absurd hx' hx
  | requested _ _ _ hx' => exact absurd hx' hx
  | arrived _ _ _ hx' => exact absurd hx' hx
  | scanRequested _ _ hx' => exact absurd hx' hx
  | scanned _ _ hx' => exact absurd hx' hx
  | dispatch _ _ hp hu _ hd => exact ⟨_, hp, hu, hd⟩
  | asked _ _ hp hu _ hd => exact ⟨_, hp, hu, hd⟩
  | answered _ hp hu _ hd => exact ⟨_, hp, hu, hd⟩
  | relay _ hp hu _ hd => exact ⟨_, hp, hu, hd⟩
  | fanOut hp hu _ hd => exact ⟨_, hp, hu, hd⟩
  | collect hp hu _ hd => exact ⟨_, hp, hu, hd⟩
  | respond hp hu _ hd => exact ⟨_, hp, hu, hd⟩

/-- Before it reads a command the connections to the shards are quiet. -/
theorem quiet_of_up {c : Command} {up : List Command} (hu : t.up = c :: up) (i : Fin n) :
    t.lane i = .quiet := by
  cases h with
  | requested _ _ _ _ _ hl => exact (hl i).eq_quiet
  | scanRequested _ _ _ _ hl => exact (hl i).eq_quiet
  | _ =>
    rename t.up = [] => hu'
    rw [hu] at hu'
    cases hu'

/-- The shards that a GetAll has still to be sent to. -/
theorem quiet_of_fanOut {keyPrefix : Bytes} {next : Nat} (hx : t.proxy = .fanOut keyPrefix next)
    (i : Fin n) (hi : next ≤ i) : t.lane i = .quiet := by
  cases h with
  | fanOut _ _ hx' _ _ hl =>
    rw [hx] at hx'
    cases hx'
    exact (hl i hi).eq_quiet
  | _ =>
    rename t.proxy = _ => hx'
    rw [hx] at hx'
    cases hx'

/-- The shards that a GetAll has still to be read from. -/
theorem answer_of_collect {next : Nat} {keys : List Bytes} (hx : t.proxy = .collect next keys)
    (i : Fin n) (hi : next ≤ i) {r : Response} (hl : t.lane i = ⟨[], .idle, [r]⟩) :
    ∃ more, r = .getAll .Ok more := by
  cases h with
  | collect _ _ hx' _ _ hasked =>
    rw [hx] at hx'
    cases hx'
    rcases hasked i hi with hat | ⟨more, hat⟩
    · rw [hl] at hat
      cases hat
    · rw [hl] at hat
      cases hat
      exact ⟨more, rfl⟩
  | _ =>
    rename t.proxy = _ => hx'
    rw [hx] at hx'
    cases hx'

end Session.Shape

/-! ## Connections -/

theorem ByteLane.of_write (l : Link) (k : KvLoop) (j : Nat) (bs : Bytes) :
    ByteLane.of (l.write ⟨j, bs⟩) k =
      { ByteLane.of l k with toShard := (ByteLane.of l k).toShard ++ [bs] } := by
  simp [ByteLane.of, Link.write]

namespace ClientRel

variable {lost : Prop} {c : Command} {left sofar ps : List Bytes} {ctl : ClientControl} {p : Bytes}

/-- The proxy writes a piece of a response. -/
theorem more (h : ClientRel lost (some c) [] left sofar ps ctl) (hleft : left = []) :
    ClientRel lost (some c) [] left (sofar ++ [p]) (ps ++ [p]) ctl := by
  cases h with
  | idle hp => cases hp
  | sending _ _ hne => exact absurd hleft hne
  | reading hp hleft hgot hd =>
    refine .reading hp hleft hgot ?_
    cases hd with
    | none hps =>
      refine .none ?_
      rw [← hps, List.append_assoc]
  | failed hlost => exact .failed hlost

/-- The proxy writes the last piece of a response. -/
theorem last (h : ClientRel lost (some c) [] left sofar ps ctl) (hleft : left = []) {data : Bytes}
    {r : Response} (hps : sofar ++ [p] = pieces data) (hdata : DecodesTo data r) :
    ClientRel lost (some c) [r] left [] (ps ++ [p]) ctl := by
  cases h with
  | idle hp => cases hp
  | sending _ _ hne => exact absurd hleft hne
  | reading hp hleft hgot hd =>
    refine .reading hp hleft hgot ?_
    cases hd with
    | none hps' =>
      refine .some rfl ?_ hdata
      rw [← hps, ← hps', List.append_assoc]
  | failed hlost => exact .failed hlost

end ClientRel

theorem UpRel.left_eq_nil {ps left : List Bytes} (h : UpRel n ps left []) : ps = [] ∧ left = [] := by
  cases h with
  | none hps hleft => exact ⟨hps, hleft⟩

/-- The proxy begins to send a command on the connections that `P` names. -/
theorem lanes_ask {lost : Prop} {v : Fin n → ByteLane} {l : Fin n → Lane} {c : Command}
    (hsize : c.encoding.length < 2 ^ 32) (h : ∀ j, LaneRel lost (v j) (l j) none [])
    {P : Fin n → Prop} [DecidablePred P] (hl : ∀ j, P j → l j = .quiet) (j : Fin n) :
    LaneRel lost (v j) (l j) (if P j then some (c, pieces c.encoding) else none) [] := by
  by_cases hj : P j
  · rw [if_pos hj]
    have hquiet := h j
    rw [hl j hj] at hquiet ⊢
    exact hquiet.proxy_asks hsize
  · rw [if_neg hj]
    exact h j

/-- One connection changes. -/
theorem lanes_update {lost : Prop} {link : Fin n → Link} {k : Fin n → KvLoop} {l : Fin n → Lane}
    {todo : Fin n → Todo} {taken : Fin n → List Bytes}
    (h : ∀ j, LaneRel lost (.of (link j) (k j)) (l j) (todo j) (taken j)) {i : Fin n} {x : Link}
    {y : Lane} {d : Todo} {b : List Bytes} (hi : LaneRel lost (.of x (k i)) y d b) (j : Fin n) :
    LaneRel lost (.of (Function.update link i x j) (k j)) (Function.update l i y j)
      (Function.update todo i d j) (Function.update taken i b j) := by
  by_cases hj : j = i
  · subst hj
    rw [Function.update_self, Function.update_self, Function.update_self, Function.update_self]
    exact hi
  · rw [Function.update_of_ne hj, Function.update_of_ne hj, Function.update_of_ne hj,
      Function.update_of_ne hj]
    exact h j

/-! ## The loop -/

/-- Steps of the proxy on the upper level. -/
abbrev Session.ProxySteps (t t' : Session n) : Prop :=
  Machine.Reachable (fun (t : Session n) (_ : Unit) => t.proxyStep) t t'

theorem Session.ProxySteps.single {t t' : Session n} (h : t.proxyStep = some t') : t.ProxySteps t' :=
  .step () .init h

/-- The command that was read goes to its shard, or to all in turn. -/
theorem ProxyLoop.start_encoding {c : Command} (hsize : c.encoding.length < 2 ^ 32) (tail : Bytes)
    (s : ProxyLoop n) :
    s.start (c.encoding ++ tail) =
      { s with
        served := s.served + 1
        control :=
          match c.key? with
          | none => .fanOut c.encoding 0 (pieces c.encoding)
          | some key =>
            match route n key with
            | some i => .dispatch i (pieces c.encoding)
            | none => .crashed } := by
  obtain ⟨q, hq, rfl, hp⟩ := createCommandPacket_encoding c hsize tail
  have hdata : q.toPacket.toBinary.toStr = q.command.encoding := by
    have hpayload : q.command.payload.length + 4 < 2 ^ 32 := by
      rw [q.command.encoding_length] at hsize
      omega
    obtain ⟨data, hptr, -, hstr⟩ := packetOf_toBinary hpayload
    rw [hp, Slice.toStr, hptr]
    exact hstr
  unfold ProxyLoop.start
  rw [hq]
  dsimp only
  generalize q.toPacket.toBinary.toStr = data at hdata
  subst hdata
  rfl

/-- The proxy has written to the client. -/
theorem ByteSession.down_written (s : ByteSession n) (x : Written) :
    s.client.fromServer ++ (s.proxy.toClient ++ [x]).map Written.bytes = s.down ++ [x.bytes] := by
  rw [List.map_append, ← List.append_assoc]
  rfl

namespace ByteSession.Matches

variable {lost : Prop} {s : ByteSession n} {t : Session n} {left sofar got : List Bytes}
  {todo : Fin n → Todo} {taken : Fin n → List Bytes} (h : s.Matches lost t left sofar got todo taken)
  {e : ByteEnv} {r w : Call} {p : ProxyLoop n}

include h

/-- The proxy has given up. -/
theorem proxy_gone (hlost : lost) (hp : p.control.Gone) (hfrom : p.fromClient = s.proxy.fromClient)
    (hto : p.toClient = s.proxy.toClient) (hlanes : ∀ j, ∃ d,
      LaneRel lost (.of (p.link j) (s.shard j)) (t.lane j) (todo j) d) :
    ({ s with proxy := p } : ByteSession n).Rel lost t := by
  choose d hd using hlanes
  refine ⟨left, sofar, got, todo, d, h.calls, h.begins, ?_, .gone hlost hp, ?_, hd⟩
  · show ClientRel lost t.pending t.down left sofar (s.client.fromServer ++ p.toClient.map _) _
    rw [hto]
    exact h.client
  · show UpRel n (got ++ (p.fromClient ++ s.client.toServer)) left t.up
    rw [hfrom]
    exact h.up

/-- Between two commands, or behind the loop. -/
theorem proxy_head {status : Status} (hc : s.proxy.control = .head status)
    (hs : s.proxy.proxyStep (e.proxy n) r w = some p) :
    ({ s with proxy := p } : ByteSession n).Rel lost t := by
  obtain rfl := ProxyLoop.proxyStep_head hs hc
  have hcontrol := h.control
  rw [hc] at hcontrol
  rcases hcontrol.of_head with ⟨hx, rfl, rfl, hok, rfl, rfl⟩ | ⟨hlost, hok⟩
  · rw [if_pos hok]
    refine ⟨left, [], [], _, _, h.calls, h.begins, h.client, ?_, h.up, h.lanes⟩
    rw [hx]
    exact .idle (ReadState.init_reads e.alloc)
  · have hno : ¬ status.ok = true := fun h => by
      rw [hok] at h
      cases h
    rw [if_neg hno]
    exact h.proxy_gone hlost trivial rfl rfl fun j => ⟨_, h.lanes j⟩

/-- The proxy has all of a command. -/
theorem proxy_starts {c : Command} (hx : t.proxy = .idle) (hu : t.up = [c]) (hsofar : sofar = [])
    (htodo : todo = fun _ => none) (htaken : taken = fun _ => []) (hkey : c.Routed n)
    (hsize : c.encoding.length < 2 ^ 32) {st : Session.Stage} (hshape : t.Shape st) {q : ProxyLoop n}
    (hfrom : q.fromClient ++ s.client.toServer = []) (hleft : left = [])
    (hto : q.toClient = s.proxy.toClient) (hlink : q.link = s.proxy.link) (tail : Bytes) :
    ∃ t', t.ProxySteps t' ∧
      ({ s with proxy := q.start (c.encoding ++ tail) } : ByteSession n).Rel lost t' := by
  subst hsofar htodo htaken
  have hquiet : ∀ j, t.lane j = .quiet := hshape.quiet_of_up hu
  have hclient : ClientRel lost t.pending t.down left []
      (s.client.fromServer ++ q.toClient.map Written.bytes) s.client.control := by
    rw [hto]
    exact h.client
  have hlanes : ∀ j, LaneRel lost (.of (q.link j) (s.shard j)) (t.lane j) none [] := by
    rw [hlink]
    exact h.lanes
  rw [ProxyLoop.start_encoding hsize]
  cases hc : c.key? with
  | none =>
    cases c with
    | getAll keyPrefix =>
      have hstep : t.proxyStep = some { t with up := [], proxy := .fanOut keyPrefix 0 } := by
        unfold Session.proxyStep
        rw [hx, hu]
      exact ⟨_, .single hstep, left, [], [], _, _, h.calls, h.begins, hclient, .fanOut hsize,
        .none hfrom hleft, lanes_ask hsize hlanes fun j _ => hquiet j⟩
    | _ => cases hc
  | some key =>
    obtain ⟨i, hi⟩ := hkey key hc
    have hstep : t.proxyStep = some { t with up := [], proxy := .dispatch c i } := by
      unfold Session.proxyStep
      rw [hx, hu]
      cases c with
      | getAll keyPrefix => cases hc
      | _ =>
        cases hc
        simp only [hi]
        rfl
    simp only [hi]
    refine ⟨_, .single hstep, left, [], [], _, _, h.calls, h.begins, hclient, .dispatch,
      .none hfrom hleft, ?_⟩
    intro j
    rw [Function.update_apply]
    exact lanes_ask hsize hlanes (fun j _ => hquiet j) (P := fun j => j = i) j

/-- The proxy reads a piece of a command. -/
theorem proxy_reading {packet : ReadState} (hc : s.proxy.control = .reading packet)
    (hs : s.proxy.proxyStep (e.proxy n) r w = some p) (hcall : lost ∨ r = .done)
    {st : Session.Stage} (hshape : t.Shape st) :
    ∃ t', t.ProxySteps t' ∧ ({ s with proxy := p } : ByteSession n).Rel lost t' := by
  obtain ⟨result, took, fromClient, hread, rfl⟩ := ProxyLoop.proxyStep_reading hs hc
  have hcontrol := h.control
  rw [hc] at hcontrol
  obtain ⟨hx, hgot, hsofar, htodo, htaken⟩ := hcontrol.of_reading
  rcases Call.read_cases hread with ⟨p, hqueue, rfl, -⟩ | ⟨hr, hgives, rfl, -⟩
  · have hup : s.up = p :: (fromClient ++ s.client.toServer) := by
      show s.proxy.fromClient ++ _ = _
      rw [hqueue, List.cons_append]
    have hrel := h.up
    rw [hup] at hrel
    generalize hu : t.up = up at hrel
    cases hrel with
    | none hnil => exact absurd hnil (by simp)
    | @some c hkey hsize hall =>
      have hall' : got ++ p :: ((fromClient ++ s.client.toServer) ++ left) = pieces c.encoding := by
        rw [← hall]
        simp
      rcases hgot.piece e.alloc e.errorText hall' with ⟨hnil, hd⟩ | ⟨-, packet', hd, hgot'⟩
      · replace hd : (readWholePacket (e.proxy n).alloc (e.proxy n).errorText).deliver packet
          (.data (id p)) = .inr (.Ok, c.encoding ++ terminator c.encoding) := hd
        rw [hd]
        obtain ⟨hfrom, hleft⟩ := List.append_eq_nil_iff.1 hnil
        exact h.proxy_starts hx hu hsofar htodo htaken hkey hsize hshape
          (q := { s.proxy with fromClient }) hfrom hleft rfl rfl _
      · replace hd : (readWholePacket (e.proxy n).alloc (e.proxy n).errorText).deliver packet
          (.data (id p)) = .inl packet' := hd
        rw [hd]
        subst hsofar htodo htaken
        refine ⟨t, .init, left, [], got ++ [p], _, _, h.calls, h.begins, h.client, ?_, ?_, h.lanes⟩
        · rw [hx]
          exact .idle hgot'
        · rw [hu]
          refine .some hkey hsize ?_
          show got ++ [p] ++ (fromClient ++ s.client.toServer) ++ left = _
          rw [← hall']
          simp
  · obtain ⟨status, hd, -, hgive⟩ := readWholePacket_givesUp e.alloc e.errorText packet hgives
    replace hd : (readWholePacket (e.proxy n).alloc (e.proxy n).errorText).deliver packet result =
      .inr (status, []) := hd
    rw [hd]
    have hreturn : ({ s.proxy with fromClient := s.proxy.fromClient } : ProxyLoop n).clientRead
        (.inr (status, [])) = { s.proxy with control := .returned } := by
      show (if status.err || status.eof then _ else _ : ProxyLoop n) = _
      rw [if_pos (by simpa using hgive)]
    rw [hreturn]
    exact ⟨t, .init, h.proxy_gone (hcall.resolve_right hr) trivial rfl rfl fun j => ⟨_, h.lanes j⟩⟩

/-- The proxy writes a piece of a command to the shard `i`, or gives up. -/
theorem proxy_sends {i : Fin n} {c : Command} {bs : Bytes} {rest : List Bytes}
    (htodo : todo i = some (c, bs :: rest)) (next : Control n) (hcall : lost ∨ w = .done) :
    ({ s with proxy := s.proxy.sendPiece (e.proxy n) w i bs next } : ByteSession n).Rel lost t ∨
      ((s.proxy.sendPiece (e.proxy n) w i bs next).control = next ∧
        ClientRel lost t.pending t.down left sofar (s.client.fromServer ++
          (s.proxy.sendPiece (e.proxy n) w i bs next).toClient.map Written.bytes) s.client.control ∧
        UpRel n (got ++ ((s.proxy.sendPiece (e.proxy n) w i bs next).fromClient ++ s.client.toServer))
          left t.up ∧
        ∀ j, LaneRel lost (.of ((s.proxy.sendPiece (e.proxy n) w i bs next).link j) (s.shard j))
          (Function.update t.lane i (if rest = [] then (t.lane i).push c else t.lane i) j)
          (Function.update todo i (if rest = [] then none else some (c, rest)) j) (taken j)) := by
  have hi := h.lanes i
  rw [htodo] at hi
  unfold ProxyLoop.sendPiece
  by_cases hw : w.written bs ≤ 0
  · rw [if_pos hw]
    have hlost : lost := by
      rcases hi.todo_pos with hlost | hpos
      · exact hlost
      · exact hcall.resolve_right (Call.ne_done_of_written hpos hw)
    exact .inl (h.proxy_gone hlost rfl rfl rfl fun j => ⟨_, h.lanes j⟩)
  · rw [if_neg hw]
    refine .inr ⟨rfl, h.client, h.up, ?_⟩
    have hwrite := hi.proxy_writes
    rw [ByteSession.lane, ← ByteLane.of_write _ _ s.proxy.served] at hwrite
    have hall := lanes_update h.lanes hwrite
    rwa [Function.update_eq_self] at hall

/-- The proxy writes a piece of a command to the shard of its key. -/
theorem proxy_dispatch {i : Fin n} {rest' : List Bytes} (hc : s.proxy.control = .dispatch i rest')
    (hs : s.proxy.proxyStep (e.proxy n) r w = some p) (hcall : lost ∨ w = .done) :
    ∃ t', t.ProxySteps t' ∧ ({ s with proxy := p } : ByteSession n).Rel lost t' := by
  obtain ⟨bs, rest, rfl, rfl⟩ := ProxyLoop.proxyStep_dispatch hs hc
  have hcontrol := h.control
  rw [hc] at hcontrol
  obtain ⟨c, hx, rfl, rfl, rfl, rfl⟩ := hcontrol.of_dispatch
  rcases h.proxy_sends (Function.update_self ..) (if rest = [] then .forward i else .dispatch i rest)
    hcall with hgone | ⟨hcontrol', hclient, hup, hlanes⟩
  · exact ⟨t, .init, hgone⟩
  · generalize s.proxy.sendPiece _ _ _ _ _ = p at *
    rw [Function.update_idem] at hlanes
    by_cases hrest : rest = []
    · simp only [if_pos hrest] at hcontrol' hlanes
      have hstep : t.proxyStep =
          some { t.setLane i ((t.lane i).push c) with proxy := .forward i } := by
        unfold Session.proxyStep
        rw [hx]
      rw [Function.update_eq_self] at hlanes
      refine ⟨_, .single hstep, left, [], [], _, _, h.calls, h.begins, hclient, ?_, hup, hlanes⟩
      rw [hcontrol']
      have hnil : Function.update (fun _ => []) i [] = (fun _ => [] : Fin n → List Bytes) :=
        Function.update_eq_self ..
      rw [← hnil]
      exact .forward
    · simp only [if_neg hrest] at hcontrol' hlanes
      rw [Function.update_eq_self] at hlanes
      refine ⟨t, .init, left, [], [], _, _, h.calls, h.begins, hclient, ?_, hup, hlanes⟩
      rw [hcontrol', hx]
      exact .dispatch

/-- The proxy writes a piece of a GetAll to the next shard, or has asked all of them. -/
theorem proxy_fanOut {data : Bytes} {next : Nat} {rest' : List Bytes}
    (hc : s.proxy.control = .fanOut data next rest')
    (hs : s.proxy.proxyStep (e.proxy n) r w = some p) (hcall : lost ∨ w = .done)
    {st : Session.Stage} (hshape : t.Shape st) :
    ∃ t', t.ProxySteps t' ∧ ({ s with proxy := p } : ByteSession n).Rel lost t' := by
  have hcontrol := h.control
  rw [hc] at hcontrol
  obtain ⟨keyPrefix, hx, rfl, rfl, rfl, hsize, rfl, rfl⟩ := hcontrol.of_fanOut
  rcases ProxyLoop.proxyStep_fanOut hs hc with ⟨hn, bs, rest, rfl, rfl⟩ | ⟨hn, rfl⟩
  · rcases h.proxy_sends (i := ⟨next, hn⟩) (if_pos rfl) (if rest = [] then
        .fanOut (Command.getAll keyPrefix).encoding (next + 1)
          (pieces (Command.getAll keyPrefix).encoding)
        else .fanOut (Command.getAll keyPrefix).encoding next rest) hcall with
      hgone | ⟨hcontrol', hclient, hup, hlanes⟩
    · exact ⟨t, .init, hgone⟩
    · generalize s.proxy.sendPiece _ _ _ _ _ = p at *
      have hne : ∀ {j : Fin n}, j ≠ ⟨next, hn⟩ → j.val ≠ next := fun hj hval => hj (Fin.ext hval)
      by_cases hrest : rest = []
      · simp only [if_pos hrest] at hcontrol' hlanes
        have hstep : t.proxyStep =
            some { t.setLane ⟨next, hn⟩ ((t.lane ⟨next, hn⟩).push (.getAll keyPrefix)) with
              proxy := .fanOut keyPrefix (next + 1) } := by
          unfold Session.proxyStep
          rw [hx]
          simp only [hn, dif_pos]
        have hdone : Function.update
            (fun j : Fin n => if j.val = next then some (Command.getAll keyPrefix, bs :: rest)
              else none) ⟨next, hn⟩ none = fun _ => none := by
          funext j
          by_cases hj : j = ⟨next, hn⟩
          · rw [hj, Function.update_self]
          · rw [Function.update_of_ne hj, if_neg (hne hj)]
        rw [hdone] at hlanes
        refine ⟨_, .single hstep, left, [], [], _, _, h.calls, h.begins, hclient, ?_, hup,
          lanes_ask (P := fun j => j.val = next + 1) hsize hlanes ?_⟩
        · rw [hcontrol']
          exact .fanOut hsize
        · intro j hj
          have hj' : j ≠ ⟨next, hn⟩ := by
            rintro rfl
            exact Nat.ne_of_lt (Nat.lt_succ_self next) hj
          rw [Function.update_of_ne hj']
          exact hshape.quiet_of_fanOut hx j (by omega)
      · simp only [if_neg hrest] at hcontrol' hlanes
        rw [Function.update_eq_self] at hlanes
        have hlanes' : ∀ j : Fin n, LaneRel lost (.of (p.link j) (s.shard j)) (t.lane j)
            (if j.val = next then some (Command.getAll keyPrefix, rest) else none) [] := by
          intro j
          have hj := hlanes j
          by_cases heq : j = ⟨next, hn⟩
          · subst heq
            rw [Function.update_self] at hj
            rwa [if_pos rfl]
          · rw [Function.update_of_ne heq, if_neg (hne heq)] at hj
            rwa [if_neg (hne heq)]
        refine ⟨t, .init, left, [], [], _, _, h.calls, h.begins, hclient, ?_, hup, hlanes'⟩
        rw [hcontrol', hx]
        exact .fanOut hsize
  · have hstep : t.proxyStep = some { t with proxy := .collect 0 [] } := by
      unfold Session.proxyStep
      rw [hx]
      simp only [Nat.not_lt.2 hn, dite_false]
    have hlanes : ∀ j, LaneRel lost (s.lane j) (t.lane j) none [] := by
      intro j
      have hlt := j.isLt
      have hj := h.lanes j
      rwa [if_neg (by omega)] at hj
    have hnil : (fun j : Fin n => if j.val = 0 then ([] : List Bytes) else []) = fun _ => [] := by
      funext j
      exact ite_self _
    refine ⟨_, .single hstep, left, [], [], _, _, h.calls, h.begins, h.client, ?_, h.up, hlanes⟩
    rw [← hnil]
    exact .collect (ReadState.init_reads e.alloc)

/-- A read that fails takes nothing. -/
theorem proxy_stays (i j : Fin n) :
    LaneRel lost (.of (Function.update s.proxy.link i
      { s.proxy.link i with toProxy := (s.proxy.link i).toProxy } j) (s.shard j)) (t.lane j) (todo j)
      (taken j) := by
  show LaneRel lost (.of (Function.update s.proxy.link i (s.proxy.link i) j) _) _ _ _
  rw [Function.update_eq_self]
  exact h.lanes j

/-- The proxy reads a piece of an answer on the connection to the shard `i`. -/
theorem proxy_pulls {i : Fin n} (htodo : todo i = none) {piece : Piece} {rest : List Piece}
    (hqueue : (s.proxy.link i).toProxy = piece :: rest) (j : Fin n) :
    LaneRel lost (.of (Function.update s.proxy.link i { s.proxy.link i with toProxy := rest } j)
      (s.shard j)) (t.lane j) (todo j) (Function.update taken i (taken i ++ [piece.bytes]) j) := by
  have hi := h.lanes i
  have hto : (s.lane i).toProxy =
      piece.bytes :: (rest.map Piece.bytes ++ (s.shard i).toClient.map Prod.snd) := by
    show (s.proxy.link i).toProxy.map _ ++ _ = _
    rw [hqueue]
    rfl
  rw [htodo] at hi
  have hall := lanes_update h.lanes (x := { s.proxy.link i with toProxy := rest }) (hi.proxy_pulls hto)
    j
  rw [Function.update_eq_self, ← htodo, Function.update_eq_self] at hall
  exact hall

/-- The piece belongs to a packet that has only begun, or it ends the answer of the shard. -/
theorem proxy_reads {i : Fin n} (htodo : todo i = none) {piece : Piece} {rest : List Piece}
    (hqueue : (s.proxy.link i).toProxy = piece :: rest) :
    Begins (taken i ++ [piece.bytes]) ∨
      ∃ resp data, taken i ++ [piece.bytes] = pieces data ∧ DecodesTo data resp ∧
        t.lane i = ⟨[], .idle, [resp]⟩ ∧
        ∀ j, LaneRel lost (.of (Function.update s.proxy.link i { s.proxy.link i with toProxy := rest } j)
          (s.shard j)) (Function.update t.lane i .quiet j) (todo j)
          (Function.update taken i [] j) := by
  have hi := h.lanes i
  have hto : (s.lane i).toProxy =
      piece.bytes :: (rest.map Piece.bytes ++ (s.shard i).toClient.map Prod.snd) := by
    show (s.proxy.link i).toProxy.map _ ++ _ = _
    rw [hqueue]
    rfl
  rw [htodo] at hi
  rcases hi.proxy_reads hto with hbegins | ⟨resp, data, hdone, hdata, hl, hi'⟩
  · exact .inl hbegins
  · refine .inr ⟨resp, data, hdone, hdata, hl, fun j => ?_⟩
    have hall := lanes_update h.lanes (x := { s.proxy.link i with toProxy := rest }) hi' j
    rwa [← htodo, Function.update_eq_self] at hall

/-- While the proxy serves a request, its client waits for an answer and has none. -/
theorem client_of_serving {st : Session.Stage} (hshape : t.Shape st) (hserving : t.proxy ≠ .idle) :
    ∃ c, t.pending = some c ∧ t.down = [] ∧ left = [] ∧
      ClientRel lost (some c) [] left sofar s.down s.client.control := by
  obtain ⟨c, hpending, hu, hdown⟩ := hshape.serving hserving
  have hup := h.up
  rw [hu] at hup
  have hclient := h.client
  rw [hpending, hdown] at hclient
  exact ⟨c, hpending, hdown, hup.left_eq_nil.2, hclient⟩

/-- The proxy forwards a piece of the answer of a shard, or gives up. -/
theorem proxy_forward {i : Fin n} (hc : s.proxy.control = .forward i)
    (hs : s.proxy.proxyStep (e.proxy n) r w = some p) (hcall : lost ∨ (r = .done ∧ w = .done))
    {st : Session.Stage} (hshape : t.Shape st) :
    ∃ t', t.ProxySteps t' ∧ ({ s with proxy := p } : ByteSession n).Rel lost t' := by
  obtain ⟨result, took, toProxy, hread, rfl⟩ := ProxyLoop.proxyStep_forward hs hc
  have hcontrol := h.control
  rw [hc] at hcontrol
  obtain ⟨hx, rfl, rfl, rfl⟩ := hcontrol.of_forward
  have hserving : t.proxy ≠ .idle := by
    rw [hx]
    exact fun hidle => nomatch hidle
  obtain ⟨c, hpending, hdown, hleft, hclient⟩ := h.client_of_serving hshape hserving
  rcases Call.read_cases hread with ⟨piece, hqueue, rfl, rfl⟩ | ⟨hr, hgives, rfl, rfl⟩
  · have hpull := h.proxy_pulls rfl hqueue
    have hends := h.proxy_reads rfl hqueue
    rw [Function.update_self, Function.update_idem] at hpull hends
    have hpos : 0 < piece.bytes.length ∧ piece.bytes.length ≤ kMaxNetPacketSize := by
      rcases hends with hbegins | ⟨resp, data, hdone, -⟩
      · have hfull : piece.bytes.length = kMaxNetPacketSize := hbegins.full
        exact ⟨hfull ▸ kMaxNetPacketSize_pos, Nat.le_of_eq hfull⟩
      · obtain ⟨hpos, hlt⟩ := last_piece hdone
        exact ⟨hpos, Nat.le_of_lt hlt⟩
    have hround := forwardPacket_round (e.proxy n).errorText (fun _ bs => w.written bs) []
      hpos.1 hpos.2
    rw [hround]
    by_cases hw : w.written piece.bytes ≤ 0
    · rw [if_pos hw]
      refine ⟨t, .init, h.proxy_gone (hcall.resolve_right ?_) rfl rfl ?_ fun j => ⟨_, hpull j⟩⟩
      · exact fun hdone => Call.ne_done_of_written hpos.1 hw hdone.2
      · show s.proxy.toClient ++ [] = _
        exact List.append_nil _
    · have hwritten : piece.bytes.take (w.written piece.bytes).toNat = piece.bytes := by
        rw [Call.eq_done_of_written hw]
        exact List.take_of_length_le (Nat.le_refl _)
      rw [if_neg hw, hwritten]
      have hdown' := s.down_written ⟨s.proxy.served, [piece.request], piece.bytes⟩
      rcases hends with hbegins | ⟨resp, data, hdone, hdata, hl, hlanes⟩
      · have hfull : piece.bytes.length = kMaxNetPacketSize := hbegins.full
        rw [if_neg (by omega)]
        refine ⟨t, .init, left, sofar ++ [piece.bytes], [], _, _, h.calls, hbegins, ?_, ?_, h.up, hpull⟩
        · show ClientRel lost t.pending t.down left _ (s.client.fromServer ++
            (s.proxy.toClient ++ [Written.mk s.proxy.served [piece.request] piece.bytes]).map _) _
          rw [hpending, hdown, hdown']
          exact hclient.more hleft
        · rw [hx]
          exact .forward
      · rw [if_pos (last_piece hdone).2]
        have hread : t.proxyStep =
            some { t.setLane i .quiet with proxy := .relay resp } := by
          unfold Session.proxyStep
          rw [hx]
          simp only [hl]
          rfl
        have hrelay : Session.proxyStep { t.setLane i .quiet with proxy := .relay resp } =
            some { t.setLane i .quiet with down := [resp], proxy := .idle } := by
          show some { t.setLane i .quiet with down := t.down ++ [resp], proxy := .idle } = _
          rw [hdown]
          rfl
        have hnil : Function.update (fun _ => []) i [] = (fun _ => [] : Fin n → List Bytes) :=
          Function.update_eq_self ..
        rw [hnil] at hlanes
        refine ⟨_, .step () (Session.ProxySteps.single hread) hrelay, left, [], [], _, _, h.calls,
          begins_nil, ?_, .idle ⟨rfl, rfl⟩, h.up, hlanes⟩
        show ClientRel lost t.pending [resp] left _ (s.client.fromServer ++
          (s.proxy.toClient ++ [Written.mk s.proxy.served [piece.request] piece.bytes]).map _) _
        rw [hpending, hdown']
        exact hclient.last hleft hdone hdata
  · have hgive : ∃ status, (forwardPacket (fun _ bs => w.written bs) (e.proxy n).errorText).deliver []
        result = .inr (status, []) ∧ status.ok = false := by
      rcases hgives with rfl | rfl
      · exact ⟨_, rfl, rfl⟩
      · exact ⟨.Eof, rfl, rfl⟩
    obtain ⟨status, hd, hok⟩ := hgive
    rw [hd]
    refine ⟨t, .init, h.proxy_gone (hcall.resolve_right fun hdone => hr hdone.1) hok rfl ?_ ?_⟩
    · show s.proxy.toClient ++ [] = _
      exact List.append_nil _
    · exact fun j => ⟨_, h.proxy_stays i j⟩

/-- The proxy reads a piece of the answer of the next shard to a GetAll, or gives up. -/
theorem proxy_collect_reads {next : Nat} {packet : ReadState} {keys : List Bytes}
    {sources sources' : List Nat} (hc : s.proxy.control = .collect next packet keys sources)
    (hn : next < n) {result : ReadResult} {took toProxy : List Piece}
    (hread : r.read Piece.bytes (s.proxy.link ⟨next, hn⟩).toProxy = some (result, took, toProxy))
    (hcall : lost ∨ r = .done) {st : Session.Stage} (hshape : t.Shape st) :
    ∃ t', t.ProxySteps t' ∧ ({ s with
      proxy := (s.proxy.setLink ⟨next, hn⟩ { s.proxy.link ⟨next, hn⟩ with toProxy }).serverRead
        (e.proxy n) next keys sources' ((readWholePacket e.alloc e.errorText).deliver packet result) } :
          ByteSession n).Rel lost t' := by
  have hcontrol := h.control
  rw [hc] at hcontrol
  obtain ⟨taken', hx, rfl, rfl, hgot, rfl, rfl⟩ := hcontrol.of_collect
  have hself : (if (⟨next, hn⟩ : Fin n).val = next then taken' else []) = taken' := if_pos rfl
  have htaken : ∀ ps : List Bytes, Function.update
      (fun j : Fin n => if j.val = next then taken' else []) ⟨next, hn⟩ ps =
        fun j : Fin n => if j.val = next then ps else [] := by
    intro ps
    funext j
    by_cases hj : j = ⟨next, hn⟩
    · rw [hj, Function.update_self, if_pos rfl]
    · have hne : j.val ≠ next := fun hval => hj (Fin.ext hval)
      rw [Function.update_of_ne hj, if_neg hne, if_neg hne]
  rcases Call.read_cases hread with ⟨piece, hqueue, rfl, -⟩ | ⟨hr, hgives, rfl, -⟩
  · have hpull := h.proxy_pulls rfl hqueue
    have hends := h.proxy_reads rfl hqueue
    rw [hself, htaken] at hpull
    rw [hself, htaken] at hends
    rcases hends with hbegins | ⟨resp, data, hdone, hdata, hl, hlanes⟩
    · obtain ⟨packet', hd, hgot'⟩ := hgot.more e.alloc e.errorText hbegins
      rw [hd]
      refine ⟨t, .init, left, [], [], _, _, h.calls, h.begins, h.client, ?_, h.up, hpull⟩
      rw [hx]
      exact .collect hgot'
    · have hd := hgot.last e.alloc e.errorText hdone
      obtain ⟨more, rfl⟩ := hshape.answer_of_collect hx ⟨next, hn⟩ (Nat.le_refl _) hl
      obtain ⟨q, hq, hresp⟩ := hdata (terminator data)
      have hadd : addResponse keys (data ++ terminator data) = some (keys ++ more) := by
        rw [addResponse_eq, hq]
        cases q with
        | getAll q =>
          obtain ⟨-, hkeys⟩ := Response.getAll.inj hresp
          show some (keys ++ q.keys.map Slice.toStr) = _
          rw [hkeys]
        | _ => cases hresp
      rw [hd, ProxyLoop.serverRead_addResponse, hadd]
      have hstep : t.proxyStep =
          some { t.setLane ⟨next, hn⟩ .quiet with proxy := .collect (next + 1) (keys ++ more) } := by
        unfold Session.proxyStep
        rw [hx]
        simp only [hn, dif_pos, hl]
        rfl
      have hnil : (fun j : Fin n => if j.val = next then ([] : List Bytes) else []) =
          fun j : Fin n => if j.val = next + 1 then [] else [] := by
        funext j
        rw [ite_self, ite_self]
      rw [hnil] at hlanes
      exact ⟨_, .single hstep, left, [], [], _, _, h.calls, h.begins, h.client,
        .collect (ReadState.init_reads e.alloc), h.up, hlanes⟩
  · obtain ⟨status, hd, hok, -⟩ := readWholePacket_givesUp e.alloc e.errorText packet hgives
    have hno : ¬ status.ok = true := fun h => by
      rw [hok] at h
      cases h
    rw [hd]
    unfold ProxyLoop.serverRead
    dsimp only
    rw [if_neg hno]
    exact ⟨t, .init, h.proxy_gone (hcall.resolve_right hr) hok rfl rfl
      fun j => ⟨_, h.proxy_stays ⟨next, hn⟩ j⟩⟩

/-- The proxy has read the answers of all shards and builds the response. -/
theorem proxy_collect_done {next : Nat} {packet : ReadState} {keys : List Bytes}
    {sources : List Nat} (hc : s.proxy.control = .collect next packet keys sources) (hn : n ≤ next)
    (hfits : e.BuildsResponse (.getAll .Ok keys))
    (hs : s.proxy.proxyStep (e.proxy n) r w = some p) :
    ∃ t', t.ProxySteps t' ∧ ({ s with proxy := p } : ByteSession n).Rel lost t' := by
  have hcontrol := h.control
  rw [hc] at hcontrol
  obtain ⟨taken', hx, rfl, rfl, -, rfl, rfl⟩ := hcontrol.of_collect
  obtain ⟨q, out, hbuilt, hdata⟩ := Response.sent_decoded
    (Response.FromServer.payload_le (r := .getAll .Ok keys) rfl) hfits.1 hfits.2
  have hpacket : getAllResponseBytes ((e.proxy n).fresh keys) keys = .ok (sentBytes q out) :=
    getAllResponseBytes_eq_ok.2 ⟨q, out, hbuilt, rfl⟩
  simp only [ProxyLoop.proxyStep, hc, Nat.not_lt.2 hn, dite_false, hpacket] at hs
  cases hs
  have hstep : t.proxyStep = some { t with proxy := .respond keys } := by
    unfold Session.proxyStep
    rw [hx]
    simp only [Nat.not_lt.2 hn, dite_false]
  have hlanes : ∀ j, LaneRel lost (s.lane j) (t.lane j) none [] := by
    intro j
    have hlt := j.isLt
    have hj := h.lanes j
    rwa [if_neg (by omega)] at hj
  exact ⟨_, .single hstep, left, [], [], _, _, h.calls, h.begins, h.client,
    .respond (pieces_ne_nil _) rfl hdata, h.up, hlanes⟩

/-- The proxy writes a piece of its own response, or gives up. -/
theorem proxy_respond {rest' : List Bytes} {sources : List Nat}
    (hc : s.proxy.control = .respond rest' sources)
    (hs : s.proxy.proxyStep (e.proxy n) r w = some p) (hcall : lost ∨ w = .done)
    {st : Session.Stage} (hshape : t.Shape st) :
    ∃ t', t.ProxySteps t' ∧ ({ s with proxy := p } : ByteSession n).Rel lost t' := by
  obtain ⟨bs, rest, rfl, rfl⟩ := ProxyLoop.proxyStep_respond hs hc
  have hcontrol := h.control
  rw [hc] at hcontrol
  obtain ⟨keys, data, hx, rfl, -, hps, hdata, rfl, rfl⟩ := hcontrol.of_respond
  have hserving : t.proxy ≠ .idle := by
    rw [hx]
    exact fun hidle => nomatch hidle
  obtain ⟨c, hpending, hdown, hleft, hclient⟩ := h.client_of_serving hshape hserving
  by_cases hw : w.written bs ≤ 0
  · rw [if_pos hw]
    refine ⟨t, .init, h.proxy_gone (hcall.resolve_right ?_) rfl rfl rfl fun j => ⟨_, h.lanes j⟩⟩
    exact Call.ne_done_of_written (piece_of_packet hps).1 hw
  · rw [if_neg hw]
    have hdown' := s.down_written ⟨s.proxy.served, sources, bs⟩
    by_cases hrest : rest = []
    · rw [if_pos hrest]
      rw [hrest] at hps
      have hstep : t.proxyStep = some { t with down := [.getAll .Ok keys], proxy := .idle } := by
        unfold Session.proxyStep
        rw [hx]
        simp only [hdown]
        rfl
      refine ⟨_, .single hstep, left, [], [], _, _, h.calls, begins_nil, ?_, .idle ⟨rfl, rfl⟩, h.up,
        h.lanes⟩
      show ClientRel lost t.pending _ left _ (s.client.fromServer ++
        (s.proxy.toClient ++ [Written.mk s.proxy.served sources bs]).map _) _
      rw [hpending, hdown']
      exact hclient.last hleft hps hdata
    · rw [if_neg hrest]
      have hps' : (sofar ++ [bs]) ++ rest = pieces data := by
        rw [← hps]
        simp
      refine ⟨t, .init, left, sofar ++ [bs], [], _, _, h.calls, ⟨data, rest, hrest, hps'⟩, ?_, ?_,
        h.up, h.lanes⟩
      · show ClientRel lost t.pending t.down left _ (s.client.fromServer ++
          (s.proxy.toClient ++ [Written.mk s.proxy.served sources bs]).map _) _
        rw [hpending, hdown, hdown']
        exact hclient.more hleft
      · rw [hx]
        exact .respond hrest hps' hdata

/-- **A step of the proxy** is some steps of the proxy above, or none. -/
theorem proxyStep (hs : s.proxy.proxyStep (e.proxy n) r w = some p)
    (hcall : lost ∨ (r = .done ∧ w = .done)) {st : Session.Stage} (hshape : t.Shape st)
    (hfits : ∀ next packet keys sources, s.proxy.control = .collect next packet keys sources →
      n ≤ next → e.BuildsResponse (.getAll .Ok keys)) :
    ∃ t', t.ProxySteps t' ∧ ({ s with proxy := p } : ByteSession n).Rel lost t' := by
  cases hc : s.proxy.control with
  | head status => exact ⟨t, .init, h.proxy_head hc hs⟩
  | reading packet => exact h.proxy_reading hc hs (hcall.imp_right And.left) hshape
  | dispatch i rest => exact h.proxy_dispatch hc hs (hcall.imp_right And.right)
  | forward i => exact h.proxy_forward hc hs hcall hshape
  | fanOut data next rest => exact h.proxy_fanOut hc hs (hcall.imp_right And.right) hshape
  | collect next packet keys sources =>
    by_cases hn : next < n
    · rcases ProxyLoop.proxyStep_collect hs hc with ⟨hn, result, took, toProxy, hread, rfl⟩ | ⟨hle, -⟩
      · exact h.proxy_collect_reads hc hn hread (hcall.imp_right And.left) hshape
      · exact absurd hn (Nat.not_lt.2 hle)
    · exact h.proxy_collect_done hc (Nat.not_lt.1 hn) (hfits _ _ _ _ hc (Nat.not_lt.1 hn)) hs
  | respond rest sources => exact h.proxy_respond hc hs (hcall.imp_right And.right) hshape
  | returned => exact absurd hc (ProxyLoop.proxyStep_running hs).1
  | crashed => exact absurd hc (ProxyLoop.proxyStep_running hs).2

end ByteSession.Matches

end SqpKv
