import Mathlib.Data.Prod.Lex
import SqpKv.Cluster.Rank

/-!
# A session is never stuck

When no call of `read` or `write` fails in a session, its client is never left
waiting, whatever happens in the others: a session in a call can always go on
(`ByteCluster.never_stuck`), and each of its steps takes from what is left to do
(`ByteCluster.rank`): above, every step of a session in a call takes from its
rank; below, a step that is not seen above takes from its weight.
-/

namespace SqpKv

open Wire Machine

variable {n : Nat}

/-! ## A session in a call can go on -/

/-- A worker at its loop head, with something to read or something to write. -/
theorem KvLoop.can_go {e : KvEnv} {k : KvLoop} (h : k.control = .head false ∨
    (∃ packet, k.control = .reading packet ∧ k.fromClient ≠ []) ∨
    ∃ left, k.control = .sending left ∧ left ≠ []) : ∃ k', k.workerStep e .done .done = some k' := by
  rcases h with hc | ⟨packet, hc, hq⟩ | ⟨left, hc, hleft⟩
  · simp only [workerStep, hc]
    exact ⟨_, rfl⟩
  · obtain ⟨p, ps, hps⟩ := List.exists_cons_of_ne_nil hq
    simp only [workerStep, hc, hps]
    exact ⟨_, rfl⟩
  · obtain ⟨bs, rest, rfl⟩ := List.exists_cons_of_ne_nil hleft
    simp only [workerStep, hc]
    split
    · exact ⟨_, rfl⟩
    · exact ⟨_, rfl⟩

/-- A connection on which a request is under way, and nothing that the network could carry. -/
theorem LaneRel.worker_can_go {link : Link} {k : KvLoop} {l : Lane} {taken : List Bytes}
    (h : LaneRel False (.of link k) l none taken) (hl : l ≠ .quiet) (hbegins : Begins taken)
    (hto : link.toShard = []) (hproxy : link.toProxy = []) (hfrom : k.toClient = []) (e : KvEnv) :
    ∃ k', k.workerStep e .done .done = some k' := by
  cases h with
  | quiet _ _ _ hquiet => exact absurd hquiet hl
  | asking _ _ _ _ hquiet => exact absurd hquiet hl
  | @asked c got hgot hall =>
    have hall' : got ++ k.fromClient = pieces c.encoding := by
      rw [← hall]
      show _ = got ++ (k.fromClient ++ link.toShard.map Piece.bytes)
      rw [hto, List.map_nil, List.append_nil]
    apply KvLoop.can_go
    cases hc : k.control with
    | head err =>
      rw [show (ByteLane.of link k).worker = .head err from hc] at hgot
      exact .inl (by rw [hgot.1])
    | reading packet =>
      rw [show (ByteLane.of link k).worker = .reading packet from hc] at hgot
      refine .inr (.inl ⟨packet, rfl, fun hnil => ?_⟩)
      rw [hnil, List.append_nil] at hall'
      exact hgot.begins.not_all hall'
    | _ =>
      rw [show (ByteLane.of link k).worker = _ from hc] at hgot
      exact hgot.elim
  | @answered r data rest hw _ hall =>
    rcases hw with ⟨hsend, hrest⟩ | ⟨rfl, -⟩
    · exact KvLoop.can_go (.inr (.inr ⟨rest, hsend, hrest⟩))
    · rw [List.append_nil] at hall
      have hnone : (ByteLane.of link k).toProxy = [] := by
        show link.toProxy.map Piece.bytes ++ k.toClient.map Prod.snd = []
        rw [hproxy, hfrom]
        rfl
      rw [hnone, List.append_nil] at hall
      exact absurd hall hbegins.not_all
  | gone hlost => exact hlost.elim

/-- A client with something to write or something to read. -/
theorem ClientLoop.can_go {e : ClientEnv} {s : ClientLoop}
    (h : (∃ c left, s.control = .sending c left ∧ left ≠ []) ∨
      ∃ c packet, s.control = .reading c packet ∧ s.fromServer ≠ []) :
    ∃ x, s.step e .done .done = some x := by
  rcases h with ⟨c, left, hc, hleft⟩ | ⟨c, packet, hc, hq⟩
  · obtain ⟨bs, rest, rfl⟩ := List.exists_cons_of_ne_nil hleft
    simp only [step, hc]
    split
    · exact ⟨_, rfl⟩
    · exact ⟨_, rfl⟩
  · obtain ⟨p, ps, hps⟩ := List.exists_cons_of_ne_nil hq
    simp only [step, hc, hps]
    exact ⟨_, rfl⟩

/-- What the next call of the proxy needs is there. -/
def ProxyLoop.Ready (s : ProxyLoop n) : Prop :=
  match s.control with
  | .head _ => True
  | .reading _ => s.fromClient ≠ []
  | .dispatch _ left => left ≠ []
  | .forward i => (s.link i).toProxy ≠ []
  | .fanOut _ next left => next < n → left ≠ []
  | .collect next _ _ _ => ∀ h : next < n, (s.link ⟨next, h⟩).toProxy ≠ []
  | .respond left _ => left ≠ []
  | .returned => False
  | .crashed => False

theorem ProxyLoop.can_go {e : ProxyEnv n} {s : ProxyLoop n} (h : s.Ready) :
    ∃ p, s.proxyStep e .done .done = some p := by
  unfold Ready at h
  cases hc : s.control with
  | head status =>
    simp only [proxyStep, hc]
    split
    · exact ⟨_, rfl⟩
    · exact ⟨_, rfl⟩
  | reading packet =>
    simp only [hc] at h
    obtain ⟨p, ps, hps⟩ := List.exists_cons_of_ne_nil h
    simp only [proxyStep, hc, hps]
    exact ⟨_, rfl⟩
  | dispatch i left =>
    simp only [hc] at h
    obtain ⟨bs, rest, rfl⟩ := List.exists_cons_of_ne_nil h
    simp only [proxyStep, hc]
    exact ⟨_, rfl⟩
  | forward i =>
    simp only [hc] at h
    obtain ⟨p, ps, hps⟩ := List.exists_cons_of_ne_nil h
    simp only [proxyStep, hc, hps]
    exact ⟨_, rfl⟩
  | fanOut data next left =>
    simp only [hc] at h
    by_cases hn : next < n
    · obtain ⟨bs, rest, rfl⟩ := List.exists_cons_of_ne_nil (h hn)
      simp only [proxyStep, hc, dif_pos hn]
      exact ⟨_, rfl⟩
    · simp only [proxyStep, hc, dif_neg hn]
      exact ⟨_, rfl⟩
  | collect next packet keys sources =>
    simp only [hc] at h
    by_cases hn : next < n
    · obtain ⟨p, ps, hps⟩ := List.exists_cons_of_ne_nil (h hn)
      simp only [proxyStep, hc, dif_pos hn, hps]
      exact ⟨_, rfl⟩
    · simp only [proxyStep, hc, dif_neg hn]
      split
      · exact ⟨_, rfl⟩
      · exact ⟨_, rfl⟩
  | respond left sources =>
    simp only [hc] at h
    obtain ⟨bs, rest, rfl⟩ := List.exists_cons_of_ne_nil h
    simp only [proxyStep, hc]
    split
    · exact ⟨_, rfl⟩
    · exact ⟨_, rfl⟩
  | returned =>
    simp only [hc] at h
  | crashed =>
    simp only [hc] at h

/-- Some thread of the session, or the network, can make a step. -/
inductive ByteSession.CanGo (e : ByteEnv) (db : Fin n → Store) (s : ByteSession n) : Prop
  | client {x : ClientLoop × Option (Command × CallResult)}
      (h : s.client.step e.client .done .done = some x) : CanGo e db s
  | proxy {p : ProxyLoop n} (h : s.proxy.proxyStep (e.proxy n) .done .done = some p) : CanGo e db s
  | worker {i : Fin n} {k : KvLoop} (h : (s.shard i).workerStep (e.kv (db i)) .done .done = some k) :
      CanGo e db s
  | carry {a : ByteSession.Action n} {s' : ByteSession n} (h : s.carry a = some s') : CanGo e db s

namespace Session.Shape

variable {t : Session n} {st : Session.Stage} (h : t.Shape st)

include h

/-- A call whose command has been read and whose response has not come is being served. -/
theorem served {c : Command} (hp : t.pending = some c) (hu : t.up = []) (hd : t.down = []) :
    t.proxy ≠ .idle := by
  intro hx
  cases h with
  | idle hp' => 
    rw [hp] at hp'
    cases hp'
  | requested _ _ hu' =>
    rw [hu] at hu'
    cases hu'
  | scanRequested _ hu' =>
    rw [hu] at hu'
    cases hu'
  | arrived _ _ _ _ hd' =>
    rw [hd] at hd'
    cases hd'
  | scanned _ _ _ hd' =>
    rw [hd] at hd'
    cases hd'
  | _ =>
    rename t.proxy = _ => hx'
    rw [hx] at hx'
    cases hx'

/-- A shard that the proxy waits for has been asked. -/
theorem asked_of_forward {i : Fin n} (hx : t.proxy = .forward i) : t.lane i ≠ .quiet := by
  intro hquiet
  cases h with
  | asked _ _ _ _ hx' _ hl =>
    rw [hx] at hx'
    cases hx'
    have hat := hl.1
    rw [hquiet] at hat
    cases hat
  | answered _ _ _ hx' _ hl =>
    rw [hx] at hx'
    cases hx'
    have hat := hl.1
    rw [hquiet] at hat
    cases hat
  | _ =>
    rename t.proxy = _ => hx'
    rw [hx] at hx'
    cases hx'

theorem asked_of_collect {next : Nat} {keys : List Bytes} (hx : t.proxy = .collect next keys)
    (i : Fin n) (hi : next ≤ i) : t.lane i ≠ .quiet := by
  intro hquiet
  cases h with
  | collect _ _ hx' _ _ hasked =>
    rw [hx] at hx'
    cases hx'
    rcases hasked i hi with hat | ⟨_, hat⟩
    · rw [hquiet] at hat
      cases hat
    · rw [hquiet] at hat
      cases hat
  | _ =>
    rename t.proxy = _ => hx'
    rw [hx] at hx'
    cases hx'

end Session.Shape

namespace ByteSession

variable {s : ByteSession n} {e : ByteEnv} {db : Fin n → Store}

/-- Where nothing can go on, the network carries nothing. -/
theorem carries_nothing (h : ¬ s.CanGo e db) :
    s.client.toServer = [] ∧ s.proxy.toClient = [] ∧
      ∀ i, (s.proxy.link i).toShard = [] ∧ (s.shard i).toClient = [] := by
  have stuck : ∀ a, s.carry a = none := by
    intro a
    by_contra hne
    obtain ⟨s', hs'⟩ := Option.ne_none_iff_exists'.1 hne
    exact h (.carry hs')
  refine ⟨?_, ?_, fun i => ⟨?_, ?_⟩⟩
  · by_contra hne
    obtain ⟨bs, rest, hq⟩ := List.exists_cons_of_ne_nil hne
    have hup := stuck .carryUp
    simp [carry, hq] at hup
  · by_contra hne
    obtain ⟨p, rest, hq⟩ := List.exists_cons_of_ne_nil hne
    have hdown := stuck .carryDown
    simp [carry, hq] at hdown
  · by_contra hne
    obtain ⟨p, rest, hq⟩ := List.exists_cons_of_ne_nil hne
    have hto := stuck (.carryToShard i)
    simp [carry, hq] at hto
  · by_contra hne
    obtain ⟨p, rest, hq⟩ := List.exists_cons_of_ne_nil hne
    have hfrom := stuck (.carryToProxy i)
    simp [carry, hq] at hfrom

namespace Matches

variable {t : Session n} {left sofar got : List Bytes} {todo : Fin n → Todo}
  {taken : Fin n → List Bytes} (h : s.Matches False t left sofar got todo taken)

include h

/-- The proxy has an answer to read, if it is not stuck. -/
theorem answer_comes (hstuck : ¬ s.CanGo e db) {i : Fin n}
    (hl : t.lane i ≠ .quiet) (htodo : todo i = none) (hbegins : Begins (taken i)) :
    ∃ p ps, (s.proxy.link i).toProxy = p :: ps := by
  by_contra hnone
  have hproxy : (s.proxy.link i).toProxy = [] := by
    by_contra hne
    exact hnone (List.exists_cons_of_ne_nil hne)
  obtain ⟨-, -, hcarry⟩ := carries_nothing hstuck
  have hi := h.lanes i
  rw [htodo] at hi
  obtain ⟨k, hk⟩ := hi.worker_can_go hl hbegins (hcarry i).1 hproxy (hcarry i).2 (e.kv (db i))
  exact hstuck (.worker hk)

/-- A client in a call waits for the response, if it is not stuck. -/
theorem client_waits (hbusy : s.client.control ≠ .idle) (hstuck : ¬ s.CanGo e db) :
    ∃ c, t.pending = some c ∧ left = [] ∧ t.down = [] := by
  obtain ⟨-, htoClient, -⟩ := carries_nothing hstuck
  have hclient := h.client
  have hno : ¬ ∃ x, s.client.step e.client .done .done = some x := fun ⟨x, hx⟩ => hstuck (.client hx)
  cases hc : s.client.control with
  | idle => exact absurd hc hbusy
  | sending c left' =>
    rw [hc] at hclient
    cases hclient with
    | sending _ _ hne => exact absurd (ClientLoop.can_go (.inl ⟨c, left, hc, hne⟩)) hno
  | reading c packet =>
    rw [hc] at hclient
    cases hclient with
    | @reading _ _ got' hp hleft hgot hd =>
      refine ⟨c, hp, hleft, ?_⟩
      have hempty : s.client.fromServer = [] := by
        by_contra hne
        exact hno (ClientLoop.can_go (.inr ⟨c, packet, hc, hne⟩))
      have hnone : s.down = [] := by
        show s.client.fromServer ++ s.proxy.toClient.map Written.bytes = []
        rw [hempty, htoClient]
        rfl
      rw [hnone, List.append_nil] at hd
      generalize t.down = down at hd
      cases hd with
      | none => rfl
      | some _ hall => exact absurd hall hgot.begins.not_all
  | failed =>
    rw [hc] at hclient
    cases hclient with
    | failed hlost => exact hlost.elim
  | crashed =>
    rw [hc] at hclient
    cases hclient

/-- **A session in a call is not stuck.** -/
theorem can_go {st : Session.Stage} (hshape : t.Shape st) (hbusy : s.client.control ≠ .idle)
    (e : ByteEnv) (db : Fin n → Store) : s.CanGo e db := by
  by_contra hstuck
  obtain ⟨htoServer, -, -⟩ := carries_nothing hstuck
  obtain ⟨c, hpending, hleft, hdown⟩ := h.client_waits hbusy hstuck
  refine hstuck (.proxy (ProxyLoop.can_go ?_).choose_spec)
  have hcontrol := h.control
  unfold ProxyLoop.Ready
  cases hc : s.proxy.control with
  | head status => trivial
  | reading packet =>
    intro hempty
    rw [hc] at hcontrol
    obtain ⟨hx, hgot, -⟩ := hcontrol.of_reading
    have hnone : s.up = [] := by
      show s.proxy.fromClient ++ s.client.toServer = []
      rw [hempty, htoServer]
      rfl
    have hup := h.up
    rw [hnone, hleft, List.append_nil] at hup
    generalize hu : t.up = up at hup
    cases hup with
    | none => exact hshape.served hpending hu hdown hx
    | some _ _ hall =>
      rw [List.append_nil] at hall
      exact hgot.begins.not_all hall
  | dispatch i rest =>
    rw [hc] at hcontrol
    obtain ⟨c, -, -, -, rfl, -⟩ := hcontrol.of_dispatch
    have hi := h.lanes i
    rw [Function.update_self] at hi
    exact hi.todo_ne_nil
  | forward i =>
    rw [hc] at hcontrol
    obtain ⟨hx, -, rfl, rfl⟩ := hcontrol.of_forward
    have hbegins : Begins (Function.update (fun _ => []) i sofar i) := by
      rw [Function.update_self]
      exact h.begins
    obtain ⟨p, ps, hps⟩ := h.answer_comes hstuck (hshape.asked_of_forward hx) rfl hbegins
    show (s.proxy.link i).toProxy ≠ []
    rw [hps]
    exact List.cons_ne_nil p ps
  | fanOut data next rest =>
    intro hn
    rw [hc] at hcontrol
    obtain ⟨keyPrefix, -, -, -, -, -, rfl, -⟩ := hcontrol.of_fanOut
    have hi := h.lanes ⟨next, hn⟩
    rw [if_pos rfl] at hi
    exact hi.todo_ne_nil
  | collect next packet keys sources =>
    intro hn
    rw [hc] at hcontrol
    obtain ⟨took, hx, -, -, hgot, rfl, rfl⟩ := hcontrol.of_collect
    have hbegins : Begins (if (⟨next, hn⟩ : Fin n).val = next then took else []) := by
      rw [if_pos rfl]
      exact hgot.begins
    obtain ⟨p, ps, hps⟩ := h.answer_comes hstuck
      (hshape.asked_of_collect hx ⟨next, hn⟩ (Nat.le_refl _)) rfl hbegins
    rw [hps]
    exact List.cons_ne_nil p ps
  | respond rest sources =>
    rw [hc] at hcontrol
    obtain ⟨keys, data, -, -, hrest, -⟩ := hcontrol.of_respond
    exact hrest
  | returned =>
    rw [hc] at hcontrol
    generalize t.proxy = x at hcontrol
    cases hcontrol with
    | idle hgot => exact hgot
    | gone hlost => exact hlost
  | crashed =>
    rw [hc] at hcontrol
    generalize t.proxy = x at hcontrol
    cases hcontrol with
    | idle hgot => exact hgot
    | gone hlost => exact hlost

end Matches

end ByteSession

/-- The command of the call. -/
def ClientControl.command? : ClientControl → Option Command
  | .sending c _ => some c
  | .reading c _ => some c
  | _ => none

theorem ClientRel.pending_eq {pending : Option Command} {down : List Response}
    {left sofar ps : List Bytes} {c : ClientControl}
    (h : ClientRel False pending down left sofar ps c) : pending = c.command? := by
  cases h with
  | failed hlost => exact hlost.elim
  | _ => assumption

/-! ## In a run of the cluster -/

namespace ByteCluster

variable {Cl : Type} [DecidableEq Cl] {e : ByteEnv} {s s' : ByteCluster Cl n} {cl : Cl}

/-- The steps of the other sessions do not reach this one. -/
theorem step_others {a : Action Cl n} (hs : step e s a = some s') (ha : ¬ a.Of cl) :
    s'.session cl = s.session cl := by
  have other : ∀ {cl' : Cl} {t : ByteSession n}, ¬ cl' = cl →
      (s.setSession cl' t).session cl = s.session cl := fun hne =>
    Function.update_of_ne (fun heq => hne heq.symm) ..
  cases a with
  | call cl' c =>
    obtain ⟨client, -, hs⟩ := Option.bind_eq_some_iff.1 hs
    cases hs
    exact other ha
  | session cl' b =>
    cases b with
    | client r w =>
      obtain ⟨client, -, hs⟩ := Option.bind_eq_some_iff.1 hs
      cases hs
      exact other ha
    | proxy r w =>
      obtain ⟨proxy, -, hs⟩ := Option.bind_eq_some_iff.1 hs
      cases hs
      exact other ha
    | worker i r w =>
      obtain ⟨worker, -, hs⟩ := Option.bind_eq_some_iff.1 hs
      cases hs
      exact other ha
    | _ =>
      obtain ⟨t, -, hs⟩ := Option.bind_eq_some_iff.1 hs
      cases hs
      exact other ha

/-- Some thread of the session, or its part of the network, can make a step that succeeds. -/
def CanGo (e : ByteEnv) (cl : Cl) (s : ByteCluster Cl n) : Prop :=
  ∃ b : ByteSession.Action n, b.Succeeds ∧ (step e s (.session cl b)).isSome

theorem canGo_of_session (h : (s.session cl).CanGo e s.db) : CanGo e cl s := by
  cases h with
  | @client x hx =>
    refine ⟨.client .done .done, ⟨rfl, rfl⟩, ?_⟩
    show (((s.session cl).client.step e.client .done .done).bind _).isSome
    rw [hx]
    rfl
  | @proxy p hp =>
    refine ⟨.proxy .done .done, ⟨rfl, rfl⟩, ?_⟩
    show (((s.session cl).proxy.proxyStep (e.proxy n) .done .done).bind _).isSome
    rw [hp]
    rfl
  | @worker i k hk =>
    refine ⟨.worker i .done .done, ⟨rfl, rfl⟩, ?_⟩
    show ((((s.session cl).shard i).workerStep (e.kv (s.db i)) .done .done).bind _).isSome
    rw [hk]
    rfl
  | @carry b t hb =>
    have carried : ((s.session cl).carry b).bind (fun t => some (s.setSession cl t)) =
        some (s.setSession cl t) := by
      rw [hb]
      rfl
    refine ⟨b, ?_⟩
    cases b with
    | client r w => cases hb
    | proxy r w => cases hb
    | worker i r w => cases hb
    | _ => exact ⟨trivial, Option.isSome_iff_exists.2 ⟨_, carried⟩⟩

/-- The step is one of the session's threads, or of the network between them. -/
def Action.InSession (cl : Cl) (a : Action Cl n) : Prop := ∃ b, a = .session cl b

/-- Only the session of `cl` is not to lose threads. -/
theorem covered_ne {a : Action Cl n} :
    Covered e (· ≠ cl) s a ↔ Admits e s a ∧ ∀ b, a = .session cl b → b.Succeeds := by
  refine and_congr_right fun _ => ⟨fun h b ha => (h cl b ha).resolve_left fun hne => hne rfl, ?_⟩
  rintro h cl' b rfl
  by_cases hcl : cl' = cl
  · subst hcl
    exact .inr (h b rfl)
  · exact .inl hcl

/-- The client is in a call. -/
def Busy (cl : Cl) (s : ByteCluster Cl n) : Prop := (s.session cl).client.control ≠ .idle

theorem Rel.can_go {lost : Cl → Prop} {t : Cluster Cl n} {db : Fin n → Store} (h : Rel lost s t)
    (hkept : ¬ lost cl) (ht : Reachable (Cluster.step e.notFound) (Cluster.init db) t)
    (hbusy : Busy cl s) : CanGo e cl s := by
  obtain ⟨left, sofar, got, todo, taken, hm⟩ := h.session cl
  rw [eq_false hkept] at hm
  obtain ⟨st, hshape, -⟩ := Cluster.answers ht cl
  exact canGo_of_session (hm.can_go hshape hbusy e s.db)

/-- **A session in a call is never stuck**: as long as none of its own calls of `read` and `write`
fails, one of its threads can go on, or the network has something to carry for it. -/
theorem never_stuck {db : Fin n → Store} {as : List (Action Cl n)}
    (h : Machine.run (step e) (init db) as = some s)
    (hno : ¬ Meets (step e) (fun s a => ¬ (Admits e s a ∧ ∀ b, a = .session cl b → b.Succeeds))
      (init db) as)
    (hbusy : (s.session cl).client.control ≠ .idle) :
    ∃ b : ByteSession.Action n, b.Succeeds ∧ (step e s (.session cl b)).isSome := by
  have hno' : ¬ Meets (step e) (fun s a => ¬ Covered e (· ≠ cl) s a) (init db) as := by
    simpa only [covered_ne] using hno
  obtain ⟨t, ht, hrel⟩ := (simulates e (· ≠ cl) db).run (rel_init db) h hno'
  exact hrel.can_go (fun hne => hne rfl) ht.reachable hbusy

theorem never_stuck_get :
    ∃ s, Machine.run (step plainEnv) (init fun _ => ∅)
        [(.call true (.get [116, 95, 49]) : Action Bool 2)] = some s ∧
      ∃ b : ByteSession.Action 2, b.Succeeds ∧ (step plainEnv s (.session true b)).isSome := by
  have hrun : ∃ s, Machine.run (step plainEnv) (init fun _ => ∅)
      [(.call true (.get [116, 95, 49]) : Action Bool 2)] = some s ∧
        (s.session true).client.control ≠ .idle := by
    rw [Machine.run, call_get]
    refine ⟨_, rfl, ?_⟩
    intro hc
    cases hc
  obtain ⟨s, hs, hbusy⟩ := hrun
  refine ⟨s, hs, never_stuck hs ?_ hbusy⟩
  exact not_meets_cons (not_not.2 ⟨call_get_admitted _, fun _ heq => absurd heq call_ne_session⟩)
    (call_get _) id

/-! ## What a step takes -/

/-- What is left to do for the session: the messages count more than the pieces. -/
def rank (cl : Cl) (s : ByteCluster Cl n) (t : Cluster Cl n) : Nat ×ₗ Nat :=
  toLex ((t.session cl).rank, (s.session cl).weight)

theorem Follows.rank_lt {lost : Cl → Prop} {a : Action Cl n} {t t' : Cluster Cl n}
    (h : Follows e lost s a s' t t') {b : ByteSession.Action n} (ha : a = .session cl b) :
    rank cl s' t' < rank cl s t := by
  unfold rank
  rcases h.advances cl b ha with ⟨hsame, -, hweight⟩ | hadvances
  · rw [hsame]
    exact Prod.Lex.toLex_lt_toLex.2 (.inr ⟨rfl, hweight⟩)
  · exact Prod.Lex.toLex_lt_toLex.2 (.inl hadvances.rank_lt)

/-- In a call that has not failed a client does not make another one. -/
theorem not_call_of_busy {c : Command} (hbusy : Busy cl s) (hadmits : Admits e s (.call cl c)) :
    step e s (.call cl c) = none := by
  have hcall : (s.session cl).client.call e.client c = none := by
    unfold ClientLoop.call
    split
    · exact absurd ‹_› hbusy
    · exact absurd ‹_› hadmits.1
    · rfl
  show Option.bind _ _ = none
  rw [hcall]
  rfl

theorem busy_of_call {c : Command} (hs : step e s (.call cl c) = some s') : Busy cl s' := by
  have built : ∀ {client : ClientLoop}, (client.build e.client c).control ≠ .idle := by
    intro client
    unfold ClientLoop.build
    split
    · exact fun hc => nomatch hc
    · exact fun hc => nomatch hc
  obtain ⟨client, hclient, hs⟩ := Option.bind_eq_some_iff.1 hs
  cases hs
  show ((s.setSession cl { s.session cl with client }).session cl).client.control ≠ .idle
  rw [setSession_session_self]
  unfold ClientLoop.call at hclient
  split at hclient
  · cases hclient
    exact built
  · cases hclient
    exact built
  · cases hclient

/-- A run of the cluster that is where `s` is. -/
def Tracks (e : ByteEnv) (lost : Cl → Prop) (db : Fin n → Store) (s : ByteCluster Cl n)
    (t : Cluster Cl n) : Prop :=
  Reachable (Cluster.step e.notFound) (Cluster.init db) t ∧ Rel lost s t

end ByteCluster

end SqpKv
