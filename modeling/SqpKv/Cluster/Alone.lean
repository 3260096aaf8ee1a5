import SqpKv.Lib.Liveness
import SqpKv.Cluster.Progress

/-!
# A call alone

While only one client's session goes on, and none of its calls of `read` and
`write` fails, its call takes the stores where the worker of the key's shard
takes them, and returns what that worker answers; a GetAll returns the keys of
the shards, one after the other:

    Lone c, from the stores db   →   returns answer db c, over the stores served db c    (exists_returned)

All packets on the way are ones that `answer` names, so that it is enough to
know that these are built.
-/

namespace SqpKv

open Wire Machine History

variable {n : Nat}

/-! ## What a call does when it is alone -/

/-- The keys with the prefix on the first `k` shards. -/
def listed (db : Fin n → Store) (keyPrefix : Bytes) (k : Nat) : List Bytes :=
  (List.ofFn fun j => collect keyPrefix (seek (db j) keyPrefix)).take k |>.flatten

theorem listed_succ (db : Fin n → Store) (keyPrefix : Bytes) (j : Fin n) :
    listed db keyPrefix (j + 1) = listed db keyPrefix j ++ collect keyPrefix (seek (db j) keyPrefix) := by
  have hj : j.val < (List.ofFn fun j => collect keyPrefix (seek (db j) keyPrefix)).length := by
    rw [List.length_ofFn]
    exact j.isLt
  unfold listed
  rw [List.take_succ_eq_append_getElem hj, List.flatten_append, List.getElem_ofFn]
  simp

/-- The stores when the command has been carried out. -/
def served (notFound : Bytes) (db : Fin n → Store) (c : Command) : Fin n → Store :=
  match c.key?.bind (route n) with
  | some i => Function.update db i (KvWorker.handle notFound (db i) c).1
  | none => db

/-- The response that the client gets. -/
def reply (notFound : Bytes) (db : Fin n → Store) (c : Command) : Option Response :=
  match c with
  | .getAll keyPrefix => some (.getAll .Ok (listed db keyPrefix n))
  | c => (c.key?.bind (route n)).map fun i => (KvWorker.handle notFound (db i) c).2.decoded

/-- What the call returns. -/
def answer (notFound : Bytes) (db : Fin n → Store) (c : Command) : Option CallResult :=
  (reply notFound db c).bind (Connection.finish c)

section

variable {notFound : Bytes} {db : Fin n → Store} {c : Command} {key : Bytes} {i : Fin n}

theorem served_of_route (hc : c.key? = some key) (hi : route n key = some i) :
    served notFound db c = Function.update db i (KvWorker.handle notFound (db i) c).1 := by
  simp only [served, hc, Option.bind_some, hi]

theorem answer_of_route (hc : c.key? = some key) (hi : route n key = some i) :
    answer notFound db c = Connection.finish c (KvWorker.handle notFound (db i) c).2.decoded := by
  have hreply : reply notFound db c = some (KvWorker.handle notFound (db i) c).2.decoded := by
    cases c with
    | getAll keyPrefix => cases hc
    | _ => simp only [reply, hc, Option.bind_some, hi, Option.map_some]
  rw [answer, hreply, Option.bind_some]

theorem answer_getAll (keyPrefix : Bytes) :
    answer notFound db (.getAll keyPrefix) = some (.getAll .Ok (listed db keyPrefix n)) := rfl

/-- A Get leaves the stores as they are. -/
theorem served_get (key : Bytes) : served notFound db (.get key) = db := by
  unfold served
  split
  · next i _ =>
    have hsame : (KvWorker.handle notFound (db i) (.get key)).1 = db i := by
      rw [KvWorker.handle]
      split
      · rfl
      · rfl
    rw [hsame, Function.update_eq_self]
  · rfl

end

namespace Session

/-- A call of `c` that began over the stores `db` and that nothing disturbs: the session, and the
stores now. -/
inductive Lone (notFound : Bytes) (db : Fin n → Store) (c : Command) (t : Session n)
    (now : Fin n → Store) : Prop
  | before (hshape : t.Shape (.before c)) (hnow : now = db)
  | after {key : Bytes} {i : Fin n} (hc : c.key? = some key) (hi : route n key = some i)
      (hshape : t.Shape (.after c (KvWorker.handle notFound (db i) c).2.decoded))
      (hnow : now = served notFound db c)
  | scanning {keyPrefix : Bytes} (hc : c = .getAll keyPrefix) (hshape : t.Shape .scanning)
      (hp : t.pending = some c)
      (hg : t.Gathers (fun j keys => keys = collect keyPrefix (seek (db j) keyPrefix))
        fun k keys => keys = listed db keyPrefix k)
      (hnow : now = db)
  | ended (hshape : t.Shape .idle) (hnow : now = served notFound db c)

theorem joins_listed (db : Fin n → Store) (keyPrefix : Bytes) :
    Joins (fun j keys => keys = collect keyPrefix (seek (db j) keyPrefix))
      fun k keys => keys = listed db keyPrefix k where
  nil := rfl
  append j keys more hkeys hmore := by rw [hkeys, hmore, listed_succ]

namespace Lone

variable {notFound : Bytes} {db now : Fin n → Store} {c : Command} {t t' : Session n}

/-- A session at rest calls. -/
theorem call {st : Stage} (hshape : t.Shape st) (hs : t.call c = some t') :
    t'.Lone notFound db c db := by
  rcases (hshape.call hs).2.2 with ⟨key, -, hshape'⟩ | ⟨hc, hshape'⟩
  · exact .before hshape' rfl
  · cases c with
    | getAll keyPrefix =>
      refine .scanning rfl hshape' ?_ (Gathers.call hshape hs) rfl
      unfold Session.call at hs
      split at hs
      · cases hs
        rfl
      · cases hs
    | _ => cases hc

/-- A step that leaves the request at its stage, and what is known of the answers. -/
theorem stays (h : t.Lone notFound db c now) (hshape : ∀ st, t.Shape st → t'.Shape st)
    (hgathers : ∀ {Q R}, Joins Q R → t.Shape .scanning → t.Gathers Q R →
      t'.Gathers Q R ∧ t'.pending = t.pending) : t'.Lone notFound db c now := by
  cases h with
  | before hst hnow => exact .before (hshape _ hst) hnow
  | after hc hi hst hnow => exact .after hc hi (hshape _ hst) hnow
  | scanning hc hst hp hg hnow =>
    obtain ⟨hg', hp'⟩ := hgathers (joins_listed _ _) hst hg
    exact .scanning hc (hshape _ hst) (hp'.trans hp) hg' hnow
  | ended hst hnow => exact .ended (hshape _ hst) hnow

/-- A worker calls RocksDB. -/
theorem workerExec (h : t.Lone notFound db c now) {i : Fin n} {d : Store}
    (hs : t.workerExec notFound i (now i) = some (d, t')) :
    t'.Lone notFound db c (Function.update now i d) := by
  cases h with
  | before hst hnow =>
    subst hnow
    rcases (hst.workerExec hs).2 with ⟨c', key, hbefore, hc, hi, rfl, hst'⟩ | ⟨hscan, -⟩
    · cases hbefore
      exact .after hc hi hst' (served_of_route hc hi).symm
    · cases hscan
  | after hc hi hst hnow =>
    rcases (hst.workerExec hs).2 with ⟨_, _, hbefore, -⟩ | ⟨hscan, -⟩
    · cases hbefore
    · cases hscan
  | scanning hc hst hp hg hnow =>
    subst hnow hc
    rcases (hst.workerExec hs).2 with ⟨_, _, hbefore, -⟩ | ⟨-, rfl, hst'⟩
    · cases hbefore
    · obtain ⟨hg', hp'⟩ := hg.workerExec hst hp rfl hs
      rw [Function.update_eq_self]
      exact .scanning rfl hst' (hp'.trans hp) hg' rfl
  | ended hst hnow =>
    rcases (hst.workerExec hs).2 with ⟨_, _, hbefore, -⟩ | ⟨hscan, -⟩
    · cases hbefore
    · cases hscan

/-- The call returns what the stores answer. -/
theorem result (h : t.Lone notFound db c now) {c' : Command} {ret : CallResult}
    (hs : t.result = some (c', ret, t')) :
    c' = c ∧ answer notFound db c = some ret ∧ t'.Shape .idle ∧ now = served notFound db c := by
  cases h with
  | before hst hnow =>
    rcases (hst.result hs).2.2 with ⟨_, _, hafter, -⟩ | ⟨hscan, -⟩
    · cases hafter
    · cases hscan
  | after hc hi hst hnow =>
    obtain ⟨-, hidle, ⟨_, _, hafter, -, hfinish⟩ | ⟨hscan, -⟩⟩ := hst.result hs
    · cases hafter
      exact ⟨rfl, (answer_of_route hc hi).trans hfinish, hidle, hnow⟩
    · cases hscan
  | scanning hc hst hp hg hnow =>
    subst hc
    obtain ⟨-, hidle, -⟩ := hst.result hs
    cases hst with
    | scanned hp' hu hx hd hl =>
      unfold Session.result at hs
      rw [hp, hd] at hs
      cases hs
      refine ⟨rfl, ?_, hidle, hnow⟩
      rw [answer_getAll, hg.sent _ hd]
    | _ =>
      -- nothing has come back
      unfold Session.result at hs
      rw [hp, ‹t.down = []›] at hs
      cases hs
  | ended hst hnow =>
    rcases (hst.result hs).2.2 with ⟨_, _, hafter, -⟩ | ⟨hscan, -⟩
    · cases hafter
    · cases hscan

theorem works {x y : Session n × (Fin n → Store)} (h : x.1.Lone notFound db c x.2)
    (hs : Works notFound x y) : y.1.Lone notFound db c y.2 := by
  cases hs with
  | proxyStep hs =>
    exact h.stays (fun _ hst => (hst.proxyStep hs).1) fun hj hst hg => hg.proxyStep hj hst hs
  | workerRead hs =>
    exact h.stays (fun _ hst => (hst.workerRead hs).1) fun _ hst hg => hg.workerRead hst hs
  | workerSend hs =>
    exact h.stays (fun _ hst => (hst.workerSend hs).1) fun _ hst hg => hg.workerSend hst hs
  | workerExec hs => exact h.workerExec hs
  | result hs =>
    obtain ⟨-, -, hidle, hnow⟩ := h.result hs
    exact .ended hidle hnow

theorem advances {x y : Session n × (Fin n → Store)} (h : x.1.Lone notFound db c x.2)
    (hs : Advances notFound x y) : y.1.Lone notFound db c y.2 := by
  induction hs with
  | single hs => exact h.works hs
  | tail _ hs ih => exact ih.works hs

/-- What a shard is asked is the command, and the stores are as they were. -/
theorem of_asked (h : t.Lone notFound db c now) {i : Fin n} {c' : Command}
    (hl : t.lane i = ⟨[c'], .idle, []⟩) : c' = c ∧ now = db := by
  have only : ∀ {j : Fin n} {st : LaneStage}, t.Only j st →
      (t.lane i).At st ∨ (t.lane i).At .quiet := by
    intro j st honly
    by_cases hij : i = j
    · subst hij
      exact .inl honly.1
    · exact .inr (honly.2 i hij)
  rw [hl] at only
  cases h with
  | before hst hnow =>
    refine ⟨?_, hnow⟩
    cases hst with
    | asked _ _ _ _ _ _ honly =>
      rcases only honly with hat | hat
      · cases hat
        rfl
      · cases hat
    | _ =>
      rename t.Quiet => hquiet
      have hat := hquiet i
      rw [hl] at hat
      cases hat
  | after hc hi hst hnow =>
    cases hst with
    | answered _ _ _ _ _ honly =>
      rcases only honly with hat | hat
      · cases hat
      · cases hat
    | _ =>
      rename t.Quiet => hquiet
      have hat := hquiet i
      rw [hl] at hat
      cases hat
  | scanning hc hst hp hg hnow =>
    subst hc
    refine ⟨?_, hnow⟩
    rcases hst.lane_cases hp i with hat | hat | ⟨_, hat⟩
    · rw [hl] at hat
      cases hat
    · rw [hl] at hat
      cases hat
      rfl
    · rw [hl] at hat
      cases hat
  | ended hst hnow =>
    cases hst with
    | idle _ _ _ _ hquiet =>
      have hat := hquiet i
      rw [hl] at hat
      cases hat

/-- Between two calls it is over. -/
theorem of_rest (h : t.Lone notFound db c now) (hp : t.pending = none) : now = served notFound db c := by
  cases h with
  | ended _ hnow => exact hnow
  | scanning _ _ hp' =>
    rw [hp] at hp'
    cases hp'
  | _ =>
    rename t.Shape _ => hst
    obtain ⟨c', hp'⟩ := hst.pending_isSome fun heq => nomatch heq
    rw [hp] at hp'
    cases hp'

/-- A session at rest, before or behind a command that leaves the stores alone. -/
theorem rest {st : Stage} (hshape : t.Shape st) (hp : t.pending = none)
    (hdb : served notFound db c = db) : t.Lone notFound db c db := by
  have hst : st = .idle := by
    by_contra hne
    obtain ⟨c', hp'⟩ := hshape.pending_isSome hne
    rw [hp] at hp'
    cases hp'
  subst hst
  exact .ended hshape hdb.symm

/-- What the proxy has collected when it has asked all shards. -/
theorem of_collect (h : t.Lone notFound db c now) {next : Nat} {keys : List Bytes}
    (hx : t.proxy = .collect next keys) (hn : n ≤ next) :
    ∃ keyPrefix, c = .getAll keyPrefix ∧ keys = listed db keyPrefix n := by
  cases h with
  | scanning hc hst hp hg hnow =>
    obtain ⟨hle, hkeys⟩ := hg.collected next keys hx
    exact ⟨_, hc, by rw [hkeys, Nat.le_antisymm hle hn]⟩
  | _ =>
    rename t.Shape _ => hst
    cases hst <;>
      · rename t.proxy = _ => hx'
        rw [hx] at hx'
        cases hx'

end Lone

end Session

/-! ## The threads call by call -/

namespace ClientLoop

variable {e : ClientEnv} {r w : Call} {s t : ClientLoop} {ret : Option (Command × CallResult)}

/-- The call goes on, or fails, or returns. -/
theorem step_ret (hs : s.step e r w = some (t, ret)) :
    (ret = none ∧ t.control ≠ .idle ∧ t.calls = s.calls) ∨ (∃ x, ret = some x) ∧ t.control = .idle := by
  cases hc : s.control with
  | sending c left =>
    obtain ⟨bs, rest, -, rfl, rfl⟩ := step_sending hs hc
    refine .inl ⟨rfl, ?_, ?_⟩
    · split
      · exact fun h => nomatch h
      · dsimp only
        split
        · exact fun h => nomatch h
        · exact fun h => nomatch h
    · split
      · rfl
      · rfl
  | reading c packet =>
    obtain ⟨result, taken, fromServer, -, heq⟩ := step_reading hs hc
    unfold serverRead at heq
    split at heq
    · cases heq
      exact .inl ⟨rfl, fun h => (nomatch h), rfl⟩
    · split at heq
      · cases heq
        exact .inl ⟨rfl, fun h => (nomatch h), rfl⟩
      · split at heq
        · split at heq
          · cases heq
            exact .inr ⟨⟨_, rfl⟩, rfl⟩
          · cases heq
            exact .inl ⟨rfl, fun h => (nomatch h), rfl⟩
        · cases heq
          exact .inl ⟨rfl, fun h => (nomatch h), rfl⟩
  | _ =>
    simp only [step, hc] at hs
    cases hs

end ClientLoop

theorem ByteSession.carry_client {s s' : ByteSession n} {a : Action n} (hs : s.carry a = some s') :
    s'.client.control = s.client.control ∧ s'.client.calls = s.client.calls := by
  unfold carry at hs
  split at hs
  · split at hs
    · cases hs
    · cases hs
      exact ⟨rfl, rfl⟩
  · split at hs
    · cases hs
    · cases hs
      exact ⟨rfl, rfl⟩
  · split at hs
    · cases hs
    · cases hs
      exact ⟨rfl, rfl⟩
  · split at hs
    · cases hs
    · cases hs
      exact ⟨rfl, rfl⟩
  · cases hs

namespace ByteCluster

variable {Cl : Type} [DecidableEq Cl] {e : ByteEnv} {s s' : ByteCluster Cl n} {cl : Cl}
  {lost : Cl → Prop} {db₀ db : Fin n → Store} {c : Command} {t : Cluster Cl n}

/-- The step is one of the client or its session, and succeeds. -/
structure Own (e : ByteEnv) (cl : Cl) (s : ByteCluster Cl n) (a : Action Cl n) : Prop where
  admits : Admits e s a
  own : a.Of cl
  succeeds : ∀ cl' b, a = .session cl' b → b.Succeeds

omit [DecidableEq Cl] in
theorem Own.covered {a : Action Cl n} (h : Own e cl s a) : Covered e lost s a :=
  ⟨h.admits, fun cl' b ha => .inr (h.succeeds cl' b ha)⟩

/-- The packets on the way of the call are built. -/
structure Builds (e : ByteEnv) (db : Fin n → Store) (c : Command) : Prop where
  responses : ∀ i, e.BuildsResponse (KvWorker.handle e.notFound (db i) c).2
  keys : ∀ keyPrefix, c = .getAll keyPrefix → e.BuildsResponse (.getAll .Ok (listed db keyPrefix n))

theorem Tracks.own (ht : Tracks e lost db₀ s t) (h : (t.session cl).Lone e.notFound db c t.db)
    (hbuilds : Builds e db c) {b : ByteSession.Action n} (hb : b.Succeeds) :
    Own e cl s (.session cl b) := by
  refine ⟨?_, rfl, ?_⟩
  · obtain ⟨-, hrel⟩ := ht
    obtain ⟨left, sofar, got, todo, taken, hm⟩ := hrel.session cl
    cases b with
    | worker i r w =>
      intro c' hcommand
      obtain ⟨rfl, hdb⟩ := h.of_asked ((hm.lanes i).of_command hcommand)
      rw [← hrel.db, hdb]
      exact hbuilds.responses i
    | proxy r w =>
      intro next packet keys sources hc hn
      have hcontrol := hm.control
      rw [hc] at hcontrol
      obtain ⟨_, hx, -⟩ := hcontrol.of_collect
      obtain ⟨keyPrefix, hgetAll, rfl⟩ := h.of_collect hx hn
      exact hbuilds.keys keyPrefix hgetAll
    | _ => trivial
  · rintro cl' b' ⟨⟩
    exact hb

omit [DecidableEq Cl] in
theorem Rel.pending_of_rest (h : Rel lost s t) (hidle : ¬ Busy cl s) :
    (t.session cl).pending = none := by
  obtain ⟨left, sofar, got, todo, taken, hm⟩ := h.session cl
  have hclient := hm.client
  rw [not_not.1 hidle] at hclient
  cases hclient with
  | idle hp => exact hp

/-- What a step of the session lets be seen: nothing, and the call goes on, or what it returns. -/
theorem step_session_cases {b : ByteSession.Action n} (hbusy : Busy cl s)
    (hs : step e s (.session cl b) = some s') :
    (Busy cl s' ∧ (s'.session cl).client.calls = (s.session cl).client.calls ∧
        s'.history = s.history ∧ event e s (.session cl b) = []) ∨
      ∃ r w client c ret, b = .client r w ∧
        (s.session cl).client.step e.client r w = some (client, some (c, ret)) ∧ ¬ Busy cl s' ∧
        event e s (.session cl b) = [.res (cl, (s.session cl).client.calls) ret] ∧
        s'.history = s.history ++ Cluster.log c (.res (cl, (s.session cl).client.calls) ret) := by
  have unseen : ∀ {u : ByteSession n}, u.client.control = (s.session cl).client.control →
      u.client.calls = (s.session cl).client.calls →
      Busy cl (s.setSession cl u) ∧ ((s.setSession cl u).session cl).client.calls =
        (s.session cl).client.calls := by
    intro u hcontrol hcalls
    unfold Busy
    rw [setSession_session_self, hcontrol]
    exact ⟨hbusy, hcalls⟩
  cases b with
  | client r w =>
    obtain ⟨⟨client, ret⟩, hclient, hs⟩ := Option.bind_eq_some_iff.1 hs
    cases hs
    rcases ClientLoop.step_ret hclient with ⟨rfl, hidle, hcalls⟩ | ⟨⟨⟨c, ret⟩, rfl⟩, hidle⟩
    · refine .inl ⟨?_, ?_, List.append_nil _, ?_⟩
      · show ((s.setSession cl _).session cl).client.control ≠ _
        rw [setSession_session_self]
        exact hidle
      · show ((s.setSession cl _).session cl).client.calls = _
        rw [setSession_session_self]
        exact hcalls
      · simp only [event, hclient]
    · refine .inr ⟨r, w, client, c, ret, rfl, hclient, ?_, ?_, rfl⟩
      · show ¬ ((s.setSession cl _).session cl).client.control ≠ _
        rw [setSession_session_self]
        exact not_not.2 hidle
      · simp only [event, hclient]
  | proxy r w =>
    obtain ⟨proxy, -, hs⟩ := Option.bind_eq_some_iff.1 hs
    cases hs
    obtain ⟨hbusy', hcalls⟩ := unseen (u := { s.session cl with proxy }) rfl rfl
    exact .inl ⟨hbusy', hcalls, rfl, rfl⟩
  | worker i r w =>
    obtain ⟨worker, -, hs⟩ := Option.bind_eq_some_iff.1 hs
    cases hs
    obtain ⟨hbusy', hcalls⟩ := unseen (u := (s.session cl).setShard i worker) rfl rfl
    exact .inl ⟨hbusy', hcalls, rfl, rfl⟩
  | _ =>
    obtain ⟨u, hcarry, hs⟩ := Option.bind_eq_some_iff.1 hs
    cases hs
    obtain ⟨hcontrol, hcalls⟩ := ByteSession.carry_client hcarry
    obtain ⟨hbusy', hcalls'⟩ := unseen hcontrol hcalls
    exact .inl ⟨hbusy', hcalls', rfl, rfl⟩

/-- A client at rest calls. -/
theorem Tracks.calls (h : Tracks e lost db₀ s t) (hidle : ¬ Busy cl s)
    (hadmits : Admits e s (.call cl c)) :
    ∃ s' t', Own e cl s (.call cl c) ∧ step e s (.call cl c) = some s' ∧ Tracks e lost db₀ s' t' ∧
      (t'.session cl).Lone e.notFound s.db c t'.db ∧
      s'.history = s.history ++ Cluster.log c (.inv (cl, (s.session cl).client.calls) c) ∧
      (s'.session cl).client.calls = (s.session cl).client.calls := by
  obtain ⟨ht, hrel⟩ := h
  have hown : Own e cl s (.call cl c) := ⟨hadmits, rfl, fun _ _ heq => absurd heq call_ne_session⟩
  obtain ⟨hsize, hroom⟩ := hadmits.2.2
  have hcall := ClientLoop.call_idle (e := e.client) (commandBytes_eq hsize hroom) (not_not.1 hidle)
  have hs := step_call hcall
  obtain ⟨t', hfollows⟩ := hrel.step ht hown.covered hs
  obtain ⟨hcall', hdb⟩ := hfollows.calls cl c rfl
  obtain ⟨st, hshape, -⟩ := Cluster.answers ht cl
  refine ⟨_, t', hown, hs, ⟨ht.trans hfollows.run.reachable, hfollows.rel⟩, ?_, rfl, ?_⟩
  · rw [hdb, hrel.db]
    exact .call hshape hcall'
  · show ((s.setSession cl _).session cl).client.calls = _
    rw [setSession_session_self]

/-- A session in a call goes on, and has less to do. -/
theorem Tracks.goes (h : Tracks e lost db₀ s t) (hlone : (t.session cl).Lone e.notFound db c t.db)
    (hbuilds : Builds e db c) (hkept : ¬ lost cl) (hbusy : Busy cl s) :
    ∃ b s' t', b.Succeeds ∧ Own e cl s (.session cl b) ∧ step e s (.session cl b) = some s' ∧
      Tracks e lost db₀ s' t' ∧ (t'.session cl).Lone e.notFound db c t'.db ∧
      rank cl s' t' < rank cl s t := by
  obtain ⟨ht, hrel⟩ := id h
  obtain ⟨b, hb, hgo⟩ := hrel.can_go hkept ht hbusy
  obtain ⟨s', hs⟩ := Option.isSome_iff_exists.1 hgo
  have hown := h.own hlone hbuilds hb
  obtain ⟨t', hfollows⟩ := hrel.step ht hown.covered hs
  refine ⟨b, s', t', hb, hown, hs, ⟨ht.trans hfollows.run.reachable, hfollows.rel⟩, ?_,
    hfollows.rank_lt rfl⟩
  rcases hfollows.advances cl b rfl with ⟨hsame, hdb, -⟩ | hadvances
  · rw [hsame, hdb]
    exact hlone
  · exact hlone.advances (x := (t.session cl, t.db)) (y := (t'.session cl, t'.db)) hadvances

/-- A call of `c` alone, the `k`-th of its client, from the stores `db` and the history `hist`; `H` has
been seen of it. -/
structure Serving (e : ByteEnv) (lost : Cl → Prop) (db₀ db : Fin n → Store) (cl : Cl) (c : Command)
    (k : Nat) (hist : List (CallEvent Cl)) (s : ByteCluster Cl n) (t : Cluster Cl n)
    (H : List (CallEvent Cl)) : Prop where
  tracks : Tracks e lost db₀ s t
  lone : (t.session cl).Lone e.notFound db c t.db
  seen : (Busy cl s ∧ (s.session cl).client.calls = k ∧ s.history = hist ∧ H = [.inv (cl, k) c]) ∨
    ¬ Busy cl s ∧ ∃ ret, answer e.notFound db c = some ret ∧
      H = [.inv (cl, k) c, .res (cl, k) ret] ∧ s.history = hist ++ Cluster.log c (.res (cl, k) ret)

theorem Serving.goes {k : Nat} {hist H : List (CallEvent Cl)}
    (h : Serving e lost db₀ db cl c k hist s t H) (hbuilds : Builds e db c) (hkept : ¬ lost cl)
    (hbusy : Busy cl s) :
    ∃ a s' t', Own e cl s a ∧ step e s a = some s' ∧
      Serving e lost db₀ db cl c k hist s' t' (H ++ event e s a) ∧ rank cl s' t' < rank cl s t := by
  obtain ⟨b, s', t', hb, hown, hs, htracks, hlone, hlt⟩ := h.tracks.goes h.lone hbuilds hkept hbusy
  refine ⟨_, s', t', hown, hs, ⟨htracks, hlone, ?_⟩, hlt⟩
  obtain ⟨-, hcalls, hhist, hH⟩ := h.seen.resolve_right fun hdone => hdone.1 hbusy
  rcases step_session_cases hbusy hs with
    ⟨hbusy', hcalls', hhist', hevent⟩ | ⟨r, w, client, c', ret, rfl, hclient, hidle, hevent, hhist'⟩
  · refine .inl ⟨hbusy', hcalls'.trans hcalls, hhist'.trans hhist, ?_⟩
    rw [hevent, List.append_nil, hH]
  · obtain ⟨ht, hrel⟩ := h.tracks
    obtain ⟨left, sofar, got, todo, taken, hm⟩ := hrel.session cl
    rcases hm.clientStep hclient (.inr hb) fun c r hp hd => (Cluster.answers ht cl).finish hp hd with
      ⟨hnone, -⟩ | ⟨_, _, u, heq, hresult, -⟩
    · cases hnone
    cases heq
    obtain ⟨rfl, hanswer, -⟩ := h.lone.result hresult
    refine .inr ⟨hidle, ret, hanswer, ?_, ?_⟩
    · rw [hevent, hcalls, hH]
      rfl
    · rw [hhist', hhist, hcalls]

/-- **A call alone returns** what the stores answer, over the stores as it leaves them. -/
theorem exists_returned (h : Tracks e lost db₀ s t) (hkept : ¬ lost cl) (hidle : ¬ Busy cl s)
    (hadmits : Admits e s (.call cl c)) (hbuilds : Builds e s.db c) :
    ∃ as s' t' ret, answer e.notFound s.db c = some ret ∧
      run (step e) s (.call cl c :: as) = some s' ∧
      ¬ Meets (step e) (fun s a => ¬ Own e cl s a) s (.call cl c :: as) ∧
      trace (step e) (event e) s (.call cl c :: as) =
        [.inv (cl, (s.session cl).client.calls) c, .res (cl, (s.session cl).client.calls) ret] ∧
      s'.history = s.history ++ Cluster.log c (.inv (cl, (s.session cl).client.calls) c) ++
        Cluster.log c (.res (cl, (s.session cl).client.calls) ret) ∧
      s'.db = served e.notFound s.db c ∧ ¬ Busy cl s' ∧ Tracks e lost db₀ s' t' := by
  obtain ⟨s₁, t₁, hown, hs, htracks, hlone, hhist₁, hcalls₁⟩ := h.calls hidle hadmits
  have hserving : Serving e lost db₀ s.db cl c (s.session cl).client.calls s₁.history s₁ t₁
      [.inv (cl, (s.session cl).client.calls) c] :=
    ⟨htracks, hlone, .inl ⟨busy_of_call hs, hcalls₁, rfl, rfl⟩⟩
  have hdone : ∃ as s' t', run (step e) s₁ as = some s' ∧
      ¬ Meets (step e) (fun s a => ¬ Own e cl s a) s₁ as ∧
      Serving e lost db₀ s.db cl c (s.session cl).client.calls s₁.history s' t'
        ([.inv (cl, (s.session cl).client.calls) c] ++ trace (step e) (event e) s₁ as) ∧ ¬ Busy cl s' :=
    exists_done (fun _ _ _ h hbusy => h.goes hbuilds hkept (not_not.1 hbusy)) hserving
  obtain ⟨as, s', t', hrun, hno, hdone, hidle'⟩ := hdone
  obtain ⟨-, ret, hanswer, htrace, hhist⟩ := hdone.seen.resolve_left fun hbusy => hidle' hbusy.1
  rw [hhist₁] at hhist
  refine ⟨as, s', t', ret, hanswer, ?_, not_meets_cons (not_not.2 hown) hs hno, ?_, hhist, ?_, hidle',
    hdone.tracks⟩
  · rw [Machine.run, hs]
    exact hrun
  · rw [trace, hs]
    exact htrace
  · rw [← hdone.tracks.2.db]
    exact hdone.lone.of_rest (hdone.tracks.2.pending_of_rest hidle')

/-- The sessions of the other clients stay as they are. -/
theorem run_others {cl' : Cl} (hcl : cl' ≠ cl) {as : List (Action Cl n)} (h : run (step e) s as = some s')
    (hno : ¬ Meets (step e) (fun s a => ¬ Own e cl s a) s as) : s'.session cl' = s.session cl' := by
  induction as generalizing s with
  | nil =>
    cases h
    rfl
  | cons a as ih =>
    obtain ⟨s₁, hs₁, h⟩ := Option.bind_eq_some_iff.1 h
    have hown : Own e cl s a := not_not.1 fun hbad => hno (.inl hbad)
    have hother : ¬ a.Of cl' := by
      have hof := hown.own
      intro hof'
      cases a with
      | call => exact hcl (hof'.symm.trans hof)
      | session => exact hcl (hof'.symm.trans hof)
    rw [ih h fun hmeets => hno (.inr ⟨s₁, hs₁, hmeets⟩), step_others hs₁ hother]

theorem put_built {db : Store} {key value : Bytes} :
    plainEnv.BuildsResponse (KvWorker.handle [] db (.put key value)).2 := by
  have hlen : (Response.put (.ofRocks .ok)).announced + 4 < 2 ^ 32 := by decide
  exact plainEnv_buildsResponse hlen

/-- The response to a Get of one byte, or of a key that is not there. -/
theorem get_built {db : Store} {key : Bytes} (h : db[key]? = some [118] ∨ db[key]? = none) :
    plainEnv.BuildsResponse (KvWorker.handle [] db (.get key)).2 := by
  rw [KvWorker.handle]
  rcases h with h | h
  · have hlen : (Response.get (.ofRocks .ok) [118]).announced + 4 < 2 ^ 32 := by decide
    rw [h]
    exact plainEnv_buildsResponse hlen
  · have hlen : (Response.get (.ofRocks (.error [])) []).announced + 4 < 2 ^ 32 := by decide
    rw [h]
    exact plainEnv_buildsResponse hlen

/-- What is asked of a Get over empty databases. -/
theorem get_builds : Builds plainEnv (fun _ : Fin n => ∅) (.get [116, 95, 49]) :=
  ⟨fun _ => get_built (.inr rfl), fun _ heq => nomatch heq⟩

end ByteCluster

end SqpKv
