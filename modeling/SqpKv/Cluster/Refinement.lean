import Mathlib.Logic.Relation
import SqpKv.Cluster.Weight
import SqpKv.Cluster.Snapshots

/-!
# The bytes refine the messages

Every run of the threads on the level of `read` and `write`, in whatever order
and with whatever calls failing, is a run of the cluster on the level of
messages with the same history and the same stores:

    ByteCluster.step ── simulated by ──▸ Cluster.step        (ByteCluster.simulates)

so the operations on single keys are linearizable down there too
(`bytes_linearizable`), and no thread gets to where the program has no meaning
(`bytes_not_crashed`).  What is asked of a run is that clients use keys that have
a shard and no connection on which a call has failed, that packets stay below
`2 ^ 32` bytes, and that the buffers they are built in have room for them
(`Admits`).
-/

namespace SqpKv

open Wire Machine History

/-! ## What the upper level adds -/

namespace Session

variable {n : Nat}

/-- There is a stage, and behind RocksDB the response is one to the call. -/
def Answers (t : Session n) : Prop :=
  ∃ st, t.Shape st ∧ ∀ c r, st = .after c r → ∃ ret, Connection.finish c r = some ret

theorem Answers.same_stage {t t' : Session n} (h : t.Answers) (ht : ∀ st, t.Shape st → t'.Shape st) :
    t'.Answers := by
  obtain ⟨st, hshape, hafter⟩ := h
  exact ⟨st, ht st hshape, hafter⟩

/-- The response that has come can be returned. -/
theorem Answers.finish {t : Session n} (h : t.Answers) {c : Command} {r : Response}
    (hp : t.pending = some c) (hd : t.down = [r]) : ∃ ret, Connection.finish c r = some ret := by
  obtain ⟨st, hshape, hafter⟩ := h
  cases hshape with
  | arrived _ hp' _ _ hd' =>
    rw [hp] at hp'
    rw [hd] at hd'
    cases hp'
    cases hd'
    exact hafter c r rfl
  | scanned hp' _ _ hd' =>
    rw [hp] at hp'
    rw [hd] at hd'
    cases hp'
    cases hd'
    exact ⟨_, rfl⟩
  | _ =>
    rename t.down = [] => hd'
    rw [hd] at hd'
    cases hd'

/-- A step of a session that is in a call, over the stores of the shards. -/
inductive Works (notFound : Bytes) :
    Session n × (Fin n → Store) → Session n × (Fin n → Store) → Prop
  | proxyStep {t t' : Session n} {db : Fin n → Store} (h : t.proxyStep = some t') :
      Works notFound (t, db) (t', db)
  | workerRead {t t' : Session n} {db : Fin n → Store} {i : Fin n} (h : t.workerRead i = some t') :
      Works notFound (t, db) (t', db)
  | workerExec {t t' : Session n} {db : Fin n → Store} {i : Fin n} {d : Store}
      (h : t.workerExec notFound i (db i) = some (d, t')) :
      Works notFound (t, db) (t', Function.update db i d)
  | workerSend {t t' : Session n} {db : Fin n → Store} {i : Fin n} (h : t.workerSend i = some t') :
      Works notFound (t, db) (t', db)
  | result {t t' : Session n} {db : Fin n → Store} {c : Command} {ret : CallResult}
      (h : t.result = some (c, ret, t')) : Works notFound (t, db) (t', db)

/-- One such step or more. -/
abbrev Advances (notFound : Bytes) :
    Session n × (Fin n → Store) → Session n × (Fin n → Store) → Prop :=
  Relation.TransGen (Works notFound)

theorem ProxySteps.advances {t t' : Session n} (h : t.ProxySteps t') (notFound : Bytes)
    (db : Fin n → Store) : t' = t ∨ Advances notFound (t, db) (t', db) := by
  induction h with
  | init => exact .inl rfl
  | step _ _ hs ih =>
    rcases ih with rfl | ih
    · exact .inr (.single (.proxyStep hs))
    · exact .inr (ih.tail (.proxyStep hs))

end Session

namespace Cluster

variable {Cl : Type} [DecidableEq Cl] {n : Nat} {notFound : Bytes} {db : Fin n → Store}
  {t : Cluster Cl n} {cl : Cl}

omit [DecidableEq Cl] in
theorem SessionStep.answers {u u' : Session n} {E : List (CallEvent Cl)} (h : SessionStep cl u u' E)
    (hu : u.Answers) : u'.Answers := by
  cases h with
  | call hs =>
    obtain ⟨st, hshape, -⟩ := hu
    rcases (hshape.call hs).2.2 with ⟨_, -, h'⟩ | ⟨-, h'⟩
    · exact ⟨_, h', fun _ _ heq => nomatch heq⟩
    · exact ⟨_, h', fun _ _ heq => nomatch heq⟩
  | result hs =>
    obtain ⟨st, hshape, -⟩ := hu
    exact ⟨_, (hshape.result hs).2.1, fun _ _ heq => nomatch heq⟩
  | proxyStep hs => exact hu.same_stage fun st hst => (hst.proxyStep hs).1
  | workerRead hs => exact hu.same_stage fun st hst => (hst.workerRead hs).1
  | workerSend hs => exact hu.same_stage fun st hst => (hst.workerSend hs).1

/-- In every run. -/
theorem answers (h : Reachable (step notFound) (init db) t) (cl : Cl) : (t.session cl).Answers := by
  refine h.invariant (I := fun t => ∀ cl, (t.session cl).Answers) ?_ ?_ cl
  · exact fun _ => ⟨_, Session.init_shape, fun _ _ heq => nomatch heq⟩
  · intro t a t' hI hs
    rcases step_cases hs with ⟨cl, u, E, hstep, rfl⟩ | ⟨cl, i, db, u, hexec, rfl⟩
    · exact forall_session (P := fun _ t => t.Answers) hI (hstep.answers (hI cl))
    · refine forall_session (P := fun _ t => t.Answers) hI ?_
      obtain ⟨st, hshape, -⟩ := hI cl
      rcases (hshape.workerExec hexec).2 with ⟨c, key, -, hc, -, -, hshape'⟩ | ⟨-, -, hshape'⟩
      · refine ⟨_, hshape', ?_⟩
        intro c' r heq
        cases heq
        have hfound : (t.db i)[key]? = (fun k => (t.db i)[k]?) key := rfl
        obtain ⟨⟨ret, hret, -⟩, -⟩ := KvWorker.handle_refines notFound hc hfound
        exact ⟨ret, hret⟩
      · exact ⟨_, hshape', fun _ _ heq => nomatch heq⟩

/-! ## Runs of one session -/

theorem setSession_self : t.setSession cl (t.session cl) = t := by
  unfold setSession
  rw [Function.update_eq_self]

theorem setSession_setSession (u u' : Session n) :
    (t.setSession cl u).setSession cl u' = t.setSession cl u' := by
  unfold setSession
  rw [Function.update_idem]

/-- The proxy of a session goes on. -/
theorem proxySteps {u : Session n} (h : (t.session cl).ProxySteps u) :
    Emits (step notFound) happens t (t.setSession cl u) [] := by
  induction h with
  | init =>
    rw [setSession_self]
    exact .init
  | @step u u' a _ hs ih =>
    refine ih.silent (a := .proxyStep cl) ?_ rfl
    show ((t.setSession cl u).session cl).proxyStep.bind _ = _
    rw [setSession_session_self, hs]
    exact congrArg some (setSession_setSession u u')

/-- A worker reads a command, calls RocksDB and answers. -/
theorem workerSteps {i : Fin n} {db : Store} {u₁ u₂ u₃ : Session n}
    {c : Command} (hr : (t.session cl).workerRead i = some u₁) (hc : (u₁.lane i).worker = .got c)
    (hx : u₁.workerExec notFound i (t.db i) = some (db, u₂)) (hw : u₂.workerSend i = some u₃) :
    Emits (step notFound) happens t { t.setSession cl u₃ with db := Function.update t.db i db }
      [.deed (cl, (t.session cl).calls) i c] := by
  have h₁ : step notFound t (.workerRead cl i) = some (t.setSession cl u₁) := by
    show ((t.session cl).workerRead i).bind _ = _
    rw [hr]
    rfl
  have h₂ : step notFound (t.setSession cl u₁) (.workerExec cl i) =
      some { t.setSession cl u₂ with db := Function.update t.db i db } := by
    show (((t.setSession cl u₁).session cl).workerExec notFound i (t.db i)).bind _ = _
    rw [setSession_session_self, hx]
    exact congrArg (fun x : Cluster Cl n => some { x with db := Function.update t.db i db })
      (setSession_setSession u₁ u₂)
  have h₃ : step notFound { t.setSession cl u₂ with db := Function.update t.db i db } (.workerSend cl i) =
      some { t.setSession cl u₃ with db := Function.update t.db i db } := by
    show (((t.setSession cl u₂).session cl).workerSend i).bind _ = _
    rw [setSession_session_self, hw]
    exact congrArg (fun x : Cluster Cl n => some { x with db := Function.update t.db i db })
      (setSession_setSession u₂ u₃)
  have hcalls : u₁.calls = (t.session cl).calls := by
    obtain ⟨l, -, hl⟩ := Option.bind_eq_some_iff.1 hr
    cases hl
    rfl
  have hdeed : happens (t.setSession cl u₁) (.workerExec cl i) =
      [.deed (cl, (t.session cl).calls) i c] := by
    simp only [happens, event, deeds, setSession_session_self, hc, hcalls]
    rfl
  have hread : Emits (step notFound) happens t (t.setSession cl u₁) [] := Emits.init.silent h₁ rfl
  have hexec := hread.step _ h₂
  rw [hdeed, List.nil_append] at hexec
  exact hexec.silent h₃ rfl

end Cluster

/-! ## The simulation -/

/-- The calls of the step succeed. -/
def ByteSession.Action.Succeeds {n : Nat} : ByteSession.Action n → Prop
  | .client r w => r = .done ∧ w = .done
  | .proxy r w => r = .done ∧ w = .done
  | .worker _ r w => r = .done ∧ w = .done
  | _ => True

namespace ByteCluster

variable {Cl : Type} {n : Nat}

/-- The cluster on its two levels; `lost` are the sessions in which threads may have given up. -/
structure Rel (lost : Cl → Prop) (s : ByteCluster Cl n) (t : Cluster Cl n) : Prop where
  session : ∀ cl, (s.session cl).Rel (lost cl) (t.session cl)
  db : t.db = s.db
  history : t.history = s.history

theorem rel_init {lost : Cl → Prop} (db : Fin n → Store) :
    Rel lost (init db : ByteCluster Cl n) (Cluster.init db) :=
  ⟨fun _ => ByteSession.rel_init, rfl, rfl⟩

variable [DecidableEq Cl] {e : ByteEnv} {lost : Cl → Prop}

/-- The step is allowed, and its calls succeed unless the session may lose threads. -/
def Covered (e : ByteEnv) (lost : Cl → Prop) (s : ByteCluster Cl n) (a : Action Cl n) : Prop :=
  Admits e s a ∧ ∀ cl b, a = .session cl b → lost cl ∨ b.Succeeds

theorem Rel.setSession {s : ByteCluster Cl n} {t : Cluster Cl n} (h : Rel lost s t) (cl : Cl)
    {s' : ByteSession n} {t' : Session n} (hrel : s'.Rel (lost cl) t') (cl' : Cl) :
    ((s.setSession cl s').session cl').Rel (lost cl') ((t.setSession cl t').session cl') := by
  show (Function.update s.session cl s' cl').Rel (lost cl') (Function.update t.session cl t' cl')
  by_cases hcl : cl' = cl
  · subst hcl
    rw [Function.update_self, Function.update_self]
    exact hrel
  · rw [Function.update_of_ne hcl, Function.update_of_ne hcl]
    exact h.session cl'

@[simp] theorem setSession_session_self {s : ByteCluster Cl n} {cl : Cl} {u : ByteSession n} :
    (s.setSession cl u).session cl = u := Function.update_self ..

/-- A session goes on below, and above the state stays. -/
theorem Rel.stays {s : ByteCluster Cl n} {t : Cluster Cl n} (h : Rel lost s t) {cl : Cl}
    {s' : ByteSession n} (hrel : s'.Rel (lost cl) (t.session cl)) :
    Rel lost (s.setSession cl s') t := by
  refine ⟨?_, h.db, h.history⟩
  intro cl'
  have hall := h.setSession cl hrel cl'
  rwa [Cluster.setSession_self] at hall

/-- The step is a call of the client `cl`, or one of its session's threads. -/
def Action.Of (cl : Cl) : Action Cl n → Prop
  | .call cl' _ => cl' = cl
  | .session cl' _ => cl' = cl

omit [DecidableEq Cl] in
theorem call_ne_session {cl cl' : Cl} {c : Command} {b : ByteSession.Action n} :
    (.call cl c : Action Cl n) ≠ .session cl' b := by
  intro heq
  cases heq

/-- How the upper level follows a step of the lower one: the session that it is a step of goes on, or
it has got lighter below. -/
structure Follows (e : ByteEnv) (lost : Cl → Prop) (s : ByteCluster Cl n) (a : Action Cl n)
    (s' : ByteCluster Cl n) (t t' : Cluster Cl n) : Prop where
  run : Emits (Cluster.step e.notFound) Cluster.happens t t' (happens e s a)
  rel : Rel lost s' t'
  others : ∀ cl, ¬ a.Of cl → t'.session cl = t.session cl
  calls : ∀ cl c, a = .call cl c → (t.session cl).call c = some (t'.session cl) ∧ t'.db = t.db
  advances : ∀ cl b, a = .session cl b →
    (t'.session cl = t.session cl ∧ t'.db = t.db ∧ (s'.session cl).weight < (s.session cl).weight) ∨
      Session.Advances e.notFound (t.session cl, t.db) (t'.session cl, t'.db)

/-- A step that is not seen above. -/
theorem Follows.stays {s s' : ByteCluster Cl n} {t : Cluster Cl n} {cl : Cl}
    {b : ByteSession.Action n} (hsilent : happens e s (.session cl b) = []) (h : Rel lost s' t)
    (hweight : (s'.session cl).weight < (s.session cl).weight) :
    Follows e lost s (.session cl b) s' t t := by
  refine ⟨by rw [hsilent]; exact .init, h, fun _ _ => rfl, ?_, ?_⟩
  · exact fun _ _ heq => absurd heq.symm call_ne_session
  intro cl' b' heq
  cases heq
  exact .inl ⟨rfl, rfl, hweight⟩

theorem others_setSession {t : Cluster Cl n} {cl : Cl} {u : Session n} {b : ByteSession.Action n}
    (cl' : Cl) (h : ¬ (Action.session cl b).Of cl') : (t.setSession cl u).session cl' = t.session cl' :=
  Function.update_of_ne (fun heq => h heq.symm) ..

/-- A step behind which the session above has gone on. -/
theorem Follows.goes {s s' : ByteCluster Cl n} {t t' : Cluster Cl n} {cl : Cl} {u : Session n}
    {b : ByteSession.Action n}
    (hrun : Emits (Cluster.step e.notFound) Cluster.happens t t' (happens e s (.session cl b)))
    (hrel : Rel lost s' t') (hsession : t'.session = (t.setSession cl u).session)
    (hu : (u = t.session cl ∧ t'.db = t.db ∧ (s'.session cl).weight < (s.session cl).weight) ∨
      Session.Advances e.notFound (t.session cl, t.db) (u, t'.db)) : Follows e lost s (.session cl b) s' t t' := by
  refine ⟨hrun, hrel, ?_, ?_, ?_⟩
  · intro cl' hcl
    rw [hsession]
    exact others_setSession cl' hcl
  · exact fun _ _ heq => absurd heq.symm call_ne_session
  · intro cl' b' heq
    cases heq
    rw [hsession, Cluster.setSession_session_self]
    exact hu

section Steps

variable {s s' : ByteCluster Cl n} {t : Cluster Cl n} {db : Fin n → Store} {cl : Cl} {r w : Call}
  (h : Rel lost s t) (ht : Reachable (Cluster.step e.notFound) (Cluster.init db) t)

include h ht

/-- A client calls on both levels. -/
theorem Rel.step_call {c : Command} (hadmits : Admits e s (.call cl c))
    (hs : step e s (.call cl c) = some s') : ∃ t', Follows e lost s (.call cl c) s' t t' := by
  obtain ⟨hfailed, hkey, hbuilds⟩ := hadmits
  obtain ⟨client, hclient, hs⟩ := Option.bind_eq_some_iff.1 hs
  cases hs
  obtain ⟨left, sofar, got, todo, taken, hm⟩ := h.session cl
  obtain ⟨st, hshape, -⟩ := Cluster.answers ht cl
  obtain ⟨t', hcall, hrel⟩ := hm.call hfailed hkey hbuilds hclient hshape
  have hstep : Cluster.step e.notFound t (.call cl c) = some { t.setSession cl t' with
      history := t.history ++ Cluster.log c (.inv (cl, (t.session cl).calls) c) } := by
    show ((t.session cl).call c).bind _ = _
    rw [hcall]
    rfl
  have hrun : Emits (Cluster.step e.notFound) Cluster.happens t _
      ([] ++ Cluster.happens t (.call cl c)) := .step _ .init hstep
  rw [List.nil_append, show Cluster.happens t (.call cl c) = happens e s (.call cl c) by
    simp only [Cluster.happens, happens, Cluster.event, event, Cluster.deeds, deeds, hm.calls]] at hrun
  refine ⟨_, hrun, ⟨h.setSession cl hrel, h.db, ?_⟩, ?_, ?_, ?_⟩
  · show t.history ++ _ = s.history ++ _
    rw [h.history, hm.calls]
  · exact fun cl' hcl => Function.update_of_ne (fun heq => hcl heq.symm) ..
  · rintro cl' c' ⟨⟩
    show _ = some ((t.setSession cl t').session cl) ∧ _
    rw [Cluster.setSession_session_self]
    exact ⟨hcall, rfl⟩
  · exact fun _ _ heq => absurd heq call_ne_session

/-- The client of a session goes on: above, nothing happens or its call returns. -/
theorem Rel.step_client (hcalls : lost cl ∨ r = .done ∧ w = .done)
    (hs : step e s (.session cl (.client r w)) = some s') :
    ∃ t', Follows e lost s (.session cl (.client r w)) s' t t' := by
  obtain ⟨⟨client, ret⟩, hclient, hs⟩ := Option.bind_eq_some_iff.1 hs
  cases hs
  obtain ⟨left, sofar, got, todo, taken, hm⟩ := h.session cl
  rcases hm.clientStep hclient hcalls fun c r hp hd => (Cluster.answers ht cl).finish hp hd with
    ⟨rfl, hrel⟩ | ⟨c, ret, t', rfl, hresult, hrel⟩
  · refine ⟨t, .stays (by simp [happens, event, deeds, hclient]) ⟨(h.stays hrel).session, h.db, ?_⟩ ?_⟩
    · show t.history = s.history ++ []
      rw [h.history, List.append_nil]
    · have hweight := ClientLoop.step_weight hclient
      show ((s.setSession cl { s.session cl with client }).session cl).weight < _
      rw [setSession_session_self]
      unfold ByteSession.weight
      dsimp only
      omega
  · have hstep : Cluster.step e.notFound t (.result cl) = some { t.setSession cl t' with
        history := t.history ++ Cluster.log c (.res (cl, (t.session cl).calls) ret) } := by
      show ((t.session cl).result).bind _ = _
      rw [hresult]
      rfl
    have hrun : Emits (Cluster.step e.notFound) Cluster.happens t _
        ([] ++ Cluster.happens t (.result cl)) := .step _ .init hstep
    rw [List.nil_append,
      show Cluster.happens t (.result cl) = happens e s (.session cl (.client r w)) by
        simp only [Cluster.happens, happens, Cluster.event, event, Cluster.deeds, deeds, hresult,
          hclient, hm.calls]] at hrun
    refine ⟨_, .goes hrun ⟨h.setSession cl hrel, h.db, ?_⟩ rfl
      (.inr (.single (.result hresult)))⟩
    show t.history ++ _ = s.history ++ Cluster.log c (.res (cl, (s.session cl).client.calls) ret)
    rw [h.history, hm.calls]

/-- The proxy of a session goes on: above it takes the same steps, or none and has got lighter. -/
theorem Rel.step_proxy (hcalls : lost cl ∨ r = .done ∧ w = .done)
    (hadmits : Admits e s (.session cl (.proxy r w)))
    (hs : step e s (.session cl (.proxy r w)) = some s') :
    ∃ t', Follows e lost s (.session cl (.proxy r w)) s' t t' := by
  obtain ⟨proxy, hproxy, hs⟩ := Option.bind_eq_some_iff.1 hs
  cases hs
  obtain ⟨left, sofar, got, todo, taken, hm⟩ := h.session cl
  obtain ⟨st, hshape, -⟩ := Cluster.answers ht cl
  obtain ⟨t', hsteps, hrel⟩ := hm.proxyStep hproxy hcalls hshape hadmits
  refine ⟨_, .goes (Cluster.proxySteps hsteps) ⟨h.setSession cl hrel, h.db, h.history⟩ rfl ?_⟩
  refine (hsteps.advances e.notFound t.db).imp_left fun hsame => ⟨hsame, rfl, ?_⟩
  -- the proxy has not turned to anything else
  have hweight : proxy.weight < (s.session cl).proxy.weight := by
    refine (ProxyLoop.proxyStep_weight hproxy).resolve_right ?_
    rintro ⟨hphase, hgone', hgone⟩
    obtain ⟨left', sofar', got', todo', taken', hm'⟩ := hrel
    have hbefore := hm.control.phase_eq.resolve_right hgone
    have hbehind := hm'.control.phase_eq.resolve_right hgone'
    rw [hsame] at hbehind
    exact hphase (hbehind.trans hbefore.symm)
  rw [setSession_session_self]
  unfold ByteSession.weight
  dsimp only
  omega

omit ht in
/-- A worker of a session goes on: above, nothing happens or it carries out its command. -/
theorem Rel.step_worker {i : Fin n} (hcalls : lost cl ∨ r = .done ∧ w = .done)
    (hadmits : Admits e s (.session cl (.worker i r w)))
    (hs : step e s (.session cl (.worker i r w)) = some s') :
    ∃ t', Follows e lost s (.session cl (.worker i r w)) s' t t' := by
  obtain ⟨worker, hworker, hs⟩ := Option.bind_eq_some_iff.1 hs
  cases hs
  obtain ⟨left, sofar, got, todo, taken, hm⟩ := h.session cl
  rcases hm.workerStep hworker hcalls hadmits with
    ⟨hnone, hrel⟩ | ⟨c, t₁, t₂, t₃, hsome, hr, hgot, hx, hw, hrel⟩
  · refine ⟨t, .stays (by simp [happens, event, deeds, hnone])
      ⟨(h.stays hrel).session, ?_, h.history⟩ ?_⟩
    · simp only [hnone]
      rw [Function.update_eq_self]
      exact h.db
    · have hweight := KvLoop.workerStep_weight hworker hnone
      have hsum := (s.session cl).setShard_weight i worker
      show ((s.setSession cl ((s.session cl).setShard i worker)).session cl).weight < _
      rw [setSession_session_self]
      show (s.session cl).client.weight + (s.session cl).proxy.weight +
        ∑ j, (((s.session cl).setShard i worker).shard j).weight < _
      unfold ByteSession.weight
      omega
  · rw [← h.db] at hx
    have hrun := Cluster.workerSteps hr hgot hx hw
    rw [← hm.calls, show [Happening.deed (cl, (s.session cl).client.calls) i c] =
      happens e s (.session cl (.worker i r w)) by simp [happens, event, deeds, hsome]] at hrun
    refine ⟨_, .goes hrun ⟨h.setSession cl hrel, ?_, h.history⟩ rfl
      (.inr (((Relation.TransGen.single (.workerRead hr)).tail (.workerExec hx)).tail
        (.workerSend hw)))⟩
    simp only [hsome]
    rw [h.db]

omit ht in
/-- The network of a session carries a piece, which is not seen above. -/
theorem Rel.step_carry {a : ByteSession.Action n} {u : ByteSession n}
    (hcarry : (s.session cl).carry a = some u) (hsilent : happens e s (.session cl a) = []) :
    Follows e lost s (.session cl a) (s.setSession cl u) t t := by
  obtain ⟨left, sofar, got, todo, taken, hm⟩ := h.session cl
  refine .stays hsilent (h.stays (hm.carry hcarry)) ?_
  rw [setSession_session_self]
  exact ByteSession.carry_weight hcarry

/-- **A step below is followed above.** -/
theorem Rel.step {a : Action Cl n} (hgood : Covered e lost s a) (hs : step e s a = some s') :
    ∃ t', Follows e lost s a s' t t' := by
  obtain ⟨hadmits, hcalls⟩ := hgood
  cases a with
  | call cl c => exact h.step_call ht hadmits hs
  | session cl a =>
    replace hcalls := hcalls cl a rfl
    cases a with
    | client r w => exact h.step_client ht hcalls hs
    | proxy r w => exact h.step_proxy ht hcalls hadmits hs
    | worker i r w => exact h.step_worker hcalls hadmits hs
    | _ =>
      obtain ⟨u, hcarry, hs⟩ := Option.bind_eq_some_iff.1 hs
      cases hs
      exact ⟨t, h.step_carry hcarry rfl⟩

end Steps

/-- **The bytes are simulated by the messages.** -/
theorem simulates (e : ByteEnv) (lost : Cl → Prop) (db : Fin n → Store) :
    Simulates (ByteCluster.step e) (happens e) (fun s a => ¬ Covered e lost s a)
      (Cluster.step e.notFound) Cluster.happens (Cluster.init db : Cluster Cl n) (Rel lost) := by
  intro s a s' t h ht hgood hs
  obtain ⟨t', hfollows⟩ := h.step ht (not_not.1 hgood) hs
  exact ⟨t', hfollows.run, hfollows.rel⟩

theorem step_call {s : ByteCluster Cl n} {cl : Cl} {c : Command} {client : ClientLoop}
    (h : (s.session cl).client.call e.client c = some client) :
    step e s (.call cl c) = some { s.setSession cl { s.session cl with client } with
      history := s.history ++ Cluster.log c (.inv (cl, (s.session cl).client.calls) c) } := by
  show Option.bind _ _ = _
  rw [h]
  rfl

omit [DecidableEq Cl] in
theorem covered_true {s : ByteCluster Cl n} {a : Action Cl n} :
    Covered e (fun _ => True) s a ↔ Admits e s a :=
  ⟨And.left, fun h => ⟨h, fun _ _ _ => .inl trivial⟩⟩

/-! ## A run -/

/-- Buffers of the right size, and nothing to say of errors. -/
def plainEnv : ByteEnv where
  alloc := .exact
  errorText := []
  notFound := []
  command c := { bytes := List.replicate c.encoding.length 0 }
  response r := { bytes := List.replicate (r.announced + 4) 0 }

theorem plainEnv_buildsCommand {c : Command} (h : c.encoding.length < 2 ^ 32) :
    plainEnv.BuildsCommand c := ⟨h, Nat.le_of_eq List.length_replicate.symm⟩

theorem plainEnv_buildsResponse {r : Response} (h : r.announced + 4 < 2 ^ 32) :
    plainEnv.BuildsResponse r := ⟨h, Nat.le_of_eq List.length_replicate.symm⟩

/-- A client gets `t_1`; its proxy fails to read the command, and so the client the response. -/
def lostGet : List (Action Bool 2) :=
  [.call true (.get [116, 95, 49]), .session true (.client .done .done), .session true .carryUp,
    .session true (.proxy .done .done), .session true (.proxy .failed .done),
    .session true (.client .zero .done)]

/-- The first step. -/
theorem call_get (db : Fin 2 → Store) :
    (init db : ByteCluster Bool 2).step plainEnv (.call true (.get [116, 95, 49])) =
      some { (init db : ByteCluster Bool 2).setSession true
        { (ByteSession.init : ByteSession 2) with
          client := { ClientLoop.init with
            control := .sending (.get [116, 95, 49]) [(Command.get [116, 95, 49]).encoding] } } with
      history := [.inv (true, 0) (.get [116, 95, 49])] } := by
  have hlen : (Command.get [116, 95, 49]).encoding.length = 12 := rfl
  have hpieces : pieces (Command.get [116, 95, 49]).encoding = [(Command.get [116, 95, 49]).encoding] := by
    rw [pieces_of_lt (by rw [hlen]; decide), if_neg (List.ne_nil_of_length_pos (by rw [hlen]; decide))]
  have hbytes : commandBytes (plainEnv.client.fresh (.get [116, 95, 49])) (.get [116, 95, 49]) =
      .ok (Command.get [116, 95, 49]).encoding :=
    commandBytes_eq (by rw [hlen]; decide) (plainEnv_buildsCommand (by rw [hlen]; decide)).2
  have hcall := ClientLoop.call_idle hbytes (rfl : ClientLoop.init.control = .idle)
  rw [hpieces] at hcall
  exact step_call hcall

theorem get_routed : (Command.get [116, 95, 49]).Routed 2 := by
  intro key hkey
  cases hkey
  exact ⟨0, by decide⟩

theorem call_get_admitted (db : Fin 2 → Store) :
    Admits plainEnv (init db : ByteCluster Bool 2) (.call true (.get [116, 95, 49])) := by
  refine ⟨?_, get_routed, plainEnv_buildsCommand (by decide)⟩
  intro hc
  cases hc

theorem run_lostGet : ∃ s, Machine.run (step plainEnv) (init fun _ => ∅) lostGet = some s ∧
    s.history = [.inv (true, 0) (.get [116, 95, 49])] ∧ s.db = (fun _ => ∅) ∧
      (s.session false).client.control = .idle := by
  unfold lostGet
  rw [Machine.run, call_get]
  exact ⟨_, rfl, rfl, rfl, rfl⟩

theorem lostGet_admitted :
    ¬ Meets (step plainEnv) (fun s a => ¬ Admits plainEnv s a) (init fun _ => ∅) lostGet := by
  have serving : ∀ s : ByteCluster Bool 2, (∀ next packet keys sources,
      (s.session true).proxy.control ≠ .collect next packet keys sources) →
      ∀ r w, ¬ ¬ Admits plainEnv s (.session true (.proxy r w)) :=
    fun s hs r w => not_not.2 fun next packet keys sources hc => absurd hc (hs _ _ _ _)
  refine not_meets_cons (not_not.2 (call_get_admitted _)) (call_get _) ?_
  refine not_meets_cons (not_not.2 trivial) rfl ?_
  refine not_meets_cons (not_not.2 trivial) rfl ?_
  refine not_meets_cons (serving _ ?_ _ _) rfl ?_
  · exact fun _ _ _ _ hc => nomatch hc
  refine not_meets_cons (serving _ ?_ _ _) rfl ?_
  · exact fun _ _ _ _ hc => nomatch hc
  exact not_meets_cons (not_not.2 trivial) rfl id

/-- Only its own session fails. -/
theorem lostGet_covered :
    ¬ Meets (step plainEnv) (fun s a => ¬ Covered plainEnv (· = true) s a) (init fun _ => ∅) lostGet := by
  refine not_meets_and lostGet_admitted ?_
  rintro a ha cl b rfl
  simp only [lostGet, List.mem_cons, List.not_mem_nil, or_false] at ha
  rcases ha with heq | heq | heq | heq | heq | heq
  · cases heq
  all_goals
    cases heq
    exact .inl rfl

/-! ## Every run -/

theorem exists_rel {db : Fin n → Store} {as : List (Action Cl n)} {s : ByteCluster Cl n}
    (h : Machine.run (step e) (init db) as = some s)
    (hno : ¬ Meets (step e) (fun s a => ¬ Admits e s a) (init db) as) :
    ∃ t, Emits (Cluster.step e.notFound) Cluster.happens (Cluster.init db) t
      (trace (step e) (happens e) (init db) as) ∧ Rel (fun _ => True) s t := by
  refine (simulates e (fun _ => True) db).run (rel_init db) h ?_
  simpa only [covered_true] using hno

/-- **The bytes refine the messages.**  For any run of the threads of all sessions, whatever calls
fail, there is a run of the cluster in which the same calls start, are carried out on the same shards
and return with the same results, in the same order, and that leaves the same stores. -/
theorem bytes_refine {db : Fin n → Store} {as : List (Action Cl n)} {s : ByteCluster Cl n}
    (h : Machine.run (step e) (init db) as = some s)
    (hno : ¬ Meets (step e) (fun s a => ¬ Admits e s a) (init db) as) :
    ∃ t, Emits (Cluster.step e.notFound) Cluster.happens (Cluster.init db) t
      (trace (step e) (happens e) (init db) as) ∧ t.history = s.history ∧ t.db = s.db := by
  obtain ⟨t, ht, hrel⟩ := exists_rel h hno
  exact ⟨t, ht, hrel.history, hrel.db⟩

/-- The lost Get is a run of the cluster too. -/
theorem bytes_refine_lostGet :
    ∃ s, Machine.run (step plainEnv) (init fun _ => ∅) lostGet = some s ∧
      ∃ t, Emits (Cluster.step plainEnv.notFound) Cluster.happens (Cluster.init fun _ => ∅) t
        (trace (step plainEnv) (happens plainEnv) (init fun _ => ∅) lostGet) ∧
        t.history = s.history ∧ t.db = s.db := by
  obtain ⟨s, hs, -⟩ := run_lostGet
  exact ⟨s, hs, bytes_refine hs lostGet_admitted⟩

/-- **Operations on single keys are linearizable** call by call, whatever calls fail. -/
theorem bytes_linearizable {db : Fin n → Store} (hdb : Cluster.NoClientKeys db)
    {as : List (Action Cl n)} {s : ByteCluster Cl n}
    (h : Machine.run (step e) (init db) as = some s)
    (hno : ¬ Meets (step e) (fun s a => ¬ Admits e s a) (init db) as) :
    Linearizable keySpec (fun _ => none) s.history := by
  obtain ⟨t, ht, hrel⟩ := exists_rel h hno
  obtain ⟨L, hL⟩ := Cluster.exists_inv hdb ht.reachable
  rw [← hrel.history]
  exact ⟨L, hL.tracks⟩

theorem bytes_linearizable_lostGet :
    ∃ s, Machine.run (step plainEnv) (init fun _ => ∅) lostGet = some s ∧
      Linearizable keySpec (fun _ => none) s.history := by
  obtain ⟨s, hs, -⟩ := run_lostGet
  have hempty : Cluster.NoClientKeys (fun _ : Fin 2 => (∅ : Store)) := fun key i _ => by simp
  exact ⟨s, hs, bytes_linearizable hempty hs lostGet_admitted⟩

/-- **No thread crashes**: none runs into memory that is not there, a null pointer or an index
outside `shard_servers_`. -/
theorem bytes_not_crashed {db : Fin n → Store} {as : List (Action Cl n)} {s : ByteCluster Cl n}
    (h : Machine.run (step e) (init db) as = some s)
    (hno : ¬ Meets (step e) (fun s a => ¬ Admits e s a) (init db) as) (cl : Cl) :
    (s.session cl).client.control ≠ .crashed ∧ (s.session cl).proxy.control ≠ .crashed ∧
      ∀ i, ((s.session cl).shard i).control ≠ .crashed := by
  obtain ⟨t, -, hrel⟩ := exists_rel h hno
  obtain ⟨left, sofar, got, todo, taken, hm⟩ := hrel.session cl
  refine ⟨?_, ?_, ?_⟩
  · intro hc
    have hclient := hm.client
    rw [hc] at hclient
    cases hclient
  · intro hc
    have hcontrol := hm.control
    rw [hc] at hcontrol
    generalize (t.session cl).proxy = x at hcontrol
    cases hcontrol with
    | idle hgot => exact hgot
    | gone _ hgone => exact hgone
  · intro i hc
    have hc' : ((s.session cl).lane i).worker = .crashed := hc
    cases hm.lanes i with
    | answered hw =>
      rw [hc'] at hw
      rcases hw with ⟨hsend, -⟩ | ⟨-, hgot | ⟨-, hgone⟩⟩
      · cases hsend
      · exact hgot
      · exact hgone
    | gone _ hgone =>
      rw [hc'] at hgone
      exact hgone
    | _ hgot =>
      rw [hc'] at hgot
      exact hgot

theorem bytes_not_crashed_lostGet :
    ∃ s, Machine.run (step plainEnv) (init fun _ => ∅) lostGet = some s ∧
      (s.session true).client.control ≠ .crashed ∧ (s.session true).proxy.control ≠ .crashed ∧
        ∀ i, ((s.session true).shard i).control ≠ .crashed := by
  obtain ⟨s, hs, -⟩ := run_lostGet
  exact ⟨s, hs, bytes_not_crashed hs lostGet_admitted true⟩

end ByteCluster

end SqpKv
