import SqpKv.Server.Placement
import SqpKv.Cluster.Metadata
import SqpKv.Cluster.Alone

/-!
# Keys over restarts

The servers are started and stopped any number of times on the same `n + 1`
databases: a start may be stopped anywhere on its way, and behind a start that
all ranks come through the clients run, call by call and with calls failing,
until the servers are stopped with calls under way (`Lives`).  Nothing of a
process is kept but its database.

When every start finds its databases where they were (`Launch.Fits`), all the
calls that were ever made are linearizable as calls on one map:

    Lives e disk₀ k disk H   →   Linearizable keySpec (fun _ => none) H      (durable)

A client of one life is not the client of another: calls are named by the life
too.
-/

namespace History

variable {Id Id' ι ρ : Type}

/-- The event under another name. -/
def Event.rename (f : Id → Id') : Event Id ι ρ → Event Id' ι ρ
  | .inv id op => .inv (f id) op
  | .res id ret => .res (f id) ret

end History

namespace SqpKv

open Wire Processes Machine History

variable {Cl : Type} {n : Nat}

/-! ## The sessions of all lives -/

namespace Cluster

/-- The call in the life `k`. -/
def lifeId (k : Nat) (id : Cl × Nat) : (Nat × Cl) × Nat := ((k, id.1), id.2)

/-- The cluster of the life `k`, next to the sessions that earlier lives have left. -/
def joined (old : Cluster (Nat × Cl) n) (k : Nat) (s : Cluster Cl n) : Cluster (Nat × Cl) n where
  session id := if id.1 = k then s.session id.2 else old.session id
  db := s.db
  history := old.history ++ s.history.map (Event.rename (lifeId k))

variable {old : Cluster (Nat × Cl) n} {k : Nat} {s s' : Cluster Cl n} {cl : Cl} {t : Session n}

@[simp] theorem joined_session : (joined old k s).session (k, cl) = s.session cl := if_pos rfl

/-- The session of a client goes on, in the cluster of its life. -/
theorem SessionStep.inLife {t t' : Session n} {E : List (CallEvent Cl)} (h : SessionStep cl t t' E) :
    SessionStep (k, cl) t t' (E.map (Event.rename (lifeId k))) := by
  have renamed : ∀ (c : Command) (e : CallEvent Cl),
      (log c e).map (Event.rename (lifeId k)) = log c (e.rename (lifeId k)) := by
    intro c e
    unfold log
    split
    · rfl
    · rfl
  cases h with
  | call h =>
    rw [renamed]
    exact .call h
  | result h =>
    rw [renamed]
    exact .result h
  | proxyStep h => exact .proxyStep h
  | workerRead h => exact .workerRead h
  | workerSend h => exact .workerSend h

section

variable [DecidableEq Cl]

theorem joined_setSession :
    joined old k (s.setSession cl t) = (joined old k s).setSession (k, cl) t := by
  have hsession : (fun id : Nat × Cl => if id.1 = k then Function.update s.session cl t id.2
      else old.session id) =
      Function.update (fun id => if id.1 = k then s.session id.2 else old.session id) (k, cl) t := by
    funext ⟨j, c⟩
    by_cases hj : j = k
    · subst hj
      by_cases hc : c = cl
      · subst hc
        simp
      · have hne : ((j, c) : Nat × Cl) ≠ (j, cl) := fun heq => hc (congrArg Prod.snd heq)
        simp [Function.update_of_ne hc, Function.update_of_ne hne]
    · have hne : ((j, c) : Nat × Cl) ≠ (k, cl) := fun heq => hj (congrArg Prod.fst heq)
      simp [if_neg hj, Function.update_of_ne hne]
  unfold joined setSession
  simp only [hsession]

/-- A step of a session keeps the invariant. -/
theorem Inv.sessionStep {L : Order Cl} (h : Inv s L) {E : List (CallEvent Cl)}
    (hs : SessionStep cl (s.session cl) t E) :
    Inv { s.setSession cl t with history := s.history ++ E } L := by
  have silent : (∀ st, (s.session cl).Shape st → t.Shape st ∧ t.calls = (s.session cl).calls) →
      Inv { s.setSession cl t with history := s.history ++ [] } L := by
    intro hsame
    rw [List.append_nil]
    exact h.internal ((h.owns cl).same_stage hsame)
  cases hs with
  | call hs => exact h.call hs
  | result hs => exact h.result hs
  | proxyStep hs => exact silent fun st hst => hst.proxyStep hs
  | workerRead hs => exact silent fun st hst => hst.workerRead hs
  | workerSend hs => exact silent fun st hst => hst.workerSend hs

theorem Inv.joined_step {L : Order (Nat × Cl)} (h : Inv (joined old k s) L) {notFound : Bytes}
    {a : Action Cl n} (hs : Cluster.step notFound s a = some s') : ∃ L', Inv (joined old k s') L' := by
  rcases step_cases hs with ⟨cl, t, E, ht, rfl⟩ | ⟨cl, i, db, t, ht, rfl⟩
  · have hstep : SessionStep (k, cl) ((joined old k s).session (k, cl)) t
        (E.map (Event.rename (lifeId k))) := by
      rw [joined_session]
      exact ht.inLife
    have heq : joined old k { s.setSession cl t with history := s.history ++ E } =
        { (joined old k s).setSession (k, cl) t with
          history := (joined old k s).history ++ E.map (Event.rename (lifeId k)) } := by
      rw [← joined_setSession]
      unfold joined
      simp only [List.map_append, List.append_assoc]
    rw [heq]
    exact ⟨L, h.sessionStep hstep⟩
  · have hexec : ((joined old k s).session (k, cl)).workerExec notFound i ((joined old k s).db i) =
        some (db, t) := by
      rw [joined_session]
      exact ht
    have heq : joined old k { s.setSession cl t with db := Function.update s.db i db } =
        { (joined old k s).setSession (k, cl) t with
          db := Function.update (joined old k s).db i db } := by
      rw [← joined_setSession]
      rfl
    rw [heq]
    exact h.exec hexec

/-- The calls of one more life. -/
theorem Inv.joined {L : Order (Nat × Cl)} {db : Fin n → Store} {notFound : Bytes}
    (h : Inv old L) (hnew : ∀ cl, old.session (k, cl) = .init)
    (hdb : ∀ key i, route n key = some i → (db i)[key]? = merged L key)
    (hs : Reachable (Cluster.step notFound) (Cluster.init db) s) :
    ∃ L', Inv (Cluster.joined old k s) L' := by
  refine hs.invariant (I := fun s => ∃ L', Inv (Cluster.joined old k s) L') ⟨L, ?_⟩
    fun _ _ _ ⟨_, hI⟩ hs => hI.joined_step hs
  have hsession : (Cluster.joined old k (Cluster.init db : Cluster Cl n)).session = old.session := by
    funext ⟨j, cl⟩
    by_cases hj : j = k
    · subst hj
      rw [joined_session, hnew]
      rfl
    · exact if_neg hj
  have hhistory : (Cluster.joined old k (Cluster.init db : Cluster Cl n)).history = old.history :=
    List.append_nil _
  refine ⟨?_, hdb, ?_⟩
  · rw [hhistory]
    exact h.tracks
  · intro cl
    rw [hsession, hhistory]
    exact h.owns cl

end

end Cluster

/-! ## The databases from life to life -/

/-- `n + 1` databases after `k` lives, in which the calls of `H` were made: some starts were stopped,
behind the others clients have run. -/
inductive Lives [DecidableEq Cl] (e : ByteEnv) (disk₀ : Fin (n + 1) → Store) :
    Nat → (Fin (n + 1) → Store) → List (CallEvent (Nat × Cl)) → Prop
  | start : Lives e disk₀ 0 disk₀ []
  | stopped {k : Nat} {disk : Fin (n + 1) → Store} {H : List (CallEvent (Nat × Cl))} (L : Launch n)
      {st : Net (n + 1) (Option Store) MpiMessage Abort ServerLauncher.Launched}
      (h : Lives e disk₀ k disk H) (hfits : L.Fits disk) (hst : Reachable Net.step (L.boot disk) st) :
      Lives e disk₀ k (L.booted disk st) H
  | served {k : Nat} {disk disk' : Fin (n + 1) → Store} {H : List (CallEvent (Nat × Cl))} (L : Launch n)
      {st : Net (n + 1) (Option Store) MpiMessage Abort ServerLauncher.Launched}
      {server : Fin n → Fin (n + 1)} {as : List (ByteCluster.Action Cl n)} {s : ByteCluster Cl n}
      (h : Lives e disk₀ k disk H) (hfits : L.Fits disk) (hst : Reachable Net.step (L.boot disk) st)
      (hup : L.Up st server)
      (hrun : Machine.run (ByteCluster.step e)
        (.init fun j => L.booted disk st (L.place (server j))) as = some s)
      (hadmits : ¬ Meets (ByteCluster.step e) (fun s a => ¬ ByteCluster.Admits e s a)
        (.init fun j => L.booted disk st (L.place (server j))) as)
      (hdisk : ∀ j, disk' (L.place (server j)) = s.db j)
      (hrest : ∀ x, (∀ j, L.place (server j) ≠ x) → disk' x = L.booted disk st x) :
      Lives e disk₀ (k + 1) disk' (H ++ s.history.map (Event.rename (Cluster.lifeId k)))

/-- Where the keys of the map `m` are: nowhere yet, or each in the database with the number of its
shard. -/
inductive Placed (disk : Fin (n + 1) → Store) (m : Bytes → Option Bytes) : Prop
  | fresh (hdisk : ∀ x key, ∀ i : Fin n, route n key = some i → (disk x)[key]? = none)
      (hm : ∀ key, ∀ i : Fin n, route n key = some i → m key = none) : Placed disk m
  | numbered (ids : Equiv.Perm (Fin (n + 1)))
      (hids : ∀ x, shardIdIn (disk x) = some (.ok ((ids x).val : Int)))
      (hdisk : ∀ key, ∀ j : Fin n, route n key = some j → (disk (ids.symm j.succ))[key]? = m key) :
      Placed disk m

section

variable {L : Launch n} {disk : Fin (n + 1) → Store} {m : Bytes → Option Bytes}
  {st : Net (n + 1) (Option Store) MpiMessage Abort ServerLauncher.Launched}

theorem ne_of_route {key : Bytes} {i : Fin n} (h : route n key = some i) : key ≠ shardIdKey := by
  rintro rfl
  rw [route_shardIdKey] at h
  cases h

/-- A numbered database is opened by the rank with its number. -/
theorem Launch.Fits.place_eq (h : L.Fits disk) {ids : Equiv.Perm (Fin (n + 1))}
    (hids : ∀ x, shardIdIn (disk x) = some (.ok ((ids x).val : Int))) (i : Fin (n + 1)) :
    L.place i = ids.symm i := by
  rw [Equiv.eq_symm_apply]
  rcases h i with hown | ⟨hnone, -⟩
  · rw [hids] at hown
    have hval : ((ids (L.place i)).val : Int) = (i.val : Int) := Except.ok.inj (Option.some.inj hown)
    exact Fin.ext (Int.ofNat.inj hval)
  · rw [hids] at hnone
    cases hnone

/-- A start leaves the keys where they are. -/
theorem Placed.booted (hn : n < 2 ^ 31) (h : Placed disk m) (hfits : L.Fits disk)
    (hst : Reachable Net.step (L.boot disk) st) : Placed (L.booted disk st) m := by
  cases h with
  | fresh hdisk hm =>
    refine .fresh (fun x key i hkey => ?_) hm
    rw [Launch.booted_other (ne_of_route hkey) hst]
    exact hdisk x key i hkey
  | numbered ids hids hdisk =>
    refine .numbered ids (fun x => ?_) fun key j hkey => ?_
    · refine Launch.booted_keeps (P := fun x db => shardIdIn db = some (.ok ((ids x).val : Int))) ?_
        hids hst x
      intro i db _
      rw [shardIdIn_insert (by omega), hfits.place_eq hids i, Equiv.apply_symm_apply]
    · rw [Launch.booted_other (ne_of_route hkey) hst]
      exact hdisk key j hkey

/-- Behind a start each shard serves its keys. -/
theorem Placed.served {server : Fin n → Fin (n + 1)} (h : Placed disk m) (hfits : L.Fits disk)
    (hst : Reachable Net.step (L.boot disk) st) (hup : L.Up st server) (key : Bytes) (j : Fin n)
    (hkey : route n key = some j) : (L.booted disk st (L.place (server j)))[key]? = m key := by
  rw [Launch.booted_other (ne_of_route hkey) hst]
  cases h with
  | fresh hdisk hm => rw [hdisk _ key j hkey, hm key j hkey]
  | numbered ids hids hdisk =>
    rw [hup.server_eq hfits rfl hst, hfits.place_eq hids]
    exact hdisk key j hkey

end

/-- The clients leave the launcher's entries as they are. -/
theorem Cluster.entry_kept [DecidableEq Cl] {notFound : Bytes} {db : Fin n → Store} {t : Cluster Cl n}
    {value : Fin n → Bytes} (hentry : ∀ i, (db i)[shardIdKey]? = some (value i))
    (ht : Reachable (step notFound) (init db) t) (i : Fin n) :
    (t.db i)[shardIdKey]? = some (value i) := by
  have hmarked : Marked (fun _ => True) value t :=
    ht.invariant (.init hentry fun _ _ _ => .inr trivial) fun _ _ _ h hs => h.step hs
  exact hmarked.entry i

/-- When the servers are stopped, each database holds the number of the rank that has opened it. -/
theorem Launch.Up.kept [DecidableEq Cl] {L : Launch n} {disk disk' : Fin (n + 1) → Store}
    {st : Net (n + 1) (Option Store) MpiMessage Abort ServerLauncher.Launched}
    {server : Fin n → Fin (n + 1)} (hup : L.Up st server) (hn : n < 2 ^ 31) (hfits : L.Fits disk)
    (hst : Reachable Net.step (L.boot disk) st) {notFound : Bytes} {t : Cluster Cl n}
    (ht : Reachable (Cluster.step notFound)
      (Cluster.init fun j => L.booted disk st (L.place (server j))) t)
    (hdisk : ∀ j, disk' (L.place (server j)) = t.db j)
    (hrest : ∀ x, (∀ j, L.place (server j) ≠ x) → disk' x = L.booted disk st x) (i : Fin (n + 1)) :
    shardIdIn (disk' (L.place i)) = some (.ok (i.val : Int)) := by
  rw [← hup.saved hn hfits hst i]
  cases i using Fin.cases with
  | zero =>
    rw [hrest]
    intro j heq
    rw [hup.server_eq hfits rfl hst, L.place.apply_eq_iff_eq] at heq
    exact Fin.succ_ne_zero j heq
  | succ j =>
    have hserver : server j = j.succ := hup.server_eq hfits rfl hst j
    have hentry : ∀ i, ∃ value,
        (L.booted disk st (L.place (server i)))[shardIdKey]? = some value := by
      intro i
      obtain ⟨value, hvalue, -⟩ := Option.map_eq_some_iff.1 (hup.saved hn hfits hst (server i))
      exact ⟨value, hvalue⟩
    choose value hvalue using hentry
    have hkept := Cluster.entry_kept hvalue ht j
    rw [← hserver, hdisk]
    unfold shardIdIn
    rw [hkept, hvalue]

/-! ## All lives -/

/-- The sessions of all lives, and the order in which their calls took effect. -/
structure Recorded (k : Nat) (disk : Fin (n + 1) → Store) (H : List (CallEvent (Nat × Cl)))
    (S : Cluster (Nat × Cl) n) (L : Cluster.Order (Nat × Cl)) : Prop where
  inv : Cluster.Inv S L
  history : S.history = H
  new : ∀ j, k ≤ j → ∀ cl, S.session (j, cl) = .init
  placed : Placed disk (Cluster.merged L)

theorem Lives.recorded [DecidableEq Cl] (hn : n < 2 ^ 31) {e : ByteEnv}
    {disk₀ disk : Fin (n + 1) → Store} {k : Nat} {H : List (CallEvent (Nat × Cl))}
    (hdisk₀ : ∀ x key, ∀ i : Fin n, route n key = some i → (disk₀ x)[key]? = none)
    (h : Lives e disk₀ k disk H) : ∃ S L, Recorded k disk H S L := by
  induction h with
  | start =>
    refine ⟨Cluster.init fun j => disk₀ j.succ, [], .init fun key i hkey => hdisk₀ _ key i hkey, rfl,
      fun _ _ _ => rfl, .fresh hdisk₀ fun _ _ _ => rfl⟩
  | stopped L _ hfits hst ih =>
    obtain ⟨S, M, hinv, hhistory, hnew, hplaced⟩ := ih
    exact ⟨S, M, hinv, hhistory, hnew, hplaced.booted hn hfits hst⟩
  | @served k disk disk' H L st server as s _ hfits hst hup hrun hadmits hdisk hrest ih =>
    obtain ⟨S, M, hinv, rfl, hnew, hplaced⟩ := ih
    obtain ⟨t, ht, hrel⟩ := ByteCluster.exists_rel hrun hadmits
    have hhistory := hrel.history
    have hdb := hrel.db
    obtain ⟨M', hinv'⟩ := hinv.joined (hnew k (Nat.le_refl k)) (hplaced.served hfits hst hup) ht.reachable
    refine ⟨Cluster.joined S k t, M', hinv', ?_, ?_, .numbered L.place.symm (fun x => ?_) ?_⟩
    · show S.history ++ _ = _
      rw [hhistory]
    · intro j hj cl
      have hne : j ≠ k := by omega
      exact (if_neg hne).trans (hnew j (Nat.le_of_succ_le hj) cl)
    · obtain ⟨i, rfl⟩ := L.place.surjective x
      rw [Equiv.symm_apply_apply]
      exact hup.kept hn hfits hst ht.reachable (fun j => (hdisk j).trans (congrFun hdb j).symm) hrest i
    · intro key j hkey
      have hserver : server j = j.succ := hup.server_eq hfits rfl hst j
      rw [Equiv.symm_symm, ← hserver, hdisk, ← hdb]
      exact hinv'.stores key j hkey

/-- **Keys survive restarts.**  `n` is an `int`.  Over any number of starts that find their databases
where they were, and of runs between them, all calls on single keys are linearizable as calls on one
map: whatever was put by a call that returned is there in every later life, and nothing comes back. -/
theorem durable [DecidableEq Cl] (hn : n < 2 ^ 31) (e : ByteEnv) {disk₀ disk : Fin (n + 1) → Store}
    (hdisk₀ : ∀ x key, ∀ i : Fin n, route n key = some i → (disk₀ x)[key]? = none) {k : Nat}
    {H : List (CallEvent (Nat × Cl))} (h : Lives e disk₀ k disk H) :
    Linearizable keySpec (fun _ => none) H := by
  obtain ⟨S, L, hrecorded⟩ := h.recorded hn hdisk₀
  rw [← hrecorded.history]
  exact ⟨L, hrecorded.inv.tracks⟩

/-! ### A value that is put in one life and read in the next -/

/-- Servers that start, and one client whose call returns. -/
theorem exists_life {L : Launch 2} (hL : L.Sound) {disk₀ disk : Fin 3 → Store} {k : Nat}
    {H : List (CallEvent (Nat × Bool))} (h : Lives ByteCluster.plainEnv disk₀ k disk H)
    (hfits : L.Fits disk) {c : Command} (hlog : c.key?.isSome) (hkey : c.Routed 2)
    (hcommand : ByteCluster.plainEnv.BuildsCommand c)
    (hbuilds : ∀ st, Reachable Net.step (L.boot disk) st → ByteCluster.Builds ByteCluster.plainEnv
      (fun j : Fin 2 => L.booted disk st (L.place j.succ)) c) :
    ∃ st disk' ret, Reachable Net.step (L.boot disk) st ∧
      answer [] (fun j : Fin 2 => L.booted disk st (L.place j.succ)) c = some ret ∧
      (∀ j : Fin 2, disk' (L.place j.succ) =
        served [] (fun j => L.booted disk st (L.place j.succ)) c j) ∧
      Lives ByteCluster.plainEnv disk₀ (k + 1) disk'
        (H ++ [.inv ((k, true), 0) c, .res ((k, true), 0) ret]) ∧ L.Fits disk' := by
  obtain ⟨st, server, hst, hup⟩ := hL.exists_up hfits rfl
  have hserver : ∀ j, server j = j.succ := hup.server_eq hfits rfl hst
  obtain rfl : server = Fin.succ := funext hserver
  let db : Fin 2 → Store := fun j => L.booted disk st (L.place j.succ)
  have hadmits : ByteCluster.Admits ByteCluster.plainEnv (.init db) (.call true c) :=
    ⟨(fun hc => nomatch hc), hkey, hcommand⟩
  have htracks : ByteCluster.Tracks ByteCluster.plainEnv (fun _ : Bool => False) db (.init db)
      (Cluster.init db) := ⟨.init, ByteCluster.rel_init db⟩
  obtain ⟨as, s, t, ret, hanswer, hrun, hno, -, hhistory, hdb, -, ht, hrel⟩ :=
    ByteCluster.exists_returned htracks id (not_not.2 rfl) hadmits (hbuilds st hst)
  have hno' : ¬ Meets (ByteCluster.step ByteCluster.plainEnv)
      (fun s a => ¬ ByteCluster.Admits ByteCluster.plainEnv s a) (.init db) (.call true c :: as) :=
    fun hmeets => hno (hmeets.mono fun s a hbad hown => hbad hown.admits)
  let disk' : Fin 3 → Store := fun x =>
    Fin.cases (motive := fun _ => Store) (L.booted disk st x) s.db (L.place.symm x)
  have hdisk : ∀ j : Fin 2, disk' (L.place j.succ) = s.db j := by
    intro j
    show Fin.cases (motive := fun _ => Store) _ s.db (L.place.symm (L.place j.succ)) = _
    rw [Equiv.symm_apply_apply]
    rfl
  have hrest : ∀ x, (∀ j : Fin 2, L.place j.succ ≠ x) → disk' x = L.booted disk st x := by
    intro x hx
    obtain ⟨i, rfl⟩ := L.place.surjective x
    cases i using Fin.cases with
    | zero =>
      show Fin.cases (motive := fun _ => Store) _ s.db (L.place.symm (L.place 0)) = _
      rw [Equiv.symm_apply_apply]
      rfl
    | succ j => exact absurd rfl (hx j)
  refine ⟨st, disk', ret, hst, hanswer, ?_, ?_, ?_⟩
  · intro j
    rw [hdisk, hdb]
    rfl
  · have hlife := Lives.served L h hfits hst hup hrun hno' hdisk hrest
    have hlogged : ∀ e : CallEvent Bool, Cluster.log c e = [e] := fun e => if_pos hlog
    rw [hhistory, hlogged, hlogged] at hlife
    exact hlife
  · intro i
    exact .inl (hup.kept (by decide) hfits hst ht (fun j => (hdisk j).trans (congrFun hrel.db j).symm)
      hrest i)

theorem routed_t1 : route 2 [116, 95, 49] = some 0 := by decide

/-- `t_1` is put in one life and read in the next. -/
def putThenGet : List (CallEvent (Nat × Bool)) :=
  [.inv ((0, true), 0) (.put [116, 95, 49] [118]), .res ((0, true), 0) (.done .Ok),
    .inv ((1, true), 0) (.get [116, 95, 49]), .res ((1, true), 0) (.get .Ok (some [118]))]

/-- Three empty databases, and servers that start on them twice. -/
theorem durable_twice :
    ∃ disk, Lives ByteCluster.plainEnv (fun _ : Fin 3 => (∅ : Store)) 2 disk putThenGet ∧
      Linearizable keySpec (fun _ => none) putThenGet := by
  have hroute := routed_t1
  have routed : ∀ {c : Command}, c.key? = some [116, 95, 49] → c.Routed 2 := by
    intro c hc key hkey
    rw [hc] at hkey
    cases hkey
    exact ⟨0, hroute⟩
  -- the first life
  obtain ⟨st, disk, ret, hst, hanswer, hdisk, hlife, hfits⟩ := exists_life threeHosts_sound
    (.start : Lives ByteCluster.plainEnv (fun _ : Fin 3 => (∅ : Store)) 0 _ _) (fun _ => .inr ⟨rfl, rfl⟩)
    rfl (routed rfl) (ByteCluster.plainEnv_buildsCommand (c := .put [116, 95, 49] [118]) (by decide))
    fun _ _ => ⟨fun _ => ByteCluster.put_built, fun _ heq => nomatch heq⟩
  rw [answer_of_route rfl hroute] at hanswer
  cases hanswer
  rw [served_of_route rfl hroute] at hdisk
  have hzero : (disk (threeHosts.place 1))[([116, 95, 49] : Bytes)]? = some [118] := by
    have hput := hdisk 0
    rw [Function.update_self] at hput
    rw [show (1 : Fin 3) = Fin.succ 0 from rfl, hput]
    exact Std.TreeMap.getElem?_insert_self
  have hone : (disk (threeHosts.place 2))[([116, 95, 49] : Bytes)]? = none := by
    have hkept := hdisk 1
    rw [Function.update_of_ne (by decide)] at hkept
    rw [show (2 : Fin 3) = Fin.succ 1 from rfl, hkept, Launch.booted_other (ne_of_route hroute) hst]
    rfl
  -- the second one
  have hstored : ∀ st, Reachable Net.step (threeHosts.boot disk) st → ∀ j : Fin 2,
      (threeHosts.booted disk st (threeHosts.place j.succ))[([116, 95, 49] : Bytes)]? =
        if j = 0 then some [118] else none := by
    intro st hst j
    rw [Launch.booted_other (ne_of_route hroute) hst]
    fin_cases j
    · exact hzero
    · exact hone
  obtain ⟨st', disk', ret', hst', hanswer', -, hlife', -⟩ := exists_life threeHosts_sound hlife hfits
    (c := .get [116, 95, 49]) rfl (routed rfl) (ByteCluster.plainEnv_buildsCommand (by decide)) <| by
      refine fun st hst => ⟨fun j => ByteCluster.get_built ?_, fun _ heq => nomatch heq⟩
      rw [hstored st hst j]
      split
      · exact .inl rfl
      · exact .inr rfl
  rw [answer_of_route rfl hroute, KvWorker.handle, hstored st' hst' 0] at hanswer'
  cases hanswer'
  exact ⟨disk', hlife', durable (by decide) _ (fun _ _ _ _ => rfl) hlife'⟩

end SqpKv
