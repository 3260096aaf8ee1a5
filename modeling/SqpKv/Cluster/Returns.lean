import SqpKv.Cluster.Alone

/-!
# Every call returns

What holds of the infinite runs of the threads:

    a session without calls makes finitely many steps, whatever fails     (ByteCluster.session_stops)
    in a run that is fair to a session every call of it returns           (ByteCluster.call_returns)

the second where no call of `read` or `write` fails in the session, whatever
happens in the others.
-/

namespace SqpKv

open Wire Machine

variable {n : Nat}

namespace ByteCluster

variable {Cl : Type} [DecidableEq Cl] {e : ByteEnv} {s s' : ByteCluster Cl n} {cl : Cl}

theorem Follows.rank_eq {lost : Cl → Prop} {a : Action Cl n} {t t' : Cluster Cl n}
    (h : Follows e lost s a s' t t') (hs : step e s a = some s') (ha : ¬ a.Of cl) :
    rank cl s' t' = rank cl s t := by
  unfold rank
  rw [h.others cl ha, step_others hs ha]

section

variable {lost : Cl → Prop} {db : Fin n → Store} {ss : Nat → ByteCluster Cl n} {as : Nat → Action Cl n}

/-- At any time of the run. -/
theorem exists_tracks (h₀ : ss 0 = init db) (hrun : Runs (step e) ss as)
    (hgood : ∀ k, Covered e lost (ss k) (as k)) (k : Nat) : ∃ t, Tracks e lost db (ss k) t := by
  induction k with
  | zero => exact ⟨Cluster.init db, .init, h₀ ▸ rel_init db⟩
  | succ k ih =>
    obtain ⟨t, ht, hrel⟩ := ih
    obtain ⟨t', hfollows⟩ := hrel.step ht (hgood k) (hrun k)
    exact ⟨t', ht.trans hfollows.run.reachable, hfollows.rel⟩

/-- Where the client does not call, its session loses rank with each of its steps and keeps it with
those of the others. -/
theorem Tracks.step {t : Cluster Cl n} {a : Action Cl n} (h : Tracks e lost db s t)
    (hgood : Covered e lost s a) (hs : step e s a = some s') (hcall : ∀ c, a ≠ .call cl c) :
    ∃ t', Tracks e lost db s' t' ∧ rank cl s' t' ≤ rank cl s t ∧
      (a.InSession cl → rank cl s' t' < rank cl s t) := by
  obtain ⟨ht, hrel⟩ := h
  obtain ⟨t', hfollows⟩ := hrel.step ht hgood hs
  refine ⟨t', ⟨ht.trans hfollows.run.reachable, hfollows.rel⟩, ?_, fun ⟨b, hb⟩ => hfollows.rank_lt hb⟩
  by_cases hof : a.Of cl
  · cases a with
    | call cl' c =>
      cases hof
      exact absurd rfl (hcall c)
    | session cl' b =>
      cases hof
      exact le_of_lt (hfollows.rank_lt rfl)
  · exact le_of_eq (hfollows.rank_eq hs hof)

end

/-! ## Asking for one key, again and again -/

section

variable {lost : Cl → Prop} {db₀ : Fin n → Store} {t : Cluster Cl n} {key : Bytes}

/-- A client at rest that has lost none of its threads can ask for ever. -/
theorem exists_asking (h : Tracks e lost db₀ s t) (hkept : ¬ lost cl) (hidle : ¬ Busy cl s)
    (hkey : (Command.get key).Routed n) (hcommand : e.BuildsCommand (.get key))
    (hbuilds : Builds e s.db (.get key)) :
    ∃ ss as, ss 0 = s ∧ Runs (step e) ss as ∧ ∀ k, Own e cl (ss k) (as k) := by
  let Good : ByteCluster Cl n → Prop := fun u =>
    ∃ t, Tracks e lost db₀ u t ∧ (t.session cl).Lone e.notFound s.db (.get key) t.db
  have hstart : Good s := by
    obtain ⟨st, hshape, -⟩ := Cluster.answers h.1 cl
    refine ⟨t, h, ?_⟩
    rw [h.2.db]
    exact .rest hshape (h.2.pending_of_rest hidle) (served_get key)
  refine exists_runs ?_ hstart
  rintro u ⟨t, ht, hlone⟩
  by_cases hbusy : Busy cl u
  · obtain ⟨b, u', t', -, hown, hs, ht', hlone', -⟩ := ht.goes hlone hbuilds hkept hbusy
    exact ⟨_, u', hown, hs, t', ht', hlone'⟩
  · have hdb : u.db = s.db := by
      rw [← ht.2.db, hlone.of_rest (ht.2.pending_of_rest hbusy), served_get]
    have hfailed : (u.session cl).client.control ≠ .failed := by
      rw [not_not.1 hbusy]
      exact fun hc => nomatch hc
    obtain ⟨u', t', hown, hs, ht', hlone', -⟩ := ht.calls hbusy ⟨hfailed, hkey, hcommand⟩
    rw [hdb] at hlone'
    exact ⟨_, u', hown, hs, t', ht', hlone'⟩

/-- Where only one session goes on, the run is fair to it: behind a call nothing else can go. -/
theorem fair_of_own {ss : Nat → ByteCluster Cl n} {as : Nat → Action Cl n}
    (hrun : Runs (step e) ss as) (hown : ∀ k, Own e cl (ss k) (as k)) :
    Fair (CanGo e cl) (Action.InSession cl) ss as := by
  intro k _
  have own : ∀ {j}, Busy cl (ss j) → Action.InSession cl (as j) := by
    intro j hbusy
    have hs := hrun j
    obtain ⟨hadmits, hof, -⟩ := hown j
    generalize as j = a at hs hadmits hof
    cases a with
    | call cl' c =>
      cases hof
      rw [not_call_of_busy hbusy hadmits] at hs
      cases hs
    | session cl' b =>
      cases hof
      exact ⟨b, rfl⟩
  by_cases hbusy : Busy cl (ss k)
  · exact ⟨k, Nat.le_refl k, own hbusy⟩
  · have hs := hrun k
    have hof := (hown k).own
    cases ha : as k with
    | call cl' c =>
      rw [ha] at hs hof
      cases hof
      exact ⟨k + 1, Nat.le_succ k, own (busy_of_call hs)⟩
    | session cl' b =>
      rw [ha] at hof
      cases hof
      exact ⟨k, Nat.le_refl k, b, ha⟩

end

/-! ## Infinite runs -/

section

variable {db : Fin n → Store} {ss : Nat → ByteCluster Cl n} {as : Nat → Action Cl n}

/-- **A session comes to a stop** when its client does not call any more, whatever calls of `read`
and `write` fail: its threads and its connections do not go on for ever. -/
theorem session_stops (h₀ : ss 0 = init db) (hrun : Runs (step e) ss as)
    (hadmits : ∀ k, Admits e (ss k) (as k)) {K : Nat} (hcalls : ∀ k c, K ≤ k → as k ≠ .call cl c) :
    ∃ K', ∀ k b, K' ≤ k → as k ≠ .session cl b := by
  have hgood : ∀ k, Covered e (fun _ => True) (ss k) (as k) := fun k => covered_true.2 (hadmits k)
  obtain ⟨t, ht⟩ := exists_tracks h₀ hrun hgood K
  obtain ⟨K', hK'⟩ := stops (fun k t hk ht => Tracks.step ht (hgood k) (hrun k) fun c => hcalls k c hk) ht
  exact ⟨K', fun k b hk hb => hK' k hk ⟨b, hb⟩⟩

/-- One client loses its proxy and gets no response; the other one asks for ever. -/
theorem session_stops_lostGet :
    ∃ (ss : Nat → ByteCluster Bool 2) (as : Nat → Action Bool 2), ss 0 = init (fun _ => ∅) ∧
      Runs (step plainEnv) ss as ∧ (∀ k (hk : k < lostGet.length), as k = lostGet[k]) ∧
      ∃ K, ∀ k b, K ≤ k → as k ≠ .session true b := by
  obtain ⟨s, hs, -, hdb, hidle⟩ := run_lostGet
  obtain ⟨t, ht, hrel⟩ := (simulates plainEnv (· = true) fun _ => ∅).run (rel_init _) hs lostGet_covered
  have hkept : ¬ (false = true) := Bool.false_ne_true
  have hrest : ¬ Busy false s := not_not.2 hidle
  obtain ⟨ss, as, h₀, hruns, hown⟩ := exists_asking ⟨ht.reachable, hrel⟩ hkept hrest get_routed
    (plainEnv_buildsCommand (by decide)) (hdb ▸ get_builds)
  obtain ⟨ss', as', h₀', hruns', hadmits, hfirst, hlater⟩ := hruns.after (h₀ ▸ hs) lostGet_admitted
    fun k => (hown k).admits
  refine ⟨ss', as', h₀', hruns', hfirst, session_stops h₀' hruns' hadmits (K := 1) ?_⟩
  intro k c hk hcall
  by_cases hlt : k < lostGet.length
  · have hlen : k < 6 := hlt
    rw [hfirst k hlt] at hcall
    obtain rfl | rfl | rfl | rfl | rfl : k = 1 ∨ k = 2 ∨ k = 3 ∨ k = 4 ∨ k = 5 := by omega
    all_goals cases hcall
  · obtain ⟨j, rfl⟩ := Nat.exists_eq_add_of_le (Nat.not_lt.1 hlt)
    rw [hlater] at hcall
    have hof := (hown j).own
    rw [hcall] at hof
    cases hof

/-- **Every call returns** in a run that is fair to the session and in which none of its own calls of
`read` and `write` fails, whatever happens in the other sessions. -/
theorem call_returns (h₀ : ss 0 = init db) (hrun : Runs (step e) ss as)
    (hgood : ∀ k, Admits e (ss k) (as k) ∧ ∀ b, as k = .session cl b → b.Succeeds)
    (hfair : Fair (CanGo e cl) (Action.InSession cl) ss as) (k : Nat) :
    ∃ j, k ≤ j ∧ ((ss j).session cl).client.control = .idle := by
  have hcovered : ∀ k, Covered e (· ≠ cl) (ss k) (as k) := fun k => covered_ne.2 (hgood k)
  have htracks := exists_tracks h₀ hrun hcovered
  obtain ⟨t, ht⟩ := htracks k
  have hcan : ∀ j, k ≤ j → Busy cl (ss j) → CanGo e cl (ss j) := by
    intro j _ hbusy
    obtain ⟨t, ht, hrel⟩ := htracks j
    exact hrel.can_go (fun hne => hne rfl) ht hbusy
  have nocall : ∀ j, Busy cl (ss j) → ∀ c, as j ≠ .call cl c := by
    intro j hbusy c hc
    have hs := hrun j
    have hadmits := (hgood j).1
    rw [hc] at hs hadmits
    rw [not_call_of_busy hbusy hadmits] at hs
    cases hs
  obtain ⟨j, hj, hidle⟩ := rests hfair hcan
    (fun j t _ hbusy ht => Tracks.step ht (hcovered j) (hrun j) (nocall j hbusy)) ht
  exact ⟨j, hj, not_not.1 hidle⟩

/-- A client that asks for one key again and again gets its answers. -/
theorem call_returns_asking :
    ∃ (ss : Nat → ByteCluster Unit 2) (as : Nat → Action Unit 2), ss 0 = init (fun _ => ∅) ∧
      Runs (step plainEnv) ss as ∧
      ∀ k, ∃ j, k ≤ j ∧ ((ss j).session ()).client.control = .idle := by
  have htracks : Tracks plainEnv (fun _ : Unit => False) (fun _ : Fin 2 => ∅) (init fun _ => ∅)
      (Cluster.init fun _ => ∅) := ⟨.init, rel_init _⟩
  have hrest : ¬ Busy () (init fun _ : Fin 2 => (∅ : Store)) := not_not.2 rfl
  obtain ⟨ss, as, h₀, hrun, hown⟩ := exists_asking htracks id hrest get_routed
    (plainEnv_buildsCommand (by decide)) get_builds
  exact ⟨ss, as, h₀, hrun, call_returns h₀ hrun
    (fun k => ⟨(hown k).admits, fun b hb => (hown k).succeeds _ b hb⟩) (fair_of_own hrun hown)⟩

end

end ByteCluster

end SqpKv
