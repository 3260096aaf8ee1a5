import SqpKv.Server.ShardingProxyWorker

/-!
# A GetAll in its session

The proxy asks the shards one after the other and joins their answers in the
same order.  What is known of the answers is known of the keys that are joined:

    Q j keys      of the answer of shard j
    R k keys      of the keys of the first k shards      (R 0 [], and from R j and Q j to R (j + 1))

The steps of the session keep this (`Gathers`); a worker that scans its RocksDB
has to answer to `Q`.
-/

namespace SqpKv

open Wire

theorem Lane.At.unique {l : Lane} {st st' : LaneStage} (h : l.At st) (h' : l.At st') : st = st' := by
  cases h <;> cases h' <;> rfl

namespace Session

variable {n : Nat} {s s' : Session n}

/-- What holds of the answers of single shards adds up. -/
structure Joins (Q : Fin n → List Bytes → Prop) (R : Nat → List Bytes → Prop) : Prop where
  nil : R 0 []
  append : ∀ (j : Fin n) keys more, R j keys → Q j more → R (j + 1) (keys ++ more)

/-- `Q` holds of the answers on the way, `R` of the keys that are joined so far. -/
structure Gathers (s : Session n) (Q : Fin n → List Bytes → Prop) (R : Nat → List Bytes → Prop) :
    Prop where
  answered : ∀ j keys, (s.lane j).At (.answered (.getAll .Ok keys)) → Q j keys
  collected : ∀ next keys, s.proxy = .collect next keys → next ≤ n ∧ R next keys
  responds : ∀ keys, s.proxy = .respond keys → R n keys
  sent : ∀ keys, s.down = [.getAll .Ok keys] → R n keys

theorem Shape.pending_getAll (h : s.Shape .scanning) :
    ∃ keyPrefix, s.pending = some (.getAll keyPrefix) := by
  cases h with
  | _ hp => exact ⟨_, hp⟩

theorem pending_of_result {c : Command} {ret : CallResult} (hs : s.result = some (c, ret, s')) :
    s.pending = some c := by
  unfold Session.result at hs
  split at hs
  · next hp hd =>
    obtain ⟨_, -, hs⟩ := Option.bind_eq_some_iff.1 hs
    cases hs
    exact hp
  · cases hs

/-- A scan asks every lane for the same prefix, or has nothing on it. -/
theorem Shape.lane_cases (h : s.Shape .scanning) {keyPrefix : Bytes}
    (hp : s.pending = some (.getAll keyPrefix)) (i : Fin n) :
    (s.lane i).At .quiet ∨ s.Scans keyPrefix i := by
  cases h with
  | scanRequested _ _ _ _ hl => exact .inl (hl i)
  | @fanOut keyPrefix' next hp' _ _ _ hasked hl =>
    rw [hp] at hp'
    cases hp'
    by_cases hi : i < next
    · exact .inr (hasked i hi)
    · exact .inl (hl i (Nat.not_lt.1 hi))
  | @collect keyPrefix' next keys hp' _ _ _ hl hasked =>
    rw [hp] at hp'
    cases hp'
    by_cases hi : i < next
    · exact .inl (hl i hi)
    · exact .inr (hasked i (Nat.not_lt.1 hi))
  | respond _ _ _ _ hl => exact .inl (hl i)
  | scanned _ _ _ _ hl => exact .inl (hl i)

theorem Shape.exists_at (h : s.Shape .scanning) (i : Fin n) : ∃ lst, (s.lane i).At lst := by
  obtain ⟨keyPrefix, hp⟩ := h.pending_getAll
  rcases h.lane_cases hp i with hq | ha | ⟨keys, ha⟩
  · exact ⟨_, hq⟩
  · exact ⟨_, ha⟩
  · exact ⟨_, ha⟩

namespace Gathers

variable {Q : Fin n → List Bytes → Prop} {R : Nat → List Bytes → Prop}

theorem mono {Q' : Fin n → List Bytes → Prop} {R' : Nat → List Bytes → Prop} (h : s.Gathers Q R)
    (hQ : ∀ j keys, Q j keys → Q' j keys) (hR : ∀ next keys, R next keys → R' next keys) :
    s.Gathers Q' R' where
  answered j keys hj := hQ j keys (h.answered j keys hj)
  collected next keys hx := (h.collected next keys hx).imp_right (hR next keys)
  responds keys hx := hR n keys (h.responds keys hx)
  sent keys hd := hR n keys (h.sent keys hd)

/-- Before the proxy has asked a shard there is nothing to know. -/
theorem of_quiet (hx : s.proxy = .idle) (hd : s.down = []) (hl : s.Quiet) : s.Gathers Q R := by
  refine ⟨fun j keys hj => ?_, fun next keys hc => ?_, fun keys hr => ?_, fun keys hs => ?_⟩
  · cases (hl j).unique hj
  · rw [hx] at hc
    cases hc
  · rw [hx] at hr
    cases hr
  · rw [hd] at hs
    cases hs

theorem call {st : Stage} (hshape : s.Shape st) {c : Command} (hs : s.call c = some s') :
    s'.Gathers Q R := by
  obtain ⟨rfl, -, -⟩ := hshape.call hs
  obtain ⟨hp, hu, hx, hd, hl⟩ := hshape
  unfold Session.call at hs
  rw [hp] at hs
  cases hs
  exact of_quiet hx hd hl

/-- One lane changes. -/
theorem answered_setLane (h : s.Gathers Q R) {i : Fin n} {l : Lane}
    (hl : ∀ keys, l.At (.answered (.getAll .Ok keys)) → Q i keys) (j : Fin n) (keys : List Bytes)
    (hj : ((s.setLane i l).lane j).At (.answered (.getAll .Ok keys))) : Q j keys := by
  by_cases hne : j = i
  · subst hne
    rw [setLane_lane_self] at hj
    exact hl keys hj
  · rw [setLane_lane_of_ne hne] at hj
    exact h.answered j keys hj

theorem setLane (h : s.Gathers Q R) {i : Fin n} {l : Lane}
    (hl : ∀ keys, l.At (.answered (.getAll .Ok keys)) → Q i keys) : (s.setLane i l).Gathers Q R :=
  ⟨h.answered_setLane hl, h.collected, h.responds, h.sent⟩

/-- A step of a worker that leaves its request at the same stage. -/
theorem keepLane (h : s.Gathers Q R) {i : Fin n} {l : Lane} {lst : LaneStage}
    (hi : (s.lane i).At lst) (hl : l.At lst) : (s.setLane i l).Gathers Q R := by
  refine h.setLane fun keys hk => ?_
  rw [hl.unique hk] at hi
  exact h.answered i keys hi

theorem workerRead (h : s.Gathers Q R) (hshape : s.Shape .scanning) {i : Fin n}
    (hs : s.workerRead i = some s') : s'.Gathers Q R ∧ s'.pending = s.pending := by
  obtain ⟨l, hl, hs⟩ := Option.bind_eq_some_iff.1 hs
  cases hs
  obtain ⟨lst, hi⟩ := hshape.exists_at i
  exact ⟨h.keepLane hi (hi.read hl), rfl⟩

theorem workerSend (h : s.Gathers Q R) (hshape : s.Shape .scanning) {i : Fin n}
    (hs : s.workerSend i = some s') : s'.Gathers Q R ∧ s'.pending = s.pending := by
  obtain ⟨l, hl, hs⟩ := Option.bind_eq_some_iff.1 hs
  cases hs
  obtain ⟨lst, hi⟩ := hshape.exists_at i
  exact ⟨h.keepLane hi (hi.send hl), rfl⟩

/-- A shard scans. -/
theorem workerExec (h : s.Gathers Q R) (hshape : s.Shape .scanning) {keyPrefix : Bytes}
    (hp : s.pending = some (.getAll keyPrefix)) {notFound : Bytes} {i : Fin n} {db db' : Store}
    (hscan : Q i (collect keyPrefix (seek db keyPrefix)))
    (hs : s.workerExec notFound i db = some (db', s')) :
    s'.Gathers Q R ∧ s'.pending = s.pending := by
  obtain ⟨⟨db'', l⟩, hl, hs⟩ := Option.bind_eq_some_iff.1 hs
  cases hs
  refine ⟨h.setLane fun keys hk => ?_, rfl⟩
  rcases hshape.lane_cases hp i with hq | ha | ⟨keys', ha⟩
  · obtain ⟨c, hc, -⟩ := hq.exec hl
    cases hc
  · obtain ⟨c, hc, -, hat⟩ := ha.exec hl
    cases hc
    cases hat.unique hk
    exact hscan
  · obtain ⟨c, hc, -⟩ := ha.exec hl
    cases hc

theorem proxyStep (h : s.Gathers Q R) (hj : Joins Q R) (hshape : s.Shape .scanning)
    (hs : s.proxyStep = some s') : s'.Gathers Q R ∧ s'.pending = s.pending := by
  cases hshape with
  | scanRequested hp hu hx hd hl =>
    unfold Session.proxyStep at hs
    rw [hx, hu] at hs
    cases hs
    exact ⟨⟨h.answered, fun _ _ hx => (nomatch hx), fun _ hx => (nomatch hx), h.sent⟩, rfl⟩
  | @fanOut keyPrefix next hp hu hx hd hasked hl =>
    rcases Shape.proxyStep_fanOut hx hs with ⟨hnext, rfl⟩ | ⟨-, rfl⟩
    · have hpush := (hl ⟨next, hnext⟩ (Nat.le_refl _)).push (.getAll keyPrefix)
      refine ⟨⟨h.answered_setLane fun keys hk => ?_, fun _ _ hx => (nomatch hx),
        fun _ hx => (nomatch hx), h.sent⟩, rfl⟩
      cases hpush.unique hk
    · refine ⟨⟨h.answered, ?_, fun _ hx => (nomatch hx), h.sent⟩, rfl⟩
      rintro _ _ ⟨⟩
      exact ⟨Nat.zero_le _, hj.nil⟩
  | @collect keyPrefix next keys hp hu hx hd hl hasked =>
    rcases Shape.proxyStep_collect hx hs with ⟨hnext, status, more, responses, hr, rfl⟩ | ⟨hall, rfl⟩
    · have hscan := hasked ⟨next, hnext⟩ (Nat.le_refl _)
      have hquiet := hscan.pop hr
      have hmore : Q ⟨next, hnext⟩ more := by
        rcases hscan with hat | ⟨more', hat⟩
        · cases (hat.pop hr).1
        · cases (hat.pop hr).1
          exact h.answered _ _ hat
      refine ⟨⟨h.answered_setLane fun keys hk => ?_, ?_, fun _ hx => (nomatch hx), h.sent⟩, rfl⟩
      · cases hquiet.unique hk
      · rintro _ _ ⟨⟩
        exact ⟨hnext, hj.append ⟨next, hnext⟩ keys more (h.collected _ _ hx).2 hmore⟩
    · refine ⟨⟨h.answered, fun _ _ hx => (nomatch hx), ?_, h.sent⟩, rfl⟩
      rintro _ ⟨⟩
      obtain ⟨hle, hR⟩ := h.collected _ _ hx
      rwa [Nat.le_antisymm hle hall] at hR
  | respond hp hu hx hd hl =>
    unfold Session.proxyStep at hs
    rw [hx] at hs
    cases hs
    refine ⟨⟨h.answered, fun _ _ hx => (nomatch hx), fun _ hx => (nomatch hx), ?_⟩, rfl⟩
    intro keys hk
    replace hk : s.down ++ _ = _ := hk
    rw [hd] at hk
    cases hk
    exact h.responds _ hx
  | scanned hp hu hx hd hl =>
    unfold Session.proxyStep at hs
    rw [hx, hu] at hs
    cases hs

/-- What the client gets is what was sent. -/
theorem result (h : s.Gathers Q R) (hshape : s.Shape .scanning) {c : Command} {status : Status}
    {keys : List Bytes} (hs : s.result = some (c, .getAll status keys, s')) : R n keys := by
  obtain ⟨keyPrefix, hp⟩ := hshape.pending_getAll
  cases hshape with
  | scanned hp hu hx hd hl =>
    unfold Session.result at hs
    rw [hp, hd] at hs
    cases hs
    exact h.sent _ hd
  | _ =>
    -- nothing has come back
    unfold Session.result at hs
    rw [hp, ‹s.down = []›] at hs
    cases hs

end Gathers

end Session

end SqpKv
