import SqpKv.Cluster.Alone

/-!
# When a GetAll is atomic

Seen from one shard, a GetAll takes effect at one moment.  The keys of clients
lie on the shards below `m - 1`, where `m` is the magnitude of the number of
shards as an `int` (`route_lt`), so for all keys together

    m ≤ 2    all keys are on one shard, and a GetAll is atomic
    m ≥ 3    a GetAll may show a key and miss one that had been put before it

and this is the difference (`Cluster.getAll_atomic_iff`).
-/

namespace SqpKv

open Wire Machine History

/-- No key is routed to the last shard, or behind it. -/
theorem route_lt {n : Nat} {key : Bytes} {i : Fin n} (h : route n key = some i) :
    i.val + 1 < (toInt32 n).natAbs := by
  unfold route at h
  split at h
  · next index hindex =>
    split at h
    · next hinside =>
      cases h
      obtain ⟨shardId, hshard, hindex⟩ := bind_eq_ok.1 hindex
      cases hindex
      obtain ⟨id, -, hshard⟩ := bind_eq_ok.1 hshard
      split at hshard
      · cases hshard
      · next hzero =>
        split at hshard
        · cases hshard
        · cases hshard
          have habs := Int.natAbs_tmod id (toInt32 n)
          have hlt := Nat.mod_lt id.natAbs (Int.natAbs_pos.2 hzero)
          simp only
          omega
    · cases h
  · cases h

/-- The key has a shard. -/
def routed (n : Nat) (key : Bytes) : Bool := (route n key).isSome

/-- With one shard that has keys, a key has a shard if it is on this one. -/
theorem routed_eq_onShard {n : Nat} (hm : (toInt32 n).natAbs ≤ 2) (hn : 0 < n) :
    routed n = onShard ⟨0, hn⟩ := by
  funext key
  unfold routed onShard
  cases h : route n key with
  | none => rfl
  | some i =>
    have hlt := route_lt h
    have hi : i = ⟨0, hn⟩ := Fin.ext (by simp only; omega)
    subst hi
    exact (decide_eq_true rfl).symm

theorem route_clientKey {n : Nat} (hm : 3 ≤ (toInt32 n).natAbs) {id : Nat} (h1 : 1 ≤ id) (h2 : id ≤ 2) :
    ∃ i : Fin n, i.val = id - 1 ∧ route n (clientKey [116] id) = some i := by
  have hle := toInt32_natAbs_le n
  have hindex := shardIndex_clientKey n (show 95 ∉ ([116] : Bytes) by decide) (by decide)
    (show id < 2 ^ 31 by omega) (by omega)
  rw [Nat.mod_eq_of_lt (by omega)] at hindex
  refine ⟨⟨id - 1, by omega⟩, rfl, ?_⟩
  unfold route
  rw [hindex]
  simp only
  rw [dif_pos (by omega)]
  congr 2
  omega

/-! ## What no order explains -/

namespace Cluster

variable {Cl : Type}

/-- What is in the map has been put. -/
theorem exists_put {L : Order Cl} {key : Bytes} (h : merged L key ≠ none) :
    ∃ e ∈ L, ∃ value, e.op = .put key value := by
  induction L using List.reverseRecOn with
  | nil => exact absurd rfl h
  | append_singleton L e ih =>
    rw [merged_append] at h
    by_cases hput : ∃ value, e.op = .put key value
    · exact ⟨e, List.mem_append_right _ (List.mem_singleton_self e), hput⟩
    · have hold : merged L key ≠ none := by
        intro hnone
        refine h ?_
        cases hop : e.op with
        | put key' value =>
          have hne : key ≠ key' := by
            rintro rfl
            exact hput ⟨value, hop⟩
          exact (Function.update_of_ne hne ..).trans hnone
        | delete key' =>
          show Function.update (merged L) key' none key = none
          by_cases hk : key = key'
          · rw [hk, Function.update_self]
          · rwa [Function.update_of_ne hk]
        | _ => exact hnone
      obtain ⟨d, hd, hvalue⟩ := ih hold
      exact ⟨d, List.mem_append_left _ hd, hvalue⟩

/-- What has been put and not deleted is in the map. -/
theorem merged_ne_none {L : Order Cl} {key : Bytes} (hdel : ∀ e ∈ L, e.op ≠ .delete key)
    (h : ∃ e ∈ L, ∃ value, e.op = .put key value) : merged L key ≠ none := by
  induction L using List.reverseRecOn with
  | nil =>
    obtain ⟨_, he, -⟩ := h
    cases he
  | append_singleton L e ih =>
    rw [merged_append]
    have hlast := hdel e (List.mem_append_right _ (List.mem_singleton_self e))
    have hold : (∃ d ∈ L, ∃ value, d.op = .put key value) → merged L key ≠ none :=
      ih fun d hd => hdel d (List.mem_append_left _ hd)
    by_cases hput : ∃ value, e.op = .put key value
    · obtain ⟨value, hop⟩ := hput
      rw [hop]
      show Function.update (merged L) key (some value) key ≠ none
      rw [Function.update_self]
      exact Option.some_ne_none value
    · obtain ⟨d, hd, hvalue⟩ := h
      have hdL : d ∈ L := by
        rcases List.mem_append.1 hd with hd | hd
        · exact hd
        · rw [List.mem_singleton.1 hd] at hvalue
          exact absurd hvalue hput
      have hbefore := hold ⟨d, hdL, hvalue⟩
      cases hop : e.op with
      | put key' value =>
        have hne : key ≠ key' := by
          rintro rfl
          exact hput ⟨value, hop⟩
        show Function.update (merged L) key' (some value) key ≠ none
        rwa [Function.update_of_ne hne]
      | delete key' =>
        have hne : key ≠ key' := by
          rintro rfl
          exact hlast hop
        show Function.update (merged L) key' none key ≠ none
        rwa [Function.update_of_ne hne]
      | _ => exact hbefore

/-- `a` is put, then `b`, and a GetAll that has begun before shows `b` and not `a`. -/
def missing (x y : Cl) (keyPrefix a b value : Bytes) (keys : List Bytes) : List (CallEvent Cl) :=
  [.inv (x, 0) (.getAll keyPrefix), .inv (y, 0) (.put a value), .res (y, 0) (.done .Ok),
    .inv (y, 1) (.put b value), .res (y, 1) (.done .Ok), .res (x, 0) (.getAll .Ok keys)]

theorem not_linearizable_missing {x y : Cl} (hxy : x ≠ y) {mine : Bytes → Bool}
    {keyPrefix a b value : Bytes} {keys : List Bytes} (hab : a ≠ b) (hbegins : keyPrefix <+: a)
    (hmine : mine a = true) (ha : a ∉ keys) (hb : b ∈ keys) :
    ¬ Linearizable (listSpec mine) (fun _ => none) (missing x y keyPrefix a b value keys) := by
  rintro ⟨L, hL⟩
  -- only these operations can have taken effect
  have hops : ∀ e ∈ L, (e.id = (x, 0) ∧ e.op = .getAll keyPrefix) ∨
      (e.id = (y, 0) ∧ e.op = .put a value) ∨ (e.id = (y, 1) ∧ e.op = .put b value) := by
    intro e he
    simpa [missing] using hL.invoked e he
  obtain ⟨e, he, hid, hret⟩ := hL.completed (x, 0) (.getAll .Ok keys) (by simp [missing])
  have hop : e.op = .getAll keyPrefix := by
    rcases hops e he with ⟨-, hop⟩ | ⟨hid', -⟩ | ⟨hid', -⟩
    · exact hop
    · rw [hid] at hid'
      exact absurd (congrArg Prod.fst hid') hxy
    · rw [hid] at hid'
      exact absurd (congrArg Prod.fst hid') hxy
  obtain ⟨L₁, L₂, rfl, hreturns⟩ := (listSpec mine).exists_split hL.legal he
  rw [hop, hret] at hreturns
  obtain ⟨keys', hkeys, -, hlisted⟩ := hreturns
  cases hkeys
  have hopsL₁ : ∀ d ∈ L₁, d ∈ L₁ ++ e :: L₂ := fun d hd => List.mem_append_left _ hd
  -- `b` has been put before, and so has `a`
  obtain ⟨d, hd, value', hput⟩ : ∃ d ∈ L₁, ∃ value', d.op = .put b value' :=
    exists_put ((hlisted b).1 hb).2.2
  have hdid : d.id = (y, 1) := by
    rcases hops d (hopsL₁ d hd) with ⟨-, hop'⟩ | ⟨-, hop'⟩ | ⟨hid', -⟩
    · rw [hput] at hop'
      cases hop'
    · rw [hput] at hop'
      cases hop'
      exact absurd rfl hab
    · exact hid'
  have hbefore : Before (Event.res (y, 0) (.done .Ok)) (Event.inv (y, 1) (.put b value))
      (missing x y keyPrefix a b value keys) := by
    simp [Before, missing, List.Sublist.cons]
  have hmem : (y, 1) ∈ L₁.map Entry.id := hdid ▸ List.mem_map_of_mem hd
  have horder := hL.realtime _ _ _ _ hbefore (by
    rw [List.map_append]
    exact List.mem_append_left _ hmem)
  have hnodup := hL.nodup
  rw [List.map_append] at horder hnodup
  obtain ⟨d', hd', hid'⟩ := List.mem_map.1 (horder.mem_left hnodup hmem)
  have hput' : d'.op = .put a value := by
    rcases hops d' (hopsL₁ d' hd') with ⟨hid'', -⟩ | ⟨-, hop'⟩ | ⟨hid'', -⟩
    · rw [hid'] at hid''
      exact absurd (congrArg Prod.fst hid'').symm hxy
    · exact hop'
    · rw [hid'] at hid''
      exact absurd (congrArg Prod.snd hid'') Nat.zero_ne_one
  have hdel : ∀ d ∈ L₁, d.op ≠ .delete a := by
    intro d hd heq
    rcases hops d (hopsL₁ d hd) with ⟨-, hop'⟩ | ⟨-, hop'⟩ | ⟨-, hop'⟩
    all_goals
      rw [heq] at hop'
      cases hop'
  exact ha ((hlisted a).2 ⟨hbegins, hmine, merged_ne_none hdel ⟨d', hd', value, hput'⟩⟩)

end Cluster

/-! ## A Put from its call to its return -/

namespace Session

variable {n : Nat} {i : Fin n} {key value : Bytes} {k : Nat}

/-- Between two calls. -/
def rest (k : Nat) : Session n := { init with calls := k }

/-- In a call that concerns the shard `i`. -/
def serving (k : Nat) (c : Command) (i : Fin n) (x : ProxyWorker n) (down : List Response) (l : Lane) :
    Session n :=
  ⟨k, some c, [], x, down, Function.update (fun _ => Lane.quiet) i l⟩

variable {c : Command} {x : ProxyWorker n} {down : List Response} {l : Lane}

@[simp] theorem serving_lane : (serving k c i x down l).lane i = l := by
  show Function.update (fun _ => Lane.quiet) i l i = l
  rw [Function.update_self]

@[simp] theorem serving_setLane (l' : Lane) :
    (serving k c i x down l).setLane i l' = serving k c i x down l' := by
  unfold setLane serving
  rw [Function.update_idem]

/-- What a worker does with a command. -/
theorem serving_worker (notFound : Bytes) (k : Nat) (c : Command) (i : Fin n) (x : ProxyWorker n)
    (db : Store) :
    ∃ t₁ t₂, (serving k c i x [] ⟨[c], .idle, []⟩).workerRead i = some t₁ ∧
      (t₁.lane i).worker = .got c ∧ t₁.workerExec notFound i db = some ((KvWorker.handle notFound db c).1, t₂) ∧
      t₂.workerSend i = some (serving k c i x []
        ⟨[], .idle, [(KvWorker.handle notFound db c).2.decoded]⟩) := by
  refine ⟨serving k c i x [] ⟨[], .got c, []⟩,
    serving k c i x [] ⟨[], .reply (KvWorker.handle notFound db c).2, []⟩, ?_, ?_, ?_, ?_⟩
  · simp [workerRead, Lane.read]
  · rw [serving_lane]
  · simp [workerExec, Lane.exec]
  · simp [workerSend, Lane.send]

/-- The command has been sent. -/
def calling (k : Nat) (c : Command) : Session n := { rest k with pending := some c, up := [c] }

theorem call_rest : (rest k : Session n).call c = some (calling k c) := rfl

/-- The proxy reads the Put and sends it to its shard. -/
theorem proxySteps_put (hroute : route n key = some i) :
    (calling k (.put key value) : Session n).ProxySteps
      (serving k (.put key value) i (.forward i) [] ⟨[.put key value], .idle, []⟩) := by
  have hread : (calling k (.put key value) : Session n).proxyStep =
      some (serving k (.put key value) i (.dispatch (.put key value) i) [] .quiet) := by
    simp only [proxyStep, calling, rest, init, serving, hroute, Function.update_eq_self]
    rfl
  refine .step () (.step () .init hread) ?_
  simp [proxyStep, serving, setLane, Lane.push, Lane.quiet]

/-- It passes the response on. -/
theorem proxySteps_response {r : Response} :
    (serving k c i (.forward i) [] ⟨[], .idle, [r]⟩).ProxySteps (serving k c i .idle [r] .quiet) := by
  have hread : (serving k c i (.forward i) [] ⟨[], .idle, [r]⟩).proxyStep =
      some (serving k c i (.relay r) [] .quiet) := by
    simp [proxyStep, serving, setLane, Lane.quiet]
  exact .step () (.step () .init hread) rfl

theorem result_put : (serving k (.put key value) i .idle [.put .Ok] .quiet).result =
    some (.put key value, .done .Ok, rest (k + 1)) := by
  simp [result, serving, Connection.finish, rest, init]

/-! ## A GetAll goes on -/

variable {s : Session n}

theorem exists_internal (h : s.proxyStep.isSome = true) : ∃ s', s.Internal s' := by
  obtain ⟨s', hs⟩ := Option.isSome_iff_exists.1 h
  exact ⟨s', .inl hs⟩

/-- What a shard that has been asked, or the proxy that waits for it, does next. -/
theorem Scans.goes {keyPrefix : Bytes} (h : s.Scans keyPrefix i) (notFound : Bytes) (db : Store)
    (hx : ∃ keys, s.proxy = .collect i.val keys) :
    (∃ s', s.Internal s') ∨ ∃ d s', s.workerExec notFound i db = some (d, s') := by
  obtain ⟨keys, hx⟩ := hx
  rcases h with hat | ⟨more, hat⟩
  · generalize hl : s.lane i = l at hat
    cases hat with
    | requested =>
      exact .inl ⟨_, .inr (.inl ⟨i, by rw [workerRead, hl]; rfl⟩)⟩
    | got => exact .inr ⟨_, _, by rw [workerExec, hl]; rfl⟩
  · generalize hl : s.lane i = l at hat
    generalize hr : Response.getAll .Ok more = r at hat
    cases hat with
    | reply => exact .inl ⟨_, .inr (.inr ⟨i, by rw [workerSend, hl]; rfl⟩)⟩
    | responded =>
      refine .inl (exists_internal ?_)
      unfold proxyStep
      rw [hx]
      simp only [i.isLt, dif_pos, Fin.eta, hl, ← hr]
      rfl

theorem Shape.goes (h : s.Shape .scanning) (notFound : Bytes) (db : Fin n → Store) :
    (∃ s', s.Internal s') ∨ (∃ i d s', s.workerExec notFound i (db i) = some (d, s')) ∨
      ∃ keyPrefix keys s', s.result = some (.getAll keyPrefix, .getAll .Ok keys, s') := by
  cases h with
  | scanRequested hp hu hx hd hl =>
    refine .inl (exists_internal ?_)
    unfold Session.proxyStep
    rw [hx, hu]
    rfl
  | @fanOut keyPrefix next hp hu hx hd hasked hl =>
    refine .inl (exists_internal ?_)
    unfold Session.proxyStep
    rw [hx]
    by_cases hnext : next < n
    · simp only [hnext, dif_pos, Option.isSome_some]
    · simp only [hnext, dif_neg, not_false_eq_true, Option.isSome_some]
  | @collect keyPrefix next keys hp hu hx hd hl hasked =>
    by_cases hnext : next < n
    · rcases (hasked ⟨next, hnext⟩ (Nat.le_refl _)).goes notFound (db ⟨next, hnext⟩) ⟨keys, hx⟩ with
        hgoes | ⟨d, s', hgoes⟩
      · exact .inl hgoes
      · exact .inr (.inl ⟨_, d, s', hgoes⟩)
    · refine .inl (exists_internal ?_)
      unfold Session.proxyStep
      rw [hx]
      simp only [hnext, dif_neg, not_false_eq_true, Option.isSome_some]
  | respond hp hu hx hd hl =>
    refine .inl (exists_internal ?_)
    unfold Session.proxyStep
    rw [hx]
    rfl
  | @scanned keyPrefix keys hp hu hx hd hl =>
    have hresult : s.result = some (.getAll keyPrefix, .getAll .Ok keys,
        { s with calls := s.calls + 1, pending := none, down := [] }) := by
      unfold Session.result
      rw [hp, hd]
      rfl
    exact .inr (.inr ⟨_, _, _, hresult⟩)

theorem Internal.works {s' : Session n} (h : s.Internal s') (notFound : Bytes) (db : Fin n → Store) :
    Works notFound (s, db) (s', db) := by
  rcases h with h | ⟨i, h⟩ | ⟨i, h⟩
  · exact .proxyStep h
  · exact .workerRead h
  · exact .workerSend h

/-- The first shard is asked. -/
theorem proxySteps_getAll {keyPrefix : Bytes} (hi : i.val = 0) :
    (calling k (.getAll keyPrefix) : Session n).ProxySteps
      (serving k (.getAll keyPrefix) i (.fanOut keyPrefix 1) [] ⟨[.getAll keyPrefix], .idle, []⟩) := by
  have hn : 0 < n := Nat.lt_of_le_of_lt (Nat.zero_le _) i.isLt
  obtain rfl : i = ⟨0, hn⟩ := Fin.ext hi
  have hread : (calling k (.getAll keyPrefix) : Session n).proxyStep =
      some { (rest k : Session n) with
        pending := some (.getAll keyPrefix), proxy := .fanOut keyPrefix 0 } := rfl
  refine .step () (.step () .init hread) ?_
  unfold proxyStep
  simp only [hn, dif_pos]
  rfl

/-- It has answered, and the others have not been asked. -/
abbrev firstAnswered (k : Nat) (keyPrefix : Bytes) (i : Fin n) (keys : List Bytes) : Session n :=
  serving k (.getAll keyPrefix) i (.fanOut keyPrefix 1) [] ⟨[], .idle, [.getAll .Ok keys]⟩

section

variable (k : Nat) (keyPrefix : Bytes) (i : Fin n) (keys : List Bytes)

theorem firstAnswered_lane (j : Fin n) :
    (j = i ∧ ((firstAnswered k keyPrefix i keys).lane j).At (.answered (.getAll .Ok keys))) ∨
      (j ≠ i ∧ ((firstAnswered k keyPrefix i keys).lane j).At .quiet) := by
  by_cases hj : j = i
  · subst hj
    left
    rw [serving_lane]
    exact ⟨rfl, .responded _⟩
  · right
    refine ⟨hj, ?_⟩
    show Lane.At (Function.update (fun _ => Lane.quiet) i _ j) _
    rw [Function.update_of_ne hj]
    exact .quiet

theorem firstAnswered_shape (hi : i.val = 0) : (firstAnswered k keyPrefix i keys).Shape .scanning := by
  refine .fanOut rfl rfl rfl rfl ?_ ?_
  · intro j hj
    rcases firstAnswered_lane k keyPrefix i keys j with ⟨-, hat⟩ | ⟨hne, -⟩
    · exact .inr ⟨keys, hat⟩
    · exact absurd (Fin.ext (by omega)) hne
  · intro j hj
    rcases firstAnswered_lane k keyPrefix i keys j with ⟨rfl, -⟩ | ⟨-, hat⟩
    · omega
    · exact hat

theorem firstAnswered_past (hi : i.val = 0) : (firstAnswered k keyPrefix i keys).Past i := by
  refine ⟨?_, ?_, fun hx => nomatch hx⟩
  · intro c hc
    rw [serving_lane] at hc
    cases hc
  · rintro _ _ ⟨⟩
    omega

/-- What is known of the answer of the first shard. -/
theorem firstAnswered_gathers {Q : Fin n → List Bytes → Prop} {R : Nat → List Bytes → Prop}
    (hkeys : Q i keys) : (firstAnswered k keyPrefix i keys).Gathers Q R := by
  refine ⟨?_, fun _ _ hx => (nomatch hx), fun _ hx => (nomatch hx), fun _ hd => (nomatch hd)⟩
  intro j keys' hj
  rcases firstAnswered_lane k keyPrefix i keys j with ⟨rfl, hat⟩ | ⟨-, hat⟩
  · cases hat.unique hj
    exact hkeys
  · cases hat.unique hj

end

end Session

namespace Cluster

variable {Cl : Type} [DecidableEq Cl] {n : Nat}

/-- The client `y` and its session go on alone, from `s` to a state in which the session is `u` and
the stores are `db`; `H` are the calls that start and return. -/
structure Goes (notFound : Bytes) (y : Cl) (s : Cluster Cl n) (H : List (CallEvent Cl))
    (s' : Cluster Cl n) (u : Session n) (db : Fin n → Store) : Prop where
  emits : Emits (step notFound) event s s' H
  session : s'.session y = u
  others : ∀ cl, cl ≠ y → s'.session cl = s.session cl
  stores : s'.db = db

variable {notFound : Bytes} {y : Cl} {s s' s'' : Cluster Cl n} {H K : List (CallEvent Cl)}
  {t u u' : Session n} {db db' : Fin n → Store}

namespace Goes

theorem trans (h : Goes notFound y s H s' u db) (h' : Goes notFound y s' K s'' u' db') :
    Goes notFound y s (H ++ K) s'' u' db' where
  emits := h.emits.trans h'.emits
  session := h'.session
  others cl hcl := (h'.others cl hcl).trans (h.others cl hcl)
  stores := h'.stores

/-- One session is set. -/
theorem of_emits {hist : List (CallEvent Cl)}
    (h : Emits (step notFound) event s { s.setSession y u with db, history := hist } H) :
    Goes notFound y s H { s.setSession y u with db, history := hist } u db where
  emits := h
  session := Function.update_self ..
  others _ hcl := Function.update_of_ne hcl ..
  stores := rfl

variable (notFound)

theorem of_step {a : Action Cl n} {hist : List (CallEvent Cl)}
    (h : step notFound s a = some { s.setSession y u with db, history := hist }) :
    ∃ s', Goes notFound y s (event s a) s' u db := by
  have hemits : Emits (step notFound) event s _ ([] ++ event s a) := .step a .init h
  rw [List.nil_append] at hemits
  exact ⟨_, of_emits hemits⟩

theorem call (hs : s.session y = t) {c : Command} (h : t.call c = some u) :
    ∃ s', Goes notFound y s [.inv (y, t.calls) c] s' u s.db := by
  subst hs
  have hstep : step notFound s (.call y c) = some { s.setSession y u with
      db := s.db, history := s.history ++ log c (.inv (y, (s.session y).calls) c) } := by
    show ((s.session y).call c).bind _ = _
    rw [h]
    rfl
  exact of_step notFound hstep

theorem result (hs : s.session y = t) {c : Command} {ret : CallResult}
    (h : t.result = some (c, ret, u)) :
    ∃ s', Goes notFound y s [.res (y, t.calls) ret] s' u s.db := by
  subst hs
  have hstep : step notFound s (.result y) = some { s.setSession y u with
      db := s.db, history := s.history ++ log c (.res (y, (s.session y).calls) ret) } := by
    show ((s.session y).result).bind _ = _
    rw [h]
    rfl
  obtain ⟨s', hgoes⟩ := of_step notFound hstep
  simp only [event, h] at hgoes
  exact ⟨s', hgoes⟩

theorem proxySteps (hs : s.session y = t) (h : t.ProxySteps u) :
    ∃ s', Goes notFound y s [] s' u s.db := by
  subst hs
  exact ⟨_, of_emits ((Cluster.proxySteps h).filterMap happens_calls)⟩

theorem worker (hs : s.session y = t) {i : Fin n} {d : Store} {c : Command} {t₁ t₂ : Session n}
    (hr : t.workerRead i = some t₁) (hc : (t₁.lane i).worker = .got c)
    (hx : t₁.workerExec notFound i (s.db i) = some (d, t₂))
    (hw : t₂.workerSend i = some u) :
    ∃ s', Goes notFound y s [] s' u (Function.update s.db i d) := by
  subst hs
  exact ⟨_, of_emits ((workerSteps hr hc hx hw).filterMap happens_calls)⟩

/-- **A client that is between two calls can put a key**, whatever the others are doing. -/
theorem put {k : Nat} (hs : s.session y = .rest k) {key : Bytes} (value : Bytes) {i : Fin n}
    (hroute : route n key = some i) :
    ∃ s', Goes notFound y s [.inv (y, k) (.put key value), .res (y, k) (.done .Ok)] s'
      (.rest (k + 1)) (Function.update s.db i ((s.db i).insert key value)) := by
  obtain ⟨s₁, h₁⟩ := call notFound hs (c := .put key value) Session.call_rest
  obtain ⟨s₂, h₂⟩ := proxySteps notFound h₁.session (Session.proxySteps_put hroute)
  obtain ⟨t₁, t₂, hr, hc, hx, hw⟩ :=
    Session.serving_worker notFound k (.put key value) i (.forward i) (s₂.db i)
  obtain ⟨s₃, h₃⟩ := worker notFound h₂.session hr hc hx hw
  obtain ⟨s₄, h₄⟩ := proxySteps notFound h₃.session Session.proxySteps_response
  obtain ⟨s₅, h₅⟩ := result notFound h₄.session Session.result_put
  have hgoes := (((h₁.trans h₂).trans h₃).trans h₄).trans h₅
  rw [h₄.stores, h₃.stores, h₂.stores, h₁.stores] at hgoes
  exact ⟨s₅, hgoes⟩

/-- A step of the session that nobody sees. -/
theorem internal (hs : s.session y = t) (h : t.Internal u) :
    ∃ s', Goes notFound y s [] s' u s.db := by
  subst hs
  have hmove : ∀ a, event s a = [] → step notFound s a = some (s.setSession y u) →
      ∃ s', Goes notFound y s [] s' u s.db := by
    intro a hevent hstep
    have hset : step notFound s a = some { s.setSession y u with
        db := s.db, history := s.history } := hstep
    obtain ⟨s', hgoes⟩ := of_step notFound hset
    rw [hevent] at hgoes
    exact ⟨s', hgoes⟩
  rcases h with h | ⟨i, h⟩ | ⟨i, h⟩
  · exact hmove (.proxyStep y) rfl (by show ((s.session y).proxyStep).bind _ = _; rw [h]; rfl)
  · exact hmove (.workerRead y i) rfl (by show ((s.session y).workerRead i).bind _ = _; rw [h]; rfl)
  · exact hmove (.workerSend y i) rfl (by show ((s.session y).workerSend i).bind _ = _; rw [h]; rfl)

/-- A shard scans. -/
theorem exec (hs : s.session y = t) {i : Fin n} {d : Store}
    (h : t.workerExec notFound i (s.db i) = some (d, u)) :
    ∃ s', Goes notFound y s [] s' u (Function.update s.db i d) := by
  subst hs
  have hstep : step notFound s (.workerExec y i) = some { s.setSession y u with
      db := Function.update s.db i d, history := s.history } := by
    show ((s.session y).workerExec notFound i (s.db i)).bind _ = _
    rw [h]
    rfl
  exact of_step notFound hstep

/-- **A GetAll that is under way can return**, whatever the others are doing; what is known of the
answers of the shards is known of what it returns. -/
theorem getAll {Q : Fin n → List Bytes → Prop} {R : Nat → List Bytes → Prop}
    (hj : Session.Joins Q R) {home : Fin n} {keyPrefix : Bytes} (db : Fin n → Store)
    (hscan : ∀ i, i ≠ home → Q i (collect keyPrefix (seek (db i) keyPrefix))) (r : Nat) :
    ∀ (s : Cluster Cl n) (t : Session n), t.rank = r → s.session y = t → s.db = db →
      t.Shape .scanning → t.pending = some (.getAll keyPrefix) → t.Past home → t.Gathers Q R →
      ∃ s' u keys, Goes notFound y s [.res (y, t.calls) (.getAll .Ok keys)] s' u db ∧ R n keys := by
  -- every step takes from the rank
  induction r using Nat.strong_induction_on with
  | _ r ih =>
    intro s t hr hs hdb hshape hp hpast hg
    rcases hshape.goes notFound db with ⟨u, hu⟩ | ⟨i, d, u, hu⟩ | ⟨_, keys, u, hu⟩
    · obtain ⟨hshape', hcalls⟩ := hu.shape hshape
      obtain ⟨hg', hp'⟩ := hu.gathers hshape hj hg
      obtain ⟨s₁, h₁⟩ := internal notFound hs hu
      obtain ⟨s', u', keys, hgoes, hkeys⟩ := ih u.rank (hr ▸ (hu.works notFound db).rank_lt) s₁ u rfl h₁.session
        (h₁.stores.trans hdb) hshape' (hp'.trans hp) (hu.past hshape hpast) hg'
      rw [hcalls] at hgoes
      exact ⟨s', u', keys, h₁.trans hgoes, hkeys⟩
    · have hne : i ≠ home := by
        rintro rfl
        rw [hpast.not_exec hshape] at hu
        cases hu
      obtain ⟨hcalls, ⟨_, _, hbefore, -⟩ | ⟨-, rfl, hshape'⟩⟩ := hshape.workerExec hu
      · cases hbefore
      obtain ⟨hg', hp'⟩ := hg.workerExec hshape hp (hscan i hne) hu
      have hpast' : u.Past home := hpast.workerExec hshape hu
      have hexec : t.workerExec notFound i (s.db i) = some (s.db i, u) := by rwa [hdb]
      obtain ⟨s₁, h₁⟩ := exec notFound hs hexec
      have hstores : s₁.db = db := by
        rw [h₁.stores, Function.update_eq_self, hdb]
      obtain ⟨s', u', keys, hgoes, hkeys⟩ := ih u.rank (hr ▸ (Session.Works.workerExec hexec).rank_lt) s₁ u
        rfl h₁.session hstores hshape' (hp'.trans hp) hpast' hg'
      rw [hcalls] at hgoes
      exact ⟨s', u', keys, h₁.trans hgoes, hkeys⟩
    · obtain ⟨s₁, h₁⟩ := result notFound hs hu
      rw [hdb] at h₁
      exact ⟨s₁, u, keys, h₁, hg.result hshape hu⟩

end Goes

/-! ## When a GetAll is atomic -/

/-- A GetAll that misses a key that was put before one it shows. -/
theorem exists_missing (hm : 3 ≤ (toInt32 n).natAbs) (notFound : Bytes) {x y : Cl} (hxy : x ≠ y) :
    ∃ s keys, Emits (step notFound) event (init fun _ => (∅ : Store) : Cluster Cl n) s
        (missing x y [116] (clientKey [116] 1) (clientKey [116] 2) [] keys) ∧
      clientKey [116] 1 ∉ keys ∧ clientKey [116] 2 ∈ keys := by
  obtain ⟨ia, hia, hra⟩ := route_clientKey hm (Nat.le_refl 1) (by decide)
  obtain ⟨ib, hib, hrb⟩ := route_clientKey hm (by decide) (Nat.le_refl 2)
  have hne : ib ≠ ia := fun heq => by
    rw [heq, hia] at hib
    cases hib
  have hab : clientKey [116] 1 ≠ clientKey [116] 2 := by decide +kernel
  have hbegins : [116] <+: clientKey [116] 2 := ⟨_, rfl⟩
  -- the GetAll is called, and the shard of the first key scans before the key is there
  obtain ⟨s₁, h₁⟩ := Goes.call notFound (s := init fun _ => (∅ : Store)) (y := x)
    (t := .rest 0) rfl (c := .getAll [116]) Session.call_rest
  obtain ⟨s₂, h₂⟩ := Goes.proxySteps notFound h₁.session (Session.proxySteps_getAll (i := ia) hia)
  obtain ⟨t₁, t₂, hr, hc, hx, hw⟩ :=
    Session.serving_worker notFound 0 (.getAll [116]) ia (.fanOut [116] 1) (s₂.db ia)
  obtain ⟨s₃, h₃⟩ := Goes.worker notFound h₂.session hr hc hx hw
  have hscan := (h₁.trans h₂).trans h₃
  -- both keys are put
  have hdb₃ : s₃.db = fun _ => ∅ := by
    rw [h₃.stores]
    show Function.update s₂.db ia (s₂.db ia) = _
    rw [Function.update_eq_self, h₂.stores, h₁.stores]
    rfl
  obtain ⟨s₄, h₄⟩ := Goes.put notFound (hscan.others y hxy.symm) [] hra
  obtain ⟨s₅, h₅⟩ := Goes.put notFound h₄.session [] hrb
  have hdb₅ : s₅.db = Function.update (Function.update (fun _ => (∅ : Store)) ia
      ((∅ : Store).insert (clientKey [116] 1) [])) ib ((∅ : Store).insert (clientKey [116] 2) []) := by
    rw [h₅.stores, h₄.stores, hdb₃, Function.update_of_ne hne]
  -- the GetAll goes on and returns
  let Q : Fin n → List Bytes → Prop := fun j keys =>
    clientKey [116] 1 ∉ keys ∧ (j = ib → clientKey [116] 2 ∈ keys)
  let R : Nat → List Bytes → Prop := fun next keys =>
    clientKey [116] 1 ∉ keys ∧ (ib.val < next → clientKey [116] 2 ∈ keys)
  have hj : Session.Joins Q R := by
    refine ⟨⟨List.not_mem_nil, fun h => absurd h (Nat.not_lt_zero _)⟩, ?_⟩
    intro j keys more hkeys hmore
    refine ⟨fun h => (List.mem_append.1 h).elim hkeys.1 hmore.1, fun hlt => List.mem_append.2 ?_⟩
    by_cases hj : j = ib
    · exact .inr (hmore.2 hj)
    · have hval : j.val ≠ ib.val := fun h => hj (Fin.ext h)
      exact .inl (hkeys.2 (by omega))
  have hscans : ∀ i, i ≠ ia → Q i (collect [116] (seek (s₅.db i) [116])) := by
    intro i hi
    rw [hdb₅]
    constructor
    · intro hmem
      have hdb := (mem_scan.1 hmem).1
      by_cases hib : i = ib
      · subst hib
        rw [Function.update_self] at hdb
        rcases Std.TreeMap.mem_insert.1 hdb with heq | hdb
        · exact hab (Std.LawfulEqOrd.eq_of_compare heq).symm
        · exact absurd hdb Std.TreeMap.not_mem_emptyc
      · rw [Function.update_of_ne hib, Function.update_of_ne hi] at hdb
        exact absurd hdb Std.TreeMap.not_mem_emptyc
    · rintro rfl
      rw [Function.update_self]
      exact mem_scan.2 ⟨Std.TreeMap.mem_insert_self, hbegins⟩
  have hkeys : Q ia (collect [116] (seek (s₂.db ia) [116])) := by
    refine ⟨fun hmem => ?_, fun heq => absurd heq hne.symm⟩
    have hdb := (mem_scan.1 hmem).1
    rw [h₂.stores, h₁.stores] at hdb
    exact absurd hdb Std.TreeMap.not_mem_emptyc
  have hsession := (h₄.trans h₅).others x hxy
  rw [hscan.session] at hsession
  obtain ⟨s', u, keys, hgoes, hmissed, hshown⟩ := Goes.getAll notFound hj s₅.db hscans _ s₅ _ rfl
    hsession rfl
    (Session.firstAnswered_shape 0 [116] ia _ hia) rfl (Session.firstAnswered_past 0 [116] ia _ hia)
    (Session.firstAnswered_gathers 0 [116] ia _ hkeys)
  exact ⟨s', keys, ((hscan.emits.trans h₄.emits).trans h₅.emits).trans hgoes.emits, hmissed,
    hshown ib.isLt⟩

/-- **When a GetAll is atomic.**  All calls together are linearizable as calls on one map that lists
its routed keys, in every run over shards without client keys, if and only if these are all on one
shard; where they are not, a GetAll may show a key and miss one that had been put before it. -/
theorem getAll_atomic_iff [Nontrivial Cl] (hn : 0 < n) (notFound : Bytes) :
    ((∀ db, NoKeys db → ∀ s H, Emits (step notFound) event (init db : Cluster Cl n) s H →
      Linearizable (listSpec (routed n)) (fun _ => none) (H.map (cutTo (routed n)))) ↔
    (toInt32 n).natAbs ≤ 2) ∧
    (3 ≤ (toInt32 n).natAbs → ∃ (x y : Cl) (a b : Bytes) (keys : List Bytes) (s : Cluster Cl n), x ≠ y ∧
      Emits (step notFound) event (init fun _ => ∅) s (missing x y [116] a b [] keys) ∧
      [116] <+: a ∧ routed n a = true ∧ a ∉ keys ∧ b ∈ keys) := by
  refine ⟨⟨?_, ?_⟩, ?_⟩
  · intro h
    by_contra hm
    obtain ⟨x, y, hxy⟩ := exists_pair_ne Cl
    have hm' : 3 ≤ (toInt32 n).natAbs := by omega
    obtain ⟨s, keys, hs, hmissed, hshown⟩ := exists_missing hm' notFound hxy
    obtain ⟨ia, -, hra⟩ := route_clientKey hm' (Nat.le_refl 1) (by decide)
    obtain ⟨ib, -, hrb⟩ := route_clientKey hm' (by decide) (Nat.le_refl 2)
    have hab : clientKey [116] 1 ≠ clientKey [116] 2 := by decide +kernel
    have hlinearizable : Linearizable (listSpec (routed n)) (fun _ => none) (missing x y [116]
        (clientKey [116] 1) (clientKey [116] 2) [] (keys.filter (routed n))) :=
      h _ (fun _ _ _ _ => rfl) s _ hs
    refine not_linearizable_missing hxy hab ⟨_, rfl⟩ ?_ ?_ ?_ hlinearizable
    · rw [routed, hra, Option.isSome_some]
    · exact fun hmem => hmissed (List.mem_filter.1 hmem).1
    · exact List.mem_filter.2 ⟨hshown, by rw [routed, hrb, Option.isSome_some]⟩
  · intro hm db hdb s H hs
    rw [routed_eq_onShard hm hn]
    obtain ⟨L, hL⟩ := exists_order hdb hs ⟨0, hn⟩
    exact ⟨L, hL.tracks⟩
  · intro hm
    obtain ⟨x, y, hxy⟩ := exists_pair_ne Cl
    obtain ⟨s, keys, hs, hmissed, hshown⟩ := exists_missing hm notFound hxy
    obtain ⟨ia, -, hra⟩ := route_clientKey hm (Nat.le_refl 1) (by decide)
    have hrouted : routed n (clientKey [116] 1) = true := by rw [routed, hra, Option.isSome_some]
    exact ⟨x, y, _, _, keys, s, hxy, hs, ⟨_, rfl⟩, hrouted, hmissed, hshown⟩

/-- With two shards a GetAll is atomic, with three it is not. -/
theorem getAll_atomic_two :
    (∀ db, NoKeys db → ∀ s H, Emits (step []) event (init db : Cluster Bool 2) s H →
      Linearizable (listSpec (routed 2)) (fun _ => none) (H.map (cutTo (routed 2)))) ∧
    (¬ ∀ db, NoKeys db → ∀ s H, Emits (step []) event (init db : Cluster Bool 3) s H →
      Linearizable (listSpec (routed 3)) (fun _ => none) (H.map (cutTo (routed 3)))) ∧
    ∃ (x y : Bool) (a b : Bytes) (keys : List Bytes) (s : Cluster Bool 3), x ≠ y ∧
      Emits (step []) event (init fun _ => ∅) s (missing x y [116] a b [] keys) ∧
      [116] <+: a ∧ routed 3 a = true ∧ a ∉ keys ∧ b ∈ keys :=
  ⟨(getAll_atomic_iff (by decide) []).1.2 (by decide),
    fun h => absurd ((getAll_atomic_iff (by decide) []).1.1 h) (by decide),
    (getAll_atomic_iff (by decide) []).2 (by decide)⟩

end Cluster

/-! ## The threads call by call -/

namespace ByteCluster

variable {Cl : Type} [DecidableEq Cl] {n : Nat} {e : ByteEnv}

/-- **What a GetAll shows of one shard is atomic**, whatever calls of `read` and `write` fail: all
calls are linearizable as calls on one map that lists the keys of the shard. -/
theorem shard_linearizable {db : Fin n → Store} (hdb : Cluster.NoKeys db) {as : List (Action Cl n)}
    {s : ByteCluster Cl n} (h : Machine.run (step e) (init db) as = some s)
    (hno : ¬ Meets (step e) (fun s a => ¬ Admits e s a) (init db) as) (home : Fin n) :
    Linearizable (listSpec (onShard home)) (fun _ => none)
      ((trace (step e) (event e) (init db) as).map (cutTo (onShard home))) := by
  obtain ⟨t, ht, -⟩ := exists_rel h hno
  have hcalls := ht.filterMap Cluster.happens_calls
  rw [trace_filterMap (happens_calls e)] at hcalls
  obtain ⟨L, hL⟩ := Cluster.exists_order hdb hcalls home
  exact ⟨L, hL.tracks⟩

/-- A client puts `t_1`, and another one lists it. -/
def putThenList : List (CallEvent Bool) :=
  [.inv (true, 0) (.put [116, 95, 49] [118]), .res (true, 0) (.done .Ok),
    .inv (false, 0) (.getAll [116]), .res (false, 0) (.getAll .Ok [[116, 95, 49]])]

theorem exists_putThenList : ∃ as s, Machine.run (step plainEnv) (init fun _ : Fin 2 => ∅) as = some s ∧
    ¬ Meets (step plainEnv) (fun s a => ¬ Admits plainEnv s a) (init fun _ => ∅) as ∧
    trace (step plainEnv) (event plainEnv) (init fun _ => ∅) as = putThenList := by
  have hroute : route 2 [116, 95, 49] = some 0 := by decide
  have hinit : Tracks plainEnv (fun _ : Bool => False) (fun _ : Fin 2 => ∅) (init fun _ => ∅)
      (Cluster.init fun _ => ∅) := ⟨.init, rel_init _⟩
  have allowed : ∀ {cl} {s : ByteCluster Bool 2} {as},
      ¬ Meets (step plainEnv) (fun s a => ¬ Own plainEnv cl s a) s as →
      ¬ Meets (step plainEnv) (fun s a => ¬ Admits plainEnv s a) s as :=
    fun hno hmeets => hno (hmeets.mono fun _ _ hbad hown => hbad hown.admits)
  -- the Put
  obtain ⟨as, s, t, ret, hanswer, hrun, hno, htrace, -, hdb, -, ht⟩ := exists_returned hinit id
    (not_not.2 rfl : ¬ Busy true _) (c := .put [116, 95, 49] [118])
    ⟨(fun hc => nomatch hc), fun key hkey => by cases hkey; exact ⟨0, hroute⟩,
      plainEnv_buildsCommand (by decide)⟩
    ⟨fun _ => put_built, fun _ heq => nomatch heq⟩
  rw [answer_of_route rfl hroute] at hanswer
  cases hanswer
  rw [served_of_route rfl hroute] at hdb
  -- the GetAll
  have hrest : (s.session false).client = .init := congrArg ByteSession.client
    (run_others Bool.false_ne_true hrun hno)
  have hidle : ¬ Busy false s := by
    unfold Busy
    rw [hrest]
    exact not_not.2 rfl
  have hadmits : Admits plainEnv s (.call false (.getAll [116])) := by
    refine ⟨?_, fun key hkey => (nomatch hkey), plainEnv_buildsCommand (by decide)⟩
    rw [hrest]
    exact fun hc => nomatch hc
  have hbuilds : Builds plainEnv s.db (.getAll [116]) := by
    rw [hdb]
    refine ⟨fun i => plainEnv_buildsResponse ?_, fun keyPrefix heq => plainEnv_buildsResponse ?_⟩
    · revert i
      decide
    · cases heq
      decide
  obtain ⟨as', s', t', ret, hanswer, hrun', hno', htrace', -⟩ := exists_returned ht id hidle hadmits hbuilds
  rw [hdb, answer_getAll] at hanswer
  refine ⟨_, s', run_append hrun hrun', not_meets_append (allowed hno) hrun (allowed hno'), ?_⟩
  rw [trace_append hrun, htrace, htrace', hrest]
  cases hanswer
  decide

theorem shard_linearizable_putThenList :
    ∃ as s, Machine.run (step plainEnv) (init fun _ : Fin 2 => ∅) as = some s ∧
      trace (step plainEnv) (event plainEnv) (init fun _ => ∅) as = putThenList ∧
      Linearizable (listSpec (onShard (0 : Fin 2))) (fun _ => none)
        (putThenList.map (cutTo (onShard (0 : Fin 2)))) := by
  obtain ⟨as, s, hs, hno, htrace⟩ := exists_putThenList
  have hlinearizable := shard_linearizable (fun _ _ _ _ => rfl) hs hno 0
  rw [htrace] at hlinearizable
  exact ⟨as, s, hs, htrace, hlinearizable⟩

end ByteCluster

end SqpKv
