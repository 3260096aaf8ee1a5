import SqpKv.Server.Addresses

/-!
# The whole start

`InitShardingConfig` is `GetShardId`, `ShakeHands` and `ResolveIpAddresses` on
all ranks.  The proxy receives from the ranks its table `id_to_rank` names, and
only rank 0 ever fills the table: with rank 0 as proxy everything fits, with
another proxy of three ranks or more it waits for a second message from rank 0
for ever (`startup_live_iff`).
-/

namespace SqpKv

open Wire Processes Machine Function

namespace ServerLauncher

variable {n : Nat}

/-- `n + 1` ranks in `InitShardingConfig`. -/
def startup (host : Fin (n + 1) → Host) (db : Fin (n + 1) → Option Store) :
    Net (n + 1) (Option Store) MpiMessage Abort Launched :=
  .calm (fun i => (init (n + 1) i).initShardingConfig (host i)) db

/-- `n + 1` ranks in `ResolveIpAddresses`. -/
def resolution (host : Fin (n + 1) → Host) (ls : Fin (n + 1) → ServerLauncher)
    (db : Fin (n + 1) → Option Store) :
    Net (n + 1) (Option Store) MpiMessage Abort (ServerLauncher × Status) :=
  .calm (fun i => (ls i).resolveIpAddresses (host i)) db

/-! ## What the proxy has resolved -/

section

variable {host : Fin (n + 1) → Host} {l : ServerLauncher} {root : Fin (n + 1)}

theorem resolved_success (h : Net.Covers root l.sources) :
    (resolved host l (host root)).success = if ∀ i ≠ root, (host i).address ≠ none then 1 else 0 := by
  have hiff : (∀ s ∈ l.others, (host (rankOf n (l.idToRank s))).address ≠ none) ↔
      ∀ i ≠ root, (host i).address ≠ none := by
    constructor
    · intro hall i hi
      obtain ⟨s, hs, heq⟩ := List.mem_map.1 ((h.2 i.val).2 ⟨fun heq => hi (Fin.ext heq), i.isLt⟩)
      have := hall s hs
      rwa [heq, rankOf_val] at this
    · intro hall s hs
      obtain ⟨hne, hlt⟩ := (h.2 _).1 (List.mem_map_of_mem hs)
      refine hall _ fun heq => hne ?_
      rw [← heq, rankOf_of_lt hlt]
  unfold resolved
  rw [(foldl_add _ _ _).1]
  simp only [hiff]

theorem resolved_ipAddresses : (resolved host l (host root)).ipAddresses = l.ipAddresses ++
    l.others.filterMap fun (s : Nat) => (host (rankOf n (l.idToRank s))).address :=
  (foldl_add _ _ _).2

end

/-! ## The statuses of the resolution -/

section

variable {host : Fin (n + 1) → Host} {db : Fin (n + 1) → Option Store}
  {ls : Fin (n + 1) → ServerLauncher} {root : Fin (n + 1)}

/-- The table that names the rank of each shard id covers the other ranks. -/
theorem covers_of_table (hsize : (ls root).worldSize = n + 1) (ids : Equiv.Perm (Fin (n + 1)))
    (hzero : ids root = 0) (htable : ∀ i ≠ root, (ls root).idToRank (ids i).val = i.val) :
    Net.Covers root (ls root).sources := by
  have hothers : (ls root).others = List.range' 1 n := by
    unfold others
    rw [hsize]
    rfl
  -- the rank of a shard id
  have hrank : ∀ s ∈ List.range' 1 n, ∃ i ≠ root, (ids i).val = s ∧
      (ls root).idToRank (s : Int) = i.val := by
    intro s hs
    obtain ⟨h0, hlt⟩ := mem_range'_val.1 hs
    obtain ⟨i, hi⟩ := ids.surjective ⟨s, hlt⟩
    have hval : (ids i).val = s := congrArg Fin.val hi
    have hne : i ≠ root := by
      rintro rfl
      rw [hzero] at hval
      exact h0 hval.symm
    refine ⟨i, hne, hval, ?_⟩
    rw [← hval]
    exact htable i hne
  unfold sources
  rw [hothers]
  refine Net.covers_of_nodup ?_ ?_ ?_
  · rw [List.length_map, List.length_range']
  · refine List.Nodup.map_on ?_ List.nodup_range'
    intro s hs s' hs' heq
    obtain ⟨i, -, hval, hi⟩ := hrank s hs
    obtain ⟨i', -, hval', hi'⟩ := hrank s' hs'
    have hii : i = i' := Fin.ext (by rw [← hi, ← hi', heq])
    rw [← hval, ← hval', hii]
  · intro r hr
    obtain ⟨s, hs, rfl⟩ := List.mem_map.1 hr
    obtain ⟨i, hne, -, hi⟩ := hrank s hs
    rw [hi]
    exact ⟨fun h => hne (Fin.ext h), i.isLt⟩

variable (host db) in
theorem reachable_resolution (hrank : ∀ i, (ls i).worldRank = i)
    (hproxy : ∀ i, (ls i).proxyRank = root.val) (hcovers : Net.Covers root (ls root).sources) :
    Reachable Net.step (resolution host ls db)
      (.calm (fun i => .done (result (host i) (ls i) (resolved host (ls root) (host root)).success
        (if i = root then (resolved host (ls root) (host root)).ipAddresses
          else (ls i).ipAddresses))) db) := by
  have h := reachable_resolveIpAddresses host db hrank hproxy hcovers fun _ => .done
  simp only [Proc.bind_done] at h
  exact h

/-- The status that `ResolveIpAddresses` returns does not depend on the proxy's own lookup. -/
theorem resolution_ok (hrank : ∀ i, (ls i).worldRank = i)
    (hproxy : ∀ i, (ls i).proxyRank = root.val) (hcovers : Net.Covers root (ls root).sources)
    {s : Net (n + 1) (Option Store) MpiMessage Abort (ServerLauncher × Status)}
    (hs : Reachable Net.step (resolution host ls db) s) {i : Fin (n + 1)}
    {r : ServerLauncher × Status} (hi : s.proc i = .done r) :
    r.2 = if ∀ j ≠ root, (host j).address ≠ none then .Ok else .Err (host i).errorText := by
  have hend := reachable_resolution host db hrank hproxy hcovers
  have hr := (Net.done_unique (Net.halted_of_returned fun i => ⟨_, rfl⟩) hend hs hi).1
  rw [← Proc.done.inj hr]
  show (if (resolved host (ls root) (host root)).success ≠ 0 then _ else _) = _
  rw [resolved_success hcovers]
  by_cases hall : ∀ j ≠ root, (host j).address ≠ none
  · rw [if_pos hall, if_pos hall, if_pos (by decide)]
  · rw [if_neg hall, if_neg hall, if_neg (by decide)]

end

/-- The status is Ok, in every rank that returns, iff every rank found its address. -/
def ReportsAll (host : Fin (n + 1) → Host) (ls : Fin (n + 1) → ServerLauncher)
    (db : Fin (n + 1) → Option Store) : Prop :=
  ∀ s, Reachable Net.step (resolution host ls db) s → ∀ i r, s.proc i = .done r →
    (r.2.ok = true ↔ ∀ j, (host j).address ≠ none)

/-- **When the resolution reports every failure.**  All ranks return, with one status, and the
failures it misses are those of the proxy alone. -/
theorem resolution_reports_iff (n : Nat) (host : Fin (n + 1) → Host)
    (ls : Fin (n + 1) → ServerLauncher) (db : Fin (n + 1) → Option Store) (root : Fin (n + 1))
    (hrank : ∀ i, (ls i).worldRank = i) (hsize : ∀ i, (ls i).worldSize = n + 1)
    (hproxy : ∀ i, (ls i).proxyRank = root.val) (ids : Equiv.Perm (Fin (n + 1)))
    (hzero : ids root = 0) (htable : ∀ i ≠ root, (ls root).idToRank (ids i).val = i.val) :
    (∀ s, Reachable Net.step (resolution host ls db) s →
      (∃ t, Reachable Net.step s t ∧ ∀ i, t.Returned i) ∧
        ∀ i j r r', s.proc i = .done r → s.proc j = .done r' → r.2.code = r'.2.code) ∧
    (ReportsAll host ls db ↔
      ((host root).address ≠ none ∨ ∃ i ≠ root, (host i).address = none)) := by
  have hcovers := covers_of_table (hsize root) ids hzero htable
  have hend := reachable_resolution host db hrank hproxy hcovers
  refine ⟨fun s hs => ⟨?_, ?_⟩, ?_⟩
  · exact ⟨_, Net.commutes.completes (Net.halted_of_returned fun i => ⟨_, rfl⟩) hend hs,
      fun i => ⟨_, rfl⟩⟩
  · intro i j r r' hi hj
    rw [resolution_ok hrank hproxy hcovers hs hi, resolution_ok hrank hproxy hcovers hs hj]
    split <;> rfl
  · by_cases hothers : ∀ j ≠ root, (host j).address ≠ none
    · have hok : ∀ s, Reachable Net.step (resolution host ls db) s → ∀ i r, s.proc i = .done r →
          r.2.ok = true := by
        intro s hs i r hi
        rw [resolution_ok hrank hproxy hcovers hs hi, if_pos hothers]
        rfl
      constructor
      · intro h
        exact .inl (((h _ hend root _ rfl).1 (hok _ hend root _ rfl)) root)
      · rintro (hroot | ⟨i, hi, hbad⟩) s hs i r hdone
        · refine ⟨fun _ j => ?_, fun _ => hok s hs i r hdone⟩
          by_cases hj : j = root
          · rw [hj]
            exact hroot
          · exact hothers j hj
        · exact absurd hbad (hothers _ hi)
    · constructor
      · intro _
        obtain ⟨i, hi⟩ := not_forall.1 hothers
        rw [Classical.not_imp, not_not] at hi
        exact .inr ⟨i, hi⟩
      · intro _ s hs i r hdone
        rw [resolution_ok hrank hproxy hcovers hs hdone, if_neg hothers]
        exact ⟨fun h => (Bool.false_ne_true h).elim, fun h => absurd (fun j _ => h j) hothers⟩

/-- A machine without an infiniband address. -/
def lostHost : Host := { upHost with interfaces := some [] }

/-- Members with which a rank comes to `ResolveIpAddresses` when the ids are the ranks. -/
def fresh (n : Nat) (i : Fin (n + 1)) : ServerLauncher :=
  { init (n + 1) i with shardId := i, proxyRank := 0, idToRank := Int.toNat }

/-- Three ranks on machines that all have an address. -/
theorem resolution_reports_up : ReportsAll (fun _ => upHost) (fresh 2) fun _ => none :=
  (resolution_reports_iff 2 (fun _ => upHost) (fresh 2) (fun _ => none) 0 (fun _ => rfl)
    (fun _ => rfl) (fun _ => rfl) (Equiv.refl _) rfl (fun _ _ => rfl)).2.2 (.inl (by decide))

/-- Two ranks of which the proxy has no address: both return Ok. -/
theorem resolution_misses_proxy :
    (lostHost.address = none) ∧
      ¬ ReportsAll (fun i : Fin 2 => if i = 0 then lostHost else upHost) (fresh 1) fun _ => none := by
  refine ⟨by decide, fun h => ?_⟩
  have hcovers : Net.Covers (0 : Fin 2) (fresh 1 0).sources :=
    covers_of_table rfl (Equiv.refl _) rfl fun _ _ => rfl
  have hrank : ∀ i, (fresh 1 i).worldRank = i := fun _ => rfl
  have hend := reachable_resolution (fun i : Fin 2 => if i = 0 then lostHost else upHost)
    (fun _ => none) hrank (fun _ => rfl) hcovers
  have hall := (h _ hend 0 _ rfl).1 (by
    rw [resolution_ok (fun _ => rfl) (fun _ => rfl) hcovers hend rfl, if_pos]
    · rfl
    · decide)
  exact hall 0 (by decide)

/-! ## From `GetShardId` to the end -/

/-- What `InitShardingConfig` makes of the result of `ResolveIpAddresses`. -/
def conclude (r : ServerLauncher × Status) : Rank Launched :=
  if r.2.ok = true then .done (.started r.1) else .done .exited

/-- `InitShardingConfig` behind `ShakeHands`. -/
def proceed (h : Host) (l : ServerLauncher) : Rank Launched :=
  if l.proxyRank = -1 then .done .exited else (l.resolveIpAddresses h).bind conclude

theorem startup_eq (host : Fin (n + 1) → Host) (db : Fin (n + 1) → Option Store) :
    startup host db = shaking host db fun i => proceed (host i) := rfl

theorem conclude_eq_done (r : ServerLauncher × Status) : ∃ a, conclude r = .done a := by
  unfold conclude
  split
  · exact ⟨_, rfl⟩
  · exact ⟨_, rfl⟩

theorem conclude_started {r : ServerLauncher × Status} {l : ServerLauncher}
    (h : conclude r = .done (.started l)) : r.2.ok = true ∧ r.1 = l := by
  unfold conclude at h
  by_cases hok : r.2.ok = true
  · rw [if_pos hok] at h
    exact ⟨hok, Launched.started.inj (Proc.done.inj h)⟩
  · rw [if_neg hok] at h
    cases h

section

variable {host : Fin (n + 1) → Host} {db : Fin (n + 1) → Option Store} {ids : Fin (n + 1) → Int}

/-- The end of all runs of a start whose ids are matched and saved. -/
theorem reachable_concluded (hload : ∀ i, loadShardId (host i) i (db i) = .ok (ids i))
    (hids : ∀ i, ids i ≠ -1) (hm : Matched ids) {root : Fin (n + 1)}
    (hroot : (gathered ids).proxyRank = root.val) (hput : ∀ j, (host j).putOk = true) :
    Net.Covers root (agreed host ids root).sources ∧
      Reachable Net.step (startup host db) (.calm (fun i => conclude (result (host i)
        (agreed host ids i) (resolved host (agreed host ids root) (host root)).success
        (if i = root then (resolved host (agreed host ids root) (host root)).ipAddresses
          else (agreed host ids i).ipAddresses))) fun i => stored (host i) i (db i)) := by
  have hproxy : ∀ i, (agreed host ids i).proxyRank = root.val := fun i => by
    rw [agreed_proxyRank hput, hroot]
  have hcovers : Net.Covers root (agreed host ids root).sources := (covers_informed hids hroot).2 hm
  have hproceed : ∀ i, proceed (host i) (agreed host ids i) =
      ((agreed host ids i).resolveIpAddresses (host i)).bind conclude := fun i =>
    if_neg (by
      rw [hproxy]
      omega)
  have hend := shaking_completes hload (fun i => proceed (host i)) hids hm
  simp only [hproceed] at hend
  rw [startup_eq]
  exact ⟨hcovers, hend.trans (reachable_resolveIpAddresses host (fun i => stored (host i) i (db i))
    agreed_worldRank hproxy hcovers fun _ => conclude)⟩

/-- The end of all runs of a start whose ids are matched, what a rank has that starts, and that all
start when nothing fails. -/
theorem startup_completes (hload : ∀ i, loadShardId (host i) i (db i) = .ok (ids i))
    (hids : ∀ i, ids i ≠ -1) (hm : Matched ids) {root : Fin (n + 1)}
    (hroot : (gathered ids).proxyRank = root.val) :
    ∃ t, Reachable Net.step (startup host db) t ∧ (∀ i, t.Returned i) ∧
      (t.mem = fun i => stored (host i) i (db i)) ∧
      (∀ i l, t.proc i = .done (.started l) → (∀ j, (host j).putOk = true) ∧
        (∀ j ≠ root, (host j).address ≠ none) ∧
        (i = root → l.ipAddresses = (resolved host (informed ids root) (host root)).ipAddresses)) ∧
      ((∀ j, (host j).putOk = true) → (∀ j ≠ root, (host j).address ≠ none) →
        ∀ i, ∃ l, t.proc i = .done (.started l)) := by
  by_cases hput : ∀ j, (host j).putOk = true
  · obtain ⟨hcovers, hend⟩ := reachable_concluded hload hids hm hroot hput
    refine ⟨_, hend, fun i => conclude_eq_done _, rfl, fun i l hl => ⟨hput, ?_⟩, fun _ hall i => ?_⟩
    · obtain ⟨hok, hl⟩ := conclude_started (show conclude _ = .done (.started l) from hl)
      have hsuccess : (resolved host (agreed host ids root) (host root)).success ≠ 0 := by
        intro h0
        rw [result, h0] at hok
        exact (Bool.false_ne_true hok).elim
      rw [resolved_success hcovers] at hsuccess
      refine ⟨by_contra fun hall => hsuccess (if_neg hall), ?_⟩
      rintro rfl
      rw [← hl]
      exact if_pos rfl
    · refine ⟨_, if_pos ?_⟩
      rw [resolved_success hcovers, if_pos hall]
      rfl
  · have hproceed : ∀ i, proceed (host i) (agreed host ids i) = .done .exited := fun i =>
      if_pos (if_neg hput)
    have hend := shaking_completes hload (fun i => proceed (host i)) hids hm
    simp only [hproceed] at hend
    rw [startup_eq]
    exact ⟨_, hend, fun i => ⟨_, rfl⟩, rfl, fun i l hl => (by cases hl), fun h => absurd h hput⟩

/-- A rank that has started has saved its number. -/
theorem started_stored (hload : ∀ i, loadShardId (host i) i (db i) = .ok (ids i))
    {s : Net (n + 1) (Option Store) MpiMessage Abort Launched}
    (hs : Reachable Net.step (startup host db) s) {i : Fin (n + 1)} {l : ServerLauncher}
    (hi : s.proc i = .done (.started l)) :
    ∃ d, db i = some d ∧ s.mem i = some (d.insert shardIdKey (decimal i)) := by
  by_cases hids : ∀ j, ids j ≠ -1
  · by_cases hm : Matched ids
    · obtain ⟨root, hroot⟩ := proxy_rank hids
      obtain ⟨t, ht, hreturned, hmem, hstarted, -⟩ := startup_completes hload hids hm hroot
      obtain ⟨hproc, hmem'⟩ := Net.done_unique (Net.halted_of_returned hreturned) ht hs hi
      obtain ⟨hput, -⟩ := hstarted i l hproc
      obtain ⟨d, hd⟩ := Option.ne_none_iff_exists'.1 (db_ne_none hload (hids i))
      refine ⟨d, hd, ?_⟩
      rw [← hmem', hmem]
      show stored (host i) i (db i) = _
      rw [stored, if_pos (hput i), hd]
      rfl
    · obtain ⟨t, ht, hhalted, hnone⟩ := shaking_stuck hload (fun i => proceed (host i)) hids hm
      exact absurd ⟨_, (Net.done_unique hhalted ht hs hi).1⟩ (hnone i)
  · obtain ⟨j, hj⟩ := not_forall.1 hids
    obtain ⟨hend, hproxy⟩ := shaking_fails hload (fun i => proceed (host i)) ⟨j, not_not.1 hj⟩
    have hexit : ∀ i, proceed (host i) (informed ids i) = .done .exited := fun i => if_pos hproxy
    simp only [hexit] at hend
    cases (Net.done_unique (Net.halted_of_returned fun i => ⟨_, rfl⟩) hend hs hi).1

end

/-! ## Shard ids that are a permutation -/

section

variable {host : Fin (n + 1) → Host} {db : Fin (n + 1) → Option Store}
  {ids : Equiv.Perm (Fin (n + 1))}

theorem matched_perm (ids : Equiv.Perm (Fin (n + 1))) :
    Matched (fun i => ((ids i).val : Int)) ↔ ids 0 = 0 ∨ n ≤ 1 := by
  have hzero : ids 0 = 0 → Matched (fun i => ((ids i).val : Int)) := by
    intro h0
    refine .inl fun s h1 hs => ?_
    obtain ⟨i, hi⟩ := ids.surjective ⟨s, by omega⟩
    refine ⟨i, ?_, by
      show ((ids i).val : Int) = s
      rw [hi]⟩
    rintro rfl
    rw [h0] at hi
    have : 0 = s := congrArg Fin.val hi
    omega
  constructor
  · rintro (h | ⟨rfl, -⟩)
    · by_cases h0 : ids 0 = 0
      · exact .inl h0
      · obtain ⟨i, hi, heq⟩ := h (ids 0).val (Nat.pos_of_ne_zero fun h => h0 (Fin.ext h))
          (Nat.lt_succ_iff.1 (ids 0).isLt)
        exact absurd (ids.injective (Fin.ext (Int.ofNat.inj heq))) hi
    · exact .inr (Nat.le_refl 1)
  · rintro (h0 | hn)
    · exact hzero h0
    · by_cases h0 : ids 0 = 0
      · exact hzero h0
      · -- two ranks, and the second holds the id 0
        obtain ⟨i, hi⟩ := ids.surjective 0
        have hi0 : i ≠ 0 := by
          rintro rfl
          exact h0 hi
        have hne : i.val ≠ 0 := fun h => hi0 (Fin.ext h)
        have hlt := i.isLt
        have hn1 : n = 1 := by omega
        subst hn1
        refine .inr ⟨rfl, ?_⟩
        rw [← show i = Fin.last 1 from Fin.ext (show i.val = 1 by omega)]
        show ((ids i).val : Int) = 0
        rw [hi]
        rfl

/-- In every reachable state all ranks have returned or some rank can take a step. -/
def NeverStuck (host : Fin (n + 1) → Host) (db : Fin (n + 1) → Option Store) : Prop :=
  ∀ s, Reachable Net.step (startup host db) s → s.Live

theorem startup_stuck (hload : ∀ i, loadShardId (host i) i (db i) = .ok ((ids i).val : Int))
    (hm : ¬ (ids 0 = 0 ∨ n ≤ 1)) : ¬ NeverStuck host db := by
  intro h
  obtain ⟨t, ht, hhalted, hnone⟩ := shaking_stuck hload (fun i => proceed (host i))
    (fun i => by omega) fun hmatched => hm ((matched_perm ids).1 hmatched)
  rcases h t (by rw [startup_eq]; exact ht) with hreturned | ⟨i, s, hs⟩
  · exact hnone 0 (hreturned 0)
  · rw [hhalted i] at hs
    cases hs

/-- **When the start cannot get stuck.** -/
theorem startup_live_iff (n : Nat) (host : Fin (n + 1) → Host) (db : Fin (n + 1) → Option Store)
    (ids : Equiv.Perm (Fin (n + 1)))
    (hload : ∀ i, loadShardId (host i) i (db i) = .ok ((ids i).val : Int)) :
    NeverStuck host db ↔ ids 0 = 0 ∨ n + 1 ≤ 2 := by
  have hids : ∀ i, ((ids i).val : Int) ≠ -1 := fun i => by omega
  rw [show n + 1 ≤ 2 ↔ n ≤ 1 by omega]
  constructor
  · intro h
    by_contra hm
    exact startup_stuck hload hm h
  · intro hm s hs
    obtain ⟨root, hroot⟩ := proxy_rank hids
    obtain ⟨t, ht, hreturned, -⟩ := startup_completes hload hids ((matched_perm ids).2 hm) hroot
    exact Net.live_of_returned hreturned ht hs

/-- A first start of three ranks. -/
theorem startup_live_fresh : NeverStuck (fun _ => upHost) fun i : Fin 3 => holding i.val :=
  (startup_live_iff 2 (fun _ => upHost) (fun i => holding i.val) (Equiv.refl _)
    fun i => loadShardId_holding i (by omega)).2 (.inl rfl)

/-- Three ranks with the shard ids 1, 0 and 2. -/
theorem startup_stuck_swapped :
    (∀ i : Fin 3, loadShardId upHost i (holding (Equiv.swap 0 1 i).val) =
      .ok ((Equiv.swap (0 : Fin 3) 1 i).val : Int)) ∧
    ¬ NeverStuck (fun _ => upHost) fun i : Fin 3 => holding (Equiv.swap 0 1 i).val := by
  have hload : ∀ i : Fin 3, loadShardId upHost i (holding (Equiv.swap 0 1 i).val) =
      .ok ((Equiv.swap (0 : Fin 3) 1 i).val : Int) := fun i => loadShardId_holding i (by omega)
  exact ⟨hload, startup_stuck hload (by decide)⟩

variable (host) in
/-- Where every rank in the table has an address, `ip_addresses_` lists them by shard id. -/
theorem resolved_table {l : ServerLauncher} (root : Fin (n + 1))
    (hothers : l.others = List.range' 1 n) (hnil : l.ipAddresses = [])
    (hall : ∀ s : Nat, s ∈ List.range' 1 n → (host (rankOf n (l.idToRank s))).address ≠ none) :
    (resolved host l (host root)).ipAddresses.length = n ∧ ∀ s : Nat, s ∈ List.range' 1 n →
      (resolved host l (host root)).ipAddresses[s - 1]? = (host (rankOf n (l.idToRank s))).address := by
  let g : Nat → Bytes := fun s => (host (rankOf n (l.idToRank s))).address.getD []
  have hentry : ∀ s : Nat, s ∈ List.range' 1 n →
      (host (rankOf n (l.idToRank s))).address = some (g s) := by
    intro s hs
    obtain ⟨a, ha⟩ := Option.ne_none_iff_exists'.1 (hall s hs)
    show _ = some ((host (rankOf n (l.idToRank s))).address.getD [])
    rw [ha]
    rfl
  have htable : (resolved host l (host root)).ipAddresses = (List.range' 1 n).map g := by
    rw [resolved_ipAddresses, hothers, hnil, List.nil_append]
    exact (List.filterMap_congr hentry).trans (congrFun List.filterMap_eq_map _)
  rw [htable]
  refine ⟨by rw [List.length_map, List.length_range'], fun s hs => ?_⟩
  obtain ⟨h0, hlt⟩ := mem_range'_val.1 hs
  rw [hentry s hs, List.getElem?_map, List.getElem?_range' (by omega), Option.map_some]
  congr 2
  omega

/-- **The address table follows the shard ids.** -/
theorem addresses_follow_ids (n : Nat) (host : Fin (n + 1) → Host)
    (db : Fin (n + 1) → Option Store) (ids : Equiv.Perm (Fin (n + 1))) (hzero : ids 0 = 0)
    (hload : ∀ i, loadShardId (host i) i (db i) = .ok ((ids i).val : Int))
    (s : Net (n + 1) (Option Store) MpiMessage Abort Launched)
    (hs : Reachable Net.step (startup host db) s) (l : ServerLauncher)
    (hl : s.proc 0 = .done (.started l)) :
    l.ipAddresses.length = n ∧ ∀ i ≠ 0, ∃ a, (host i).address = some a ∧
      l.ipAddresses[(ids i).val - 1]? = some a := by
  have hids : ∀ i, ((ids i).val : Int) ≠ -1 := fun i => by omega
  have hm := (matched_perm ids).2 (.inl hzero)
  have hcovers : ∀ s : Nat, 1 ≤ s → s ≤ n → ∃ i ≠ 0, ((ids i).val : Int) = s := by
    rcases hm with h | ⟨rfl, hlast⟩
    · exact h
    · have h0 : ids (Fin.last 1) = 0 := Fin.ext (Int.ofNat.inj hlast)
      rw [← hzero] at h0
      exact absurd (ids.injective h0) (by decide)
  have hroot := gathered_proxyRank_of_covers hids hcovers
  obtain ⟨t, ht, hreturned, -, hstarted, -⟩ := startup_completes hload hids hm
    (show (gathered _).proxyRank = ((0 : Fin (n + 1)).val : Int) from hroot)
  obtain ⟨-, hfound, haddresses⟩ := hstarted 0 l
    (Net.done_unique (Net.halted_of_returned hreturned) ht hs hl).1
  have hrank : ∀ s : Nat, s ∈ List.range' 1 n →
      ∃ i ≠ (0 : Fin (n + 1)), (informed (fun i => ((ids i).val : Int)) 0).idToRank s = i.val := by
    intro s hs
    obtain ⟨h0, hlt⟩ := mem_range'_val.1 hs
    rcases gathered_idToRank (fun i => ((ids i).val : Int)) s with ⟨-, hne⟩ | ⟨i, hi, -, heq⟩
    · obtain ⟨i, hi, heq⟩ := hcovers s (by omega) (by omega)
      exact absurd heq (hne i hi)
    · exact ⟨i, hi, heq⟩
  have hall : ∀ s : Nat, s ∈ List.range' 1 n → (host (rankOf n
      ((informed (fun i => ((ids i).val : Int)) 0).idToRank s))).address ≠ none := by
    intro s hs
    obtain ⟨i, hi, heq⟩ := hrank s hs
    rw [heq, rankOf_val]
    exact hfound i hi
  obtain ⟨hlength, hplace⟩ := resolved_table host 0 (others_informed 0) (informed_ipAddresses 0) hall
  rw [haddresses rfl]
  refine ⟨hlength, fun i hi => ?_⟩
  obtain ⟨s, h1, hn, hid, heq⟩ := rank_of_covers hcovers hi
  have hval : (ids i).val = s := Int.ofNat.inj hid
  obtain ⟨a, ha⟩ := Option.ne_none_iff_exists'.1 (hfound i hi)
  refine ⟨a, ha, ?_⟩
  rw [hval, hplace s (mem_range'_val.2 ⟨by omega, by omega⟩)]
  rw [show (informed (fun i => ((ids i).val : Int)) 0).idToRank s = i.val from heq, rankOf_val, ha]

/-- Three ranks of which the second and the third hold the shard ids 2 and 1. -/
theorem addresses_threeRanks :
    ∃ s l, Reachable Net.step (startup (fun _ => upHost)
      fun i : Fin 3 => holding (Equiv.swap 1 2 i).val) s ∧ s.proc 0 = .done (.started l) ∧
        l.ipAddresses.length = 2 := by
  have hload : ∀ i : Fin 3, loadShardId upHost i (holding (Equiv.swap 1 2 i).val) =
      .ok ((Equiv.swap (1 : Fin 3) 2 i).val : Int) := fun i => loadShardId_holding i (by omega)
  have hids : ∀ i : Fin 3, ((Equiv.swap (1 : Fin 3) 2 i).val : Int) ≠ -1 := fun i => by omega
  obtain ⟨root, hroot⟩ := proxy_rank hids
  obtain ⟨t, ht, -, -, -, hall⟩ := startup_completes hload hids
    ((matched_perm (Equiv.swap (1 : Fin 3) 2)).2 (.inl (by decide))) hroot
  obtain ⟨l, hl⟩ := hall (fun _ => rfl) (fun _ _ => by decide) 0
  exact ⟨t, l, ht, hl, (addresses_follow_ids 2 (fun _ => upHost)
    (fun i => holding (Equiv.swap 1 2 i).val) (Equiv.swap 1 2) (by decide) hload t ht l hl).1⟩

end

end ServerLauncher

end SqpKv
