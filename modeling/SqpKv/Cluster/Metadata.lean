import SqpKv.Cluster.Steps
import SqpKv.Server.Startup

/-!
# The launcher's entry among the keys of the clients

`ServerLauncher` saves the shard id in the RocksDB that holds the keys of the
clients.  The proxy routes `shard_id` to no shard, so no client puts or deletes
it; but a GetAll of one of its prefixes finds it on every shard.

    a GetAll returns nothing but what clients have put
      iff  its prefix is none of "shard_id", there is no shard,
           or a client has asked to put "shard_id"            (getAll_clean_iff)
-/

namespace SqpKv

open Wire Machine Processes

/-- What a database holds before the servers start: keys that clients have put, and the number of a
rank where a launcher has been before. -/
structure Kept (earlier : Bytes → Prop) (db : Store) : Prop where
  keys : ∀ key ∈ db, key = shardIdKey ∨ earlier key
  number : ∀ value, db[shardIdKey]? = some value → ∃ rank < 2 ^ 31, value = decimal rank

theorem Kept.exists_load {earlier : Bytes → Prop} {disk : Option Store}
    (h : ∀ db, disk = some db → Kept earlier db) (host : Host) (rank : Nat) :
    ∃ id, loadShardId host rank disk = .ok id := by
  cases disk with
  | none => exact ⟨-1, rfl⟩
  | some db =>
    unfold loadShardId
    dsimp only
    split
    · exact ⟨-1, rfl⟩
    · split
      · exact ⟨rank, rfl⟩
      · next value hvalue =>
        obtain ⟨v, hv, rfl⟩ := (h db rfl).number value hvalue
        exact ⟨v, stoi_decimal hv⟩

/-- The proxy has no shard for the launcher's key. -/
theorem route_shardIdKey (n : Nat) : route n shardIdKey = none := by
  have h : extractKey (.of shardIdKey) = .error .invalidArgument := by decide
  unfold route shardIndex getShardId
  rw [h]
  rfl

namespace Cluster

variable {Cl : Type} {n : Nat} {notFound : Bytes} {earlier : Bytes → Prop}

/-- A client has put the key: before this start, or with a call of this run.  A Put counts from its
request on, also when the proxy can route it nowhere. -/
def HasPut (earlier : Bytes → Prop) (hist : List (CallEvent Cl)) (key : Bytes) : Prop :=
  earlier key ∨ ∃ id value, .inv id (.put key value) ∈ hist

theorem HasPut.mono {hist hist' : List (CallEvent Cl)} (hsub : hist ⊆ hist') {key : Bytes}
    (h : HasPut earlier hist key) : HasPut earlier hist' key :=
  h.imp_right fun ⟨id, value, hmem⟩ => ⟨id, value, hsub hmem⟩

section

variable (earlier : Bytes → Prop) (hist : List (CallEvent Cl)) (keyPrefix : Bytes)

/-- Keys that a scan can find. -/
def Findable (keys : List Bytes) : Prop :=
  ∀ key ∈ keys, keyPrefix <+: key ∧ (key = shardIdKey ∨ HasPut earlier hist key)

/-- What the answer of one shard is like. -/
def FoundOn (_ : Fin n) (keys : List Bytes) : Prop :=
  Findable earlier hist keyPrefix keys ∧ (keyPrefix <+: shardIdKey → shardIdKey ∈ keys)

/-- What the keys of the first `next` shards are like. -/
def FoundUpTo (next : Nat) (keys : List Bytes) : Prop :=
  Findable earlier hist keyPrefix keys ∧ (next = 0 → keys = []) ∧
    (keyPrefix <+: shardIdKey → 0 < next → shardIdKey ∈ keys)

theorem joins_found : Session.Joins (n := n) (FoundOn earlier hist keyPrefix)
    (FoundUpTo earlier hist keyPrefix) where
  nil := ⟨fun _ hk => (nomatch hk), fun _ => rfl, fun _ h => absurd h (Nat.lt_irrefl 0)⟩
  append j keys more hkeys hmore := by
    refine ⟨fun key hk => ?_, fun h => (nomatch h), fun hp _ => ?_⟩
    · rcases List.mem_append.1 hk with hk | hk
      · exact hkeys.1 key hk
      · exact hmore.1 key hk
    · exact List.mem_append_right _ (hmore.2 hp)

end

theorem Findable.mono {hist hist' : List (CallEvent Cl)} (hsub : hist ⊆ hist') {keyPrefix : Bytes}
    {keys : List Bytes} (h : Findable earlier hist keyPrefix keys) :
    Findable earlier hist' keyPrefix keys :=
  fun key hk => ⟨(h key hk).1, (h key hk).2.imp_right (HasPut.mono hsub)⟩

/-- Where the call of a session is, and what a Put or a GetAll carries there. -/
def Carries (earlier : Bytes → Prop) (hist : List (CallEvent Cl)) (t : Session n) : Prop :=
  ∃ st, t.Shape st ∧
    (∀ key value, st = .before (.put key value) → HasPut earlier hist key) ∧
    (st = .scanning → ∀ keyPrefix, t.pending = some (.getAll keyPrefix) →
      t.Gathers (FoundOn earlier hist keyPrefix) (FoundUpTo earlier hist keyPrefix))

section

variable {hist hist' : List (CallEvent Cl)} {t t' : Session n}

theorem Carries.mono (hsub : hist ⊆ hist') (h : Carries earlier hist t) :
    Carries earlier hist' t := by
  obtain ⟨st, hst, hput, hscan⟩ := h
  refine ⟨st, hst, fun key value hc => (hput key value hc).mono hsub, fun hs keyPrefix hp => ?_⟩
  exact (hscan hs keyPrefix hp).mono (fun _ _ h => ⟨h.1.mono hsub, h.2⟩)
    fun _ _ h => ⟨h.1.mono hsub, h.2⟩

/-- A step within the call. -/
theorem Carries.keep (h : Carries earlier hist t)
    (hshape : ∀ st, t.Shape st → t'.Shape st ∧ t'.calls = t.calls)
    (hgathers : ∀ {Q R}, Session.Joins Q R → t.Shape .scanning → t.Gathers Q R →
      t'.Gathers Q R ∧ t'.pending = t.pending) : Carries earlier hist t' := by
  obtain ⟨st, hst, hput, hscan⟩ := h
  refine ⟨st, (hshape st hst).1, hput, ?_⟩
  rintro rfl keyPrefix hp
  obtain ⟨keyPrefix', hp'⟩ := hst.pending_getAll
  obtain ⟨hg, hpending⟩ := hgathers (joins_found earlier hist keyPrefix') hst (hscan rfl _ hp')
  rw [hpending, hp'] at hp
  cases hp
  exact hg

theorem Carries.sessionStep {cl : Cl} {E : List (CallEvent Cl)} (h : Carries earlier hist t)
    (hs : SessionStep cl t t' E) : Carries earlier (hist ++ E) t' := by
  cases hs with
  | @call c _ hc =>
    obtain ⟨st, hst, -⟩ := h
    rcases (hst.call hc).2.2 with ⟨key, hkey, hst'⟩ | ⟨-, hst'⟩
    · refine ⟨_, hst', ?_, fun h => (nomatch h)⟩
      rintro key' value ⟨⟩
      rw [log_of_key hkey]
      exact .inr ⟨_, value, List.mem_append_right _ List.mem_cons_self⟩
    · exact ⟨_, hst', fun _ _ h => (nomatch h), fun _ _ _ => .call hst hc⟩
  | result hr =>
    obtain ⟨st, hst, -⟩ := h
    exact ⟨_, (hst.result hr).2.1, fun _ _ h => (nomatch h), fun h => (nomatch h)⟩
  | proxyStep hp =>
    rw [List.append_nil]
    exact h.keep (fun st hst => hst.proxyStep hp) fun hj hst hg => hg.proxyStep hj hst hp
  | workerRead hr =>
    rw [List.append_nil]
    exact h.keep (fun st hst => hst.workerRead hr) fun _ hst hg => hg.workerRead hst hr
  | workerSend hw =>
    rw [List.append_nil]
    exact h.keep (fun st hst => hst.workerSend hw) fun _ hst hg => hg.workerSend hst hw

end

/-- Every shard has the launcher's entry as it was, and apart from it only keys that clients have
put. -/
structure Marked (earlier : Bytes → Prop) (value : Fin n → Bytes) (s : Cluster Cl n) : Prop where
  entry : ∀ i, (s.db i)[shardIdKey]? = some (value i)
  keys : ∀ i, ∀ key ∈ s.db i, key = shardIdKey ∨ HasPut earlier s.history key
  carries : ∀ cl, Carries earlier s.history (s.session cl)

theorem Marked.init {db : Fin n → Store} {value : Fin n → Bytes}
    (hentry : ∀ i, (db i)[shardIdKey]? = some (value i))
    (hkeys : ∀ i, ∀ key ∈ db i, key = shardIdKey ∨ earlier key) :
    Marked earlier value (init db : Cluster Cl n) where
  entry := hentry
  keys i key hk := (hkeys i key hk).imp_right .inl
  carries _ := ⟨_, Session.init_shape, fun _ _ h => (nomatch h), fun h => (nomatch h)⟩

section

variable {value : Fin n → Bytes} {s s' : Cluster Cl n}

theorem Marked.mem (h : Marked earlier value s) (i : Fin n) : shardIdKey ∈ s.db i := by
  rw [Std.TreeMap.mem_iff_isSome_getElem?, h.entry i]
  rfl

/-- A worker calls RocksDB. -/
theorem Marked.exec (h : Marked earlier value s) {cl : Cl} {i : Fin n} {db : Store} {t : Session n}
    (hs : (s.session cl).workerExec notFound i (s.db i) = some (db, t)) :
    db[shardIdKey]? = some (value i) ∧
      (∀ key ∈ db, key = shardIdKey ∨ HasPut earlier s.history key) ∧
      Carries earlier s.history t := by
  obtain ⟨st, hst, hput, hscan⟩ := h.carries cl
  obtain ⟨-, ⟨c, key, rfl, hc, hroute, rfl, hst'⟩ | ⟨rfl, rfl, hst'⟩⟩ := hst.workerExec hs
  · have hne : shardIdKey ≠ key := by
      rintro rfl
      rw [route_shardIdKey] at hroute
      cases hroute
    obtain ⟨-, -, hother⟩ := KvWorker.handle_refines notFound (m := fun k => (s.db i)[k]?) hc rfl
    refine ⟨(hother _ hne).1.trans (h.entry i), fun k hk => ?_, _, hst', fun _ _ h => (nomatch h),
      fun h => (nomatch h)⟩
    rcases KvWorker.mem_handle hk with hk | ⟨v, rfl⟩
    · exact h.keys i k hk
    · exact .inr (hput k v rfl)
  · refine ⟨h.entry i, h.keys i, _, hst', fun _ _ h => (nomatch h), fun _ keyPrefix hp => ?_⟩
    obtain ⟨keyPrefix', hp'⟩ := hst.pending_getAll
    have hfound : FoundOn earlier s.history keyPrefix' i
        (collect keyPrefix' (seek (s.db i) keyPrefix')) := by
      refine ⟨fun key hk => ?_, fun hstarts => mem_scan.2 ⟨h.mem i, hstarts⟩⟩
      obtain ⟨hmem, hstarts⟩ := mem_scan.1 hk
      exact ⟨hstarts, h.keys i key hmem⟩
    obtain ⟨hg, hpending⟩ := (hscan rfl _ hp').workerExec hst hp' hfound hs
    rw [hpending, hp'] at hp
    cases hp
    exact hg

theorem Marked.step [DecidableEq Cl] (h : Marked earlier value s) {a : Action Cl n}
    (hs : step notFound s a = some s') : Marked earlier value s' := by
  rcases step_cases hs with ⟨cl, t, E, ht, rfl⟩ | ⟨cl, i, db, t, ht, rfl⟩
  · have hsub : s.history ⊆ s.history ++ E := List.subset_append_left _ _
    refine ⟨h.entry, fun i key hk => (h.keys i key hk).imp_right (.mono hsub), ?_⟩
    exact forall_session (P := fun _ t => Carries earlier (s.history ++ E) t)
      (fun cl => (h.carries cl).mono hsub) ((h.carries cl).sessionStep ht)
  · obtain ⟨hentry, hkeys, hcarries⟩ := h.exec ht
    refine ⟨?_, ?_, forall_session (P := fun _ t => Carries earlier s.history t) h.carries hcarries⟩
    · exact (Function.forall_update_iff s.db fun i db => db[shardIdKey]? = some (value i)).2
        ⟨hentry, fun j _ => h.entry j⟩
    · exact (Function.forall_update_iff s.db fun _ db =>
        ∀ key ∈ db, key = shardIdKey ∨ HasPut earlier s.history key).2 ⟨hkeys, fun j _ => h.keys j⟩

end

/-! ## Behind the launcher -/

/-- The stores are databases of ranks that have started. -/
def Serves {m : Nat} (L : Net (m + 1) (Option Store) MpiMessage Abort ServerLauncher.Launched)
    (db : Fin n → Store) : Prop :=
  ∀ k, ∃ i l, L.proc i = .done (.started l) ∧ L.mem i = some (db k)

section

variable {m : Nat} {host : Fin (m + 1) → Host} {disk : Fin (m + 1) → Option Store}
  {L : Net (m + 1) (Option Store) MpiMessage Abort ServerLauncher.Launched} {db : Fin n → Store}
  [DecidableEq Cl] {s : Cluster Cl n}

/-- **The launcher's entry stays**, next to the keys that clients have put. -/
theorem exists_marked (hdisk : ∀ i d, disk i = some d → Kept earlier d)
    (hL : Reachable Net.step (ServerLauncher.startup host disk) L) (hdb : Serves L db)
    (hs : Reachable (step notFound) (init db) s) :
    ∃ value : Fin n → Bytes, (∀ k, ∃ rank : Fin (m + 1), value k = decimal rank) ∧
      Marked earlier value s := by
  have hload : ∀ i : Fin (m + 1), ∃ id, loadShardId (host i) i (disk i) = .ok id := fun i =>
    Kept.exists_load (hdisk i) (host i) i
  choose ids hload using hload
  choose rank l hproc hmem using hdb
  have hstored : ∀ k, ∃ d, disk (rank k) = some d ∧ db k = d.insert shardIdKey (decimal (rank k)) := by
    intro k
    obtain ⟨d, hd, hmem'⟩ := ServerLauncher.started_stored hload hL (hproc k)
    rw [hmem k] at hmem'
    exact ⟨d, hd, Option.some.inj hmem'⟩
  refine ⟨fun k => decimal (rank k), fun k => ⟨rank k, rfl⟩, ?_⟩
  refine hs.invariant (.init (fun k => ?_) fun k key hk => ?_) fun _ _ _ h hs => h.step hs
  · obtain ⟨d, -, heq⟩ := hstored k
    rw [heq, Std.TreeMap.getElem?_insert_self]
  · obtain ⟨d, hd, heq⟩ := hstored k
    rw [heq] at hk
    rcases Std.TreeMap.mem_insert.1 hk with hkey | hk
    · exact .inl (Std.LawfulEqOrd.eq_of_compare hkey).symm
    · exact (hdisk _ d hd).keys key hk

/-- What the servers leave is what a next start can find. -/
theorem kept_after (hm : m < 2 ^ 31) (hdisk : ∀ i d, disk i = some d → Kept earlier d)
    (hL : Reachable Net.step (ServerLauncher.startup host disk) L) (hdb : Serves L db)
    (hs : Reachable (step notFound) (init db) s) (i : Fin n) :
    Kept (HasPut earlier s.history) (s.db i) := by
  obtain ⟨value, hvalue, hmarked⟩ := exists_marked hdisk hL hdb hs
  refine ⟨hmarked.keys i, fun v hv => ?_⟩
  rw [hmarked.entry i] at hv
  cases hv
  obtain ⟨rank, hrank⟩ := hvalue i
  exact ⟨rank, by omega, hrank⟩

/-- **When a GetAll hides the launcher's entry.** -/
theorem getAll_clean_iff (hdisk : ∀ i d, disk i = some d → Kept earlier d)
    (hL : Reachable Net.step (ServerLauncher.startup host disk) L) (hdb : Serves L db)
    (hs : Reachable (step notFound) (init db) s) {cl : Cl} {t : Session n} {keyPrefix : Bytes}
    {status : Status} {keys : List Bytes}
    (hres : (s.session cl).result = some (.getAll keyPrefix, .getAll status keys, t)) :
    (∀ key ∈ keys, HasPut earlier s.history key) ↔
      (keyPrefix <+: shardIdKey → 0 < n → HasPut earlier s.history shardIdKey) := by
  obtain ⟨value, -, hmarked⟩ := exists_marked hdisk hL hdb hs
  have hfound : FoundUpTo earlier s.history keyPrefix n keys := by
    obtain ⟨st, hst, -, hscan⟩ := hmarked.carries cl
    rcases (hst.result hres).2.2 with ⟨_, _, -, hkey, -⟩ | ⟨rfl, -⟩
    · cases hkey
    · exact (hscan rfl keyPrefix (Session.pending_of_result hres)).result hst hres
  obtain ⟨hkeys, hnone, hentry⟩ := hfound
  constructor
  · intro h hp hn
    exact h _ (hentry hp hn)
  · intro h key hk
    obtain ⟨hp, rfl | hput⟩ := hkeys key hk
    · refine h hp (Nat.pos_of_ne_zero fun h0 => ?_)
      rw [hnone h0] at hk
      cases hk
    · exact hput

end

/-- The database of a rank of a first start, once it has started. -/
def marked (k : Fin n) : Store := (∅ : Store).insert shardIdKey (decimal (k.val + 1))

/-- A first start of ranks whose machines are all up. -/
theorem exists_start (n : Nat) :
    ∃ L, Reachable Net.step (ServerLauncher.startup (fun _ => ServerLauncher.upHost)
      fun _ : Fin (n + 1) => some ∅) L ∧ Serves L (marked (n := n)) := by
  have hload : ∀ i : Fin (n + 1), loadShardId ServerLauncher.upHost i (some ∅) =
      .ok ((Equiv.refl (Fin (n + 1)) i).val : Int) := fun i => rfl
  have hids : ∀ i : Fin (n + 1), ((Equiv.refl (Fin (n + 1)) i).val : Int) ≠ -1 := fun i => by omega
  obtain ⟨root, hroot⟩ := ServerLauncher.proxy_rank hids
  obtain ⟨L, hL, -, hmem, -, hall⟩ := ServerLauncher.startup_completes hload hids
    ((ServerLauncher.matched_perm (Equiv.refl _)).2 (.inl rfl)) hroot
  refine ⟨L, hL, fun k => ?_⟩
  obtain ⟨l, hl⟩ := hall (fun _ => rfl) (fun _ _ => by decide) k.succ
  exact ⟨k.succ, l, hl, by rw [hmem]; rfl⟩

/-- A client asks two shards for all keys with a prefix. -/
def scanTwo (keyPrefix : Bytes) (i j : Fin n) : List (Action Unit n) :=
  [.call () (.getAll keyPrefix), .proxyStep (), .proxyStep (), .proxyStep (),
   .proxyStep (), .workerRead () i, .workerExec () i, .workerSend () i,
   .workerRead () j, .workerExec () j, .workerSend () j,
   .proxyStep (), .proxyStep (), .proxyStep (), .proxyStep ()]

/-- A client asks for all keys of a table `shard`, that nobody has ever put a key in: the second
and the third rank both answer with the launcher's key. -/
theorem getAll_shows_shardId :
    ∃ L, ∃ s : Cluster Unit 2, ∃ t,
      Reachable Net.step (ServerLauncher.startup (fun _ => ServerLauncher.upHost)
        fun _ : Fin 3 => some ∅) L ∧ Serves L (marked (n := 2)) ∧
      Machine.run (step []) (init marked) (scanTwo [115, 104, 97, 114, 100, 95] 0 1) = some s ∧
      (s.session ()).result = some (.getAll [115, 104, 97, 114, 100, 95],
        .getAll .Ok [shardIdKey, shardIdKey], t) ∧
      ¬ ∀ key ∈ [shardIdKey, shardIdKey], HasPut (fun _ => False) s.history key := by
  obtain ⟨L, hL, hdb⟩ := exists_start 2
  have hrun : (Machine.run (step []) (init marked) (scanTwo [115, 104, 97, 114, 100, 95] 0 1)).map
      (fun s : Cluster Unit 2 =>
      ((s.session ()).result.map fun r => (r.1, r.2.1), s.history)) =
      some (some (.getAll [115, 104, 97, 114, 100, 95], .getAll .Ok [shardIdKey, shardIdKey]), []) := by
    decide +kernel
  obtain ⟨s, hs, heq⟩ := Option.map_eq_some_iff.1 hrun
  rw [Prod.mk.injEq] at heq
  obtain ⟨hres, hhist⟩ := heq
  obtain ⟨⟨c, ret, t⟩, hres, heq⟩ := Option.map_eq_some_iff.1 hres
  cases heq
  refine ⟨L, s, t, hL, hdb, hs, hres, fun h => ?_⟩
  rcases h shardIdKey List.mem_cons_self with hfalse | ⟨id, value, hmem⟩
  · exact hfalse
  · rw [hhist] at hmem
    cases hmem

/-- A client puts a key that goes to the shard `i`. -/
def putAt (key value : Bytes) (i : Fin n) : List (Action Unit n) :=
  [.call () (.put key value), .proxyStep (), .proxyStep (),
   .workerRead () i, .workerExec () i, .workerSend () i, .proxyStep (), .proxyStep (), .result ()]

/-- A client puts `t_1` and asks for all keys that begin with `t`. -/
theorem getAll_clean_putAndScan :
    ∃ s t, Machine.run (step []) (init (marked (n := 2)))
        (putAt [116, 95, 49] [120] 0 ++ scanTwo [116] 0 1) = some s ∧
      (s.session ()).result = some (.getAll [116], .getAll .Ok [[116, 95, 49]], t) ∧
      ∀ key ∈ ([[116, 95, 49]] : List Bytes), HasPut (fun _ => False) s.history key := by
  obtain ⟨L, hL, hdb⟩ := exists_start 2
  have hrun : (Machine.run (step []) (init marked)
      (putAt [116, 95, 49] [120] 0 ++ scanTwo [116] 0 1)).map (fun s : Cluster Unit 2 =>
        (s.session ()).result.map fun r => (r.1, r.2.1)) =
      some (some (.getAll [116], .getAll .Ok [[116, 95, 49]])) := by
    decide +kernel
  obtain ⟨s, hs, hres⟩ := Option.map_eq_some_iff.1 hrun
  obtain ⟨⟨c, ret, t⟩, hres, heq⟩ := Option.map_eq_some_iff.1 hres
  cases heq
  have hempty : ∀ (i : Fin 3) d, some (∅ : Store) = some d → Kept (fun _ => False) d := by
    rintro i _ ⟨⟩
    exact ⟨fun key hk => absurd hk Std.TreeMap.not_mem_emptyc, fun value hv => (nomatch hv)⟩
  refine ⟨s, t, hs, hres, (getAll_clean_iff hempty hL hdb (Reachable.init.run hs) hres).2 ?_⟩
  intro hstarts
  exact absurd hstarts (by decide)

end Cluster

end SqpKv
