import SqpKv.Lib.Machine
import SqpKv.Lib.Linearizable
import SqpKv.Server.ShardingProxyWorker

/-!
# The cluster, and linearizability of its operations on single keys

Any number of clients, each in a session with a proxy worker of its own, and
`n` shards, each with one RocksDB that the workers of all sessions share.  A
step is one call of one thread (`Cluster.step`).  `history` lists when the calls
of Get, Put and Delete start and return.

A call takes effect when the worker of its shard calls RocksDB.  The operations
in the order in which they take effect are the sequential run `L`; the invariant
`Inv` says that the stores together are the map after `L` and that every call in
progress is either waiting to take effect, or in `L` with the result that is on
its way to the client.

    (db i)[key]? = keySpec.after .. L key      for the keys routed to shard i
    every reachable history is linearizable with respect to one map      (Cluster.linearizable)
-/

namespace SqpKv

open Wire Machine History

/-- One map, used by one caller. -/
def keySpec : SeqSpec (Bytes → Option Bytes) Command CallResult where
  next m
    | .put key value => Function.update m key (some value)
    | .delete key => Function.update m key none
    | _ => m
  returns m
    | .get key, ret =>
      match m key with
      | some value => ret = .get .Ok (some value)
      | none => ∃ s : Status, ret = .get s none ∧ s.err = true
    | .put _ _, ret => ret = .done .Ok
    | .delete _, ret => ret = .done .Ok
    | .getAll _, _ => False

/-- A call is named by its client and its number among the client's calls. -/
abbrev CallEvent (Cl : Type) := Event (Cl × Nat) Command CallResult

structure Cluster (Cl : Type) (n : Nat) where
  session : Cl → Session n
  db : Fin n → Store
  history : List (CallEvent Cl)

inductive Action (Cl : Type) (n : Nat)
  | call (cl : Cl) (c : Command)
  | result (cl : Cl)
  | proxyStep (cl : Cl)
  | workerRead (cl : Cl) (shard : Fin n)
  | workerExec (cl : Cl) (shard : Fin n)
  | workerSend (cl : Cl) (shard : Fin n)

namespace Cluster

variable {Cl : Type} [DecidableEq Cl] {n : Nat}

def init (db : Fin n → Store) : Cluster Cl n := ⟨fun _ => .init, db, []⟩

def setSession (s : Cluster Cl n) (cl : Cl) (t : Session n) : Cluster Cl n :=
  { s with session := Function.update s.session cl t }

/-- An event of a call on a single key. -/
def log (c : Command) (e : CallEvent Cl) : List (CallEvent Cl) :=
  if c.key?.isSome then [e] else []

def step (notFound : Bytes) (s : Cluster Cl n) : Action Cl n → Option (Cluster Cl n)
  | .call cl c => do
    let t ← (s.session cl).call c
    return { s.setSession cl t with
      history := s.history ++ log c (.inv (cl, (s.session cl).calls) c) }
  | .result cl => do
    let (c, ret, t) ← (s.session cl).result
    return { s.setSession cl t with
      history := s.history ++ log c (.res (cl, (s.session cl).calls) ret) }
  | .proxyStep cl => do
    let t ← (s.session cl).proxyStep
    return s.setSession cl t
  | .workerRead cl i => do
    let t ← (s.session cl).workerRead i
    return s.setSession cl t
  | .workerExec cl i => do
    let (db, t) ← (s.session cl).workerExec notFound i (s.db i)
    return { s.setSession cl t with db := Function.update s.db i db }
  | .workerSend cl i => do
    let t ← (s.session cl).workerSend i
    return s.setSession cl t

end Cluster

/-! ## One store and the map -/

/-- **The worker refines the map**: on the key of the command its call of RocksDB does what the
map does, it leaves the other keys alone, and the client gets a result the map allows. -/
theorem KvWorker.handle_refines (notFound : Bytes) {db : Store} {m : Bytes → Option Bytes}
    {c : Command} {key : Bytes} (hc : c.key? = some key) (hdb : db[key]? = m key) :
    (∃ ret, Connection.finish c (KvWorker.handle notFound db c).2.decoded = some ret ∧
        keySpec.returns m c ret) ∧
      (KvWorker.handle notFound db c).1[key]? = keySpec.next m c key ∧
      ∀ k, k ≠ key → (KvWorker.handle notFound db c).1[k]? = db[k]? ∧ keySpec.next m c k = m k := by
  cases c with
  | get key' =>
    cases hc
    rcases hm : m key with _ | value
    · have hh : KvWorker.handle notFound db (.get key) =
          (db, .get (.ofRocks (.error notFound)) []) := by
        simp only [KvWorker.handle, hdb, hm]
      rw [hh]
      refine ⟨⟨_, rfl, ?_⟩, hdb, fun k _ => ⟨rfl, rfl⟩⟩
      simp only [keySpec, hm]
      exact ⟨_, rfl, rfl⟩
    · have hh : KvWorker.handle notFound db (.get key) = (db, .get (.ofRocks .ok) value) := by
        simp only [KvWorker.handle, hdb, hm]
      rw [hh]
      refine ⟨⟨_, rfl, ?_⟩, hdb, fun k _ => ⟨rfl, rfl⟩⟩
      simp only [keySpec, hm]
  | put key' value =>
    cases hc
    refine ⟨⟨_, rfl, rfl⟩, ?_, fun k hk => ⟨?_, ?_⟩⟩
    · simp [KvWorker.handle, keySpec]
    · simp [KvWorker.handle, Std.TreeMap.getElem?_insert, Ne.symm hk]
    · simp [keySpec, Function.update_of_ne hk]
  | delete key' =>
    cases hc
    refine ⟨⟨_, rfl, rfl⟩, ?_, fun k hk => ⟨?_, ?_⟩⟩
    · simp [KvWorker.handle, keySpec]
    · simp [KvWorker.handle, Std.TreeMap.getElem?_erase, Ne.symm hk]
    · simp [keySpec, Function.update_of_ne hk]
  | getAll keyPrefix => cases hc

/-! ## The invariant -/

namespace Cluster

variable {Cl : Type} {n : Nat}

/-- The operations in the order in which they took effect. -/
abbrev Order (Cl : Type) := List (Entry (Cl × Nat) Command CallResult)

/-- The map after them. -/
def merged (L : Order Cl) : Bytes → Option Bytes := keySpec.after (fun _ => none) L

theorem merged_append {L : Order Cl} {e : Entry (Cl × Nat) Command CallResult} :
    merged (L ++ [e]) = keySpec.next (merged L) e.op := keySpec.after_append ..

/-- What the stage of the call `id` says about the history and the order. -/
def Linked (hist : List (CallEvent Cl)) (L : Order Cl) (id : Cl × Nat) : Session.Stage → Prop
  | .idle => True
  | .before c => Event.inv id c ∈ hist ∧ id ∉ L.map Entry.id
  | .after c r => ∃ ret, Connection.finish c r = some ret ∧ ⟨id, c, ret⟩ ∈ L
  | .scanning => True

/-- The session of the client `cl`: its request is in one place, linked to history and order,
and its calls to come have not started. -/
def Owns (hist : List (CallEvent Cl)) (L : Order Cl) (cl : Cl) (t : Session n) : Prop :=
  ∃ st, t.Shape st ∧ Linked hist L (cl, t.calls) st ∧
    ∀ k op, Event.inv (cl, k) op ∈ hist → k < t.calls ∨ (k = t.calls ∧ st ≠ .idle)

structure Inv (s : Cluster Cl n) (L : Order Cl) : Prop where
  tracks : Tracks keySpec (fun _ => none) s.history L
  stores : ∀ key i, route n key = some i → (s.db i)[key]? = merged L key
  owns : ∀ cl, Owns s.history L cl (s.session cl)

theorem Linked.mono {hist hist' : List (CallEvent Cl)} {L L' : Order Cl} {id : Cl × Nat}
    {st : Session.Stage} (h : Linked hist L id st) (hhist : hist ⊆ hist') (hL : L ⊆ L')
    (hnew : id ∈ L'.map Entry.id → id ∈ L.map Entry.id) : Linked hist' L' id st := by
  cases st with
  | idle => trivial
  | before c => exact ⟨hhist h.1, fun hid => h.2 (hnew hid)⟩
  | after c r =>
    obtain ⟨ret, hret, hmem⟩ := h
    exact ⟨ret, hret, hL hmem⟩
  | scanning => trivial

/-- What other clients do leaves the calls of this one where they are. -/
theorem id_mem_of_others {L Ls : Order Cl} {cl : Cl} {k : Nat} (hLs : ∀ e ∈ Ls, e.id.1 ≠ cl)
    (h : (cl, k) ∈ (L ++ Ls).map Entry.id) : (cl, k) ∈ L.map Entry.id := by
  rw [List.map_append, List.mem_append] at h
  rcases h with h | h
  · exact h
  · obtain ⟨e, he, heq⟩ := List.mem_map.1 h
    exact absurd (congrArg Prod.fst heq) (hLs e he)

/-- What happens to other clients does not matter. -/
theorem Owns.mono {hist es : List (CallEvent Cl)} {L Ls : Order Cl} {cl : Cl} {t : Session n}
    (h : Owns hist L cl t) (hes : ∀ k op, Event.inv (cl, k) op ∉ es)
    (hLs : ∀ e ∈ Ls, e.id.1 ≠ cl) : Owns (hist ++ es) (L ++ Ls) cl t := by
  obtain ⟨st, hshape, hlinked, hfresh⟩ := h
  refine ⟨st, hshape, hlinked.mono (List.subset_append_left _ _) (List.subset_append_left _ _)
    (id_mem_of_others hLs), ?_⟩
  intro k op hk
  rcases List.mem_append.1 hk with hk | hk
  · exact hfresh k op hk
  · exact absurd hk (hes k op)

/-- A step that keeps the stage of the call. -/
theorem Owns.same_stage {hist : List (CallEvent Cl)} {L : Order Cl} {cl : Cl} {t t' : Session n}
    (h : Owns hist L cl t)
    (ht : ∀ st, t.Shape st → t'.Shape st ∧ t'.calls = t.calls) : Owns hist L cl t' := by
  obtain ⟨st, hshape, hlinked, hfresh⟩ := h
  obtain ⟨hshape', hcalls⟩ := ht st hshape
  exact ⟨st, hshape', by rwa [hcalls], by rwa [hcalls]⟩

theorem mem_log {c : Command} {e e' : CallEvent Cl} (h : e' ∈ log c e) : e' = e := by
  unfold log at h
  split at h
  · exact List.mem_singleton.1 h
  · cases h

theorem log_of_key {c : Command} {key : Bytes} (h : c.key? = some key) (e : CallEvent Cl) :
    log c e = [e] := by
  simp [log, h]

theorem log_of_getAll {c : Command} (h : c.key? = none) (e : CallEvent Cl) : log c e = [] := by
  simp [log, h]

section Steps

variable [DecidableEq Cl] {s : Cluster Cl n} {L : Order Cl} {cl : Cl} {t : Session n}

/-- One session changes, the others keep what they have. -/
theorem Inv.owns_update {E : List (CallEvent Cl)} {M : Order Cl} (h : Inv s L)
    (hes : ∀ e ∈ E, ∀ cl' k op, e = Event.inv (cl', k) op → cl' = cl)
    (hLs : ∀ e ∈ M, e.id.1 = cl) (ht : Owns (s.history ++ E) (L ++ M) cl t) (cl' : Cl) :
    Owns (s.history ++ E) (L ++ M) cl' ((s.setSession cl t).session cl') := by
  by_cases hne : cl' = cl
  · subst hne
    show Owns _ _ cl' (Function.update s.session cl' t cl')
    rwa [Function.update_self]
  · show Owns _ _ cl' (Function.update s.session cl t cl')
    rw [Function.update_of_ne hne]
    refine (h.owns cl').mono (fun k op hk => hne (hes _ hk cl' k op rfl)) ?_
    intro e he heq
    exact hne (heq ▸ hLs e he)

/-- A step of one session that touches neither history nor stores. -/
theorem Inv.internal (h : Inv s L) (ht : Owns s.history L cl t) : Inv (s.setSession cl t) L := by
  refine ⟨h.tracks, h.stores, ?_⟩
  intro cl'
  have := h.owns_update (E := []) (M := []) (by simp) (by simp)
    (by rwa [List.append_nil, List.append_nil]) cl'
  rwa [List.append_nil, List.append_nil] at this

/-- A call starts. -/
theorem Inv.call (h : Inv s L) {c : Command} (hs : (s.session cl).call c = some t) :
    Inv { s.setSession cl t with
      history := s.history ++ log c (.inv (cl, (s.session cl).calls) c) } L := by
  obtain ⟨st, hshape, -, hfresh⟩ := h.owns cl
  obtain ⟨rfl, hcalls, hkind⟩ := hshape.call hs
  have hnew : ∀ op, Event.inv (cl, (s.session cl).calls) op ∉ s.history := by
    intro op hop
    rcases hfresh _ op hop with hlt | ⟨-, hne⟩
    · omega
    · exact hne rfl
  have howns : Owns (s.history ++ log c (.inv (cl, (s.session cl).calls) c)) (L ++ []) cl t →
      ∀ cl', Owns (s.history ++ log c (.inv (cl, (s.session cl).calls) c)) L cl'
        ((s.setSession cl t).session cl') := by
    intro ht cl'
    have := h.owns_update (M := []) (fun e he cl'' k op heq => by
      rw [mem_log he] at heq
      cases heq
      rfl) (by simp) ht cl'
    rwa [List.append_nil] at this
  rw [List.append_nil] at howns
  rcases hkind with ⟨key, hc, hshape'⟩ | ⟨hc, hshape'⟩
  · refine ⟨?_, h.stores, howns ⟨.before c, hshape', ?_, ?_⟩⟩
    · rw [log_of_key hc]
      exact h.tracks.invoke c hnew
    · rw [log_of_key hc, hcalls]
      refine ⟨by simp, ?_⟩
      intro hid
      obtain ⟨e, he, heq⟩ := List.mem_map.1 hid
      exact hnew e.op (heq ▸ h.tracks.invoked e he)
    · intro k op hk
      rw [hcalls]
      rcases List.mem_append.1 hk with hk | hk
      · rcases hfresh k op hk with hlt | ⟨-, hne⟩
        · exact .inl hlt
        · exact absurd rfl hne
      · cases mem_log hk
        exact .inr ⟨rfl, by simp⟩
  · rw [log_of_getAll hc, List.append_nil] at howns ⊢
    refine ⟨h.tracks, h.stores, howns ⟨.scanning, hshape', trivial, ?_⟩⟩
    intro k op hk
    rw [hcalls]
    rcases hfresh k op hk with hlt | ⟨-, hne⟩
    · exact .inl hlt
    · exact absurd rfl hne

/-- A call returns. -/
theorem Inv.result (h : Inv s L) {c : Command} {ret : CallResult}
    (hs : (s.session cl).result = some (c, ret, t)) :
    Inv { s.setSession cl t with
      history := s.history ++ log c (.res (cl, (s.session cl).calls) ret) } L := by
  obtain ⟨st, hshape, hlinked, hfresh⟩ := h.owns cl
  obtain ⟨hcalls, hshape', hkind⟩ := hshape.result hs
  have hown : Owns (s.history ++ log c (.res (cl, (s.session cl).calls) ret)) (L ++ []) cl t := by
    refine ⟨.idle, hshape', trivial, ?_⟩
    intro k op hk
    rw [hcalls]
    rcases List.mem_append.1 hk with hk | hk
    · rcases hfresh k op hk with hlt | ⟨heq, -⟩
      · exact .inl (by omega)
      · exact .inl (by omega)
    · cases mem_log hk
  have howns := h.owns_update (M := []) (fun e he cl'' k op heq => by
    rw [mem_log he] at heq
    cases heq) (by simp) hown
  rw [List.append_nil] at howns
  refine ⟨?_, h.stores, howns⟩
  rcases hkind with ⟨key, r, rfl, hc, hret⟩ | ⟨-, hc⟩
  · obtain ⟨ret', hret', hmem⟩ := hlinked
    rw [hret] at hret'
    cases hret'
    rw [log_of_key hc]
    exact h.tracks.respond hmem
  · rw [log_of_getAll hc, List.append_nil]
    exact h.tracks

/-- A worker calls RocksDB: an operation on a key takes effect, a scan changes nothing. -/
theorem Inv.exec (h : Inv s L) {notFound : Bytes} {i : Fin n} {db : Store}
    (hs : (s.session cl).workerExec notFound i (s.db i) = some (db, t)) :
    ∃ L', Inv { s.setSession cl t with db := Function.update s.db i db } L' := by
  obtain ⟨st, hshape, hlinked, hfresh⟩ := h.owns cl
  obtain ⟨hcalls, ⟨c, key, rfl, hc, hroute, rfl, hshape'⟩ | ⟨rfl, rfl, hshape'⟩⟩ :=
    hshape.workerExec hs
  · obtain ⟨⟨ret, hret, hallowed⟩, hkey, hother⟩ :=
      KvWorker.handle_refines notFound hc (h.stores key i hroute)
    obtain ⟨hinv, hnew⟩ := hlinked
    let e : Entry (Cl × Nat) Command CallResult := ⟨(cl, (s.session cl).calls), c, ret⟩
    refine ⟨L ++ [e], h.tracks.commit hinv hnew hallowed, ?_, ?_⟩
    · intro k j hk
      rw [merged_append]
      by_cases hne : k = key
      · subst hne
        -- the key lives on one shard
        rw [hroute] at hk
        cases hk
        show (Function.update s.db i _ i)[k]? = _
        rw [Function.update_self]
        exact hkey
      · show (Function.update s.db i _ j)[k]? = _
        rw [(hother k hne).2, ← h.stores k j hk]
        by_cases hj : j = i
        · subst hj
          rw [Function.update_self]
          exact (hother k hne).1
        · rw [Function.update_of_ne hj]
    · have hown : Owns (s.history ++ []) (L ++ [e]) cl t := by
        rw [List.append_nil]
        refine ⟨.after c _, hshape', ⟨ret, hret, by simp [e, hcalls]⟩, ?_⟩
        intro k op hk
        rw [hcalls]
        rcases hfresh k op hk with hlt | ⟨heq, -⟩
        · exact .inl hlt
        · exact .inr ⟨heq, by simp⟩
      have howns := h.owns_update (E := []) (M := [e]) (by simp) (by simp [e]) hown
      rw [List.append_nil] at howns
      exact howns
  · have hown : Owns s.history L cl t := ⟨.scanning, hshape', trivial, by rwa [hcalls]⟩
    refine ⟨L, h.tracks, ?_, (h.internal hown).owns⟩
    intro k j hk
    show (Function.update s.db i (s.db i) j)[k]? = _
    rw [Function.update_eq_self]
    exact h.stores k j hk

end Steps

/-- No shard has a key that clients can ask for. -/
def NoClientKeys (db : Fin n → Store) : Prop :=
  ∀ key i, route n key = some i → (db i)[key]? = none

theorem Inv.init {db : Fin n → Store} (hdb : NoClientKeys db) :
    Inv (init db : Cluster Cl n) [] where
  tracks := .nil
  stores key i h := hdb key i h
  owns _ := ⟨.idle, Session.init_shape, trivial, fun _ _ hk => nomatch hk⟩

theorem Inv.step [DecidableEq Cl] {notFound : Bytes} {s s' : Cluster Cl n} {L : Order Cl}
    (h : Inv s L) {a : Action Cl n} (hs : step notFound s a = some s') : ∃ L', Inv s' L' := by
  cases a with
  | call cl c =>
    obtain ⟨t, ht, hs⟩ := Option.bind_eq_some_iff.1 hs
    cases hs
    exact ⟨L, h.call ht⟩
  | result cl =>
    obtain ⟨⟨c, ret, t⟩, ht, hs⟩ := Option.bind_eq_some_iff.1 hs
    cases hs
    exact ⟨L, h.result ht⟩
  | proxyStep cl =>
    obtain ⟨t, ht, hs⟩ := Option.bind_eq_some_iff.1 hs
    cases hs
    exact ⟨L, h.internal ((h.owns cl).same_stage fun st hst => hst.proxyStep ht)⟩
  | workerRead cl i =>
    obtain ⟨t, ht, hs⟩ := Option.bind_eq_some_iff.1 hs
    cases hs
    exact ⟨L, h.internal ((h.owns cl).same_stage fun st hst => hst.workerRead ht)⟩
  | workerExec cl i =>
    obtain ⟨⟨db, t⟩, ht, hs⟩ := Option.bind_eq_some_iff.1 hs
    cases hs
    exact h.exec ht
  | workerSend cl i =>
    obtain ⟨t, ht, hs⟩ := Option.bind_eq_some_iff.1 hs
    cases hs
    exact ⟨L, h.internal ((h.owns cl).same_stage fun st hst => hst.workerSend ht)⟩

/-- Along a run there is always an order that explains the history. -/
theorem exists_inv [DecidableEq Cl] {notFound : Bytes} {db : Fin n → Store} (hdb : NoClientKeys db)
    {s : Cluster Cl n} (h : Reachable (step notFound) (init db) s) : ∃ L, Inv s L :=
  h.invariant (I := fun s => ∃ L, Inv s L) ⟨[], .init hdb⟩ fun _ _ _ ⟨_, hI⟩ hs => hI.step hs

/-- **Single-key operations through the proxy are linearizable.**  For any interleaving of the
steps of clients, proxy workers and shard workers, over shards that start without client keys. -/
theorem linearizable [DecidableEq Cl] {notFound : Bytes} {db : Fin n → Store}
    (hdb : NoClientKeys db) {s : Cluster Cl n} (h : Reachable (step notFound) (init db) s) :
    Linearizable keySpec (fun _ => none) s.history := by
  obtain ⟨L, hL⟩ := exists_inv hdb h
  exact ⟨L, hL.tracks⟩

/-- Two clients and two shards: one puts `x` under `t_1`, the other gets `t_1` while the Put is
under way. -/
def putAndGet : List (Action Bool 2) :=
  [.call true (.put [116, 95, 49] [120]), .proxyStep true,
   .call false (.get [116, 95, 49]), .proxyStep false,
   .proxyStep true, .workerRead true 0, .workerExec true 0,
   .proxyStep false, .workerRead false 0, .workerExec false 0, .workerSend false 0,
   .proxyStep false, .proxyStep false, .result false,
   .workerSend true 0, .proxyStep true, .proxyStep true, .result true]

/-- The Get returns first, and with the value of the Put. -/
theorem linearizable_putAndGet :
    ∃ s : Cluster Bool 2, Machine.run (step []) (init fun _ => ∅) putAndGet = some s ∧
      s.history = [.inv (true, 0) (.put [116, 95, 49] [120]), .inv (false, 0) (.get [116, 95, 49]),
        .res (false, 0) (.get .Ok (some [120])), .res (true, 0) (.done .Ok)] ∧
      Linearizable keySpec (fun _ => none) s.history := by
  have hrun : (Machine.run (step []) (init fun _ => ∅) putAndGet).map Cluster.history =
      some [.inv (true, 0) (.put [116, 95, 49] [120]), .inv (false, 0) (.get [116, 95, 49]),
        .res (false, 0) (.get .Ok (some [120])), .res (true, 0) (.done .Ok)] := by
    decide +kernel
  obtain ⟨s, hs, hhist⟩ := Option.map_eq_some_iff.1 hrun
  have hempty : NoClientKeys (fun _ : Fin 2 => (∅ : Store)) := fun key i _ => by simp
  exact ⟨s, hs, hhist, linearizable hempty (Reachable.init.run hs)⟩

end Cluster

end SqpKv
