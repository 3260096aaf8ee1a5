import SqpKv.Server.ShardingPolicy
import SqpKv.Server.KvWorker
import SqpKv.Client.Connection

/-!
# The proxy (src/server/sharding_proxy_worker.h, sharding_proxy_worker.cc)

`HandleClient` reads a command from its client.  A Get, a Put or a Delete goes
to the shard of its key, whose response is forwarded as it is; a GetAll goes to
every shard in turn, then the answers are read in the same order and their keys
joined.  A `Session` is one client with its proxy worker and the workers of the
shards at the other ends of the proxy's connections; messages are the contents
of packets, delivered whole and in order, and no call fails.

`Session.Shape` says where the one request of a session is.  The steps of proxy
and workers keep it and do not change its `Stage`, but for the one in which the
worker calls RocksDB (`Shape.proxyStep`, `Shape.workerExec`, ..).
-/

namespace SqpKv

open Wire

/-- The element of `shard_servers_` that `DispatchPacket` takes; `none` where it takes none, and
then the worker goes no further. -/
def route (n : Nat) (key : Bytes) : Option (Fin n) :=
  match shardIndex n (.of key) with
  | .ok i => if h : 0 ≤ i ∧ i < n then some ⟨i.toNat, by omega⟩ else none
  | .error _ => none

/-- `HandleClient` between two of its calls. -/
inductive ProxyWorker (n : Nat)
  | idle
  | dispatch (c : Command) (shard : Fin n)
  | forward (shard : Fin n)
  | relay (r : Response)
  | fanOut (keyPrefix : Bytes) (next : Nat)
  | collect (next : Nat) (keys : List Bytes)
  | respond (keys : List Bytes)

/-- `calls` counts the calls the client has completed; `pending` is the one it is in. -/
structure Session (n : Nat) where
  calls : Nat
  pending : Option Command
  up : List Command
  proxy : ProxyWorker n
  down : List Response
  lane : Fin n → Lane

namespace Session

variable {n : Nat}

def init : Session n := ⟨0, none, [], .idle, [], fun _ => .quiet⟩

def setLane (s : Session n) (i : Fin n) (l : Lane) : Session n :=
  { s with lane := Function.update s.lane i l }

/-- The client calls and sends its command. -/
def call (c : Command) (s : Session n) : Option (Session n) :=
  match s.pending with
  | none => some { s with pending := some c, up := s.up ++ [c] }
  | some _ => none

/-- The client reads the response, and the call returns. -/
def result (s : Session n) : Option (Command × CallResult × Session n) :=
  match s.pending, s.down with
  | some c, r :: down => do
    let ret ← Connection.finish c r
    return (c, ret, { s with calls := s.calls + 1, pending := none, down })
  | _, _ => none

/-- `HandleClient` up to the end of its next call. -/
def proxyStep (s : Session n) : Option (Session n) :=
  match s.proxy with
  | .idle =>
    match s.up with
    | [] => none
    | .getAll keyPrefix :: up => some { s with up, proxy := .fanOut keyPrefix 0 }
    | .get key :: up => do
      let i ← route n key
      return { s with up, proxy := .dispatch (.get key) i }
    | .put key value :: up => do
      let i ← route n key
      return { s with up, proxy := .dispatch (.put key value) i }
    | .delete key :: up => do
      let i ← route n key
      return { s with up, proxy := .dispatch (.delete key) i }
  | .dispatch c i => some { s.setLane i ((s.lane i).push c) with proxy := .forward i }
  | .forward i =>
    match (s.lane i).responses with
    | r :: responses => some { s.setLane i { s.lane i with responses } with proxy := .relay r }
    | [] => none
  | .relay r => some { s with down := s.down ++ [r], proxy := .idle }
  | .fanOut keyPrefix next =>
    if h : next < n then
      some { s.setLane ⟨next, h⟩ ((s.lane ⟨next, h⟩).push (.getAll keyPrefix)) with
        proxy := .fanOut keyPrefix (next + 1) }
    else some { s with proxy := .collect 0 [] }
  | .collect next keys =>
    if h : next < n then
      match (s.lane ⟨next, h⟩).responses with
      -- `AddKeys`; the status in the packet is not looked at
      | .getAll _ more :: responses =>
        some { s.setLane ⟨next, h⟩ { s.lane ⟨next, h⟩ with responses } with
          proxy := .collect (next + 1) (keys ++ more) }
      | _ => none
    else some { s with proxy := .respond keys }
  | .respond keys => some { s with down := s.down ++ [.getAll .Ok keys], proxy := .idle }

/-- The worker of shard `i` reads a command. -/
def workerRead (i : Fin n) (s : Session n) : Option (Session n) := do
  let l ← (s.lane i).read
  return s.setLane i l

/-- The worker of shard `i` calls RocksDB. -/
def workerExec (notFound : Bytes) (i : Fin n) (db : Store) (s : Session n) :
    Option (Store × Session n) := do
  let (db, l) ← (s.lane i).exec notFound db
  return (db, s.setLane i l)

/-- The worker of shard `i` sends its response. -/
def workerSend (i : Fin n) (s : Session n) : Option (Session n) := do
  let l ← (s.lane i).send
  return s.setLane i l

/-! ## Where the request of a session is -/

/-- Nothing is under way behind the proxy. -/
def Quiet (s : Session n) : Prop := ∀ i, (s.lane i).At .quiet

/-- Only shard `i` is concerned. -/
def Only (s : Session n) (i : Fin n) (st : LaneStage) : Prop :=
  (s.lane i).At st ∧ ∀ j, j ≠ i → (s.lane j).At .quiet

/-- Shard `i` has been sent a GetAll that is not answered yet, or not read. -/
def Scans (s : Session n) (keyPrefix : Bytes) (i : Fin n) : Prop :=
  (s.lane i).At (.asked (.getAll keyPrefix)) ∨ ∃ keys, (s.lane i).At (.answered (.getAll .Ok keys))

/-- How far the call of a session has got: its command has not reached RocksDB, or it has and
there is the response `r` to it; a GetAll is not followed further. -/
inductive Stage
  | idle
  | before (c : Command)
  | after (c : Command) (r : Response)
  | scanning

/-- The one message of a call is in one place, and there is no other. -/
inductive Shape (s : Session n) : Stage → Prop
  | idle (hp : s.pending = none) (hu : s.up = []) (hx : s.proxy = .idle) (hd : s.down = [])
      (hl : s.Quiet) : Shape s .idle
  | requested {c : Command} {key : Bytes} (hc : c.key? = some key) (hp : s.pending = some c)
      (hu : s.up = [c]) (hx : s.proxy = .idle) (hd : s.down = []) (hl : s.Quiet) :
      Shape s (.before c)
  | dispatch {c : Command} {key : Bytes} {i : Fin n} (hc : c.key? = some key)
      (hi : route n key = some i) (hp : s.pending = some c) (hu : s.up = [])
      (hx : s.proxy = .dispatch c i) (hd : s.down = []) (hl : s.Quiet) : Shape s (.before c)
  | asked {c : Command} {key : Bytes} {i : Fin n} (hc : c.key? = some key)
      (hi : route n key = some i) (hp : s.pending = some c) (hu : s.up = [])
      (hx : s.proxy = .forward i) (hd : s.down = []) (hl : s.Only i (.asked c)) :
      Shape s (.before c)
  | answered {c : Command} {key : Bytes} {i : Fin n} {r : Response} (hc : c.key? = some key)
      (hp : s.pending = some c) (hu : s.up = []) (hx : s.proxy = .forward i) (hd : s.down = [])
      (hl : s.Only i (.answered r)) : Shape s (.after c r)
  | relay {c : Command} {key : Bytes} {r : Response} (hc : c.key? = some key)
      (hp : s.pending = some c) (hu : s.up = []) (hx : s.proxy = .relay r) (hd : s.down = [])
      (hl : s.Quiet) : Shape s (.after c r)
  | arrived {c : Command} {key : Bytes} {r : Response} (hc : c.key? = some key)
      (hp : s.pending = some c) (hu : s.up = []) (hx : s.proxy = .idle) (hd : s.down = [r])
      (hl : s.Quiet) : Shape s (.after c r)
  | scanRequested {keyPrefix : Bytes} (hp : s.pending = some (.getAll keyPrefix))
      (hu : s.up = [.getAll keyPrefix]) (hx : s.proxy = .idle) (hd : s.down = []) (hl : s.Quiet) :
      Shape s .scanning
  | fanOut {keyPrefix : Bytes} {next : Nat} (hp : s.pending = some (.getAll keyPrefix))
      (hu : s.up = []) (hx : s.proxy = .fanOut keyPrefix next) (hd : s.down = [])
      (hasked : ∀ i : Fin n, i < next → s.Scans keyPrefix i)
      (hl : ∀ i : Fin n, next ≤ i → (s.lane i).At .quiet) : Shape s .scanning
  | collect {keyPrefix : Bytes} {next : Nat} {keys : List Bytes}
      (hp : s.pending = some (.getAll keyPrefix)) (hu : s.up = [])
      (hx : s.proxy = .collect next keys) (hd : s.down = [])
      (hl : ∀ i : Fin n, i < next → (s.lane i).At .quiet)
      (hasked : ∀ i : Fin n, next ≤ i → s.Scans keyPrefix i) : Shape s .scanning
  | respond {keyPrefix : Bytes} {keys : List Bytes} (hp : s.pending = some (.getAll keyPrefix))
      (hu : s.up = []) (hx : s.proxy = .respond keys) (hd : s.down = []) (hl : s.Quiet) :
      Shape s .scanning
  | scanned {keyPrefix : Bytes} {keys : List Bytes} (hp : s.pending = some (.getAll keyPrefix))
      (hu : s.up = []) (hx : s.proxy = .idle) (hd : s.down = [.getAll .Ok keys]) (hl : s.Quiet) :
      Shape s .scanning

/-! ## Lanes -/

section Lanes

variable {s : Session n} {i j : Fin n} {l : Lane}

@[simp] theorem setLane_lane_self : (s.setLane i l).lane i = l := Function.update_self ..

theorem setLane_lane_of_ne (h : j ≠ i) : (s.setLane i l).lane j = s.lane j :=
  Function.update_of_ne h ..

theorem Only.setLane {st st' : LaneStage} (h : s.Only i st) (hl : l.At st') :
    (s.setLane i l).Only i st' := by
  refine ⟨by rwa [setLane_lane_self], ?_⟩
  intro k hk
  rw [setLane_lane_of_ne hk]
  exact h.2 k hk

theorem Quiet.setLane (h : s.Quiet) {st : LaneStage} (hl : l.At st) : (s.setLane i l).Only i st :=
  Only.setLane ⟨h i, fun k _ => h k⟩ hl

theorem Only.setLane_quiet {st : LaneStage} (h : s.Only i st) (hl : l.At .quiet) :
    (s.setLane i l).Quiet := by
  intro k
  by_cases hk : k = i
  · rwa [hk, setLane_lane_self]
  · rw [setLane_lane_of_ne hk]
    exact h.2 k hk

/-- The proxy goes through the lanes in turn: behind it `P` holds, before it `Q`. -/
theorem setLane_next {P Q : Lane → Prop} {next : Nat} (hnext : next < n)
    (hP : ∀ i : Fin n, i < next → P (s.lane i)) (hQ : ∀ i : Fin n, next ≤ i → Q (s.lane i))
    (hl : P l) :
    (∀ i : Fin n, i < next + 1 → P ((s.setLane ⟨next, hnext⟩ l).lane i)) ∧
      ∀ i : Fin n, next + 1 ≤ i → Q ((s.setLane ⟨next, hnext⟩ l).lane i) := by
  constructor
  · intro i hi
    by_cases h : i = ⟨next, hnext⟩
    · rwa [h, setLane_lane_self]
    · rw [setLane_lane_of_ne h]
      have : (i : Nat) ≠ next := fun heq => h (Fin.ext heq)
      exact hP i (by omega)
  · intro i hi
    have hne : i ≠ ⟨next, hnext⟩ := by
      intro h
      have := congrArg Fin.val h
      simp only at this
      omega
    rw [setLane_lane_of_ne hne]
    exact hQ i (by omega)

/-- Reading the answer to a GetAll leaves nothing on the lane. -/
theorem Scans.pop {keyPrefix : Bytes} (h : s.Scans keyPrefix i) {r : Response}
    {rest : List Response} (hr : (s.lane i).responses = r :: rest) :
    Lane.At { s.lane i with responses := rest } .quiet := by
  rcases h with h | ⟨keys, h⟩
  · exact (h.pop hr).2
  · exact (h.pop hr).2

/-- RocksDB answers a GetAll without a change. -/
theorem Scans.exec {keyPrefix : Bytes} (h : s.Scans keyPrefix i) {notFound : Bytes} {db db' : Store}
    (hl : (s.lane i).exec notFound db = some (db', l)) :
    db' = db ∧ ∃ keys, l.At (.answered (.getAll .Ok keys)) := by
  rcases h with ha | ⟨keys, ha⟩
  · obtain ⟨c, hc, hdb, hl'⟩ := ha.exec hl
    cases hc
    exact ⟨hdb, _, hl'⟩
  · obtain ⟨c, hc, -⟩ := ha.exec hl
    cases hc

/-- The other lanes are as they were when one has its answer. -/
theorem Scans.answered {keyPrefix : Bytes} (h : s.Scans keyPrefix j) {keys : List Bytes}
    (hl : l.At (.answered (.getAll .Ok keys))) : (s.setLane i l).Scans keyPrefix j := by
  unfold Scans
  by_cases hne : j = i
  · subst hne
    rw [setLane_lane_self]
    exact .inr ⟨keys, hl⟩
  · rw [setLane_lane_of_ne hne]
    exact h

end Lanes

/-! ## Steps keep the shape -/

namespace Shape

variable {s s' : Session n} {st : Stage}

/-- A step of a worker that leaves its request at the same stage. -/
theorem setLane (h : s.Shape st) {i : Fin n} {l : Lane}
    (hkeep : ∀ {lst}, (s.lane i).At lst → l.At lst) : (s.setLane i l).Shape st := by
  have hlane : ∀ {j lst}, (s.lane j).At lst → ((s.setLane i l).lane j).At lst := by
    intro j lst hj
    by_cases hne : j = i
    · subst hne
      rw [setLane_lane_self]
      exact hkeep hj
    · rwa [setLane_lane_of_ne hne]
  have hscan : ∀ {keyPrefix j}, s.Scans keyPrefix j → (s.setLane i l).Scans keyPrefix j :=
    fun hj => hj.imp hlane fun ⟨keys, hk⟩ => ⟨keys, hlane hk⟩
  have honly : ∀ {j lst}, s.Only j lst → (s.setLane i l).Only j lst :=
    fun hj => ⟨hlane hj.1, fun k hk => hlane (hj.2 k hk)⟩
  cases h with
  | idle hp hu hx hd hl => exact .idle hp hu hx hd fun j => hlane (hl j)
  | requested hc hp hu hx hd hl => exact .requested hc hp hu hx hd fun j => hlane (hl j)
  | dispatch hc hi hp hu hx hd hl => exact .dispatch hc hi hp hu hx hd fun j => hlane (hl j)
  | asked hc hi hp hu hx hd hl => exact .asked hc hi hp hu hx hd (honly hl)
  | answered hc hp hu hx hd hl => exact .answered hc hp hu hx hd (honly hl)
  | relay hc hp hu hx hd hl => exact .relay hc hp hu hx hd fun j => hlane (hl j)
  | arrived hc hp hu hx hd hl => exact .arrived hc hp hu hx hd fun j => hlane (hl j)
  | scanRequested hp hu hx hd hl => exact .scanRequested hp hu hx hd fun j => hlane (hl j)
  | fanOut hp hu hx hd hasked hl =>
    exact .fanOut hp hu hx hd (fun j hj => hscan (hasked j hj)) fun j hj => hlane (hl j hj)
  | collect hp hu hx hd hl hasked =>
    exact .collect hp hu hx hd (fun j hj => hlane (hl j hj)) fun j hj => hscan (hasked j hj)
  | respond hp hu hx hd hl => exact .respond hp hu hx hd fun j => hlane (hl j)
  | scanned hp hu hx hd hl => exact .scanned hp hu hx hd fun j => hlane (hl j)

theorem workerRead (h : s.Shape st) {i : Fin n} (hs : s.workerRead i = some s') :
    s'.Shape st ∧ s'.calls = s.calls := by
  obtain ⟨l, hl, hs⟩ := Option.bind_eq_some_iff.1 hs
  cases hs
  exact ⟨h.setLane fun hi => hi.read hl, rfl⟩

theorem workerSend (h : s.Shape st) {i : Fin n} (hs : s.workerSend i = some s') :
    s'.Shape st ∧ s'.calls = s.calls := by
  obtain ⟨l, hl, hs⟩ := Option.bind_eq_some_iff.1 hs
  cases hs
  exact ⟨h.setLane fun hi => hi.send hl, rfl⟩

theorem pending_isSome (h : s.Shape st) (hst : st ≠ .idle) : ∃ c, s.pending = some c := by
  cases h with
  | idle => exact absurd rfl hst
  | _ => exact ⟨_, by assumption⟩

/-- A call starts from rest. -/
theorem call (h : s.Shape st) {c : Command} (hs : s.call c = some s') :
    st = .idle ∧ s'.calls = s.calls ∧
      ((∃ key, c.key? = some key ∧ s'.Shape (.before c)) ∨ (c.key? = none ∧ s'.Shape .scanning)) := by
  unfold Session.call at hs
  by_cases hst : st = .idle
  · subst hst
    obtain ⟨hp, hu, hx, hd, hl⟩ := h
    rw [hp] at hs
    cases hs
    refine ⟨rfl, rfl, ?_⟩
    have hup : s.up ++ [c] = [c] := by rw [hu, List.nil_append]
    rcases hc : c.key? with _ | key
    · cases c with
      | getAll keyPrefix => exact .inr ⟨rfl, .scanRequested rfl hup hx hd hl⟩
      | _ => cases hc
    · exact .inl ⟨key, rfl, .requested hc rfl hup hx hd hl⟩
  · obtain ⟨c', hp⟩ := h.pending_isSome hst
    rw [hp] at hs
    cases hs

/-- The proxy reads the command of a call on one key and routes it. -/
theorem proxyStep_requested {c : Command} {key : Bytes} (hc : c.key? = some key) (hu : s.up = [c])
    (hx : s.proxy = .idle) (hs : s.proxyStep = some s') :
    ∃ i, route n key = some i ∧ s' = { s with up := [], proxy := .dispatch c i } := by
  unfold Session.proxyStep at hs
  rw [hx, hu] at hs
  cases c with
  | getAll keyPrefix => cases hc
  | _ =>
    cases hc
    obtain ⟨i, hi, hs⟩ := Option.bind_eq_some_iff.1 hs
    cases hs
    exact ⟨i, hi, rfl⟩

/-- The proxy sends a GetAll to the next shard, or has sent it to all. -/
theorem proxyStep_fanOut {keyPrefix : Bytes} {next : Nat} (hx : s.proxy = .fanOut keyPrefix next)
    (hs : s.proxyStep = some s') :
    (∃ h : next < n, s' = { s.setLane ⟨next, h⟩ ((s.lane ⟨next, h⟩).push (.getAll keyPrefix)) with
      proxy := .fanOut keyPrefix (next + 1) }) ∨
    (n ≤ next ∧ s' = { s with proxy := .collect 0 [] }) := by
  unfold Session.proxyStep at hs
  rw [hx] at hs
  dsimp only at hs
  split at hs
  · next hnext =>
    cases hs
    exact .inl ⟨hnext, rfl⟩
  · next hnext =>
    cases hs
    exact .inr ⟨Nat.not_lt.1 hnext, rfl⟩

/-- The proxy reads the keys of the next shard, or has those of all. -/
theorem proxyStep_collect {next : Nat} {keys : List Bytes} (hx : s.proxy = .collect next keys)
    (hs : s.proxyStep = some s') :
    (∃ h : next < n, ∃ status more responses,
      (s.lane ⟨next, h⟩).responses = .getAll status more :: responses ∧
      s' = { s.setLane ⟨next, h⟩ { s.lane ⟨next, h⟩ with responses } with
        proxy := .collect (next + 1) (keys ++ more) }) ∨
    (n ≤ next ∧ s' = { s with proxy := .respond keys }) := by
  unfold Session.proxyStep at hs
  rw [hx] at hs
  dsimp only at hs
  split at hs
  · next hnext =>
    split at hs
    · next status more responses hr =>
      cases hs
      exact .inl ⟨hnext, status, more, responses, hr, rfl⟩
    · cases hs
  · next hnext =>
    cases hs
    exact .inr ⟨Nat.not_lt.1 hnext, rfl⟩

/-- A GetAll is sent to one more shard. -/
theorem scans_push {keyPrefix : Bytes} {next : Nat} (hnext : next < n)
    (hasked : ∀ i : Fin n, i < next → s.Scans keyPrefix i)
    (hl : ∀ i : Fin n, next ≤ i → (s.lane i).At .quiet) :
    (∀ i : Fin n, i < next + 1 →
      (s.setLane ⟨next, hnext⟩ ((s.lane ⟨next, hnext⟩).push (.getAll keyPrefix))).Scans keyPrefix i) ∧
    ∀ i : Fin n, next + 1 ≤ i →
      ((s.setLane ⟨next, hnext⟩ ((s.lane ⟨next, hnext⟩).push (.getAll keyPrefix))).lane i).At
        .quiet := by
  have hpush := (hl ⟨next, hnext⟩ (Nat.le_refl _)).push (.getAll keyPrefix)
  exact setLane_next (P := fun l => l.At (.asked (.getAll keyPrefix)) ∨
    ∃ keys, l.At (.answered (.getAll .Ok keys))) (Q := fun l => l.At .quiet) hnext hasked hl
    (.inl hpush)

/-- One more answer to a GetAll is read. -/
theorem scans_pop {keyPrefix : Bytes} {next : Nat} (hnext : next < n) {l : Lane} (hquiet : l.At .quiet)
    (hl : ∀ i : Fin n, i < next → (s.lane i).At .quiet)
    (hasked : ∀ i : Fin n, next ≤ i → s.Scans keyPrefix i) :
    (∀ i : Fin n, i < next + 1 → ((s.setLane ⟨next, hnext⟩ l).lane i).At .quiet) ∧
      ∀ i : Fin n, next + 1 ≤ i → (s.setLane ⟨next, hnext⟩ l).Scans keyPrefix i :=
  setLane_next (P := fun l => l.At .quiet) (Q := fun l => l.At (.asked (.getAll keyPrefix)) ∨
    ∃ keys, l.At (.answered (.getAll .Ok keys))) hnext hl hasked hquiet

/-- No step of the proxy touches RocksDB. -/
theorem proxyStep (h : s.Shape st) (hs : s.proxyStep = some s') :
    s'.Shape st ∧ s'.calls = s.calls := by
  cases h with
  | idle hp hu hx hd hl =>
    unfold Session.proxyStep at hs
    rw [hx, hu] at hs
    cases hs
  | requested hc hp hu hx hd hl =>
    obtain ⟨i, hi, rfl⟩ := proxyStep_requested hc hu hx hs
    exact ⟨.dispatch hc hi hp rfl rfl hd hl, rfl⟩
  | dispatch hc hi hp hu hx hd hl =>
    unfold Session.proxyStep at hs
    rw [hx] at hs
    cases hs
    exact ⟨.asked hc hi hp hu rfl hd (hl.setLane ((hl _).push _)), rfl⟩
  | asked hc hi hp hu hx hd hl =>
    unfold Session.proxyStep at hs
    rw [hx] at hs
    dsimp only at hs
    split at hs
    · next hr => cases (hl.1.pop hr).1
    · cases hs
  | answered hc hp hu hx hd hl =>
    unfold Session.proxyStep at hs
    rw [hx] at hs
    dsimp only at hs
    split at hs
    · next hr =>
      obtain ⟨heq, hquiet⟩ := hl.1.pop hr
      cases heq
      cases hs
      exact ⟨.relay hc hp hu rfl hd (hl.setLane_quiet hquiet), rfl⟩
    · cases hs
  | relay hc hp hu hx hd hl =>
    unfold Session.proxyStep at hs
    rw [hx] at hs
    cases hs
    exact ⟨.arrived hc hp hu rfl (by rw [hd]; rfl) hl, rfl⟩
  | arrived hc hp hu hx hd hl =>
    unfold Session.proxyStep at hs
    rw [hx, hu] at hs
    cases hs
  | scanRequested hp hu hx hd hl =>
    unfold Session.proxyStep at hs
    rw [hx, hu] at hs
    cases hs
    exact ⟨.fanOut hp rfl rfl hd (fun i hi => absurd hi (Nat.not_lt_zero _)) fun i _ => hl i, rfl⟩
  | fanOut hp hu hx hd hasked hl =>
    rcases proxyStep_fanOut hx hs with ⟨hnext, rfl⟩ | ⟨hall, rfl⟩
    · obtain ⟨hasked', hl'⟩ := scans_push hnext hasked hl
      exact ⟨.fanOut hp hu rfl hd hasked' hl', rfl⟩
    · exact ⟨.collect hp hu rfl hd (fun i hi => absurd hi (Nat.not_lt_zero _))
        fun i _ => hasked i (Nat.lt_of_lt_of_le i.isLt hall), rfl⟩
  | collect hp hu hx hd hl hasked =>
    rcases proxyStep_collect hx hs with ⟨hnext, status, more, responses, hr, rfl⟩ | ⟨hall, rfl⟩
    · have hquiet := (hasked ⟨_, hnext⟩ (Nat.le_refl _)).pop hr
      obtain ⟨hl', hasked'⟩ := scans_pop hnext hquiet hl hasked
      exact ⟨.collect hp hu rfl hd hl' hasked', rfl⟩
    · exact ⟨.respond hp hu rfl hd fun i => hl i (Nat.lt_of_lt_of_le i.isLt hall), rfl⟩
  | respond hp hu hx hd hl =>
    unfold Session.proxyStep at hs
    rw [hx] at hs
    cases hs
    exact ⟨.scanned hp hu rfl (by rw [hd]; rfl) hl, rfl⟩
  | scanned hp hu hx hd hl =>
    unfold Session.proxyStep at hs
    rw [hx, hu] at hs
    cases hs

/-- The worker of shard `i` calls RocksDB: for a call on one key this is where it takes effect. -/
theorem workerExec (h : s.Shape st) {notFound : Bytes} {i : Fin n} {db db' : Store}
    (hs : s.workerExec notFound i db = some (db', s')) :
    s'.calls = s.calls ∧
      ((∃ c key, st = .before c ∧ c.key? = some key ∧ route n key = some i ∧
          db' = (KvWorker.handle notFound db c).1 ∧
          s'.Shape (.after c (KvWorker.handle notFound db c).2.decoded)) ∨
        (st = .scanning ∧ db' = db ∧ s'.Shape .scanning)) := by
  obtain ⟨⟨db'', l⟩, hl, hs⟩ := Option.bind_eq_some_iff.1 hs
  cases hs
  refine ⟨rfl, ?_⟩
  -- only a lane that has been asked has something for RocksDB
  have quiet : ¬ (s.lane i).At .quiet := by
    intro hq
    obtain ⟨c, hc, -⟩ := hq.exec hl
    cases hc
  cases h with
  | asked hc hi hp hu hx hd hl' =>
    rename_i c key j
    by_cases hne : i = j
    · subst hne
      obtain ⟨c', hc', hdb, hlane⟩ := hl'.1.exec hl
      cases hc'
      exact .inl ⟨c, key, rfl, hc, hi, hdb, .answered hc hp hu hx hd (hl'.setLane hlane)⟩
    · exact absurd (hl'.2 i hne) quiet
  | answered hc hp hu hx hd hl' =>
    rename_i c key j r
    by_cases hne : i = j
    · subst hne
      obtain ⟨c', hc', -⟩ := hl'.1.exec hl
      cases hc'
    · exact absurd (hl'.2 i hne) quiet
  | fanOut hp hu hx hd hasked hl' =>
    rename_i keyPrefix next
    by_cases hi : i < next
    · obtain ⟨hdb, keys, hlane⟩ := (hasked i hi).exec hl
      refine .inr ⟨rfl, hdb, .fanOut hp hu hx hd (fun j hj => (hasked j hj).answered hlane) ?_⟩
      intro j hj
      rw [setLane_lane_of_ne (fun h => by rw [h] at hj; omega)]
      exact hl' j hj
    · exact absurd (hl' i (Nat.not_lt.1 hi)) quiet
  | collect hp hu hx hd hl' hasked =>
    rename_i keyPrefix next keys'
    by_cases hi : i < next
    · exact absurd (hl' i hi) quiet
    · obtain ⟨hdb, keys, hlane⟩ := (hasked i (Nat.not_lt.1 hi)).exec hl
      refine .inr ⟨rfl, hdb, .collect hp hu hx hd ?_ fun j hj => (hasked j hj).answered hlane⟩
      intro j hj
      rw [setLane_lane_of_ne (fun h => by rw [h] at hj; omega)]
      exact hl' j hj
  | idle hp hu hx hd hl' => exact absurd (hl' i) quiet
  | requested hc hp hu hx hd hl' => exact absurd (hl' i) quiet
  | dispatch hc hi hp hu hx hd hl' => exact absurd (hl' i) quiet
  | relay hc hp hu hx hd hl' => exact absurd (hl' i) quiet
  | arrived hc hp hu hx hd hl' => exact absurd (hl' i) quiet
  | scanRequested hp hu hx hd hl' => exact absurd (hl' i) quiet
  | respond hp hu hx hd hl' => exact absurd (hl' i) quiet
  | scanned hp hu hx hd hl' => exact absurd (hl' i) quiet

/-- A call returns with the response to it. -/
theorem result (h : s.Shape st) {c : Command} {ret : CallResult}
    (hs : s.result = some (c, ret, s')) :
    s'.calls = s.calls + 1 ∧ s'.Shape .idle ∧
      ((∃ key r, st = .after c r ∧ c.key? = some key ∧ Connection.finish c r = some ret) ∨
        (st = .scanning ∧ c.key? = none)) := by
  unfold Session.result at hs
  cases h with
  | arrived hc hp hu hx hd hl =>
    rw [hp, hd] at hs
    obtain ⟨ret', hret, hs⟩ := Option.bind_eq_some_iff.1 hs
    cases hs
    exact ⟨rfl, .idle rfl hu hx rfl hl, .inl ⟨_, _, rfl, hc, hret⟩⟩
  | scanned hp hu hx hd hl =>
    rw [hp, hd] at hs
    obtain ⟨ret', hret, hs⟩ := Option.bind_eq_some_iff.1 hs
    cases hs
    exact ⟨rfl, .idle rfl hu hx rfl hl, .inr ⟨rfl, rfl⟩⟩
  | idle hp hu hx hd hl => rw [hp, hd] at hs; cases hs
  | requested hc hp hu hx hd hl => rw [hp, hd] at hs; cases hs
  | dispatch hc hi hp hu hx hd hl => rw [hp, hd] at hs; cases hs
  | asked hc hi hp hu hx hd hl => rw [hp, hd] at hs; cases hs
  | answered hc hp hu hx hd hl => rw [hp, hd] at hs; cases hs
  | relay hc hp hu hx hd hl => rw [hp, hd] at hs; cases hs
  | scanRequested hp hu hx hd hl => rw [hp, hd] at hs; cases hs
  | fanOut hp hu hx hd hasked hl => rw [hp, hd] at hs; cases hs
  | collect hp hu hx hd hl hasked => rw [hp, hd] at hs; cases hs
  | respond hp hu hx hd hl => rw [hp, hd] at hs; cases hs

end Shape

theorem init_shape : (init : Session n).Shape .idle :=
  .idle rfl rfl rfl rfl fun _ => .quiet

end Session

end SqpKv
