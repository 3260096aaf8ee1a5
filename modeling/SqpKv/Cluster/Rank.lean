import SqpKv.Cluster.Refinement

/-!
# The rank of a session

How many messages of a session have still to be sent and read.  Above, every
step of a session in a call takes from it:

    Works (t, db) (t', db')   →   t'.rank < t.rank        (Session.Works.rank_lt)

so that a session goes through finitely many steps between two calls.
-/

namespace SqpKv

open Wire Machine

variable {n : Nat}

def KvWorker.rank : KvWorker → Nat
  | .idle => 0
  | .got _ => 3
  | .reply _ => 2

def Lane.rank (l : Lane) : Nat := 4 * l.requests.length + l.worker.rank + l.responses.length

theorem Lane.rank_push (l : Lane) (c : Command) : (l.push c).rank = l.rank + 4 := by
  simp only [rank, push, List.length_append, List.length_singleton]
  omega

theorem Lane.rank_pop {l : Lane} {r : Response} {responses : List Response}
    (h : l.responses = r :: responses) : l.rank = Lane.rank ⟨l.requests, l.worker, responses⟩ + 1 := by
  simp only [rank, h, List.length_cons]
  omega

def ProxyWorker.rank : ProxyWorker n → Nat
  | .idle => 0
  | .dispatch _ _ => 7
  | .forward _ => 2
  | .relay _ => 2
  | .fanOut _ next => 5 * (n - next) + 4
  | .collect _ _ => 3
  | .respond _ => 2

namespace Session

variable {t t' : Session n}

def rank (t : Session n) : Nat :=
  (5 * n + 8) * t.up.length + t.proxy.rank + ∑ i, (t.lane i).rank + t.down.length

theorem setLane_rank (i : Fin n) (l : Lane) :
    ∑ j, ((t.setLane i l).lane j).rank + (t.lane i).rank = ∑ j, (t.lane j).rank + l.rank := by
  have h := sum_of_ne (f := fun j => (t.lane j).rank) (g := fun j => ((t.setLane i l).lane j).rank) i
    fun j hj => by rw [setLane_lane_of_ne hj]
  rwa [setLane_lane_self] at h

section Steps

variable (hs : t.proxyStep = some t')

include hs

/-- The proxy takes a command. -/
theorem proxyStep_rank_idle (hx : t.proxy = .idle) : t'.rank < t.rank := by
  have started : ∀ {c : Command} {up : List Command} {x : ProxyWorker n}, t.up = c :: up →
      x.rank < 5 * n + 8 → ({ t with up, proxy := x } : Session n).rank < t.rank := by
    intro c up x hu hrank
    show (5 * n + 8) * up.length + x.rank + ∑ i, (t.lane i).rank + t.down.length < t.rank
    unfold rank
    rw [hu, hx, List.length_cons, Nat.mul_succ]
    omega
  have hkey : ∀ {c : Command} {i : Fin n}, (ProxyWorker.dispatch c i).rank < 5 * n + 8 := by
    intro c i
    show 7 < 5 * n + 8
    omega
  unfold proxyStep at hs
  rw [hx] at hs
  dsimp only at hs
  split at hs
  · cases hs
  · next keyPrefix up hu =>
    cases hs
    refine started hu ?_
    show 5 * (n - 0) + 4 < 5 * n + 8
    omega
  all_goals
    obtain ⟨i, -, hs⟩ := Option.bind_eq_some_iff.1 hs
    cases hs
    exact started ‹_› hkey

/-- The proxy sends a command to its shard. -/
theorem proxyStep_rank_dispatch {c : Command} {i : Fin n} (hx : t.proxy = .dispatch c i) :
    t'.rank < t.rank := by
  unfold proxyStep at hs
  rw [hx] at hs
  cases hs
  have h := t.setLane_rank i ((t.lane i).push c)
  rw [Lane.rank_push] at h
  show (5 * n + 8) * t.up.length + 2 + ∑ j, ((t.setLane i _).lane j).rank + t.down.length < t.rank
  unfold rank
  rw [hx, ProxyWorker.rank]
  omega

/-- The proxy gets the answer of the shard. -/
theorem proxyStep_rank_forward {i : Fin n} (hx : t.proxy = .forward i) : t'.rank < t.rank := by
  unfold proxyStep at hs
  rw [hx] at hs
  dsimp only at hs
  split at hs
  · next r responses hr =>
    cases hs
    have h := t.setLane_rank i ⟨(t.lane i).requests, (t.lane i).worker, responses⟩
    have hpop := Lane.rank_pop hr
    show (5 * n + 8) * t.up.length + 2 + ∑ j, ((t.setLane i _).lane j).rank + t.down.length < t.rank
    unfold rank
    rw [hx, ProxyWorker.rank]
    omega
  · cases hs

/-- The proxy answers its client. -/
theorem proxyStep_rank_relay {r : Response} (hx : t.proxy = .relay r) : t'.rank < t.rank := by
  unfold proxyStep at hs
  rw [hx] at hs
  cases hs
  show (5 * n + 8) * t.up.length + 0 + ∑ j, (t.lane j).rank + (t.down ++ [r]).length < t.rank
  unfold rank
  rw [hx, ProxyWorker.rank, List.length_append, List.length_singleton]
  omega

/-- The proxy sends GetAll to the next shard, or has sent it to all. -/
theorem proxyStep_rank_fanOut {keyPrefix : Bytes} {next : Nat} (hx : t.proxy = .fanOut keyPrefix next) :
    t'.rank < t.rank := by
  rcases Shape.proxyStep_fanOut hx hs with ⟨hnext, rfl⟩ | ⟨hall, rfl⟩
  · have h := t.setLane_rank ⟨next, hnext⟩ ((t.lane ⟨next, hnext⟩).push (.getAll keyPrefix))
    rw [Lane.rank_push] at h
    show (5 * n + 8) * t.up.length + (5 * (n - (next + 1)) + 4) +
      ∑ j, ((t.setLane _ _).lane j).rank + t.down.length < t.rank
    unfold rank
    rw [hx, ProxyWorker.rank]
    omega
  · show (5 * n + 8) * t.up.length + 3 + ∑ j, (t.lane j).rank + t.down.length < t.rank
    unfold rank
    rw [hx, ProxyWorker.rank]
    omega

/-- The proxy gets the keys of the next shard, or has those of all. -/
theorem proxyStep_rank_collect {next : Nat} {keys : List Bytes} (hx : t.proxy = .collect next keys) :
    t'.rank < t.rank := by
  rcases Shape.proxyStep_collect hx hs with ⟨hnext, status, more, responses, hr, rfl⟩ | ⟨hall, rfl⟩
  · have h := t.setLane_rank ⟨next, hnext⟩
      ⟨(t.lane ⟨next, hnext⟩).requests, (t.lane ⟨next, hnext⟩).worker, responses⟩
    have hpop := Lane.rank_pop hr
    show (5 * n + 8) * t.up.length + 3 + ∑ j, ((t.setLane ⟨next, hnext⟩
      ⟨(t.lane ⟨next, hnext⟩).requests, (t.lane ⟨next, hnext⟩).worker, responses⟩).lane j).rank +
        t.down.length < t.rank
    unfold rank
    rw [hx, ProxyWorker.rank]
    omega
  · show (5 * n + 8) * t.up.length + 2 + ∑ j, (t.lane j).rank + t.down.length < t.rank
    unfold rank
    rw [hx, ProxyWorker.rank]
    omega

/-- The proxy answers a GetAll. -/
theorem proxyStep_rank_respond {keys : List Bytes} (hx : t.proxy = .respond keys) :
    t'.rank < t.rank := by
  unfold proxyStep at hs
  rw [hx] at hs
  cases hs
  show (5 * n + 8) * t.up.length + 0 + ∑ j, (t.lane j).rank +
    (t.down ++ [Response.getAll .Ok keys]).length < t.rank
  unfold rank
  rw [hx, ProxyWorker.rank, List.length_append, List.length_singleton]
  omega

end Steps

theorem proxyStep_rank (hs : t.proxyStep = some t') : t'.rank < t.rank := by
  cases hx : t.proxy with
  | idle => exact proxyStep_rank_idle hs hx
  | dispatch c i => exact proxyStep_rank_dispatch hs hx
  | forward i => exact proxyStep_rank_forward hs hx
  | relay r => exact proxyStep_rank_relay hs hx
  | fanOut keyPrefix next => exact proxyStep_rank_fanOut hs hx
  | collect next keys => exact proxyStep_rank_collect hs hx
  | respond keys => exact proxyStep_rank_respond hs hx

/-- A step of a worker on its lane. -/
theorem setLane_rank_lt {i : Fin n} {l : Lane} (h : l.rank < (t.lane i).rank) :
    (t.setLane i l).rank < t.rank := by
  have hsum := t.setLane_rank i l
  show (5 * n + 8) * t.up.length + t.proxy.rank + ∑ j, ((t.setLane i l).lane j).rank + t.down.length <
    t.rank
  unfold rank
  omega

theorem Works.rank_lt {notFound : Bytes} {x y : Session n × (Fin n → Store)}
    (h : Works notFound x y) : y.1.rank < x.1.rank := by
  cases h with
  | proxyStep hs => exact proxyStep_rank hs
  | workerRead hs =>
    obtain ⟨l, hl, hs⟩ := Option.bind_eq_some_iff.1 hs
    cases hs
    refine setLane_rank_lt ?_
    unfold Lane.read at hl
    split at hl
    · next hw hr =>
      cases hl
      simp only [Lane.rank, hw, hr, KvWorker.rank, List.length_cons]
      omega
    · cases hl
  | workerExec hs =>
    obtain ⟨⟨db, l⟩, hl, hs⟩ := Option.bind_eq_some_iff.1 hs
    cases hs
    refine setLane_rank_lt ?_
    unfold Lane.exec at hl
    split at hl
    · next hw =>
      cases hl
      simp only [Lane.rank, hw, KvWorker.rank]
      omega
    · cases hl
  | workerSend hs =>
    obtain ⟨l, hl, hs⟩ := Option.bind_eq_some_iff.1 hs
    cases hs
    refine setLane_rank_lt ?_
    unfold Lane.send at hl
    split at hl
    · next hw =>
      cases hl
      simp only [Lane.rank, hw, KvWorker.rank, List.length_append, List.length_singleton]
      omega
    · cases hl
  | result hs =>
    unfold Session.result at hs
    split at hs
    · next c r down hp hd =>
      obtain ⟨ret, -, hs⟩ := Option.bind_eq_some_iff.1 hs
      cases hs
      dsimp only [rank]
      rw [hd, List.length_cons]
      omega
    · cases hs

theorem Advances.rank_lt {notFound : Bytes} {x y : Session n × (Fin n → Store)}
    (h : Advances notFound x y) : y.1.rank < x.1.rank := by
  induction h with
  | single h => exact h.rank_lt
  | tail _ h ih => exact Nat.lt_trans h.rank_lt ih

end Session

end SqpKv
