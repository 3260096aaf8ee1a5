import SqpKv.Lib.Bytes

/-!
# Stopping a server (src/server/server.cc, worker.h, kv_worker.cc, sharding_proxy_worker.cc)

`Stop` closes what is still open and joins the threads of the workers.  The
descriptors are set to -1 behind their `close`; nothing records that a thread
has been joined, and a second `join` throws.  `~Server` calls `Stop`,
`~ShardingProxyWorker` does too, so that with `n` calls of `Stop` before the
destruction

    every thread is joined once  ↔  no workers, or n = 0 and no proxies     (joinedOnce_iff)
-/

namespace SqpKv

open Wire

/-! ## `std::thread` -/

/-- What ends the process: the exception of `join`, or `std::terminate` in `~thread`. -/
inductive ThreadFault
  | invalidArgument
  | terminate
deriving DecidableEq

/-- A `std::thread`, and how often it has been joined. -/
structure ThreadHandle where
  joinable : Bool
  joins : Nat
deriving DecidableEq

namespace ThreadHandle

/-- `std::thread(f, ..)`. -/
def started : ThreadHandle := ⟨true, 0⟩

def join (t : ThreadHandle) : Except ThreadFault ThreadHandle :=
  if t.joinable then .ok ⟨false, t.joins + 1⟩ else .error .invalidArgument

/-- `~thread()`. -/
def destroy (t : ThreadHandle) : Except ThreadFault Unit :=
  if t.joinable then .error .terminate else .ok ()

end ThreadHandle

/-! ## The workers -/

namespace Stop

/-- The members of a worker that `Stop` uses. -/
inductive Worker
  | kv (clientfd : Int) (thread : ThreadHandle)
  | proxy (clientfd : Int) (shardServers : List Int) (thread : ThreadHandle)
deriving DecidableEq

def Worker.thread : Worker → ThreadHandle
  | .kv _ thread => thread
  | .proxy _ _ thread => thread

/-- `if (fd != -1) { close(fd); }`: what is closed. -/
def closeOnce (fd : Int) : List Int := if fd ≠ -1 then [fd] else []

/-- `KvWorker::Stop` and `ShardingProxyWorker::Stop`: the worker, and what was closed. -/
def Worker.stop : Worker → Except ThreadFault (Worker × List Int)
  | .kv clientfd thread => do
    let closed := closeOnce clientfd
    let thread ← thread.join
    return (.kv (-1) thread, closed)
  | .proxy clientfd shardServers thread => do
    let closed := closeOnce clientfd ++ shardServers
    let thread ← thread.join
    return (.proxy (-1) [] thread, closed)

/-- `KvWorker` has no destructor of its own, `~ShardingProxyWorker` calls `Stop`; then the members
are destroyed.  The worker as it is left, and what was closed. -/
def Worker.destroy : Worker → Except ThreadFault (Worker × List Int)
  | .kv clientfd thread => do
    thread.destroy
    return (.kv clientfd thread, [])
  | .proxy clientfd shardServers thread => do
    let (worker, closed) ← (Worker.proxy clientfd shardServers thread).stop
    worker.thread.destroy
    return (worker, closed)

/-- A loop over the workers. -/
def forWorkers (f : Worker → Except ThreadFault (Worker × List Int)) :
    List Worker → Except ThreadFault (List Worker × List Int)
  | [] => .ok ([], [])
  | worker :: workers => do
    let (worker, closed) ← f worker
    let (workers, closed') ← forWorkers f workers
    return (worker :: workers, closed ++ closed')

/-! ## The server -/

/-- The members of a `Server` that `Stop` uses, and what has been closed so far. -/
structure Server where
  sockFd : Int
  workers : List Worker
  closed : List Int

/-- `Server::Stop`. -/
def Server.stop (s : Server) : Except ThreadFault Server := do
  let (workers, closed) ← forWorkers Worker.stop s.workers
  return ⟨-1, workers, s.closed ++ (closeOnce s.sockFd ++ closed)⟩

/-- `~Server`. -/
def Server.destroy (s : Server) : Except ThreadFault Server := do
  let s ← s.stop
  let (workers, closed) ← forWorkers Worker.destroy s.workers
  return { s with workers, closed := s.closed ++ closed }

/-- `n` calls of `Stop`, then the destruction. -/
def Server.run : Nat → Server → Except ThreadFault Server
  | 0, s => s.destroy
  | n + 1, s => do run n (← s.stop)

/-- A client that was accepted, and the descriptors of its worker. -/
inductive Client
  | kv (clientfd : Int)
  | proxy (clientfd : Int) (shardServers : List Int)

namespace Client

/-- The constructors of the workers start their threads. -/
def worker : Client → Worker
  | kv clientfd => .kv clientfd .started
  | proxy clientfd shardServers => .proxy clientfd shardServers .started

def IsKv : Client → Prop
  | kv _ => True
  | proxy _ _ => False

/-- The worker behind its first `Stop`. -/
def stopped : Client → Worker
  | kv _ => .kv (-1) ⟨false, 1⟩
  | proxy _ _ => .proxy (-1) [] ⟨false, 1⟩

/-- What the first `Stop` closes. -/
def fds : Client → List Int
  | kv clientfd => closeOnce clientfd
  | proxy clientfd shardServers => closeOnce clientfd ++ shardServers

end Client

/-- A server that listens on `sockFd` and has accepted these clients. -/
def Server.accepted (sockFd : Int) (clients : List Client) : Server :=
  ⟨sockFd, clients.map Client.worker, []⟩

/-- Nothing throws or terminates, and in the end every worker's thread has been joined once. -/
def JoinedOnce (stops : Nat) (s : Server) : Prop :=
  ∃ s', s.run stops = .ok s' ∧ s'.workers.length = s.workers.length ∧
    ∀ worker ∈ s'.workers, worker.thread = ⟨false, 1⟩

/-! ## One loop over the workers -/

theorem forWorkers_map {ι : Type} {f : Worker → Except ThreadFault (Worker × List Int)}
    {before after : ι → Worker} {fds : ι → List Int} {cs : List ι}
    (hf : ∀ c ∈ cs, f (before c) = .ok (after c, fds c)) :
    forWorkers f (cs.map before) = .ok (cs.map after, cs.flatMap fds) := by
  induction cs with
  | nil => rfl
  | cons c cs ih =>
    rw [List.map_cons, forWorkers, hf c List.mem_cons_self, ih fun d hd => hf d (List.mem_cons_of_mem _ hd)]
    rfl

/-- The loop ends at the first worker that throws. -/
theorem forWorkers_ne_ok {f : Worker → Except ThreadFault (Worker × List Int)} {workers : List Worker}
    {worker : Worker} (hmem : worker ∈ workers) {fault : ThreadFault} (hf : f worker = .error fault)
    (r : List Worker × List Int) : forWorkers f workers ≠ .ok r := by
  induction workers generalizing r with
  | nil => cases hmem
  | cons w ws ih =>
    intro h
    obtain ⟨x, hx, h⟩ := bind_eq_ok.1 h
    obtain ⟨y, hy, -⟩ := bind_eq_ok.1 h
    rcases List.mem_cons.1 hmem with rfl | hmem
    · rw [hf] at hx
      cases hx
    · exact ih hmem y hy

namespace Client

variable (c : Client)

theorem stop_worker : c.worker.stop = .ok (c.stopped, c.fds) := by
  cases c with
  | kv clientfd => rfl
  | proxy clientfd shardServers => rfl

theorem stop_stopped : c.stopped.stop = .error .invalidArgument := by
  cases c with
  | kv clientfd => rfl
  | proxy clientfd shardServers => rfl

theorem stopped_thread : c.stopped.thread = ⟨false, 1⟩ := by
  cases c with
  | kv clientfd => rfl
  | proxy clientfd shardServers => rfl

theorem destroy_stopped_kv (h : c.IsKv) : c.stopped.destroy = .ok (c.stopped, []) := by
  cases c with
  | kv clientfd => rfl
  | proxy clientfd shardServers => exact h.elim

theorem destroy_stopped_proxy (h : ¬ c.IsKv) : c.stopped.destroy = .error .invalidArgument := by
  cases c with
  | kv clientfd => exact absurd trivial h
  | proxy clientfd shardServers => rfl

end Client

/-! ## Every sequence of calls -/

/-- The first `Stop` closes every descriptor once and joins every thread. -/
theorem stop_accepted (sockFd : Int) (clients : List Client) :
    (Server.accepted sockFd clients).stop =
      .ok ⟨-1, clients.map Client.stopped, closeOnce sockFd ++ clients.flatMap Client.fds⟩ := by
  unfold Server.stop Server.accepted
  rw [forWorkers_map fun c _ => c.stop_worker]
  rfl

/-- Behind it, `Stop` throws where there is a worker. -/
theorem stop_ne_ok {s : Server} {c : Client} (h : c.stopped ∈ s.workers) (s' : Server) :
    s.stop ≠ .ok s' := by
  intro hstop
  obtain ⟨r, hr, -⟩ := bind_eq_ok.1 hstop
  exact forWorkers_ne_ok h c.stop_stopped r hr

theorem run_ne_ok {s : Server} {c : Client} (h : c.stopped ∈ s.workers) (n : Nat) (s' : Server) :
    s.run n ≠ .ok s' := by
  intro hrun
  cases n with
  | zero =>
    obtain ⟨t, ht, -⟩ := bind_eq_ok.1 hrun
    exact stop_ne_ok h t ht
  | succ n =>
    obtain ⟨t, ht, -⟩ := bind_eq_ok.1 hrun
    exact stop_ne_ok h t ht

/-- `KvWorker`s that are destroyed with their server. -/
theorem destroy_kv (sockFd : Int) {clients : List Client} (hkv : ∀ c ∈ clients, c.IsKv) :
    (Server.accepted sockFd clients).run 0 =
      .ok ⟨-1, clients.map Client.stopped, closeOnce sockFd ++ clients.flatMap Client.fds⟩ := by
  have hdestroy : forWorkers Worker.destroy (clients.map Client.stopped) =
      .ok (clients.map Client.stopped, clients.flatMap fun _ => []) :=
    forWorkers_map fun c hc => c.destroy_stopped_kv (hkv c hc)
  have hnone : (clients.flatMap fun _ => ([] : List Int)) = [] := by simp
  rw [hnone] at hdestroy
  rw [Server.run, Server.destroy, stop_accepted, ok_bind, hdestroy, ok_bind]
  show Except.ok (Server.mk _ _ (_ ++ [])) = _
  rw [List.append_nil]

theorem run_nil {s : Server} (h : s.workers = []) (n : Nat) :
    ∃ s', s.run n = .ok s' ∧ s'.workers = [] := by
  induction n generalizing s with
  | zero =>
    rw [Server.run, Server.destroy, Server.stop, h]
    exact ⟨_, rfl, rfl⟩
  | succ n ih =>
    rw [Server.run, Server.stop, h]
    exact ih rfl

/-- A worker that has been stopped is not joinable. -/
theorem stop_joined {w w' : Worker} {closed : List Int} (h : w.stop = .ok (w', closed)) :
    w'.thread.joinable = false := by
  have joined : ∀ {t t' : ThreadHandle}, t.join = .ok t' → t'.joinable = false := by
    intro t t' h
    unfold ThreadHandle.join at h
    split at h
    · cases h
      rfl
    · cases h
  cases w with
  | kv clientfd thread =>
    obtain ⟨t, ht, h⟩ := bind_eq_ok.1 h
    cases h
    exact joined ht
  | proxy clientfd shardServers thread =>
    obtain ⟨t, ht, h⟩ := bind_eq_ok.1 h
    cases h
    exact joined ht

theorem forWorkers_stop_joined {ws ws' : List Worker} {closed : List Int}
    (h : forWorkers Worker.stop ws = .ok (ws', closed)) : ∀ w ∈ ws', w.thread.joinable = false := by
  induction ws generalizing ws' closed with
  | nil =>
    cases h
    simp
  | cons w ws ih =>
    obtain ⟨x, hx, h⟩ := bind_eq_ok.1 h
    obtain ⟨y, hy, h⟩ := bind_eq_ok.1 h
    cases h
    intro v hv
    rcases List.mem_cons.1 hv with rfl | hv
    · exact stop_joined hx
    · exact ih hy v hv

theorem forWorkers_avoids {f : Worker → Except ThreadFault (Worker × List Int)} {fault : ThreadFault}
    {ws : List Worker} (h : ∀ w ∈ ws, Avoids fault (f w)) : Avoids fault (forWorkers f ws) := by
  induction ws with
  | nil => exact .ok _
  | cons w ws ih =>
    refine .bind (h w List.mem_cons_self) ?_
    intro x _
    refine .bind (ih fun v hv => h v (List.mem_cons_of_mem _ hv)) ?_
    intro y _
    exact .ok _

theorem join_avoids (t : ThreadHandle) : Avoids .terminate t.join := by
  unfold ThreadHandle.join
  split
  · exact .ok _
  · intro h
    cases h

theorem destroy_avoids {t : ThreadHandle} (h : t.joinable = false) : Avoids .terminate t.destroy := by
  rw [ThreadHandle.destroy, h]
  exact .ok _

theorem Worker.stop_avoids (w : Worker) : Avoids .terminate w.stop := by
  cases w with
  | kv clientfd thread => exact .bind (join_avoids thread) fun _ _ => .ok _
  | proxy clientfd shardServers thread => exact .bind (join_avoids thread) fun _ _ => .ok _

theorem Worker.destroy_avoids {w : Worker} (h : w.thread.joinable = false) :
    Avoids .terminate w.destroy := by
  cases w with
  | kv clientfd thread => exact .bind (Stop.destroy_avoids h) fun _ _ => .ok _
  | proxy clientfd shardServers thread =>
    refine .bind (Worker.stop_avoids _) ?_
    intro x hx
    exact .bind (Stop.destroy_avoids (stop_joined hx)) fun _ _ => .ok _

theorem Server.stop_avoids (s : Server) : Avoids .terminate s.stop :=
  .bind (forWorkers_avoids fun w _ => w.stop_avoids) fun _ _ => .ok _

/-- **No worker is destroyed with a joinable thread**, since `~Server` stops it first. -/
theorem run_not_terminate (n : Nat) (s : Server) : Avoids .terminate (s.run n) := by
  induction n generalizing s with
  | zero =>
    refine .bind s.stop_avoids ?_
    intro t ht
    obtain ⟨r, hr, ht⟩ := bind_eq_ok.1 ht
    cases ht
    refine .bind (forWorkers_avoids fun w hw => ?_) fun _ _ => .ok _
    exact w.destroy_avoids (forWorkers_stop_joined hr w hw)
  | succ n ih =>
    refine .bind s.stop_avoids ?_
    intro t _
    exact ih t

/-- **When stopping is safe.**  Whatever clients were accepted and however often `Stop` was called
before the destruction: every thread is joined once, and none is destroyed joinable, exactly when
there are no workers, or `Stop` was not called and no worker is a proxy. -/
theorem joinedOnce_iff (sockFd : Int) (clients : List Client) (stops : Nat) :
    JoinedOnce stops (Server.accepted sockFd clients) ↔
      clients = [] ∨ (stops = 0 ∧ ∀ c ∈ clients, c.IsKv) := by
  constructor
  · rintro ⟨s', hrun, -, -⟩
    by_cases hnil : clients = []
    · exact .inl hnil
    · right
      obtain ⟨c, hc⟩ := List.exists_mem_of_ne_nil clients hnil
      cases stops with
      | zero =>
        refine ⟨rfl, ?_⟩
        intro d hd
        by_contra hproxy
        rw [Server.run, Server.destroy, stop_accepted, ok_bind] at hrun
        obtain ⟨r, hr, -⟩ := bind_eq_ok.1 hrun
        exact forWorkers_ne_ok (List.mem_map_of_mem hd) (d.destroy_stopped_proxy hproxy) r hr
      | succ n =>
        rw [Server.run, stop_accepted] at hrun
        exact absurd hrun (run_ne_ok (List.mem_map_of_mem hc) n s')
  · rintro (rfl | ⟨rfl, hkv⟩)
    · obtain ⟨s', hrun, hworkers⟩ := run_nil (s := Server.accepted sockFd []) rfl stops
      refine ⟨s', hrun, congrArg List.length hworkers, ?_⟩
      intro worker hmem
      rw [hworkers] at hmem
      cases hmem
    · refine ⟨_, destroy_kv sockFd hkv, by simp [Server.accepted], ?_⟩
      intro worker hmem
      obtain ⟨c, -, rfl⟩ := List.mem_map.1 hmem
      exact c.stopped_thread

/-- A server with one proxy is destroyed: `~Server` has stopped the proxy when `~ShardingProxyWorker`
stops it again.  A server with one `KvWorker` is stopped before. -/
theorem destroy_joined_twice :
    (Server.accepted 3 [.proxy 4 [5, 6]]).run 0 = .error .invalidArgument ∧
      (Server.accepted 3 [.kv 4]).run 1 = .error .invalidArgument ∧
      ¬ JoinedOnce 0 (Server.accepted 3 [.proxy 4 [5, 6]]) := by
  refine ⟨rfl, rfl, ?_⟩
  rintro ⟨s', hrun, -⟩
  cases hrun

end Stop

end SqpKv
