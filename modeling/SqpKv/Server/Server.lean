import SqpKv.Lib.Simulation
import SqpKv.Server.CreateProxy
import SqpKv.Server.Placement
import SqpKv.Server.Stop

/-!
# Accepting clients (src/server/server.cc, the worker factories, the end of server_launcher.cc)

`Run` makes rank 0 of a start a proxy and the others shards; each builds the one
`Server` of its process.  `Start` accepts clients until `Accept` returns false,
and gives each a worker of the factory.  No thread of a worker closes a
descriptor, only `Stop` does:

    Stop closes all that was opened  ↔  every client that was accepted got a worker   (stop_closes_iff)
    the proxy gives a client a worker  ↔  there are no shards                         (Up.serves_iff)
-/

namespace SqpKv

open Wire Processes Machine

/-! ## The factories -/

def Stop.Worker.clientfd : Stop.Worker → Int
  | .kv clientfd _ => clientfd
  | .proxy clientfd _ _ => clientfd

/-- A `WorkerFactory`: a `KvWorkerFactory` with the database of its process, or a
`ShardingProxyWorkerFactory`. -/
inductive WorkerFactory
  | kv
  | proxy (hostnames : List Bytes) (port : Int)

/-- What `CreateWorker` returns, and the descriptors it opened and closed. -/
structure CreatedWorker where
  result : StatusOr Stop.Worker
  opened : List Int
  closed : List Int

/-- `CreateWorker`; the constructor of a worker starts its thread. -/
def WorkerFactory.createWorker (os : SocketCalls) (errorText : Bytes) (clientFd : Int) :
    WorkerFactory → CreatedWorker
  | .kv => ⟨.ofPtr (some (.kv clientFd .started)), [], []⟩
  | .proxy hostnames port =>
    let proxy := createProxy os errorText hostnames port clientFd
    if !proxy.result.ok then ⟨.ofStatus proxy.result.status, proxy.opened, proxy.closed⟩
    else ⟨.ofPtr (proxy.result.obj.map fun p => .proxy p.clientfd p.shardServers .started),
      proxy.opened, proxy.closed⟩

/-! ## The server -/

/-- A `Server`, the descriptors that have been opened and closed, and whether `Start` accepts more. -/
structure Server extends Stop.Server where
  workerFactory : WorkerFactory
  port : Int
  opened : List Int
  accepting : Bool

/-- What `socket` and `bind` return in `Start`. -/
structure ListenCalls where
  socket : Int
  bind : Int

/-- What the calls for one client return: `accept`, and those of `CreateWorker`. -/
structure AcceptCalls where
  accept : Int
  connect : SocketCalls

namespace Server

/-- `Server::Server`. -/
def init (workerFactory : WorkerFactory) (port : Int) : Server :=
  ⟨⟨-1, [], []⟩, workerFactory, port, [], false⟩

/-- `GetInstance`: the static member, which is also what is returned. -/
def getInstance (workerFactory : WorkerFactory) (port : Int) : Option Server → Option Server
  | none => if port > 0 then some (init workerFactory port) else none
  | some server => some server

/-- `Start` up to its loop. -/
def start (os : ListenCalls) (s : Server) : Server :=
  if os.socket < 0 then { s with sockFd := os.socket }
  else if os.bind < 0 then { s with sockFd := os.socket, opened := s.opened ++ [os.socket] }
  else { s with sockFd := os.socket, opened := s.opened ++ [os.socket], accepting := true }

/-- `Accept`. -/
def accept (errorText : Bytes) (os : AcceptCalls) (s : Server) : Bool × Server :=
  let clientFd := os.accept
  if clientFd < 0 then (false, s)
  else
    let worker := s.workerFactory.createWorker os.connect errorText clientFd
    let s := { s with
      opened := s.opened ++ clientFd :: worker.opened
      closed := s.closed ++ worker.closed }
    if !worker.result.ok then (false, s)
    else (true, { s with workers := s.workers ++ worker.result.obj.toList })

/-- The loop of `Start`.  A client that leaves is no step of it: its worker's thread returns from
`HandleClient`, which closes no descriptor and leaves the worker where it is. -/
def step (errorText : Bytes) (s : Server) (os : AcceptCalls) : Option Server :=
  if s.accepting then
    let (more, s) := s.accept errorText os
    some { s with accepting := more }
  else none

/-- The client that a call of `Accept` accepts. -/
def accepted (_ : Server) (os : AcceptCalls) : List Int := if os.accept < 0 then [] else [os.accept]

end Server

/-! ## The launcher -/

namespace ServerLauncher

/-- The factory of `ProxyMain` or `ShardMain`. -/
def workerFactory (port : Int) (l : ServerLauncher) : WorkerFactory :=
  if l.shardId = 0 then .proxy l.ipAddresses port else .kv

/-- `Run` behind `InitShardingConfig`, up to the loop of `Start`. -/
def run (port : Int) (os : ListenCalls) (l : ServerLauncher) : Except Fault Server :=
  match Server.getInstance (l.workerFactory port) port none with
  | none => .error .nullPointer
  | some server => .ok (server.start os)

end ServerLauncher

/-! ## One client -/

theorem connectAll_cons (os : SocketCalls) (errorText : Bytes) (port : Int) (i : Nat) (hostname : Bytes)
    (hostnames : List Bytes) (serverFds opened : List Int) :
    connectAll os errorText port i (hostname :: hostnames) serverFds opened =
      if (sockConnectTo os i hostname port).1 * 2 ^ 0 ≠ 0 then
        (.Err errorText, serverFds, opened ++ (sockConnectTo os i hostname port).2)
      else connectAll os errorText port (i + 1) hostnames
        (serverFds ++ [(sockConnectTo os i hostname port).1])
        (opened ++ (sockConnectTo os i hostname port).2) := rfl

/-- What is connected is in `server_fds`; where the loop gives up there may be one more socket. -/
theorem connectAll_opened (os : SocketCalls) (errorText : Bytes) (port : Int) (hostnames : List Bytes)
    (i : Nat) (serverFds opened : List Int) :
    ∃ fds new, (connectAll os errorText port i hostnames serverFds opened).2 =
        (serverFds ++ fds, opened ++ fds ++ new) ∧
      ((connectAll os errorText port i hostnames serverFds opened).1.ok = true → new = []) := by
  induction hostnames generalizing i serverFds opened with
  | nil => exact ⟨[], [], by simp [connectAll], fun _ => rfl⟩
  | cons hostname hostnames ih =>
    rw [connectAll_cons]
    by_cases hne : (sockConnectTo os i hostname port).1 * 2 ^ 0 ≠ 0
    · rw [if_pos hne]
      refine ⟨[], (sockConnectTo os i hostname port).2, by simp, ?_⟩
      intro hok
      cases hok
    · -- the descriptor is 0, so the connection was made
      have hopened : (sockConnectTo os i hostname port).2 =
          [(sockConnectTo os i hostname port).1] := by
        obtain ⟨-, -, h⟩ | ⟨-, -, h⟩ | ⟨-, -, h⟩ := sockConnectTo_cases os i hostname port
        · simp [h] at hne
        · simp [h] at hne
        · rw [h]
      obtain ⟨fds, new, heq, hok⟩ := ih (i + 1) (serverFds ++ [(sockConnectTo os i hostname port).1])
        (opened ++ (sockConnectTo os i hostname port).2)
      rw [if_neg hne]
      refine ⟨(sockConnectTo os i hostname port).1 :: fds, new, ?_, hok⟩
      rw [heq, hopened]
      simp

/-- The two outcomes of `CreateProxy`. -/
theorem createProxy_cases (os : SocketCalls) (errorText : Bytes) (hostnames : List Bytes)
    (port clientfd : Int) :
    (∃ fds, createProxy os errorText hostnames port clientfd =
      ⟨.ofPtr (some ⟨clientfd, fds⟩), fds, []⟩) ∨
    ∃ status closed new, status.ok = false ∧
      createProxy os errorText hostnames port clientfd = ⟨.ofStatus status, closed ++ new, closed⟩ := by
  obtain ⟨fds, new, heq, hnew⟩ := connectAll_opened os errorText port hostnames 0 [] []
  have hproxy : createProxy os errorText hostnames port clientfd =
      if !(connectAll os errorText port 0 hostnames [] []).1.ok then
        ⟨.ofStatus (connectAll os errorText port 0 hostnames [] []).1,
          (connectAll os errorText port 0 hostnames [] []).2.2,
          (connectAll os errorText port 0 hostnames [] []).2.1⟩
      else ⟨.ofPtr (some ⟨clientfd, (connectAll os errorText port 0 hostnames [] []).2.1⟩),
        (connectAll os errorText port 0 hostnames [] []).2.2, []⟩ := rfl
  rw [heq] at hproxy
  cases hok : (connectAll os errorText port 0 hostnames [] []).1.ok with
  | true =>
    rw [hok, hnew hok] at hproxy
    exact .inl ⟨fds, by simpa using hproxy⟩
  | false =>
    rw [hok] at hproxy
    exact .inr ⟨_, fds, new, hok, by simpa using hproxy⟩

/-- A client gets a worker that will close what was opened for it, or what was opened for it is
closed, but for the client and perhaps a socket. -/
theorem WorkerFactory.createWorker_cases (f : WorkerFactory) (os : SocketCalls) (errorText : Bytes)
    {clientFd : Int} (hfd : 0 ≤ clientFd) :
    (∃ (c : Stop.Client) (opened : List Int), c.worker.clientfd = clientFd ∧
      c.fds = clientFd :: opened ∧
      f.createWorker os errorText clientFd = ⟨.ofPtr (some c.worker), opened, []⟩) ∨
    (f ≠ .kv ∧ ∃ status closed new, status.ok = false ∧
      f.createWorker os errorText clientFd = ⟨.ofStatus status, closed ++ new, closed⟩) := by
  have honce : Stop.closeOnce clientFd = [clientFd] := if_pos (by omega)
  cases f with
  | kv => exact .inl ⟨.kv clientFd, [], rfl, honce, rfl⟩
  | proxy hostnames port =>
    rcases createProxy_cases os errorText hostnames port clientFd with
      ⟨fds, hproxy⟩ | ⟨status, closed, new, hstatus, hproxy⟩
    · refine .inl ⟨.proxy clientFd fds, fds, rfl, ?_, ?_⟩
      · rw [Stop.Client.fds, honce]
        rfl
      · simp only [createWorker, hproxy]
        rfl
    · refine .inr ⟨by simp, status, closed, new, hstatus, ?_⟩
      simp only [createWorker, hproxy]
      exact if_pos (by simp [StatusOr.ok, StatusOr.ofStatus, hstatus])

/-- No proxy is made that has a shard to connect to. -/
theorem WorkerFactory.createWorker_proxy {os : SocketCalls} (hos : os.Positive)
    {errorText hostname : Bytes} {hostnames : List Bytes} {port clientFd : Int} :
    ((WorkerFactory.proxy (hostname :: hostnames) port).createWorker os errorText clientFd).result.ok =
      false := by
  simp only [createWorker, createProxy_cons hos]
  rfl

namespace Server

variable {errorText : Bytes} {s s' : Server} {os : AcceptCalls}

/-- The three outcomes of `Accept`. -/
theorem accept_cases (errorText : Bytes) (s : Server) (os : AcceptCalls) :
    (os.accept < 0 ∧ s.accept errorText os = (false, s)) ∨
    (0 ≤ os.accept ∧ ∃ c : Stop.Client, c.worker.clientfd = os.accept ∧
      (s.workerFactory.createWorker os.connect errorText os.accept).result = .ofPtr (some c.worker) ∧
      s.accept errorText os =
        (true, { s with opened := s.opened ++ c.fds, workers := s.workers ++ [c.worker] })) ∨
    (0 ≤ os.accept ∧ s.workerFactory ≠ .kv ∧ ∃ closed new, s.accept errorText os = (false, { s with
      opened := s.opened ++ os.accept :: (closed ++ new)
      closed := s.closed ++ closed })) := by
  by_cases hfd : os.accept < 0
  · exact .inl ⟨hfd, if_pos hfd⟩
  · right
    rw [accept, if_neg hfd]
    have hopen := Int.not_lt.1 hfd
    rcases s.workerFactory.createWorker_cases os.connect errorText hopen with
      ⟨c, opened, hclient, hfds, hworker⟩ | ⟨hkv, status, closed, new, hstatus, hworker⟩
    · rw [hworker]
      refine .inl ⟨hopen, c, hclient, rfl, ?_⟩
      simp only [hfds, List.append_nil]
      rfl
    · refine .inr ⟨hopen, hkv, closed, new, ?_⟩
      simp only [hworker]
      exact if_pos (by simp [StatusOr.ok, StatusOr.ofStatus, hstatus])

/-- A step of the loop: `accept` fails, a client gets its worker, or one gets none. -/
theorem step_cases (h : s.step errorText os = some s') :
    s.accepting = true ∧ s'.workerFactory = s.workerFactory ∧ s'.sockFd = s.sockFd ∧
    ((os.accept < 0 ∧ s' = { s with accepting := false }) ∨
    (0 ≤ os.accept ∧ ∃ c : Stop.Client, c.worker.clientfd = os.accept ∧
      (s.workerFactory.createWorker os.connect errorText os.accept).result = .ofPtr (some c.worker) ∧
      s' = { s with opened := s.opened ++ c.fds, workers := s.workers ++ [c.worker] }) ∨
    (0 ≤ os.accept ∧ s.workerFactory ≠ .kv ∧ ∃ closed new, s' = { s with
      opened := s.opened ++ os.accept :: (closed ++ new)
      closed := s.closed ++ closed
      accepting := false })) := by
  unfold step at h
  split at h
  · next haccepting =>
    refine ⟨haccepting, ?_⟩
    rcases accept_cases errorText s os with ⟨hfd, heq⟩ | ⟨hfd, c, hclient, hresult, heq⟩ |
      ⟨hfd, hkv, closed, new, heq⟩
    · rw [heq] at h
      cases h
      exact ⟨rfl, rfl, .inl ⟨hfd, rfl⟩⟩
    · rw [heq] at h
      cases h
      refine ⟨rfl, rfl, .inr (.inl ⟨hfd, c, hclient, hresult, ?_⟩)⟩
      rw [← haccepting]
    · rw [heq] at h
      cases h
      exact ⟨rfl, rfl, .inr (.inr ⟨hfd, hkv, closed, new, rfl⟩)⟩
  · cases h

/-! ## Descriptors -/

/-- Where the descriptors are that have been opened, when the clients `H` have been accepted: Stop
will close them, they are closed, or they are `left` by a client without a worker. -/
structure Ledger (s : Server) (H : List Int) (cs : List Stop.Client) (left : List Int) : Prop where
  workers : s.workers = cs.map Stop.Client.worker
  opened : s.opened.Perm (s.closed ++ (Stop.closeOnce s.sockFd ++ cs.flatMap Stop.Client.fds) ++ left)
  clients : (left = [] ∧ s.workers.map Stop.Worker.clientfd = H) ∨
    (left ≠ [] ∧ s.accepting = false ∧ s.workers.length < H.length)

theorem ledger_start (f : WorkerFactory) (port : Int) {os : ListenCalls}
    (hsocket : os.socket < 0 → os.socket = -1) : ((init f port).start os).Ledger [] [] [] := by
  have hopen : ∀ h : ¬ os.socket < 0, Stop.closeOnce os.socket = [os.socket] := by
    intro h
    exact if_pos (by omega)
  unfold start
  split
  · next h =>
    refine ⟨rfl, ?_, .inl ⟨rfl, rfl⟩⟩
    show List.Perm [] ([] ++ (Stop.closeOnce os.socket ++ []) ++ [])
    rw [hsocket h]
    rfl
  · next h =>
    split
    · refine ⟨rfl, ?_, .inl ⟨rfl, rfl⟩⟩
      show List.Perm [os.socket] ([] ++ (Stop.closeOnce os.socket ++ []) ++ [])
      rw [hopen h]
      rfl
    · refine ⟨rfl, ?_, .inl ⟨rfl, rfl⟩⟩
      show List.Perm [os.socket] ([] ++ (Stop.closeOnce os.socket ++ []) ++ [])
      rw [hopen h]
      rfl

theorem Ledger.step {H left : List Int} {cs : List Stop.Client} (h : s.Ledger H cs left)
    (hs : s.step errorText os = some s') :
    ∃ cs' left', s'.Ledger (H ++ s.accepted os) cs' left' := by
  obtain ⟨haccepting, -, -, hs⟩ := step_cases hs
  obtain ⟨rfl, hclients⟩ : left = [] ∧ s.workers.map Stop.Worker.clientfd = H := by
    rcases h.clients with hall | ⟨-, hno, -⟩
    · exact hall
    · rw [haccepting] at hno
      cases hno
  have hopened := h.opened
  rw [List.append_nil] at hopened
  rcases hs with ⟨hfd, rfl⟩ | ⟨hfd, c, hclient, -, rfl⟩ | ⟨hfd, -, closed, new, rfl⟩
  · rw [accepted, if_pos hfd, List.append_nil]
    exact ⟨cs, [], h.workers, h.opened, .inl ⟨rfl, hclients⟩⟩
  · rw [accepted, if_neg (by omega)]
    refine ⟨cs ++ [c], [], ?_, ?_, .inl ⟨rfl, ?_⟩⟩
    · show s.workers ++ [c.worker] = _
      rw [h.workers, List.map_append]
      rfl
    · show (s.opened ++ c.fds).Perm _
      rw [List.flatMap_append, List.flatMap_singleton, List.append_nil, ← List.append_assoc,
        ← List.append_assoc, List.append_assoc s.closed]
      exact hopened.append_right c.fds
    · show (s.workers ++ [c.worker]).map _ = _
      rw [List.map_append, hclients, ← hclient]
      rfl
  · rw [accepted, if_neg (by omega)]
    refine ⟨cs, os.accept :: new, h.workers, ?_, .inr ⟨by simp, rfl, ?_⟩⟩
    · show (s.opened ++ os.accept :: (closed ++ new)).Perm _
      refine (hopened.append_right _).trans (List.perm_iff_count.2 fun fd => ?_)
      simp only [List.count_append, List.count_cons]
      omega
    · show s.workers.length < _
      rw [← hclients]
      simp

/-- **When Stop closes all that was opened**, whatever the clients do. -/
theorem stop_closes_iff (errorText : Bytes) (f : WorkerFactory) (port : Int) (listen : ListenCalls)
    (hsocket : listen.socket < 0 → listen.socket = -1) (as : List AcceptCalls) (s : Server)
    (h : Machine.run (step errorText) ((init f port).start listen) as = some s) :
    ∃ t, s.toServer.stop = .ok t ∧ t.closed.Subperm s.opened ∧ (t.closed.Perm s.opened ↔
      s.workers.map Stop.Worker.clientfd =
        trace (step errorText) accepted ((init f port).start listen) as) := by
  have hemits : Emits (step errorText) accepted _ s _ := .of_run h
  obtain ⟨cs, left, hledger⟩ := hemits.invariant (I := fun s H => ∃ cs left, s.Ledger H cs left)
    ⟨[], [], ledger_start f port hsocket⟩
    fun s H os s' _ ⟨cs, left, hledger⟩ hs => hledger.step hs
  have hstop : s.toServer.stop = .ok ⟨-1, cs.map Stop.Client.stopped,
      s.closed ++ (Stop.closeOnce s.sockFd ++ cs.flatMap Stop.Client.fds)⟩ := by
    unfold Stop.Server.stop
    rw [hledger.workers, Stop.forWorkers_map fun c _ => c.stop_worker]
    rfl
  refine ⟨_, hstop, ?_, ?_⟩
  · exact (List.sublist_append_left _ left).subperm.trans hledger.opened.symm.subperm
  · have hlength := hledger.opened.length_eq
    rcases hledger.clients with ⟨rfl, hall⟩ | ⟨hleft, -, hlt⟩
    · refine iff_of_true ?_ hall
      have hopened := hledger.opened
      rw [List.append_nil] at hopened
      exact hopened.symm
    · refine iff_of_false ?_ ?_
      · intro hperm
        have hsame : (s.closed ++ (Stop.closeOnce s.sockFd ++ cs.flatMap Stop.Client.fds)).length =
            s.opened.length := hperm.length_eq
        have hpos := List.length_pos_of_ne_nil hleft
        rw [List.length_append] at hlength
        omega
      · intro hall
        rw [← hall, List.length_map] at hlt
        omega

/-- A proxy with a shard: the client that was accepted and the connection to the shard stay open. -/
theorem stop_leaves_open :
    ∃ s t, Machine.run (step []) ((init (.proxy [[104]] 4242) 4242).start ⟨5, 0⟩)
        [⟨7, reachableHosts⟩] = some s ∧
      s.toServer.stop = .ok t ∧ ¬ t.closed.Perm s.opened := by
  obtain ⟨t, ht, -, hiff⟩ := stop_closes_iff [] (.proxy [[104]] 4242) 4242 ⟨5, 0⟩ (by decide)
    [⟨7, reachableHosts⟩] _ rfl
  refine ⟨_, t, rfl, ht, fun hperm => ?_⟩
  cases hiff.1 hperm

/-! ## Who gets a worker -/

theorem start_fields (os : ListenCalls) (s : Server) :
    (s.start os).workerFactory = s.workerFactory ∧ (s.start os).workers = s.workers := by
  unfold start
  split
  · exact ⟨rfl, rfl⟩
  · split
    · exact ⟨rfl, rfl⟩
    · exact ⟨rfl, rfl⟩

/-- A shard gives every client it accepts a `KvWorker`. -/
theorem kv_serves {errorText : Bytes} {port : Int} {listen : ListenCalls} {as : List AcceptCalls}
    {s : Server} (h : Machine.run (step errorText) ((init .kv port).start listen) as = some s) :
    s.workers = (trace (step errorText) accepted ((init .kv port).start listen) as).map
      fun clientFd => .kv clientFd .started := by
  obtain ⟨hfactory, hworkers⟩ := start_fields listen (init .kv port)
  have hemits : Emits (step errorText) accepted _ s _ := .of_run h
  have hinv := hemits.invariant
    (I := fun s H => s.workerFactory = .kv ∧ s.workers = H.map fun clientFd => .kv clientFd .started)
    ⟨hfactory, by rw [hworkers]; rfl⟩ ?_
  · exact hinv.2
  · intro s H os s' _ ⟨hkv, hH⟩ hs
    obtain ⟨-, hfactory, -, hs⟩ := step_cases hs
    refine ⟨hfactory.trans hkv, ?_⟩
    rcases hs with ⟨hfd, rfl⟩ | ⟨hfd, c, -, hresult, rfl⟩ | ⟨-, hne, -⟩
    · rw [accepted, if_pos hfd, List.append_nil]
      exact hH
    · rw [accepted, if_neg (by omega), List.map_append, ← hH]
      rw [hkv] at hresult
      cases hc : c.worker with
      | kv clientfd thread =>
        rw [hc] at hresult
        cases hresult
        rfl
      | proxy clientfd shardServers thread =>
        rw [hc] at hresult
        cases hresult
    · exact absurd hkv hne

/-- The process may have `limit` descriptors open: with so many, `accept` fails. -/
def AcceptsWithin (limit : Nat) (s : Server) (os : AcceptCalls) : Prop :=
  0 ≤ os.accept → s.opened.length - s.closed.length < limit

/-- A shard holds its own descriptor and those of all its clients. -/
structure Room (limit : Nat) (s : Server) : Prop where
  kv : s.workerFactory = .kv
  closed : s.closed = []
  workers : s.workers.length ≤ limit - 1
  held : s.accepting = true → s.workers.length + 1 ≤ s.opened.length

theorem mem_fds {c : Stop.Client} (h : 0 ≤ c.worker.clientfd) : c.worker.clientfd ∈ c.fds := by
  have honce : Stop.closeOnce c.worker.clientfd = [c.worker.clientfd] := if_pos (by omega)
  cases c with
  | kv clientfd =>
    show clientfd ∈ Stop.closeOnce clientfd
    rw [show Stop.closeOnce clientfd = [clientfd] from honce]
    exact List.mem_singleton_self _
  | proxy clientfd shardServers =>
    show clientfd ∈ Stop.closeOnce clientfd ++ shardServers
    rw [show Stop.closeOnce clientfd = [clientfd] from honce]
    exact List.mem_cons_self

theorem Room.step {limit : Nat} (h : s.Room limit) (hlimit : AcceptsWithin limit s os)
    (hs : s.step errorText os = some s') : s'.Room limit := by
  obtain ⟨haccepting, hfactory, -, hs⟩ := step_cases hs
  have hheld := h.held haccepting
  rcases hs with ⟨-, rfl⟩ | ⟨hfd, c, hclient, -, rfl⟩ | ⟨-, hne, -⟩
  · exact ⟨h.kv, h.closed, h.workers, fun hno => by cases hno⟩
  · have hroom := hlimit hfd
    rw [h.closed, List.length_nil] at hroom
    have hpos : 0 < c.fds.length := List.length_pos_of_mem (mem_fds (hclient ▸ hfd))
    refine ⟨h.kv, h.closed, ?_, fun _ => ?_⟩
    · show (s.workers ++ [c.worker]).length ≤ limit - 1
      rw [List.length_append, List.length_singleton]
      omega
    · show (s.workers ++ [c.worker]).length + 1 ≤ (s.opened ++ c.fds).length
      rw [List.length_append, List.length_append, List.length_singleton]
      omega
  · exact absurd h.kv hne

/-- **The life of a shard.**  However many of its clients have left, it accepts less than `limit`. -/
theorem kv_lifetime (errorText : Bytes) (port : Int) (listen : ListenCalls) (limit : Nat)
    (as : List AcceptCalls) (s : Server)
    (h : Machine.run (step errorText) ((init .kv port).start listen) as = some s)
    (hlimit : ¬ Meets (step errorText) (fun s os => ¬ AcceptsWithin limit s os)
      ((init .kv port).start listen) as) :
    (trace (step errorText) accepted ((init .kv port).start listen) as).length ≤ limit - 1 := by
  have hlength := congrArg List.length (kv_serves h)
  rw [List.length_map] at hlength
  rw [← hlength]
  -- while it accepts, it has its own descriptor and those of all clients open
  have hstart : ((init .kv port).start listen).Room limit := by
    unfold start
    split
    · exact ⟨rfl, rfl, Nat.zero_le _, fun h => by cases h⟩
    · split
      · exact ⟨rfl, rfl, Nat.zero_le _, fun h => by cases h⟩
      · exact ⟨rfl, rfl, Nat.zero_le _, fun _ => Nat.le_refl 1⟩
  exact (run_of_not_meets (fun _ _ _ hroom hbad hs => hroom.step (not_not.1 hbad) hs) hstart h
    hlimit).workers

/-- With three descriptors it accepts two clients, and no third. -/
theorem kv_lifetime_three :
    (trace (step []) accepted ((init .kv 4242).start ⟨3, 0⟩)
      [⟨4, reachableHosts⟩, ⟨5, reachableHosts⟩, ⟨-1, reachableHosts⟩]).length ≤ 3 - 1 :=
  kv_lifetime [] 4242 ⟨3, 0⟩ 3 _ _ rfl (by
    rintro (h | ⟨_, hs, h | ⟨_, hs', h | ⟨_, -, h⟩⟩⟩)
    · exact h fun _ => by decide
    · cases hs
      exact h fun _ => by decide
    · cases hs
      cases hs'
      exact h fun hfd => absurd hfd (by decide)
    · exact h)

/-- A proxy with a shard never has a worker. -/
theorem proxy_serves_none {errorText hostname : Bytes} {hostnames : List Bytes} {port port' : Int}
    {listen : ListenCalls} {as : List AcceptCalls} (hos : ∀ os ∈ as, os.connect.Positive) {s : Server}
    (h : Machine.run (step errorText)
      ((init (.proxy (hostname :: hostnames) port) port').start listen) as = some s) :
    s.workers = [] := by
  obtain ⟨hfactory, hworkers⟩ := start_fields listen (init (.proxy (hostname :: hostnames) port) port')
  have keep : ∀ (s : Server) (os : AcceptCalls) (s' : Server),
      s.workerFactory = .proxy (hostname :: hostnames) port ∧ s.workers = [] →
      ¬ ¬ os.connect.Positive → s.step errorText os = some s' →
      s'.workerFactory = .proxy (hostname :: hostnames) port ∧ s'.workers = [] := by
    intro s os s' ⟨hproxy, hnone⟩ hpositive hs
    obtain ⟨-, hfactory, -, hs⟩ := step_cases hs
    refine ⟨hfactory.trans hproxy, ?_⟩
    rcases hs with ⟨-, rfl⟩ | ⟨-, c, -, hresult, -⟩ | ⟨-, -, closed, new, rfl⟩
    · exact hnone
    · have hok := congrArg StatusOr.ok hresult
      rw [hproxy, WorkerFactory.createWorker_proxy (not_not.1 hpositive)] at hok
      cases hok
    · exact hnone
  refine (run_of_not_meets keep ⟨hfactory, hworkers⟩ h ?_).2
  intro hmeets
  obtain ⟨bs, os, cs, t, rfl, -, hbad⟩ := hmeets.split
  exact hbad (hos os (by simp))

end Server

/-! ## The processes of a start -/

namespace Launch

variable {n : Nat} {L : Launch n} {disk : Fin (n + 1) → Store}
  {s : Net (n + 1) (Option Store) MpiMessage Abort ServerLauncher.Launched}
  {ids : Equiv.Perm (Fin (n + 1))} {server : Fin n → Fin (n + 1)}

/-- The process with the launcher `l` can accept clients of which it gives some a worker. -/
def Serves (l : ServerLauncher) (errorText : Bytes) (port : Int) : Prop :=
  ∃ listen server as server', l.run port listen = .ok server ∧
    (∀ os ∈ as, os.connect.Positive) ∧
    Machine.run (Server.step errorText) server as = some server' ∧ server'.workers ≠ []

theorem run_eq (l : ServerLauncher) (port : Int) (listen : ListenCalls) :
    l.run port listen = if port > 0 then
      .ok ((Server.init (l.workerFactory port) port).start listen) else .error .nullPointer := by
  unfold ServerLauncher.run Server.getInstance
  by_cases hport : port > 0
  · simp only [if_pos hport]
  · simp only [if_neg hport]

theorem run_eq_ok {l : ServerLauncher} {port : Int} {listen : ListenCalls} {server : Server}
    (h : l.run port listen = .ok server) :
    0 < port ∧ server = (Server.init (l.workerFactory port) port).start listen := by
  rw [run_eq] at h
  split at h
  · next hport =>
    cases h
    exact ⟨hport, rfl⟩
  · cases h

/-- **The roles of a start.**  The ranks the proxy connects to are shards, which give every client
they accept a `KvWorker`; the proxy gives one to a client only when there are no shards. -/
theorem Up.serves_iff (L : Launch n) (disk : Fin (n + 1) → Store) (ids : Equiv.Perm (Fin (n + 1)))
    (hfinds : L.Finds disk ids) (hzero : ids 0 = 0)
    (s : Net (n + 1) (Option Store) MpiMessage Abort ServerLauncher.Launched)
    (hs : Reachable Net.step (L.boot disk) s) (server : Fin n → Fin (n + 1)) (hup : L.Up s server)
    (errorText : Bytes) (port : Int) :
    (∀ j l, s.proc (server j) = .done (.started l) → ∀ listen srv as srv',
      l.run port listen = .ok srv → Machine.run (Server.step errorText) srv as = some srv' →
      srv.workerFactory = .kv ∧
        srv'.workers = (trace (Server.step errorText) Server.accepted srv as).map
          fun clientFd => .kv clientFd .started) ∧
    ∀ l, s.proc 0 = .done (.started l) → (Serves l errorText port ↔ n = 0 ∧ 0 < port) := by
  constructor
  · intro j l hl listen srv as srv' hrun h
    obtain ⟨hid, -, -⟩ := ServerLauncher.started_fields hzero (hfinds.loaded hs hl) hs hl
    have hne : l.shardId ≠ 0 := by
      rw [hid, hup.server_eq hfinds hzero hs, Equiv.apply_symm_apply, Fin.val_succ]
      omega
    have hkv : l.workerFactory port = .kv := if_neg hne
    obtain ⟨-, rfl⟩ := run_eq_ok hrun
    rw [hkv] at h ⊢
    exact ⟨(Server.start_fields listen (Server.init .kv port)).1, Server.kv_serves h⟩
  · intro l hl
    obtain ⟨hid, hfound, haddresses⟩ :=
      ServerLauncher.started_fields hzero (hfinds.loaded hs hl) hs hl
    have hproxy : l.workerFactory port = .proxy l.ipAddresses port := by
      refine if_pos ?_
      rw [hid, hzero]
      rfl
    constructor
    · rintro ⟨listen, srv, as, srv', hrun, hos, h, hne⟩
      obtain ⟨hport, rfl⟩ := run_eq_ok hrun
      refine ⟨?_, hport⟩
      by_contra hn
      -- the proxy has the address of the first shard
      have haddress := ServerLauncher.started_address hzero (hfinds.loaded hs hl) hs hl ⟨0, by omega⟩
      cases haddrs : l.ipAddresses with
      | nil =>
        rw [haddrs] at haddress
        exact hfound _ (ServerLauncher.symm_succ_ne_zero hzero _) haddress.symm
      | cons hostname hostnames =>
        rw [hproxy, haddrs] at h
        exact hne (Server.proxy_serves_none hos h)
    · rintro ⟨rfl, hport⟩
      have hnone : l.ipAddresses = [] := by
        rw [haddresses rfl, ServerLauncher.resolved_ipAddresses,
          ServerLauncher.informed_ipAddresses, ServerLauncher.others_informed]
        rfl
      refine ⟨⟨3, 0⟩, _, [⟨4, reachableHosts⟩], _, (run_eq l port _).trans (if_pos hport), ?_, rfl, ?_⟩
      · intro os hos
        rw [List.mem_singleton.1 hos]
        exact reachableHosts_positive
      · rw [hproxy, hnone]
        exact List.cons_ne_nil _ _

/-- Three ranks that hold their own numbers: the proxy gives no client a worker, the second shard
gives one to the client it accepts. -/
theorem serves_threeHosts :
    ∃ s l l', Reachable Net.step (threeHosts.boot (disks Fin.val)) s ∧ s.proc 0 = .done (.started l) ∧
      ¬ Serves l [] 4242 ∧ s.proc 2 = .done (.started l') ∧
      ∃ srv srv', l'.run 4242 ⟨3, 0⟩ = .ok srv ∧
        Machine.run (Server.step []) srv [⟨7, reachableHosts⟩] = some srv' ∧
        srv'.workers = [.kv 7 .started] := by
  have hfinds : threeHosts.Finds (disks Fin.val) (Equiv.refl _) := by
    intro i
    refine .inl (shardIdIn_insert ?_)
    show i.val < 2 ^ 31
    omega
  obtain ⟨s, server, hs, hup⟩ := threeHosts_sound.exists_up hfinds rfl
  obtain ⟨l, hl⟩ := hup.started 0
  obtain ⟨hshards, hproxy⟩ := Up.serves_iff threeHosts (disks Fin.val) (Equiv.refl _) hfinds rfl s hs
    server hup [] 4242
  obtain ⟨l', hl'⟩ := hup.started 2
  have hserver : s.proc (server 1) = .done (.started l') := by
    rw [hup.server_eq hfinds rfl hs]
    exact hl'
  have hrun := (run_eq l' 4242 ⟨3, 0⟩).trans (if_pos (by decide))
  have hkv : l'.workerFactory 4242 = .kv := (hshards 1 l' hserver ⟨3, 0⟩ _ [] _ hrun rfl).1
  rw [hkv] at hrun
  refine ⟨s, l, l', hs, hl, ?_, hl', _, _, hrun, rfl, ?_⟩
  · rw [hproxy l hl]
    omega
  · exact (hshards 1 l' hserver ⟨3, 0⟩ _ [⟨7, reachableHosts⟩] _ hrun rfl).2

end Launch

end SqpKv
