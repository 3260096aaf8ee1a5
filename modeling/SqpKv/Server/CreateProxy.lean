import SqpKv.Protocol.Status

/-!
# Connecting to the shards (src/protocol/net_utils.cc, CreateProxy of sharding_proxy_worker.cc)

`SockConnectTo` opens a socket, looks the host up and connects; it returns the
descriptor or -1, and in the second case does not close the socket it opened.
`CreateProxy` connects to one host after the other and gives up where
`server_fd << 0` is not zero.  That is so for every descriptor and for -1:

    all or nothing  ↔  there are no hosts, or no socket was opened for the first      (createProxy_atomic_iff)

`Connection::ConnectTo` compares with -1.
-/

namespace SqpKv

open Wire

/-- The `sockaddr_in` of a connection. -/
structure SockAddr where
  addr : Bytes
  port : Nat

/-- What the system calls for the `i`-th host return: the descriptor of `socket`, the address
`gethostbyname` finds, and the result of `connect`. -/
structure SocketCalls where
  socket : Nat → Int
  gethostbyname : Nat → Bytes → Option Bytes
  connect : Nat → Int → SockAddr → Int

/-- `htons`, up to the order of the bytes: the conversion to 16 bits. -/
def htons (port : Int) : Nat := (port % 2 ^ 16).toNat

/-- `SockConnectTo`: what it returns, and the descriptors it opened. -/
def sockConnectTo (os : SocketCalls) (i : Nat) (hostname : Bytes) (port : Int) : Int × List Int :=
  let sockfd := os.socket i
  if sockfd < 0 then (-1, [])
  else
    match os.gethostbyname i hostname with
    | none => (-1, [sockfd])
    | some addr =>
      if os.connect i sockfd ⟨addr, htons port⟩ < 0 then (-1, [sockfd]) else (sockfd, [sockfd])

/-- The three calls for the `i`-th host succeed. -/
def SocketCalls.Connects (os : SocketCalls) (i : Nat) (hostname : Bytes) (port : Int) : Prop :=
  0 ≤ os.socket i ∧ ∃ addr, os.gethostbyname i hostname = some addr ∧
    0 ≤ os.connect i (os.socket i) ⟨addr, htons port⟩

/-- `socket` does not return 0, the descriptor of the standard input. -/
def SocketCalls.Positive (os : SocketCalls) : Prop := ∀ i, os.socket i < 0 ∨ 0 < os.socket i

/-- The outcomes of `SockConnectTo`. -/
theorem sockConnectTo_cases (os : SocketCalls) (i : Nat) (hostname : Bytes) (port : Int) :
    (os.socket i < 0 ∧ ¬ os.Connects i hostname port ∧
      sockConnectTo os i hostname port = (-1, [])) ∨
    (0 ≤ os.socket i ∧ ¬ os.Connects i hostname port ∧
      sockConnectTo os i hostname port = (-1, [os.socket i])) ∨
    (0 ≤ os.socket i ∧ os.Connects i hostname port ∧
      sockConnectTo os i hostname port = (os.socket i, [os.socket i])) := by
  unfold sockConnectTo SocketCalls.Connects
  by_cases hsocket : os.socket i < 0
  · refine .inl ⟨hsocket, fun h => ?_, if_pos hsocket⟩
    omega
  · have hopen := Int.not_lt.1 hsocket
    refine .inr ?_
    simp only [if_neg hsocket]
    cases hlookup : os.gethostbyname i hostname with
    | none => exact .inl ⟨hopen, by simp, rfl⟩
    | some addr =>
      by_cases hconnect : os.connect i (os.socket i) ⟨addr, htons port⟩ < 0
      · refine .inl ⟨hopen, ?_, if_pos hconnect⟩
        rintro ⟨-, _, haddr, h⟩
        obtain rfl := Option.some.inj haddr
        omega
      · exact .inr ⟨hopen, ⟨hopen, addr, rfl, Int.not_lt.1 hconnect⟩, if_neg hconnect⟩

/-! ## The proxy -/

/-- A `ShardingProxyWorker`, before its thread starts. -/
structure ShardingProxyWorker where
  clientfd : Int
  shardServers : List Int

/-- What `CreateProxy` returns, and the descriptors it opened and closed. -/
structure Created where
  result : StatusOr ShardingProxyWorker
  opened : List Int
  closed : List Int

/-- The loop over the host names: the status, `server_fds`, and the descriptors that were opened. -/
def connectAll (os : SocketCalls) (errorText : Bytes) (port : Int) :
    Nat → List Bytes → List Int → List Int → Status × List Int × List Int
  | _, [], serverFds, opened => (.Ok, serverFds, opened)
  | i, hostname :: hostnames, serverFds, opened =>
    let (serverFd, new) := sockConnectTo os i hostname port
    -- `server_fd << 0`, which is `server_fd`, negative or not
    if serverFd * 2 ^ 0 ≠ 0 then (.Err errorText, serverFds, opened ++ new)
    else connectAll os errorText port (i + 1) hostnames (serverFds ++ [serverFd]) (opened ++ new)

/-- `ShardingProxyWorker::CreateProxy`. -/
def createProxy (os : SocketCalls) (errorText : Bytes) (hostnames : List Bytes) (port clientfd : Int) :
    Created :=
  let (s, serverFds, opened) := connectAll os errorText port 0 hostnames [] []
  if !s.ok then ⟨.ofStatus s, opened, serverFds⟩
  else ⟨.ofPtr (some ⟨clientfd, serverFds⟩), opened, []⟩

/-- Ok when all connections succeeded, with their descriptors in order; otherwise an error, and what was
opened is closed. -/
structure Created.Atomic (c : Created) (os : SocketCalls) (hostnames : List Bytes) (port : Int) : Prop where
  ok_iff : c.result.ok = true ↔
    ∀ i hostname, hostnames[i]? = some hostname → os.Connects i hostname port
  servers : c.result.ok = true → ∃ worker, c.result.obj = some worker ∧
    worker.shardServers = (List.range hostnames.length).map os.socket
  closed : c.result.ok = false → c.result.err = true ∧ ∀ fd ∈ c.opened, fd ∈ c.closed

/-- With a host name the loop ends behind the first connection, and nothing is closed. -/
theorem createProxy_cons {os : SocketCalls} (hos : os.Positive) (errorText hostname : Bytes)
    (hostnames : List Bytes) (port clientfd : Int) :
    createProxy os errorText (hostname :: hostnames) port clientfd =
      ⟨.ofStatus (.Err errorText), (sockConnectTo os 0 hostname port).2, []⟩ := by
  have hne : (sockConnectTo os 0 hostname port).1 * 2 ^ 0 ≠ 0 := by
    have hpos := hos 0
    obtain ⟨-, -, h⟩ | ⟨-, -, h⟩ | ⟨-, -, h⟩ := sockConnectTo_cases os 0 hostname port
    · simp [h]
    · simp [h]
    · rw [h]
      show os.socket 0 * 2 ^ 0 ≠ 0
      omega
  have hloop : connectAll os errorText port 0 (hostname :: hostnames) [] [] =
      (.Err errorText, [], (sockConnectTo os 0 hostname port).2) := by
    rw [connectAll]
    exact if_pos hne
  unfold createProxy
  rw [hloop]
  rfl

/-- **When creating a proxy is all or nothing.** -/
theorem createProxy_atomic_iff (os : SocketCalls) (hos : os.Positive) (errorText : Bytes)
    (hostnames : List Bytes) (port clientfd : Int) :
    (createProxy os errorText hostnames port clientfd).Atomic os hostnames port ↔
      hostnames = [] ∨ os.socket 0 < 0 := by
  cases hostnames with
  | nil =>
    refine iff_of_true ⟨?_, ?_, ?_⟩ (.inl rfl)
    · exact iff_of_true rfl fun i hostname h => nomatch h
    · intro _
      exact ⟨_, rfl, rfl⟩
    · intro h
      cases h
  | cons hostname hostnames =>
    rw [createProxy_cons hos]
    have hcases := sockConnectTo_cases os 0 hostname port
    constructor
    · intro h
      have hclosed := (h.closed rfl).2
      -- nothing is closed, so nothing may have been opened
      rcases hcases with ⟨hneg, -, -⟩ | ⟨-, -, heq⟩ | ⟨-, -, heq⟩
      · exact .inr hneg
      · rw [heq] at hclosed
        exact absurd (hclosed _ List.mem_cons_self) List.not_mem_nil
      · rw [heq] at hclosed
        exact absurd (hclosed _ List.mem_cons_self) List.not_mem_nil
    · rintro (h | hneg)
      · cases h
      · rcases hcases with ⟨-, hnot, heq⟩ | ⟨hopen, -, -⟩ | ⟨hopen, -, -⟩
        · rw [heq]
          refine ⟨iff_of_false (fun h => nomatch h) ?_, fun h => (nomatch h), ?_⟩
          · intro hall
            exact hnot (hall 0 hostname rfl)
          · intro _
            exact ⟨rfl, fun fd h => nomatch h⟩
        · omega
        · omega

/-- Every call succeeds; the descriptors are 3, 4, ... -/
def reachableHosts : SocketCalls where
  socket i := i + 3
  gethostbyname _ _ := some [10, 0, 0, 1]
  connect _ _ _ := 0

theorem reachableHosts_positive : reachableHosts.Positive := by
  intro i
  show (i : Int) + 3 < 0 ∨ 0 < (i : Int) + 3
  omega

/-- No descriptor is left. -/
def noSockets : SocketCalls where
  socket _ := -1
  gethostbyname _ _ := none
  connect _ _ _ := -1

theorem noSockets_positive : noSockets.Positive := by
  intro i
  show (-1 : Int) < 0 ∨ 0 < (-1 : Int)
  omega

/-- The first of two sockets is not opened: an error, and nothing is left open. -/
theorem createProxy_atomic_noSockets :
    (createProxy noSockets [] [[104], [105]] 4242 3).Atomic noSockets [[104], [105]] 4242 :=
  (createProxy_atomic_iff noSockets noSockets_positive [] [[104], [105]] 4242 3).2 (.inr (by decide))

/-- One shard that can be reached: the proxy is not created, and its connection stays open. -/
theorem createProxy_reachable_fails :
    reachableHosts.Connects 0 [104] 4242 ∧
      (createProxy reachableHosts [] [[104]] 4242 7).result.ok = false ∧
      (createProxy reachableHosts [] [[104]] 4242 7).opened = [3] ∧
      (createProxy reachableHosts [] [[104]] 4242 7).closed = [] ∧
      ¬ (createProxy reachableHosts [] [[104]] 4242 7).Atomic reachableHosts [[104]] 4242 := by
  refine ⟨⟨by decide, _, rfl, by decide⟩, rfl, rfl, rfl, ?_⟩
  intro h
  have hclosed := (h.closed rfl).2 3 List.mem_cons_self
  cases hclosed

/-! ## The client -/

/-- `Connection::ConnectTo`: the socket of the connection, and the descriptors that were opened. -/
def Connection.connectTo (os : SocketCalls) (errorText hostname : Bytes) (port : Int) :
    StatusOr Int × List Int :=
  let (sockfd, opened) := sockConnectTo os 0 hostname port
  if sockfd = -1 then (.ofStatus (.Err errorText), opened) else (.ofPtr (some sockfd), opened)

/-- The client's test is right. -/
theorem Connection.connectTo_ok_iff (os : SocketCalls) (errorText hostname : Bytes) (port : Int) :
    (Connection.connectTo os errorText hostname port).1.ok = true ↔ os.Connects 0 hostname port := by
  unfold Connection.connectTo
  obtain ⟨-, hnot, h⟩ | ⟨-, hnot, h⟩ | ⟨hopen, hconnects, h⟩ :=
    sockConnectTo_cases os 0 hostname port
  · rw [h]
    exact iff_of_false (fun h => nomatch h) hnot
  · rw [h]
    exact iff_of_false (fun h => nomatch h) hnot
  · rw [h]
    refine iff_of_true ?_ hconnects
    simp only [if_neg (show os.socket 0 ≠ -1 by omega)]
    rfl

end SqpKv
