import SqpKv.Lib.Decimal
import SqpKv.Lib.Processes
import SqpKv.Protocol.Status
import SqpKv.Server.KvWorker

/-!
# Starting the servers (src/server/server_launcher.h, server_launcher.cc)

Every rank of the world opens a database, finds its shard id and takes part in
the handshake and in the resolution of addresses.  A rank is a program of
`Processes` with its database as memory (`none` where `db_` is null); the
messages are those of MPI, with the tag 0 all of them have.  What the machine
of a rank answers (RocksDB, `getifaddrs`, `getnameinfo`) is a `Host`.
-/

namespace SqpKv

open Wire Processes

/-- `"shard_id"`. -/
def shardIdKey : Bytes := [115, 104, 97, 114, 100, 95, 105, 100]

/-- One `MPI_INT`, or a number of `MPI_CHAR`. -/
inductive MpiMessage
  | int (v : Int)
  | chars (s : Bytes)

/-- What ends a rank before it returns: a fault, or an error of MPI, for a message of another type
than the receive asks for or a longer one. -/
inductive Abort
  | fault (e : Fault)
  | mpi

/-- A rank. -/
abbrev Rank (α : Type) := Proc (Option Store) MpiMessage Abort α

def NI_MAXHOST : Nat := 1025

/-- A string that `getnameinfo` writes into `char host[NI_MAXHOST]`. -/
structure HostName where
  name : Bytes
  noNul : 0 ∉ name
  fits : name.length < NI_MAXHOST

/-- An entry of the list `getifaddrs` makes; `nameInfo` is what `getnameinfo` finds. -/
structure Interface where
  name : Bytes
  hasAddr : Bool
  isInet : Bool
  nameInfo : Option HostName

/-- The machine of a rank: whether `db_->Get` fails with another status than NotFound, whether
`db_->Put` succeeds, what `getifaddrs` gives, the bytes of an array that nobody has written, and
the text of `strerror(errno)`. -/
structure Host where
  getFails : Bool
  putOk : Bool
  interfaces : Option (List Interface)
  indeterminate : Bytes
  errorText : Bytes

/-- The members of the launcher.  `id_to_rank[id]` is 0 for an id nobody has entered. -/
structure ServerLauncher where
  shardId : Int
  worldSize : Nat
  worldRank : Nat
  proxyRank : Int
  ipAddresses : List Bytes
  idToRank : Int → Nat

/-- The constructor, and the rank and size that `MPI_Init` gives. -/
def ServerLauncher.init (worldSize worldRank : Nat) : ServerLauncher :=
  ⟨-1, worldSize, worldRank, -1, [], fun _ => 0⟩

/-! ## MPI -/

def Rank.ofExcept {α : Type} : Except Fault α → Rank α
  | .ok a => .done a
  | .error e => .fault (.fault e)

/-- `MPI_Send(&v, 1, MPI_INT, dest, ...)`. -/
def sendInt (dest : Nat) (v : Int) : Rank Unit := .send dest (.int v) (.done ())

/-- `MPI_Send(s, s.length, MPI_CHAR, dest, ...)`. -/
def sendChars (dest : Nat) (s : Bytes) : Rank Unit := .send dest (.chars s) (.done ())

/-- The int of a message. -/
def MpiMessage.toInt : MpiMessage → Rank Int
  | .int v => .done v
  | .chars _ => .fault .mpi

/-- The chars of a message, for a receive of at most `count` into `char[NI_MAXHOST]`. -/
def MpiMessage.toChars (count : Int) : MpiMessage → Rank Bytes
  | .int _ => .fault .mpi
  | .chars s =>
    if count < s.length then .fault .mpi
    else if NI_MAXHOST < s.length then .fault (.fault .outOfBounds)
    else .done s

/-- `MPI_Recv(&v, 1, MPI_INT, source, ...)`. -/
def recvInt (source : Nat) : Rank Int := .recv source MpiMessage.toInt

/-- `MPI_Recv(s, count, MPI_CHAR, source, ...)`. -/
def recvChars (source : Nat) (count : Int) : Rank Bytes := .recv source (MpiMessage.toChars count)

/-- `MPI_Bcast(&v, 1, MPI_INT, root, ...)`. -/
def bcastInt (root : Nat) (v : Int) : Rank Int := .bcast root (.int v) MpiMessage.toInt

/-! ## The shard id -/

/-- What `GetShardId` finds in the database `db`. -/
def loadShardId (h : Host) (worldRank : Nat) : Option Store → Except Fault Int
  | none => .ok (-1)
  | some db =>
    if h.getFails then .ok (-1)
    else
      match db[shardIdKey]? with
      | none => .ok worldRank
      | some value => stoi value

theorem loadShardId_some {h : Host} {rank : Nat} {db : Store} {value : Bytes}
    (hget : h.getFails = false) (hvalue : db[shardIdKey]? = some value) :
    loadShardId h rank (some db) = stoi value := by
  unfold loadShardId
  simp only [hget, hvalue, Bool.false_eq_true, if_false]

namespace ServerLauncher

/-- `GetShardId`. -/
def getShardId (h : Host) (l : ServerLauncher) : Rank ServerLauncher :=
  .load fun db => do
    let shardId ← Rank.ofExcept (loadShardId h l.worldRank db)
    return { l with shardId }

/-- Rank 0 on its own shard id (lines 104 to 108). -/
def startTable (l : ServerLauncher) : ServerLauncher :=
  { l with
    proxyRank := if l.shardId = -1 then -1 else l.worldRank
    idToRank := Function.update l.idToRank l.shardId l.worldRank }

/-- Rank 0 on the shard id of another rank (lines 113 to 118). -/
def enter (l : ServerLauncher) (rank : Nat) (commShardId : Int) : ServerLauncher :=
  { l with
    proxyRank :=
      if commShardId = -1 then -1
      else if l.proxyRank ≠ -1 ∧ commShardId = 0 then rank
      else l.proxyRank
    idToRank := Function.update l.idToRank commShardId rank }

/-- The loops `for (int i = 1; i < world_size_; i++)`. -/
def others (l : ServerLauncher) : List Nat := List.range' 1 (l.worldSize - 1)

/-- The first round of `ShakeHands` (lines 103 to 125). -/
def exchangeIds (l : ServerLauncher) : Rank ServerLauncher :=
  if l.worldRank = 0 then do
    let l ← l.others.foldlM (fun l rank => do
      let commShardId ← recvInt rank
      return l.enter rank commShardId) l.startTable
    let proxyRank ← bcastInt 0 l.proxyRank
    return { l with proxyRank }
  else do
    sendInt 0 l.shardId
    let proxyRank ← bcastInt 0 l.proxyRank
    return { l with proxyRank }

/-- `db_->Put(..., "shard_id", std::to_string(world_rank_))`, as the int `s.ok()`. -/
def putShardId (h : Host) (l : ServerLauncher) : Rank Int :=
  .load fun
    | none => .fault (.fault .nullPointer)
    | some db =>
      if h.putOk then .store (some (db.insert shardIdKey (decimal l.worldRank))) (.done 1)
      else .done 0

/-- The `&&` of two ints. -/
def both (a b : Int) : Int := if a ≠ 0 ∧ b ≠ 0 then 1 else 0

/-- The proxy on the `save_success` of another rank (lines 134 to 138). -/
def collectSave (l : ServerLauncher) (saveSuccess : Int) (shardId : Nat) : Rank Int := do
  let commSaveSuccess ← recvInt (l.idToRank shardId)
  return both commSaveSuccess saveSuccess

/-- The exchange of the second round of `ShakeHands` (lines 132 to 145). -/
def exchangeSaves (l : ServerLauncher) (saveSuccess : Int) : Rank Int :=
  if (l.worldRank : Int) = l.proxyRank then do
    let saveSuccess ← l.others.foldlM l.collectSave saveSuccess
    bcastInt l.proxyRank.toNat saveSuccess
  else do
    sendInt l.proxyRank.toNat saveSuccess
    bcastInt l.proxyRank.toNat saveSuccess

/-- Line 146. -/
def settle (l : ServerLauncher) (saveSuccess : Int) : ServerLauncher :=
  { l with proxyRank := if saveSuccess ≠ 0 then l.proxyRank else -1 }

/-- `ShakeHands` behind its first round. -/
def saveShardId (h : Host) (l : ServerLauncher) : Rank ServerLauncher :=
  if l.proxyRank = -1 then return l
  else do
    let saveSuccess ← l.putShardId h
    let saveSuccess ← l.exchangeSaves saveSuccess
    return l.settle saveSuccess

/-- `ShakeHands`. -/
def shakeHands (h : Host) (l : ServerLauncher) : Rank ServerLauncher := do
  let l ← l.exchangeIds
  l.saveShardId h

end ServerLauncher

/-! ## Addresses -/

/-- The C string at the front of an array. -/
def cString (buffer : Bytes) : Except Fault Bytes :=
  if 0 ∈ buffer then .ok (buffer.takeWhile (· ≠ 0)) else .error .outOfBounds

/-- The array after `s` was written to its front. -/
def overwrite (buffer s : Bytes) : Bytes := s ++ buffer.drop s.length

/-- `strncmp(ifa_name, "ib0", 3) == 0`. -/
def isInfiniband (name : Bytes) : Bool := [105, 98, 48].isPrefixOf name

/-- The loop of `GetInfinibandIp`; it goes on after an address was found. -/
def findAddress : List Interface → (ipFound : Bool) → (host : Bytes) → Int × Bytes
  | [], ipFound, host => (if ipFound then 0 else -1, host)
  | ifa :: rest, ipFound, host =>
    if ifa.hasAddr && isInfiniband ifa.name && ifa.isInet then
      match ifa.nameInfo with
      | none => (-1, host)
      | some found => findAddress rest true (overwrite host (found.name ++ [0]))
    else findAddress rest ipFound host

/-- `GetInfinibandIp`: what it returns and the array it was given. -/
def getInfinibandIp (h : Host) (host : Bytes) : Int × Bytes :=
  match h.interfaces with
  | none => (-1, host)
  | some list => findAddress list false host

/-- The locals of the proxy's loop in `ResolveIpAddresses`, and `ip_addresses_`. -/
structure AddressTable where
  ipAddress : Bytes
  success : Int
  ipAddresses : List Bytes

namespace ServerLauncher

/-- The proxy receives an address (lines 210 to 212). -/
def receiveName (rank : Nat) (size : Int) (t : AddressTable) : Rank AddressTable := do
  let s ← recvChars rank size
  let ipAddress := overwrite t.ipAddress s
  let address ← Rank.ofExcept (cString ipAddress)
  return { t with ipAddress, ipAddresses := t.ipAddresses ++ [address] }

/-- The body of this loop. -/
def receiveAddress (l : ServerLauncher) (t : AddressTable) (shardId : Nat) : Rank AddressTable := do
  let size ← recvInt (l.idToRank shardId)
  if size = -1 then return { t with success := 0 }
  else receiveName (l.idToRank shardId) size t

/-- What a shard sends of its address. -/
def sendAddress (dest : Nat) (found : Int × Bytes) : Rank Unit :=
  if found.1 = -1 then sendInt dest (-1)
  else do
    let address ← Rank.ofExcept (cString found.2)
    sendInt dest (address.length + 1)
    sendChars dest (found.2.take (address.length + 1))

/-- The exchange of `ResolveIpAddresses`: what is broadcast, and `ip_addresses_`. -/
def exchangeAddresses (l : ServerLauncher) (found : Int × Bytes) : Rank (Int × List Bytes) :=
  if (l.worldRank : Int) = l.proxyRank then do
    let t ← l.others.foldlM l.receiveAddress ⟨found.2, 1, l.ipAddresses⟩
    let success ← bcastInt l.proxyRank.toNat t.success
    return (success, t.ipAddresses)
  else do
    sendAddress l.proxyRank.toNat found
    let success ← bcastInt l.proxyRank.toNat 1
    return (success, l.ipAddresses)

/-- `ResolveIpAddresses`.  The proxy also writes its own address to a file. -/
def resolveIpAddresses (h : Host) (l : ServerLauncher) : Rank (ServerLauncher × Status) := do
  let r ← l.exchangeAddresses (getInfinibandIp h h.indeterminate)
  return ({ l with ipAddresses := r.2 }, if r.1 ≠ 0 then .Ok else .Err h.errorText)

/-- How `InitShardingConfig` ends. -/
inductive Launched
  | exited
  | started (l : ServerLauncher)

/-- `InitShardingConfig` behind `OpenDb`. -/
def initShardingConfig (h : Host) (l : ServerLauncher) : Rank Launched := do
  let l ← l.getShardId h
  let l ← l.shakeHands h
  if l.proxyRank = -1 then return .exited
  else do
    let r ← l.resolveIpAddresses h
    if r.2.ok then return .started r.1 else return .exited

end ServerLauncher

end SqpKv
