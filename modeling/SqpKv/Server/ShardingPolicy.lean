import SqpKv.Lib.Decimal
import SqpKv.Protocol.Packet

/-!
# Which shard a key belongs to (src/server/sharding_policy.h, sharding_policy.cc)

A key is a table name, an underscore and a decimal id.  `GetShardId` is the
remainder of the id, and `DispatchPacket` takes the shard with this number in
`shard_servers_`, counted from one.  For `n` shards and `m` the magnitude of
`n` as an `int` (`n` itself below `2 ^ 31`),

    the index is inside shard_servers_   iff  ¬ m ∣ id, m ≠ 0 and the table name fits an int
    shard s is the target of some key    iff  s + 1 < m                    (shardIndex_iff)

so keys whose id is a multiple of `n` go to no shard, and no key goes to the last.
-/

namespace SqpKv

open Wire

/-- The loop of `ExtractKey`: the index behind the first underscore, an `int`. -/
def findUnderscore : Bytes → Nat → Except Fault Nat
  | [], _ => .error .outOfBounds
  | b :: bs, idStart =>
    if 2 ^ 31 ≤ idStart + 1 then .error .signedOverflow
    else if b = 95 then .ok (idStart + 1)
    else findUnderscore bs (idStart + 1)

/-- `ShardingPolicy::ExtractKey`.  The search does not look at the size of the slice; an
underscore behind its end makes the length of the id string wrap. -/
def extractKey (key : Slice) : Except Fault Int :=
  match key.data with
  | none => .error .nullPointer
  | some data => do
    let idStart ← findUnderscore data 0
    if key.size < idStart then .error .lengthError
    else do
      let (idString, _) ← readN (key.size - idStart) (data.drop idStart)
      let id ← stoul idString
      return toInt32 id

/-- `RoundRobinShardingPolicy::GetShardId`. -/
def getShardId (numNodes : Int) (key : Slice) : Except Fault Int := do
  let id ← extractKey key
  if numNodes = 0 then .error .divisionByZero
  else if id = -2 ^ 31 ∧ numNodes = -1 then .error .signedOverflow
  else return Int.tmod id numNodes

/-- The index `DispatchPacket` takes into `shard_servers_` when there are `n` of them; the policy
was built for `server_fds.size()` nodes, an `int`. -/
def shardIndex (n : Nat) (key : Slice) : Except Fault Int := do
  let shardId ← getShardId (toInt32 n) key
  return shardId - 1

/-- The index is one of `shard_servers_`. -/
def IndexInside (n : Nat) (index : Except Fault Int) : Prop :=
  ∃ i : Nat, index = .ok i ∧ i < n

/-- The key `table_id`. -/
def clientKey (table : Bytes) (id : Nat) : Bytes := table ++ 95 :: decimal id

/-- A slice of exactly the bytes `s`. -/
def Slice.of (s : Bytes) : Slice := ⟨some s, s.length⟩

theorem findUnderscore_append {table : Bytes} (h : 95 ∉ table) (rest : Bytes) (i : Nat) :
    findUnderscore (table ++ 95 :: rest) i =
      if 2 ^ 31 ≤ i + table.length + 1 then .error .signedOverflow
      else .ok (i + table.length + 1) := by
  induction table generalizing i with
  | nil => simp [findUnderscore]
  | cons b table ih =>
    rw [List.mem_cons, not_or] at h
    rw [List.cons_append, findUnderscore, ih h.2, if_neg (Ne.symm h.1), List.length_cons]
    by_cases hi : 2 ^ 31 ≤ i + 1
    · rw [if_pos hi, if_pos (by omega)]
    · rw [if_neg hi, show i + 1 + table.length + 1 = i + (table.length + 1) + 1 by omega]

theorem extractKey_clientKey {table : Bytes} (h : 95 ∉ table) {id : Nat} (hid : id < 2 ^ 64) :
    extractKey (.of (clientKey table id)) =
      if 2 ^ 31 ≤ table.length + 1 then .error .signedOverflow else .ok (toInt32 id) := by
  have hfind := findUnderscore_append h (decimal id) 0
  rw [Nat.zero_add] at hfind
  have hsize : (Slice.of (clientKey table id)).size = table.length + 1 + (decimal id).length := by
    simp only [Slice.of, clientKey, List.length_append, List.length_cons]
    omega
  have hdrop : (clientKey table id).drop (table.length + 1) = decimal id := by
    rw [clientKey, ← List.drop_drop, List.drop_left]
    rfl
  unfold extractKey
  show findUnderscore (table ++ 95 :: decimal id) 0 >>= _ = _
  rw [hfind]
  by_cases hlen : 2 ^ 31 ≤ table.length + 1
  · rw [if_pos hlen, if_pos hlen]
    rfl
  · rw [if_neg hlen, if_neg hlen]
    have hread : readN ((Slice.of (clientKey table id)).size - (table.length + 1))
        ((clientKey table id).drop (table.length + 1)) = .ok (decimal id, []) :=
      readN_eq_ok.2 ⟨by omega, by rw [hdrop, List.append_nil]⟩
    show (if (Slice.of (clientKey table id)).size < table.length + 1 then _ else _) = _
    rw [if_neg (by omega)]
    refine bind_eq_ok.2 ⟨(decimal id, []), hread, ?_⟩
    exact bind_eq_ok.2 ⟨id, stoul_decimal hid, rfl⟩

/-- The index for the key `table_id`. -/
theorem shardIndex_clientKey (n : Nat) {table : Bytes} (h : 95 ∉ table)
    (hlen : table.length + 1 < 2 ^ 31) {id : Nat} (hid : id < 2 ^ 31) (hn : toInt32 n ≠ 0) :
    shardIndex n (.of (clientKey table id)) = .ok ((id % (toInt32 n).natAbs : Nat) - 1) := by
  have hkey := extractKey_clientKey h (show id < 2 ^ 64 by omega)
  rw [if_neg (by omega), toInt32_of_lt hid] at hkey
  have hshard : getShardId (toInt32 n) (.of (clientKey table id)) =
      .ok (Int.tmod id (toInt32 n)) := by
    refine bind_eq_ok.2 ⟨id, hkey, ?_⟩
    rw [if_neg hn, if_neg (by omega)]
    rfl
  refine bind_eq_ok.2 ⟨Int.tmod id (toInt32 n), hshard, ?_⟩
  -- the remainder of a number that is not negative has no sign
  have hmod : Int.tmod id (toInt32 n) = (id % (toInt32 n).natAbs : Nat) := by
    have hnonneg := Int.tmod_nonneg (toInt32 n) (Int.natCast_nonneg id)
    have habs := Int.natAbs_tmod id (toInt32 n)
    rw [Int.natAbs_natCast] at habs
    omega
  rw [hmod]
  rfl

/-- Where the search for the underscore overflows, or the number of nodes is no `int` but zero,
there is no index. -/
theorem shardIndex_eq_ok {n : Nat} {table : Bytes} (h : 95 ∉ table) {id : Nat} (hid : id < 2 ^ 31)
    {i : Int} (hi : shardIndex n (.of (clientKey table id)) = .ok i) :
    table.length + 1 < 2 ^ 31 ∧ toInt32 n ≠ 0 := by
  have hkey := extractKey_clientKey h (show id < 2 ^ 64 by omega)
  unfold shardIndex getShardId at hi
  obtain ⟨shardId, hshard, -⟩ := bind_eq_ok.1 hi
  obtain ⟨id', hid', hshard⟩ := bind_eq_ok.1 hshard
  rw [hkey] at hid'
  split at hid'
  · cases hid'
  · next hlen =>
    refine ⟨by omega, ?_⟩
    intro h0
    rw [if_pos h0] at hshard
    cases hshard

/-- **Which keys and which shards are served.**  With `n` shards, for keys `table_id` with an id
below `2 ^ 31`. -/
theorem shardIndex_iff (n : Nat) :
    (∀ table id, 95 ∉ table → id < 2 ^ 31 →
      (IndexInside n (shardIndex n (.of (clientKey table id))) ↔
        table.length + 1 < 2 ^ 31 ∧ (toInt32 n).natAbs ≠ 0 ∧ ¬ (toInt32 n).natAbs ∣ id)) ∧
    ∀ s < n, (∃ table id, 95 ∉ table ∧ id < 2 ^ 31 ∧
        shardIndex n (.of (clientKey table id)) = .ok (s : Int)) ↔
      s + 1 < (toInt32 n).natAbs := by
  have hle := toInt32_natAbs_le n
  have hle31 := toInt32_natAbs_le_two_pow n
  constructor
  · intro table id htable hid
    rw [Nat.dvd_iff_mod_eq_zero]
    constructor
    · rintro ⟨i, hi, hlt⟩
      obtain ⟨hlen, hn⟩ := shardIndex_eq_ok htable hid hi
      rw [shardIndex_clientKey n htable hlen hid hn] at hi
      have := Except.ok.inj hi
      exact ⟨hlen, by omega, by omega⟩
    · rintro ⟨hlen, hm, hid0⟩
      have hlt := Nat.mod_lt id (Nat.pos_of_ne_zero hm)
      refine ⟨id % (toInt32 n).natAbs - 1, ?_, by omega⟩
      rw [shardIndex_clientKey n htable hlen hid (by omega)]
      congr 1
      omega
  · intro s hs
    constructor
    · rintro ⟨table, id, htable, hid, hi⟩
      obtain ⟨hlen, hn⟩ := shardIndex_eq_ok htable hid hi
      rw [shardIndex_clientKey n htable hlen hid hn] at hi
      have := Except.ok.inj hi
      have := Nat.mod_lt id (Int.natAbs_pos.2 hn)
      omega
    · intro hlt
      refine ⟨[], s + 1, by simp, by omega, ?_⟩
      rw [shardIndex_clientKey n (by simp) (by simp) (by omega) (by omega), Nat.mod_eq_of_lt hlt]
      congr 1
      omega

/-- Three shards: the key `t_3` is looked up at index -1, and no key goes to the last shard. -/
theorem shardIndex_outside :
    shardIndex 3 (.of (clientKey [116] 3)) = .ok (-1) ∧
      ¬ ∃ table id, 95 ∉ table ∧ id < 2 ^ 31 ∧
        shardIndex 3 (.of (clientKey table id)) = .ok 2 := by
  have h3 : toInt32 3 = 3 := rfl
  constructor
  · exact shardIndex_clientKey 3 (by decide) (by decide) (by decide) (by decide)
  · rintro ⟨table, id, htable, hid, hi⟩
    obtain ⟨hlen, hn⟩ := shardIndex_eq_ok htable hid hi
    rw [shardIndex_clientKey 3 htable hlen hid hn] at hi
    have := Except.ok.inj hi
    have h3 : (toInt32 (3 : Nat)).natAbs = 3 := rfl
    rw [h3] at this
    omega

end SqpKv
