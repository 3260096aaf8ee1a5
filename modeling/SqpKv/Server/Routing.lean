import Mathlib.Data.Nat.ModEq
import SqpKv.Server.ShardingPolicy

/-!
# Keys as clients send them (src/server/sharding_policy.cc)

Nothing looks at a key before `GetShardId` does.  It returns exactly for keys
that are a table name, an underscore and a `Numeral`, and it takes the remainder
of the number as an `int`:

    getShardId returns  ↔  Routable               (getShardId_returns_iff)
    its result is id % n  ↔  n divides what the conversion to int takes off id, and the int is not
                             negative or n divides it as well           (getShardId_clientKey_iff)
-/

namespace SqpKv

open Wire

/-- `num_nodes_` of `n` shards, and the id a key has. -/
def Routable (n : Nat) (key : Bytes) : Prop :=
  ∃ table rest negative ds, key = table ++ 95 :: rest ∧ 95 ∉ table ∧ table.length + 1 < 2 ^ 31 ∧
    Numeral rest negative ds ∧ digitsValue ds < 2 ^ 64 ∧ toInt32 n ≠ 0 ∧
    -- the only remainder that overflows
    ¬ (toInt32 n = -1 ∧ toInt32 ((if negative then (2 ^ 64 - digitsValue ds) % 2 ^ 64
      else digitsValue ds : Nat) : Int) = -2 ^ 31)

/-- The search ends behind the first underscore, if its `int` does not overflow before. -/
theorem findUnderscore_eq_ok {bs : Bytes} {k i : Nat} :
    findUnderscore bs k = .ok i ↔
      ∃ table rest, 95 ∉ table ∧ bs = table ++ 95 :: rest ∧ i = k + table.length + 1 ∧ i < 2 ^ 31 := by
  constructor
  · intro h
    induction bs generalizing k with
    | nil => cases h
    | cons b bs ih =>
      rw [findUnderscore] at h
      by_cases hlt : 2 ^ 31 ≤ k + 1
      · rw [if_pos hlt] at h
        cases h
      · rw [if_neg hlt] at h
        by_cases hb : b = 95
        · rw [if_pos hb] at h
          cases h
          exact ⟨[], bs, List.not_mem_nil, by rw [hb]; rfl, rfl, Nat.not_le.1 hlt⟩
        · rw [if_neg hb] at h
          obtain ⟨table, rest, hmem, rfl, hi, hlt'⟩ := ih h
          refine ⟨b :: table, rest, ?_, rfl, ?_, hlt'⟩
          · rw [List.mem_cons, not_or]
            exact ⟨Ne.symm hb, hmem⟩
          · rw [List.length_cons]
            omega
  · rintro ⟨table, rest, hmem, rfl, rfl, hlt⟩
    rw [findUnderscore_append hmem, if_neg (Nat.not_le.2 hlt)]

/-- `ExtractKey` returns when it finds the underscore inside the key and a number behind it. -/
theorem extractKey_eq_ok {key tail : Bytes} {id : Int} :
    extractKey ⟨some (key ++ tail), key.length⟩ = .ok id ↔
      ∃ table rest v, key = table ++ 95 :: rest ∧ 95 ∉ table ∧ table.length + 1 < 2 ^ 31 ∧
        stoul rest = .ok v ∧ id = toInt32 v := by
  show (findUnderscore (key ++ tail) 0 >>= fun idStart =>
    if key.length < idStart then .error .lengthError
    else readN (key.length - idStart) ((key ++ tail).drop idStart) >>= fun x =>
      stoul x.1 >>= fun v => .ok (toInt32 v)) = .ok id ↔ _
  rw [bind_eq_ok]
  constructor
  · rintro ⟨idStart, hfind, h⟩
    obtain ⟨table, more, hmem, hsplit, rfl, hlt⟩ := findUnderscore_eq_ok.1 hfind
    rw [Nat.zero_add] at h hlt
    by_cases hle : key.length < table.length + 1
    · rw [if_pos hle] at h
      cases h
    · rw [if_neg hle] at h
      obtain ⟨⟨idString, unread⟩, hread, h⟩ := bind_eq_ok.1 h
      obtain ⟨v, hv, h⟩ := bind_eq_ok.1 h
      -- the underscore is in the key, and the id is what follows it there
      have hkey : key = table ++ 95 :: key.drop (table.length + 1) := by
        have htake := congrArg (List.take (table.length + 1)) hsplit
        rw [List.take_append_of_le_length (by omega), ← List.singleton_append, ← List.append_assoc,
          List.take_left' (by simp)] at htake
        have hjoin := List.take_append_drop (table.length + 1) key
        rw [htake, List.append_assoc, List.singleton_append] at hjoin
        exact hjoin.symm
      have hid : idString = key.drop (table.length + 1) := by
        obtain ⟨hlen, hdrop⟩ := readN_eq_ok.1 hread
        rw [List.drop_append_of_le_length (by omega)] at hdrop
        exact (List.append_inj hdrop (by rw [List.length_drop, hlen])).1.symm
      exact ⟨table, _, v, hkey, hmem, hlt, by rw [← hid]; exact hv, (Except.ok.inj h).symm⟩
  · rintro ⟨table, rest, v, rfl, hmem, hlt, hv, hid⟩
    refine ⟨table.length + 1, findUnderscore_eq_ok.2 ⟨table, rest ++ tail, hmem, ?_, ?_, hlt⟩, ?_⟩
    · rw [List.append_assoc, List.cons_append]
    · rw [Nat.zero_add]
    · have hlen : (table ++ 95 :: rest).length = table.length + 1 + rest.length := by
        simp
        omega
      have hdrop : (table ++ 95 :: rest ++ tail).drop (table.length + 1) = rest ++ tail := by
        rw [List.append_assoc, ← List.drop_drop, List.drop_left]
        rfl
      rw [if_neg (by omega), hlen, hdrop, Nat.add_sub_cancel_left]
      refine bind_eq_ok.2 ⟨(rest, tail), readN_eq_ok.2 ⟨rfl, rfl⟩, ?_⟩
      exact bind_eq_ok.2 ⟨v, hv, by rw [hid]⟩

/-- The remainder is taken when the divisor is not zero and the quotient is an `int`. -/
theorem getShardId_eq_ok {numNodes : Int} {key : Slice} {shardId : Int} :
    getShardId numNodes key = .ok shardId ↔
      ∃ id, extractKey key = .ok id ∧ numNodes ≠ 0 ∧ ¬ (numNodes = -1 ∧ id = -2 ^ 31) ∧
        shardId = Int.tmod id numNodes := by
  unfold getShardId
  rw [bind_eq_ok]
  constructor
  · rintro ⟨id, hid, h⟩
    by_cases h0 : numNodes = 0
    · rw [if_pos h0] at h
      cases h
    · rw [if_neg h0] at h
      by_cases hmin : id = -2 ^ 31 ∧ numNodes = -1
      · rw [if_pos hmin] at h
        cases h
      · rw [if_neg hmin] at h
        exact ⟨id, hid, h0, fun h => hmin ⟨h.2, h.1⟩, (Except.ok.inj h).symm⟩
  · rintro ⟨id, hid, h0, hmin, rfl⟩
    refine ⟨id, hid, ?_⟩
    rw [if_neg h0, if_neg fun h => hmin ⟨h.2, h.1⟩]
    rfl

/-- **For which keys `GetShardId` returns.**  `n` shards, so a world of `n + 1` processes; `tail` is what
lies in memory behind the key. -/
theorem getShardId_returns_iff (n : Nat) (key tail : Bytes) :
    (∃ shardId, getShardId (toInt32 n) ⟨some (key ++ tail), key.length⟩ = .ok shardId) ↔
      Routable n key := by
  constructor
  · rintro ⟨shardId, h⟩
    obtain ⟨id, hid, h0, hmin, -⟩ := getShardId_eq_ok.1 h
    obtain ⟨table, rest, v, hkey, hmem, hlt, hv, hint⟩ := extractKey_eq_ok.1 hid
    obtain ⟨negative, ds, hnumeral, hds, hvalue⟩ := stoul_eq_ok.1 hv
    rw [hint, hvalue] at hmin
    exact ⟨table, rest, negative, ds, hkey, hmem, hlt, hnumeral, hds, h0, hmin⟩
  · rintro ⟨table, rest, negative, ds, hkey, hmem, hlt, hnumeral, hds, h0, hmin⟩
    refine ⟨_, getShardId_eq_ok.2 ⟨_, extractKey_eq_ok.2 ⟨table, rest, _, hkey, hmem, hlt,
      stoul_eq_ok.2 ⟨negative, ds, hnumeral, hds, rfl⟩, rfl⟩, h0, hmin, rfl⟩⟩

/-- With one shard: a key without an underscore is read past its end, and "a_" has no number.  With no
shard there is nothing to divide by. -/
theorem getShardId_faults :
    getShardId (toInt32 (1 : Nat)) ⟨some ([97] ++ []), 1⟩ = .error .outOfBounds ∧
      getShardId (toInt32 (1 : Nat)) ⟨some ([97] ++ [95, 49]), 1⟩ = .error .lengthError ∧
      getShardId (toInt32 (1 : Nat)) ⟨some ([97, 95] ++ []), 2⟩ = .error .invalidArgument ∧
      getShardId (toInt32 (0 : Nat)) ⟨some ([97, 95, 49] ++ []), 3⟩ = .error .divisionByZero := by
  decide

/-! ## Large ids -/

/-- What the conversion to `int` makes of a number: its low 32 bits, with a sign. -/
theorem toInt32_cases (N : Nat) :
    (N % 2 ^ 32 < 2 ^ 31 ∧ toInt32 N = (N % 2 ^ 32 : Nat)) ∨
      (2 ^ 31 ≤ N % 2 ^ 32 ∧ toInt32 N = -(2 ^ 32 - N % 2 ^ 32 : Nat)) := by
  unfold toInt32
  rw [Int.bmod_def]
  omega

/-- Numbers that differ by `k` have the same remainder when `n` divides `k`. -/
theorem mod_eq_add_mod_iff (m k n : Nat) : m % n = (m + k) % n ↔ n ∣ k := by
  have h := Nat.modEq_iff_dvd' (n := n) (Nat.le_add_right m k)
  rw [Nat.add_sub_cancel_left] at h
  exact h

/-- When the remainder of the `int` is that of the number. -/
theorem tmod_toInt32_iff (N n : Nat) :
    Int.tmod (toInt32 N) n = (N % n : Nat) ↔
      (N % 2 ^ 32 < 2 ^ 31 ∧ n ∣ 2 ^ 32 * (N / 2 ^ 32)) ∨
      (2 ^ 31 ≤ N % 2 ^ 32 ∧ n ∣ N ∧ n ∣ 2 ^ 32 * (N / 2 ^ 32 + 1)) := by
  have hsplit := Nat.mod_add_div N (2 ^ 32)
  rcases toInt32_cases N with ⟨hlow, heq⟩ | ⟨hhigh, heq⟩
  · rw [heq, ← Int.ofNat_tmod, Int.natCast_inj]
    have hmod := mod_eq_add_mod_iff (N % 2 ^ 32) (2 ^ 32 * (N / 2 ^ 32)) n
    rw [hsplit] at hmod
    rw [hmod]
    constructor
    · exact fun h => .inl ⟨hlow, h⟩
    · rintro (⟨-, h⟩ | ⟨hhigh, -⟩)
      · exact h
      · omega
  · -- a negative number has a remainder that is not positive
    rw [heq, Int.neg_tmod, ← Int.ofNat_tmod]
    have hboth : -(((2 ^ 32 - N % 2 ^ 32) % n : Nat) : Int) = (N % n : Nat) ↔
        (2 ^ 32 - N % 2 ^ 32) % n = 0 ∧ N % n = 0 := by
      omega
    have hsum : N + (2 ^ 32 - N % 2 ^ 32) = 2 ^ 32 * (N / 2 ^ 32 + 1) := by
      omega
    rw [hboth, ← Nat.dvd_iff_mod_eq_zero, ← Nat.dvd_iff_mod_eq_zero, ← hsum]
    constructor
    · rintro ⟨hk, hN⟩
      exact .inr ⟨hhigh, hN, Nat.dvd_add hN hk⟩
    · rintro (⟨hlow, -⟩ | ⟨-, hN, hadd⟩)
      · omega
      · exact ⟨(Nat.dvd_add_right hN).1 hadd, hN⟩

/-- **For which ids the shard is the remainder of the id.** -/
theorem getShardId_clientKey_iff (n : Nat) (hn : 1 ≤ n) (hn31 : n < 2 ^ 31) (table : Bytes)
    (htable : 95 ∉ table) (N : Nat) (hN : N < 2 ^ 64) :
    getShardId (toInt32 n) (.of (clientKey table N)) = .ok (N % n : Nat) ↔
      table.length + 1 < 2 ^ 31 ∧
        ((N % 2 ^ 32 < 2 ^ 31 ∧ n ∣ 2 ^ 32 * (N / 2 ^ 32)) ∨
          (2 ^ 31 ≤ N % 2 ^ 32 ∧ n ∣ N ∧ n ∣ 2 ^ 32 * (N / 2 ^ 32 + 1))) := by
  have hkey := extractKey_clientKey htable hN
  rw [← tmod_toInt32_iff, toInt32_of_lt hn31, getShardId_eq_ok, hkey]
  by_cases hlen : 2 ^ 31 ≤ table.length + 1
  · rw [if_pos hlen]
    refine iff_of_false ?_ fun h => absurd h.1 (Nat.not_lt.2 hlen)
    rintro ⟨id, hid, -⟩
    cases hid
  · rw [if_neg hlen]
    constructor
    · rintro ⟨id, hid, -, -, hmod⟩
      rw [← Except.ok.inj hid] at hmod
      exact ⟨Nat.not_le.1 hlen, hmod.symm⟩
    · rintro ⟨-, hmod⟩
      exact ⟨_, rfl, by omega, by omega, hmod.symm⟩

/-- The id `2 ^ 32` among two shards. -/
theorem getShardId_clientKey_even :
    getShardId (toInt32 (2 : Nat)) (.of (clientKey [116] 4294967296)) = .ok (4294967296 % 2 : Nat) ↔
      [(116 : UInt8)].length + 1 < 2 ^ 31 ∧
        ((4294967296 % 2 ^ 32 < 2 ^ 31 ∧ 2 ∣ 2 ^ 32 * (4294967296 / 2 ^ 32)) ∨
          (2 ^ 31 ≤ 4294967296 % 2 ^ 32 ∧ 2 ∣ 4294967296 ∧ 2 ∣ 2 ^ 32 * (4294967296 / 2 ^ 32 + 1))) :=
  getShardId_clientKey_iff 2 (by decide) (by decide) [116] (by decide) 4294967296 (by decide)

/-- The id `2 ^ 31` among three shards: its shard is -2. -/
theorem getShardId_negative :
    getShardId (toInt32 (3 : Nat)) (.of (clientKey [116] 2147483648)) = .ok (-2) ∧
      ¬ getShardId (toInt32 (3 : Nat)) (.of (clientKey [116] 2147483648)) =
        .ok (2147483648 % 3 : Nat) := by
  have hkey := extractKey_clientKey (show 95 ∉ [(116 : UInt8)] by decide) (show 2147483648 < 2 ^ 64 by decide)
  rw [if_neg (by decide)] at hkey
  have hshard : getShardId (toInt32 (3 : Nat)) (.of (clientKey [116] 2147483648)) = .ok (-2) := by
    rw [getShardId_eq_ok]
    exact ⟨_, hkey, by decide, by decide, by decide⟩
  rw [hshard]
  exact ⟨rfl, by decide⟩

end SqpKv
