import SqpKv.Server.Handshake
import Mathlib.Data.Fin.Basic
import Mathlib.Data.Fintype.EquivFin

/-!
# What the ranks agree on

`ShakeHands` is all or nothing: the ranks that return have one proxy rank
(`handshake_all_or_nothing`).  The shard id is not part of what they agree on:
rank 0 enters its own id in the table like any other, and nobody checks that
the id of the proxy is 0.  So all ranks return with a proxy when the ids are
`Matched`, and their roles are unique only if rank 0 holds the id that is left
over (`roles_unique_iff`).
-/

namespace SqpKv

open Wire Processes Machine Function

namespace ServerLauncher

variable {n : Nat}

/-- Ids that are different and between 1 and `n` are all of these. -/
theorem matched_of_distinct {ids : Fin (n + 1) → Int}
    (hothers : ∀ i ≠ 0, 1 ≤ ids i ∧ ids i ≤ n)
    (hdistinct : ∀ i ≠ 0, ∀ j ≠ 0, ids i = ids j → i = j) : Matched ids := by
  have hpos : ∀ i : Fin n, 1 ≤ ids i.succ ∧ ids i.succ ≤ n := fun i =>
    hothers i.succ (Fin.succ_ne_zero i)
  let f : Fin n → Fin n := fun i => ⟨(ids i.succ).toNat - 1, by
    have := hpos i
    omega⟩
  have hinj : Injective f := by
    intro i j hij
    have hval : (ids i.succ).toNat - 1 = (ids j.succ).toNat - 1 := congrArg Fin.val hij
    have hi := hpos i
    have hj := hpos j
    exact Fin.succ_injective n
      (hdistinct _ (Fin.succ_ne_zero i) _ (Fin.succ_ne_zero j) (by omega))
  refine .inl fun s h1 hs => ?_
  obtain ⟨i, hi⟩ := Finite.injective_iff_surjective.1 hinj ⟨s - 1, by omega⟩
  have hval : (ids i.succ).toNat - 1 = s - 1 := congrArg Fin.val hi
  have hi := hpos i
  exact ⟨i.succ, Fin.succ_ne_zero i, by omega⟩

section

variable {host : Fin (n + 1) → Host} {db : Fin (n + 1) → Option Store} {ids : Fin (n + 1) → Int}
  (hload : ∀ i, loadShardId (host i) i (db i) = .ok (ids i))

include hload

/-- Every run of the handshake can be completed. -/
theorem handshake_completes (h : (∃ i, ids i = -1) ∨ Matched ids)
    {s : Net (n + 1) (Option Store) MpiMessage Abort ServerLauncher}
    (hs : Reachable Net.step (handshake host db) s) :
    ∃ t, Reachable Net.step s t ∧ ∀ i, t.Returned i := by
  have hend : ∃ t, Reachable Net.step (handshake host db) t ∧ ∀ i, t.Returned i := by
    rw [handshake_eq]
    by_cases hbad : ∃ i, ids i = -1
    · exact ⟨_, (shaking_fails hload (fun _ => .done) hbad).1, fun i => ⟨_, rfl⟩⟩
    · exact ⟨_, shaking_completes hload (fun _ => .done) (fun i hi => hbad ⟨i, hi⟩)
        (h.resolve_left hbad), fun i => ⟨_, rfl⟩⟩
  obtain ⟨t, ht, hreturned⟩ := hend
  exact ⟨t, Net.commutes.completes (Net.halted_of_returned hreturned) ht hs, hreturned⟩

end

/-- **The handshake is all or nothing**, and it ends. -/
theorem handshake_all_or_nothing (n : Nat) (host : Fin (n + 1) → Host)
    (db : Fin (n + 1) → Option Store) (ids : Fin (n + 1) → Int)
    (hload : ∀ i, loadShardId (host i) i (db i) = .ok (ids i))
    (hothers : ∀ i ≠ 0, ids i ≠ -1 → 1 ≤ ids i ∧ ids i ≤ n)
    (hdistinct : ∀ i ≠ 0, ∀ j ≠ 0, ids i ≠ -1 → ids i = ids j → i = j)
    (s : Net (n + 1) (Option Store) MpiMessage Abort ServerLauncher)
    (hs : Reachable Net.step (handshake host db) s) :
    (∀ i l, s.proc i = .done l →
      l.proxyRank = if (∀ j, ids j ≠ -1) ∧ ∀ j, (host j).putOk = true then 0 else -1) ∧
      ∃ t, Reachable Net.step s t ∧ ∀ i, t.Returned i := by
  constructor
  · intro i l hi
    rcases handshake_done hload hs hi with ⟨-, hproxy, j, hj⟩ | ⟨rfl, -, hids, -⟩
    · rw [if_neg (fun h => h.1 j hj), hproxy]
    · show (if ∀ j, (host j).putOk = true then (gathered ids).proxyRank else -1) = _
      have hproxy : (gathered ids).proxyRank = 0 := by
        rcases gathered_proxyRank ids with ⟨-, j, hj⟩ | ⟨-, ⟨heq, -⟩ | ⟨j, hj, hj0, -⟩⟩
        · exact absurd hj (hids j)
        · exact heq
        · have := (hothers j hj (hids j)).1
          omega
      by_cases hput : ∀ j, (host j).putOk = true
      · rw [if_pos hput, if_pos ⟨hids, hput⟩, hproxy]
      · rw [if_neg hput, if_neg (fun h => hput h.2)]
  · refine handshake_completes hload ?_ hs
    by_cases hbad : ∃ i, ids i = -1
    · exact .inl hbad
    · exact .inr (matched_of_distinct (fun i hi => hothers i hi fun h => hbad ⟨i, h⟩)
        fun i hi j hj heq => hdistinct i hi j hj (fun h => hbad ⟨i, h⟩) heq)

/-- A machine on which every call succeeds; its address is "a". -/
def upHost : Host :=
  ⟨false, true, some [⟨[105, 98, 48], true, true, some ⟨[97], by decide, by decide⟩⟩], [], []⟩

/-- A database that holds the shard id `id`. -/
def holding (id : Nat) : Option Store := some ((∅ : Store).insert shardIdKey (decimal id))

theorem loadShardId_holding (rank : Nat) {id : Nat} (h : id < 2 ^ 31) :
    loadShardId upHost rank (holding id) = .ok id :=
  (loadShardId_some rfl Std.TreeMap.getElem?_insert_self).trans (stoi_decimal h)

/-- Two ranks, the second with a shard id 1. -/
theorem handshake_twoRanks :
    ∃ s, Reachable Net.step (handshake (n := 1) (fun _ => upHost) fun i => holding i.val) s ∧
      ∀ i, ∃ l, s.proc i = .done l ∧ l.proxyRank = 0 := by
  have hload : ∀ i : Fin 2, loadShardId upHost i (holding i.val) = .ok (i.val : Int) := fun i =>
    loadShardId_holding i (by omega)
  have h := handshake_all_or_nothing 1 (fun _ => upHost) (fun i => holding i.val) (fun i => i.val)
    hload (by decide) (by decide)
  obtain ⟨t, ht, hreturned⟩ := (h _ .init).2
  refine ⟨t, ht, fun i => ?_⟩
  obtain ⟨l, hl⟩ := hreturned i
  exact ⟨l, hl, ((h t ht).1 i l hl).trans (by decide)⟩

/-! ## Roles -/

/-- The shard ids are 0 to `n`, each held by one rank, and the one rank with the shard id 0, which
`Run` makes the proxy, is the rank `proxy_rank_` names. -/
structure UniqueRoles (ls : Fin (n + 1) → ServerLauncher) : Prop where
  inside : ∀ i, ∃ k : Fin (n + 1), (ls i).shardId = k.val
  unique : ∀ k : Fin (n + 1), ∃! i, (ls i).shardId = k.val
  proxy : ∀ i, (ls i).shardId = 0 ↔ ((ls i).worldRank : Int) = (ls i).proxyRank

/-- Whenever all ranks have returned with a proxy, their roles are unique. -/
def GivesRoles (host : Fin (n + 1) → Host) (db : Fin (n + 1) → Option Store) : Prop :=
  ∀ s, Reachable Net.step (handshake host db) s → ∀ ls, (∀ i, s.proc i = .done (ls i)) →
    (∀ i, (ls i).proxyRank ≠ -1) → UniqueRoles ls

section

variable {host : Fin (n + 1) → Host} {db : Fin (n + 1) → Option Store} {ids : Fin (n + 1) → Int}
  (hload : ∀ i, loadShardId (host i) i (db i) = .ok (ids i))

include hload

theorem givesRoles_agreed (hids : ∀ i, ids i ≠ -1) (hput : ∀ i, (host i).putOk = true) :
    GivesRoles host db ↔ (Matched ids → UniqueRoles (agreed host ids)) := by
  constructor
  · intro h hm
    have hend := shaking_completes hload (fun _ => .done) hids hm
    rw [← handshake_eq] at hend
    refine h _ hend _ (fun i => rfl) fun i => ?_
    obtain ⟨root, hroot⟩ := proxy_rank hids
    show (if ∀ j, (host j).putOk = true then (gathered ids).proxyRank else -1) ≠ -1
    rw [if_pos hput, hroot]
    omega
  · intro h s hs ls hls hproxy
    have heq : ∀ i, ls i = agreed host ids i ∧ Matched ids := by
      intro i
      rcases handshake_done hload hs (hls i) with ⟨-, hbad, -⟩ | ⟨heq, -, -, hm⟩
      · exact absurd hbad (hproxy i)
      · exact ⟨heq, hm⟩
    rw [show ls = agreed host ids from funext fun i => (heq i).1]
    exact h (heq 0).2

end

section

variable {host : Fin (n + 1) → Host} {ids : Fin (n + 1) → Int}

theorem agreed_proxyRank (hput : ∀ i, (host i).putOk = true) (i : Fin (n + 1)) :
    (agreed host ids i).proxyRank = (gathered ids).proxyRank := if_pos hput

theorem agreed_shardId (i : Fin (n + 1)) : (agreed host ids i).shardId = ids i := informed_shardId i

theorem agreed_worldRank (i : Fin (n + 1)) : (agreed host ids i).worldRank = i :=
  informed_worldRank i

/-- Where the ranks but 0 hold the ids from 1 on, the proxy is rank 0. -/
theorem gathered_proxyRank_of_covers (hids : ∀ i, ids i ≠ -1)
    (h : ∀ s : Nat, 1 ≤ s → s ≤ n → ∃ i ≠ 0, ids i = s) : (gathered ids).proxyRank = 0 := by
  rcases gathered_proxyRank ids with ⟨-, i, hi⟩ | ⟨-, ⟨heq, -⟩ | ⟨i, hi, hi0, -⟩⟩
  · exact absurd hi (hids i)
  · exact heq
  · obtain ⟨s, h1, -, hs, -⟩ := rank_of_covers h hi
    omega

/-- Ids among which all of 0 to `n` are: each is at one rank, and there are no others. -/
theorem exists_perm (h : ∀ k : Fin (n + 1), ∃ i, ids i = k.val) :
    ∃ perm : Equiv.Perm (Fin (n + 1)), ∀ i, ids i = (perm i).val := by
  choose rank hrank using h
  have hinj : Injective rank := by
    intro k k' heq
    have hids := hrank k
    rw [heq, hrank k'] at hids
    exact Fin.ext (Int.ofNat.inj hids).symm
  let perm := Equiv.ofBijective rank ⟨hinj, Finite.surjective_of_injective hinj⟩
  refine ⟨perm.symm, fun i => ?_⟩
  rw [← hrank (perm.symm i)]
  exact congrArg ids (perm.apply_symm_apply i).symm

/-- The roles are unique when all of 0 to `n` are there and the proxy has the id 0. -/
theorem uniqueRoles_iff (hput : ∀ i, (host i).putOk = true) {root : Fin (n + 1)}
    (hroot : (gathered ids).proxyRank = root.val) :
    UniqueRoles (agreed host ids) ↔ (∀ k : Fin (n + 1), ∃ i, ids i = k.val) ∧ ids root = 0 := by
  constructor
  · intro hroles
    refine ⟨fun k => ?_, ?_⟩
    · obtain ⟨i, hi, -⟩ := hroles.unique k
      rw [agreed_shardId] at hi
      exact ⟨i, hi⟩
    · have hproxy := hroles.proxy root
      rw [agreed_shardId, agreed_worldRank, agreed_proxyRank hput, hroot] at hproxy
      exact hproxy.2 rfl
  · rintro ⟨hall, h0⟩
    obtain ⟨perm, hperm⟩ := exists_perm hall
    have hroot0 : perm root = 0 := Fin.ext (Int.ofNat.inj ((hperm root).symm.trans h0))
    refine ⟨fun i => ⟨perm i, ?_⟩, fun k => ⟨perm.symm k, ?_, fun i hi => ?_⟩, fun i => ?_⟩
    · rw [agreed_shardId, hperm]
    · show (agreed host ids (perm.symm k)).shardId = _
      rw [agreed_shardId, hperm, perm.apply_symm_apply]
    · change (agreed host ids i).shardId = _ at hi
      rw [agreed_shardId, hperm] at hi
      exact (Equiv.eq_symm_apply perm).2 (Fin.ext (Int.ofNat.inj hi))
    · rw [agreed_shardId, agreed_worldRank, agreed_proxyRank hput, hroot, hperm]
      constructor
      · intro hi
        have hi0 : perm i = perm root := hroot0 ▸ Fin.ext (Int.ofNat.inj hi)
        rw [perm.injective hi0]
      · intro hi
        rw [show i = root from Fin.ext (Int.ofNat.inj hi), hroot0]
        rfl

theorem uniqueRoles_of_covers (hids : ∀ i, ids i ≠ -1) (hput : ∀ i, (host i).putOk = true)
    (h : ∀ s : Nat, 1 ≤ s → s ≤ n → ∃ i ≠ 0, ids i = s) :
    UniqueRoles (agreed host ids) ↔ ids 0 = 0 := by
  rw [uniqueRoles_iff hput (show _ = ((0 : Fin (n + 1)).val : Int) from gathered_proxyRank_of_covers hids h)]
  constructor
  · exact fun hroles => hroles.2
  · intro h0
    refine ⟨fun k => ?_, h0⟩
    by_cases hk : k = 0
    · subst hk
      exact ⟨0, h0⟩
    · obtain ⟨i, -, hi⟩ := h k.val (Nat.pos_of_ne_zero fun h => hk (Fin.ext h)) (by omega)
      exact ⟨i, hi⟩

end

/-- With two ranks of which the second holds the id 0. -/
theorem uniqueRoles_of_swapped {host : Fin 2 → Host} {ids : Fin 2 → Int} (hids : ∀ i, ids i ≠ -1)
    (hput : ∀ i, (host i).putOk = true) (h1 : ids 1 = 0) :
    UniqueRoles (agreed host ids) ↔ ids 0 = 1 := by
  have hproxy : (gathered ids).proxyRank = (1 : Fin 2).val := by
    rcases gathered_proxyRank ids with ⟨-, i, hi⟩ | ⟨-, ⟨-, hne⟩ | ⟨i, hi, -, heq⟩⟩
    · exact absurd hi (hids i)
    · exact absurd h1 (hne 1 (by decide))
    · rw [heq, Fin.eq_one_of_ne_zero i hi]
  rw [uniqueRoles_iff hput hproxy]
  constructor
  · rintro ⟨hall, -⟩
    obtain ⟨i, hi⟩ := hall 1
    by_cases h0 : i = 0
    · rw [← h0]
      exact hi
    · rw [Fin.eq_one_of_ne_zero i h0, h1] at hi
      cases hi
  · intro h0
    refine ⟨fun k => ?_, h1⟩
    by_cases hk : k = 0
    · exact ⟨1, by rw [hk]; exact h1⟩
    · exact ⟨0, by rw [Fin.eq_one_of_ne_zero k hk]; exact h0⟩

/-- **When the roles are unique.** -/
theorem roles_unique_iff (n : Nat) (host : Fin (n + 1) → Host) (db : Fin (n + 1) → Option Store)
    (ids : Fin (n + 1) → Int) (hload : ∀ i, loadShardId (host i) i (db i) = .ok (ids i))
    (hids : ∀ i, 0 ≤ ids i) (hput : ∀ i, (host i).putOk = true) :
    GivesRoles host db ↔
      ((∀ s : Nat, 1 ≤ s → s ≤ n → ∃ i ≠ 0, ids i = s) → ids 0 = 0) ∧
        (n = 1 → ids (Fin.last n) = 0 → ids 0 = 1) := by
  have hne : ∀ i, ids i ≠ -1 := fun i h => by
    have := hids i
    omega
  rw [givesRoles_agreed hload hne hput]
  constructor
  · intro h
    refine ⟨fun hcovers => ?_, ?_⟩
    · exact (uniqueRoles_of_covers hne hput hcovers).1 (h (.inl hcovers))
    · rintro rfl hlast
      exact (uniqueRoles_of_swapped hne hput hlast).1 (h (.inr ⟨rfl, hlast⟩))
  · rintro ⟨hcovers, hswapped⟩ (hm | ⟨rfl, hlast⟩)
    · exact (uniqueRoles_of_covers hne hput hm).2 (hcovers hm)
    · exact (uniqueRoles_of_swapped hne hput hlast).2 (hswapped rfl hlast)

/-- Two ranks with the shard ids 0 and 1 of a first start. -/
theorem roles_unique_fresh : GivesRoles (n := 1) (fun _ => upHost) fun i => holding i.val :=
  (roles_unique_iff 1 (fun _ => upHost) (fun i => holding i.val) (fun i => i.val)
    (fun i => loadShardId_holding i (by omega)) (by decide) (fun _ => rfl)).2
    ⟨fun _ => rfl, fun _ h => absurd h (by decide)⟩

/-- Two ranks that both hold the shard id 1: both return with the proxy rank 0, and no rank has the
shard id 0. -/
theorem roles_not_unique :
    (∀ i : Fin 2, loadShardId upHost i (holding 1) = .ok 1) ∧
      ¬ GivesRoles (n := 1) (fun _ => upHost) fun _ => holding 1 := by
  have hload : ∀ i : Fin 2, loadShardId upHost i (holding 1) = .ok 1 := fun i =>
    loadShardId_holding i (by omega)
  refine ⟨hload, fun h => ?_⟩
  have hcovers : ∀ s : Nat, 1 ≤ s → s ≤ 1 → ∃ i : Fin 2, i ≠ 0 ∧ (1 : Int) = s := by
    intro s h1 h2
    exact ⟨1, by decide, by omega⟩
  have hids : ∀ i : Fin 2, (fun _ => (1 : Int)) i ≠ -1 := by decide
  have hroles := (givesRoles_agreed hload hids fun _ => rfl).1 h (.inl hcovers)
  exact absurd ((uniqueRoles_of_covers hids (fun _ => rfl) hcovers).1 hroles) (by decide)

end ServerLauncher

end SqpKv
