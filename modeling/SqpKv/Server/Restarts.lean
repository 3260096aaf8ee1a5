import SqpKv.Server.Agreement
import Mathlib.Data.Fin.VecNotation
import Mathlib.Logic.Equiv.Basic
import Mathlib.Tactic.FinCases

/-!
# Shard ids over restarts

`GetShardId` loads the shard id a database holds, but `ShakeHands` saves the
world rank in its place.  A handshake that succeeds therefore keeps the ids of
the databases exactly when every rank has opened the database with its own
number (`keepsIds_iff`), however often the ranks were started before, with
whatever databases, and wherever those runs were stopped.
-/

namespace SqpKv

open Wire Processes Machine Function

/-- The shard id a database holds. -/
def shardIdIn (db : Store) : Option (Except Fault Int) := db[shardIdKey]?.map stoi

/-- A start of `n + 1` ranks on `n + 1` databases: which one each rank opens, whether it can, and
the machines. -/
structure Launch (n : Nat) where
  place : Equiv.Perm (Fin (n + 1))
  opened : Fin (n + 1) → Bool
  host : Fin (n + 1) → Host

namespace Launch

variable {n : Nat}

/-- What `OpenDb` leaves in `db_`. -/
def db (L : Launch n) (disk : Fin (n + 1) → Store) (i : Fin (n + 1)) : Option Store :=
  if L.opened i then some (disk (L.place i)) else none

def net (L : Launch n) (disk : Fin (n + 1) → Store) :
    Net (n + 1) (Option Store) MpiMessage Abort ServerLauncher :=
  ServerLauncher.handshake L.host (L.db disk)

/-- The databases when the ranks are stopped in the state `s`. -/
def after (L : Launch n) (disk : Fin (n + 1) → Store)
    (s : Net (n + 1) (Option Store) MpiMessage Abort ServerLauncher) (k : Fin (n + 1)) : Store :=
  (s.mem (L.place.symm k)).getD (disk k)

/-- When a rank has returned with a proxy, every database holds the shard id it held. -/
def KeepsIds (L : Launch n) (disk : Fin (n + 1) → Store) : Prop :=
  ∀ s, Reachable Net.step (L.net disk) s → (∃ i l, s.proc i = .done l ∧ l.proxyRank ≠ -1) →
    ∀ k, shardIdIn (L.after disk s k) = shardIdIn (disk k)

/-- Every rank opens the database with its own number. -/
def OwnIds (L : Launch n) (disk : Fin (n + 1) → Store) : Prop :=
  ∀ i, shardIdIn (disk (L.place i)) = some (.ok (i.val : Int))

/-- Every call succeeds, and the table of the proxy is right. -/
def Succeeds (L : Launch n) (disk : Fin (n + 1) → Store) : Prop :=
  (∀ i, L.opened i = true ∧ (L.host i).getFails = false ∧ (L.host i).putOk = true) ∧
    ∃ ids, (∀ i, shardIdIn (disk (L.place i)) = some (.ok (ids i))) ∧ ServerLauncher.Matched ids

end Launch

/-- The databases after any number of launches that meet `C`, each stopped at any point. -/
inductive Restarted {n : Nat} (C : Launch n → (Fin (n + 1) → Store) → Prop)
    (disk₀ : Fin (n + 1) → Store) : (Fin (n + 1) → Store) → Prop
  | start : Restarted C disk₀ disk₀
  | launch {disk : Fin (n + 1) → Store} (L : Launch n)
      {s : Net (n + 1) (Option Store) MpiMessage Abort ServerLauncher} :
      Restarted C disk₀ disk → C L disk → Reachable Net.step (L.net disk) s →
      Restarted C disk₀ (L.after disk s)

/-! ## What a rank can store -/

namespace ServerLauncher

section

variable {P : Option Store → Prop} {rank : Nat} {h : Host}

theorem toInt_keeps (m : MpiMessage) : (MpiMessage.toInt m).Keeps P fun _ => True := by
  cases m <;> trivial

theorem getShardId_keeps {l : ServerLauncher} (hl : l.worldRank = rank) :
    (l.getShardId h).Keeps P fun l => l.worldRank = rank := by
  intro x _
  show (Proc.bind (Rank.ofExcept (loadShardId h l.worldRank x)) _).Keeps P _
  cases loadShardId h l.worldRank x with
  | ok id => exact hl
  | error e => trivial

theorem exchangeIds_keeps {l : ServerLauncher} (hl : l.worldRank = rank) :
    l.exchangeIds.Keeps P fun l => l.worldRank = rank := by
  unfold exchangeIds
  split
  · refine Proc.Keeps.bind (Q := fun l => l.worldRank = rank) ?_ ?_
    · refine Proc.Keeps.foldlM (fun l r hl => ?_) _ _ hl
      exact fun m => (toInt_keeps m).bind fun _ _ => hl
    · exact fun l hl m => (toInt_keeps m).bind fun _ _ => hl
  · exact fun m => (toInt_keeps m).bind fun _ _ => hl

theorem exchangeSaves_keeps (l : ServerLauncher) (v : Int) :
    (l.exchangeSaves v).Keeps P fun _ => True := by
  unfold exchangeSaves
  split
  · refine Proc.Keeps.bind (Q := fun _ => True) ?_ fun v _ m => toInt_keeps m
    refine Proc.Keeps.foldlM (fun v s _ => ?_) _ _ trivial
    exact fun m => (toInt_keeps m).bind fun _ _ => trivial
  · exact fun m => toInt_keeps m

/-- The one thing a rank stores is its own rank. -/
theorem saveShardId_keeps {l : ServerLauncher} (hl : l.worldRank = rank)
    (hput : ∀ db, P (some db) → P (some (db.insert shardIdKey (decimal rank)))) :
    (l.saveShardId h).Keeps P fun l => l.worldRank = rank := by
  unfold saveShardId
  split
  · exact hl
  · refine Proc.Keeps.bind (Q := fun _ => True) ?_ fun v _ =>
      (exchangeSaves_keeps l v).bind fun v _ => hl
    intro x hx
    cases x with
    | none => trivial
    | some db =>
      show (if h.putOk then Proc.store _ _ else _ : Rank Int).Keeps P _
      split
      · refine ⟨?_, trivial⟩
        rw [hl]
        exact hput db hx
      · trivial

end

/-- What holds of the databases at first, and of one in which a rank has stored its number, holds of
them whenever the ranks are stopped, where they store nothing behind the handshake. -/
theorem shaking_keeps {n : Nat} {α : Type} {host : Fin (n + 1) → Host}
    {db : Fin (n + 1) → Option Store} {f : Fin (n + 1) → ServerLauncher → Rank α}
    (hf : ∀ i l (P : Option Store → Prop), (f i l).Keeps P fun _ => True)
    {P : Fin (n + 1) → Option Store → Prop}
    (hput : ∀ i db, P i (some db) → P i (some (db.insert shardIdKey (decimal i.val))))
    (hdb : ∀ i, P i (db i)) {s : Net (n + 1) (Option Store) MpiMessage Abort α}
    (hs : Reachable Net.step (shaking host db f) s) (i : Fin (n + 1)) : P i (s.mem i) := by
  refine Net.reachable_keeps (Q := fun _ _ => True) (fun i => ⟨?_, hdb i⟩) hs i
  refine (getShardId_keeps (show (init (n + 1) i).worldRank = i.val from rfl)).bind fun l hl => ?_
  refine Proc.Keeps.bind (Q := fun l => l.worldRank = i.val) ?_ fun l _ => hf i l (P i)
  exact (exchangeIds_keeps hl).bind fun l hl => saveShardId_keeps hl (hput i)

end ServerLauncher

/-! ## One launch -/

theorem shardIdIn_insert {db : Store} {rank : Nat} (h : rank < 2 ^ 31) :
    shardIdIn (db.insert shardIdKey (decimal rank)) = some (.ok (rank : Int)) := by
  unfold shardIdIn
  rw [Std.TreeMap.getElem?_insert_self, Option.map_some, stoi_decimal h]

namespace Launch

variable {n : Nat} {L : Launch n} {disk : Fin (n + 1) → Store}

theorem after_place (s : Net (n + 1) (Option Store) MpiMessage Abort ServerLauncher)
    (i : Fin (n + 1)) : L.after disk s (L.place i) = (s.mem i).getD (disk (L.place i)) := by
  unfold after
  rw [Equiv.symm_apply_apply]

/-- What holds of the databases before, and of one in which a rank has stored its number, holds of
them whenever the ranks are stopped. -/
theorem shaking_keeps {α : Type} {f : Fin (n + 1) → ServerLauncher → Rank α}
    (hf : ∀ i l (P : Option Store → Prop), (f i l).Keeps P fun _ => True)
    {P : Fin (n + 1) → Store → Prop}
    (hput : ∀ i db, P (L.place i) db → P (L.place i) (db.insert shardIdKey (decimal i.val)))
    (hdisk : ∀ k, P k (disk k)) {s : Net (n + 1) (Option Store) MpiMessage Abort α}
    (hs : Reachable Net.step (ServerLauncher.shaking L.host (L.db disk) f) s) (k : Fin (n + 1)) :
    P k ((s.mem (L.place.symm k)).getD (disk k)) := by
  obtain ⟨i, rfl⟩ := L.place.surjective k
  have hmem := ServerLauncher.shaking_keeps hf
    (P := fun i x => ∀ db, x = some db → P (L.place i) db) (fun i db h db' hdb' => by
      cases hdb'
      exact hput i db (h db rfl)) (fun i db hdb => by
      unfold Launch.db at hdb
      split at hdb
      · cases hdb
        exact hdisk _
      · cases hdb) hs i
  rw [Equiv.symm_apply_apply]
  cases hsi : s.mem i with
  | none => exact hdisk _
  | some db => exact hmem db hsi

theorem after_keeps {P : Fin (n + 1) → Store → Prop}
    (hput : ∀ i db, P (L.place i) db → P (L.place i) (db.insert shardIdKey (decimal i.val)))
    (hdisk : ∀ k, P k (disk k)) {s : Net (n + 1) (Option Store) MpiMessage Abort ServerLauncher}
    (hs : Reachable Net.step (L.net disk) s) (k : Fin (n + 1)) : P k (L.after disk s k) := by
  unfold net at hs
  rw [ServerLauncher.handshake_eq] at hs
  exact shaking_keeps (f := fun _ => .done) (fun i l P => trivial) hput hdisk hs k

/-- Every database holds a number as shard id. -/
def Numbered (disk : Fin (n + 1) → Store) : Prop :=
  ∀ k, ∃ v : Nat, shardIdIn (disk k) = some (.ok (v : Int))

theorem load_of_up {i : Fin (n + 1)} {id : Int} (hopened : L.opened i = true)
    (hget : (L.host i).getFails = false) (hid : shardIdIn (disk (L.place i)) = some (.ok id)) :
    loadShardId (L.host i) i (L.db disk i) = .ok id := by
  obtain ⟨value, hvalue, hid⟩ := Option.map_eq_some_iff.1 hid
  unfold Launch.db
  rw [if_pos hopened]
  exact (loadShardId_some hget hvalue).trans hid

/-- What `GetShardId` finds: the id that the database holds, or -1. -/
theorem exists_load (hdisk : Numbered disk) (i : Fin (n + 1)) :
    ∃ id, loadShardId (L.host i) i (L.db disk i) = .ok id ∧ (id ≠ -1 →
      L.opened i = true ∧ (L.host i).getFails = false ∧
        shardIdIn (disk (L.place i)) = some (.ok id)) := by
  obtain ⟨v, hv⟩ := hdisk (L.place i)
  by_cases hopened : L.opened i = true
  · by_cases hget : (L.host i).getFails = false
    · exact ⟨v, load_of_up hopened hget hv, fun _ => ⟨hopened, hget, hv⟩⟩
    · refine ⟨-1, ?_, fun h => absurd rfl h⟩
      unfold loadShardId Launch.db
      rw [Bool.not_eq_false] at hget
      simp only [hopened, hget, if_true]
  · refine ⟨-1, ?_, fun h => absurd rfl h⟩
    unfold Launch.db
    rw [if_neg hopened]
    rfl

theorem own_of_keepsIds (hn : n < 2 ^ 31) (hdisk : Numbered disk) (h : L.KeepsIds disk)
    (hok : L.Succeeds disk) : L.OwnIds disk := by
  obtain ⟨hup, ids, hids, hm⟩ := hok
  have hload : ∀ i, loadShardId (L.host i) i (L.db disk i) = .ok (ids i) := fun i =>
    load_of_up (hup i).1 (hup i).2.1 (hids i)
  have hne : ∀ i, ids i ≠ -1 := by
    intro i hi
    obtain ⟨v, hv⟩ := hdisk (L.place i)
    rw [hids i, hi] at hv
    have := Except.ok.inj (Option.some.inj hv)
    omega
  -- the handshake succeeds, and then every rank has stored its number
  have hend := ServerLauncher.shaking_completes hload (fun _ => .done) hne hm
  rw [← ServerLauncher.handshake_eq] at hend
  have hput : ∀ i, (L.host i).putOk = true := fun i => (hup i).2.2
  obtain ⟨root, hroot⟩ := ServerLauncher.proxy_rank hne
  have hproxy : (ServerLauncher.agreed L.host ids 0).proxyRank ≠ -1 := by
    rw [ServerLauncher.agreed_proxyRank hput, hroot]
    omega
  intro i
  rw [← h _ hend ⟨0, _, rfl, hproxy⟩ (L.place i), after_place]
  show shardIdIn ((ServerLauncher.stored (L.host i) i (L.db disk i)).getD _) = _
  unfold ServerLauncher.stored Launch.db
  rw [if_pos (hput i), if_pos (hup i).1]
  exact shardIdIn_insert (by omega)

theorem keepsIds_of_own (hn : n < 2 ^ 31) (hdisk : Numbered disk)
    (h : L.Succeeds disk → L.OwnIds disk) : L.KeepsIds disk := by
  rintro s hs ⟨i, l, hi, hproxy⟩ k
  choose ids hload hids using exists_load (L := L) hdisk
  -- a rank that returns with a proxy has taken part in a handshake that succeeded
  have hok : L.Succeeds disk := by
    rcases ServerLauncher.handshake_done hload hs hi with ⟨-, hbad, -⟩ | ⟨rfl, -, hne, hm⟩
    · exact absurd hbad hproxy
    · have hput : ∀ j, (L.host j).putOk = true := by
        by_contra hput
        exact hproxy (if_neg hput)
      exact ⟨fun j => ⟨(hids j (hne j)).1, (hids j (hne j)).2.1, hput j⟩, ids,
        fun j => (hids j (hne j)).2.2, hm⟩
  have hown := h hok
  refine after_keeps (P := fun k db => shardIdIn db = shardIdIn (disk k)) ?_ (fun k => rfl) hs k
  intro j db _
  rw [shardIdIn_insert (by omega), hown j]

end Launch

/-! ## Any number of launches -/

section

variable {n : Nat} {C : Launch n → (Fin (n + 1) → Store) → Prop} {disk₀ disk : Fin (n + 1) → Store}

theorem Restarted.numbered (hn : n < 2 ^ 31) (h : Restarted C disk₀ disk)
    (hdisk₀ : Launch.Numbered disk₀) : Launch.Numbered disk := by
  induction h with
  | start => exact hdisk₀
  | launch L _ _ hs ih =>
    exact Launch.after_keeps (P := fun _ db => ∃ v : Nat, shardIdIn db = some (.ok (v : Int)))
      (fun i db _ => ⟨i, shardIdIn_insert (by omega)⟩) ih hs

theorem Restarted.own (hn : n < 2 ^ 31) (h : Restarted Launch.OwnIds disk₀ disk)
    (k : Fin (n + 1)) : shardIdIn (disk k) = shardIdIn (disk₀ k) := by
  induction h generalizing k with
  | start => rfl
  | @launch disk L s _ hown hs ih =>
    refine (Launch.after_keeps (P := fun k db => shardIdIn db = shardIdIn (disk k)) ?_
      (fun k => rfl) hs k).trans (ih k)
    intro i db _
    rw [shardIdIn_insert (by omega), hown i]

end

/-- **When the databases keep their ids.**  `n` is an `int`.  After any number of restarts, the next
handshake that succeeds keeps the ids iff every rank has opened the database with its own number;
and where all launches did so, the databases hold the ids they held at first. -/
theorem keepsIds_iff (n : Nat) (hn : n < 2 ^ 31) (disk₀ : Fin (n + 1) → Store)
    (ids : Equiv.Perm (Fin (n + 1)))
    (hids : ∀ k, shardIdIn (disk₀ k) = some (.ok ((ids k).val : Int))) :
    (∀ disk, Restarted (fun _ _ => True) disk₀ disk → ∀ L : Launch n,
      L.KeepsIds disk ↔ (L.Succeeds disk → L.OwnIds disk)) ∧
    ∀ disk, Restarted Launch.OwnIds disk₀ disk → ∀ k, shardIdIn (disk k) = shardIdIn (disk₀ k) := by
  refine ⟨fun disk hdisk L => ?_, fun disk hdisk k => hdisk.own hn k⟩
  have hnum := hdisk.numbered hn fun k => ⟨_, hids k⟩
  exact ⟨Launch.own_of_keepsIds hn hnum, Launch.keepsIds_of_own hn hnum⟩

/-- Databases with these ids. -/
def disks {n : Nat} (ids : Fin (n + 1) → Nat) (k : Fin (n + 1)) : Store :=
  (∅ : Store).insert shardIdKey (decimal (ids k))

/-- Rank `i` opens the database `i`, and every call succeeds. -/
def plainLaunch (n : Nat) : Launch n := ⟨Equiv.refl _, fun _ => true, fun _ => ServerLauncher.upHost⟩

theorem keepsIds_fresh : (plainLaunch 2).KeepsIds (disks Fin.val) := by
  have hids : ∀ k : Fin 3, shardIdIn (disks Fin.val k) = some (.ok (k.val : Int)) := fun k =>
    shardIdIn_insert (by omega)
  have h := keepsIds_iff 2 (by decide) (disks Fin.val) (Equiv.refl _) hids
  exact (h.1 _ .start (plainLaunch 2)).2 fun _ i => hids i

/-- Two ranks open databases with the shard ids 1 and 0: each then holds the other's. -/
theorem not_keepsIds_swapped :
    shardIdIn (disks ![1, 0] (0 : Fin 2)) = some (.ok 1) ∧
      shardIdIn (disks ![1, 0] (1 : Fin 2)) = some (.ok 0) ∧
      ¬ (plainLaunch 1).KeepsIds (disks ![1, 0]) := by
  have hids : ∀ k : Fin 2, shardIdIn (disks ![1, 0] k) = some (.ok ((![1, 0] k : Nat) : Int)) := by
    intro k
    refine shardIdIn_insert ?_
    fin_cases k <;> decide
  refine ⟨hids 0, hids 1, fun h => ?_⟩
  have hok : (plainLaunch 1).Succeeds (disks ![1, 0]) :=
    ⟨fun i => ⟨rfl, rfl, rfl⟩, fun i => ((![1, 0] : Fin 2 → Nat) i : Int), hids, .inr ⟨rfl, rfl⟩⟩
  have hown := Launch.own_of_keepsIds (by decide) (fun k => ⟨_, hids k⟩) h hok 0
  have h0 : shardIdIn (disks ![1, 0] (0 : Fin 2)) = some (.ok 0) := hown
  rw [hids 0] at h0
  have h1 : ((1 : Nat) : Int) = 0 := Except.ok.inj (Option.some.inj h0)
  cases h1

end SqpKv
