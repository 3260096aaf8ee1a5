import SqpKv.Server.Startup
import SqpKv.Server.Restarts

/-!
# Where a shard is served from

Behind a start of `n + 1` ranks the proxy has the addresses of the others by
shard id, so its connection `j` goes to the rank that held the id `j + 1` when
it was started (`Up.server_eq`).  But every rank has saved its own number by
then, so the next start on the same machines takes the shard `j` to rank
`j + 1`:

    every shard is served from the database it was served from before
      iff  every rank had opened a database with its own number, or with none    (served_again_iff)

That is for ranks that found different ids, rank 0 the id 0: a database without
an id gets the rank's own number.
-/

namespace SqpKv

open Wire Processes Machine Function

/-! ## What a start leaves in the databases -/

namespace ServerLauncher

variable {P : Option Store → Prop}

theorem toChars_keeps (count : Int) (m : MpiMessage) :
    (MpiMessage.toChars count m).Keeps P fun _ => True := by
  cases m with
  | int v => trivial
  | chars s =>
    show Proc.Keeps P _ (if count < s.length then _ else if NI_MAXHOST < s.length then _ else _)
    split
    · trivial
    · split
      · trivial
      · trivial

theorem ofExcept_keeps {α : Type} (x : Except Fault α) : (Rank.ofExcept x).Keeps P fun _ => True := by
  cases x with
  | ok a => trivial
  | error e => trivial

theorem receiveAddress_keeps (l : ServerLauncher) (t : AddressTable) (shardId : Nat) :
    (l.receiveAddress t shardId).Keeps P fun _ => True := by
  intro m
  refine (toInt_keeps m).bind fun size _ => ?_
  show Proc.Keeps P _ (if size = -1 then .done { t with success := 0 } else receiveName _ size t)
  split
  · trivial
  · intro m'
    refine (toChars_keeps size m').bind fun s _ => ?_
    exact (ofExcept_keeps _).bind fun address _ => trivial

theorem sendAddress_keeps (dest : Nat) (found : Int × Bytes) :
    (sendAddress dest found).Keeps P fun _ => True := by
  unfold sendAddress
  split
  · trivial
  · exact (ofExcept_keeps _).bind fun address _ => trivial

theorem exchangeAddresses_keeps (l : ServerLauncher) (found : Int × Bytes) :
    (l.exchangeAddresses found).Keeps P fun _ => True := by
  unfold exchangeAddresses
  split
  · refine Proc.Keeps.bind (Q := fun _ => True) ?_ ?_
    · exact Proc.Keeps.foldlM (fun t s _ => receiveAddress_keeps l t s) _ _ trivial
    · exact fun t _ m => (toInt_keeps m).bind fun _ _ => trivial
  · exact (sendAddress_keeps _ _).bind fun _ _ m => (toInt_keeps m).bind fun _ _ => trivial

/-- Behind the handshake a rank stores nothing. -/
theorem proceed_keeps (h : Host) (l : ServerLauncher) : (proceed h l).Keeps P fun _ => True := by
  unfold proceed
  split
  · trivial
  · refine Proc.Keeps.bind (Q := fun _ => True) ?_ fun r _ => ?_
    · exact (exchangeAddresses_keeps l _).bind fun r _ => trivial
    · obtain ⟨a, ha⟩ := conclude_eq_done r
      rw [ha]
      trivial

variable {n : Nat} {ids : Equiv.Perm (Fin (n + 1))}

/-- No other rank than the proxy has a shard. -/
theorem symm_succ_ne_zero (hzero : ids 0 = 0) (j : Fin n) : ids.symm j.succ ≠ 0 := by
  intro heq
  have hsucc : j.succ = ids 0 := by rw [← heq, Equiv.apply_symm_apply]
  rw [hzero] at hsucc
  exact Fin.succ_ne_zero j hsucc

theorem covers_of_zero (hzero : ids 0 = 0) (s : Nat) (h1 : 1 ≤ s) (hn : s ≤ n) :
    ∃ i ≠ 0, ((ids i).val : Int) = s := by
  have hsucc := symm_succ_ne_zero hzero ⟨s - 1, by omega⟩
  refine ⟨_, hsucc, ?_⟩
  rw [Equiv.apply_symm_apply, Fin.val_succ]
  simp only
  omega

section

variable {host : Fin (n + 1) → Host} {db : Fin (n + 1) → Option Store} (hzero : ids 0 = 0)
  (hload : ∀ i, loadShardId (host i) i (db i) = .ok ((ids i).val : Int))
  {s : Net (n + 1) (Option Store) MpiMessage Abort Launched}
  (hs : Reachable Net.step (startup host db) s)

include hzero hload hs

/-- What a rank has that has started. -/
theorem started_fields {i : Fin (n + 1)} {l : ServerLauncher} (hl : s.proc i = .done (.started l)) :
    l.shardId = (ids i).val ∧ (∀ j ≠ 0, (host j).address ≠ none) ∧
      (i = 0 → l.ipAddresses =
        (resolved host (informed (fun i => ((ids i).val : Int)) 0) (host 0)).ipAddresses) := by
  have hids : ∀ i, ((ids i).val : Int) ≠ -1 := fun i => by omega
  have hcovers := covers_of_zero hzero
  have hroot := gathered_proxyRank_of_covers hids hcovers
  have hmatched : Matched fun i => ((ids i).val : Int) := .inl hcovers
  have hroot0 : (gathered fun i => ((ids i).val : Int)).proxyRank = ((0 : Fin (n + 1)).val : Int) := hroot
  obtain ⟨t, ht, hreturned, -, hstarted, -⟩ := startup_completes hload hids hmatched hroot0
  obtain ⟨hput, hfound, haddresses⟩ := hstarted i l
    (Net.done_unique (Net.halted_of_returned hreturned) ht hs hl).1
  obtain ⟨-, hend⟩ := reachable_concluded hload hids hmatched hroot0 hput
  have hhalted : ∀ (r : Fin (n + 1) → ServerLauncher × Status) (db : Fin (n + 1) → Option Store),
      Halted Net.step (Net.calm (fun i => conclude (r i)) db : Net _ _ MpiMessage _ _) :=
    fun r db => Net.halted_of_returned fun i => conclude_eq_done (r i)
  have hl' := (Net.done_unique (hhalted _ _) hend hs hl).1
  obtain ⟨-, rfl⟩ := conclude_started hl'
  have hid : (agreed host (fun i => ((ids i).val : Int)) i).shardId = (ids i).val := agreed_shardId i
  exact ⟨hid, hfound, haddresses⟩

/-- Where rank 0 has started, the entry `j` of its table is the address of the rank that found the
shard id `j + 1`. -/
theorem started_address {l : ServerLauncher} (hl : s.proc 0 = .done (.started l)) (j : Fin n) :
    l.ipAddresses[j.val]? = (host (ids.symm j.succ)).address := by
  have hcovers := covers_of_zero hzero
  obtain ⟨-, hfound, haddresses⟩ := started_fields hzero hload hs hl
  have hrank : ∀ s : Nat, s ∈ List.range' 1 n → ∃ i ≠ (0 : Fin (n + 1)), ((ids i).val : Int) = s ∧
      (informed (fun i => ((ids i).val : Int)) 0).idToRank s = i.val := by
    intro s hs
    obtain ⟨h1, hlt⟩ := mem_range'_val.1 hs
    obtain ⟨i, hi, hid⟩ := hcovers s (by omega) (by omega)
    obtain ⟨s', -, -, hid', heq⟩ := rank_of_covers hcovers hi
    have hsame : s' = s := Int.ofNat.inj (hid'.symm.trans hid)
    rw [hsame] at heq
    exact ⟨i, hi, hid, heq⟩
  have hall : ∀ s : Nat, s ∈ List.range' 1 n → (host (rankOf n
      ((informed (fun i => ((ids i).val : Int)) 0).idToRank s))).address ≠ none := by
    intro s hs
    obtain ⟨i, hi, -, heq⟩ := hrank s hs
    rw [heq, rankOf_val]
    exact hfound i hi
  obtain ⟨-, hplace⟩ := resolved_table host 0 (others_informed 0) (informed_ipAddresses 0) hall
  have hmem : j.val + 1 ∈ List.range' 1 n := mem_range'_val.2 ⟨by omega, by omega⟩
  obtain ⟨i, -, hid, heq⟩ := hrank _ hmem
  have hi : i = ids.symm j.succ := by
    rw [Equiv.eq_symm_apply]
    exact Fin.ext (Int.ofNat.inj hid)
  have hentry := hplace _ hmem
  rw [heq, rankOf_val, hi, Nat.add_sub_cancel] at hentry
  rw [haddresses rfl, hentry]

end

end ServerLauncher

/-! ## A start on databases that are opened again and again -/

namespace Launch

variable {n : Nat} {L : Launch n} {disk : Fin (n + 1) → Store}
  {s : Net (n + 1) (Option Store) MpiMessage Abort ServerLauncher.Launched}

/-- `InitShardingConfig` on all ranks. -/
def boot (L : Launch n) (disk : Fin (n + 1) → Store) :
    Net (n + 1) (Option Store) MpiMessage Abort ServerLauncher.Launched :=
  ServerLauncher.startup L.host (L.db disk)

/-- The databases when the start is in the state `s`. -/
def booted (L : Launch n) (disk : Fin (n + 1) → Store)
    (s : Net (n + 1) (Option Store) MpiMessage Abort ServerLauncher.Launched) (k : Fin (n + 1)) :
    Store :=
  (s.mem (L.place.symm k)).getD (disk k)

/-- All ranks have started, each on a machine of its own, and the connection `j` of the proxy goes to
`ip_addresses_[j]`, where the rank `server j` is. -/
structure Up (L : Launch n)
    (s : Net (n + 1) (Option Store) MpiMessage Abort ServerLauncher.Launched)
    (server : Fin n → Fin (n + 1)) : Prop where
  started : ∀ i, ∃ l, s.proc i = .done (.started l)
  machines : ∀ i j, (L.host i).address = (L.host j).address → i = j
  connected : ∀ l, s.proc 0 = .done (.started l) → ∀ j : Fin n,
    l.ipAddresses[j.val]? = (L.host (server j)).address

theorem booted_place (i : Fin (n + 1)) :
    L.booted disk s (L.place i) = (s.mem i).getD (disk (L.place i)) := by
  unfold booted
  rw [Equiv.symm_apply_apply]

theorem booted_keeps {P : Fin (n + 1) → Store → Prop}
    (hput : ∀ i db, P (L.place i) db → P (L.place i) (db.insert shardIdKey (decimal i.val)))
    (hdisk : ∀ k, P k (disk k)) (hs : Reachable Net.step (L.boot disk) s) (k : Fin (n + 1)) :
    P k (L.booted disk s k) := by
  unfold boot at hs
  rw [ServerLauncher.startup_eq] at hs
  exact shaking_keeps (fun i l P => ServerLauncher.proceed_keeps (L.host i) l) hput hdisk hs k

/-- No start touches the keys of the clients. -/
theorem booted_other {key : Bytes} (hkey : key ≠ shardIdKey)
    (hs : Reachable Net.step (L.boot disk) s) (k : Fin (n + 1)) :
    (L.booted disk s k)[key]? = (disk k)[key]? := by
  refine booted_keeps (P := fun k db => db[key]? = (disk k)[key]?) ?_ (fun k => rfl) hs k
  intro i db hdb
  have hne : ¬ compare shardIdKey key = .eq := fun heq =>
    hkey (Std.LawfulEqOrd.eq_of_compare heq).symm
  rw [Std.TreeMap.getElem?_insert, if_neg hne]
  exact hdb

/-- Rank `i` opens a database that holds the id `ids i`, or one that holds none and is to get `i`. -/
def Finds (L : Launch n) (disk : Fin (n + 1) → Store) (ids : Equiv.Perm (Fin (n + 1))) : Prop :=
  ∀ i, shardIdIn (disk (L.place i)) = some (.ok ((ids i).val : Int)) ∨
    (shardIdIn (disk (L.place i)) = none ∧ ids i = i)

/-- Every rank opens the database with its own number, or one that has none yet. -/
def Fits (L : Launch n) (disk : Fin (n + 1) → Store) : Prop := L.Finds disk (Equiv.refl _)

variable {ids : Equiv.Perm (Fin (n + 1))}

/-- The databases fit when the ids that the ranks find are their own numbers. -/
theorem Finds.fits_iff (h : L.Finds disk ids) : L.Fits disk ↔ ∀ i, ids i = i := by
  constructor
  · intro hfits i
    rcases h i with hid | ⟨-, hid⟩
    · rcases hfits i with hown | ⟨hnone, -⟩
      · rw [hid] at hown
        have hval : ((ids i).val : Int) = (i.val : Int) := Except.ok.inj (Option.some.inj hown)
        exact Fin.ext (Int.ofNat.inj hval)
      · rw [hid] at hnone
        cases hnone
    · exact hid
  · intro hids
    obtain rfl : ids = Equiv.refl _ := Equiv.ext hids
    exact h

theorem Finds.load (h : L.Finds disk ids) (i : Fin (n + 1)) :
    loadShardId (L.host i) i (L.db disk i) = .ok (-1) ∨
      loadShardId (L.host i) i (L.db disk i) = .ok ((ids i).val : Int) := by
  unfold Launch.db
  by_cases hopened : L.opened i = true
  · by_cases hget : (L.host i).getFails = true
    · left
      rw [if_pos hopened, loadShardId, if_pos hget]
    · right
      have hget' : (L.host i).getFails = false := by simpa using hget
      rcases h i with hid | ⟨hnone, hid⟩
      · have hload := load_of_up (L := L) hopened hget' hid
        rwa [Launch.db] at hload
      · have hentry : (disk (L.place i))[shardIdKey]? = none := Option.map_eq_none_iff.1 hnone
        rw [if_pos hopened, loadShardId, if_neg hget]
        simp only [hentry, hid]
  · left
    rw [if_neg hopened]
    rfl

/-- When a rank has started, every rank had found its id. -/
theorem Finds.loaded (h : L.Finds disk ids) (hs : Reachable Net.step (L.boot disk) s)
    {i : Fin (n + 1)} {l : ServerLauncher} (hi : s.proc i = .done (.started l)) (j : Fin (n + 1)) :
    loadShardId (L.host j) j (L.db disk j) = .ok ((ids j).val : Int) := by
  have hload : ∀ j, ∃ v, loadShardId (L.host j) j (L.db disk j) = .ok v ∧
      (v = -1 ∨ v = ((ids j).val : Int)) := by
    intro j
    rcases h.load j with hv | hv
    · exact ⟨_, hv, .inl rfl⟩
    · exact ⟨_, hv, .inr rfl⟩
  choose found hfound using hload
  by_cases hbad : ∃ j, found j = -1
  · -- the handshake fails, and every rank exits
    obtain ⟨hend, hproxy⟩ := ServerLauncher.shaking_fails (fun j => (hfound j).1)
      (fun i => ServerLauncher.proceed (L.host i)) hbad
    have hexit : ∀ i, ServerLauncher.proceed (L.host i) (ServerLauncher.informed found i) =
        .done .exited := fun i => if_pos hproxy
    simp only [hexit] at hend
    cases (Net.done_unique (Net.halted_of_returned fun i => ⟨_, rfl⟩) hend hs hi).1
  · rw [(hfound j).1, (hfound j).2.resolve_left fun heq => hbad ⟨j, heq⟩]

/-- **A rank that has started has saved its number.** -/
theorem Up.saved (hn : n < 2 ^ 31) {server : Fin n → Fin (n + 1)} (hup : L.Up s server)
    (h : L.Finds disk ids) (hs : Reachable Net.step (L.boot disk) s) (i : Fin (n + 1)) :
    shardIdIn (L.booted disk s (L.place i)) = some (.ok (i.val : Int)) := by
  obtain ⟨l, hl⟩ := hup.started i
  obtain ⟨d, -, hmem⟩ := ServerLauncher.started_stored (h.loaded hs hl) hs hl
  rw [booted_place, hmem]
  exact shardIdIn_insert (by omega)

/-- **The connection `j` goes to the rank that found the shard id `j + 1`.** -/
theorem Up.server_eq {server : Fin n → Fin (n + 1)} (hup : L.Up s server) (h : L.Finds disk ids)
    (hzero : ids 0 = 0) (hs : Reachable Net.step (L.boot disk) s) (j : Fin n) :
    server j = ids.symm j.succ := by
  obtain ⟨l, hl⟩ := hup.started 0
  have haddress := ServerLauncher.started_address hzero (h.loaded hs hl) hs hl j
  rw [hup.connected l hl j] at haddress
  exact hup.machines _ _ haddress

/-- Every call succeeds, on machines that all have an address of their own. -/
structure Sound (L : Launch n) : Prop where
  up : ∀ i, L.opened i = true ∧ (L.host i).getFails = false ∧ (L.host i).putOk = true
  address : ∀ i, (L.host i).address ≠ none
  machines : ∀ i j, (L.host i).address = (L.host j).address → i = j

theorem Sound.exists_up (hL : L.Sound) (h : L.Finds disk ids) (hzero : ids 0 = 0) :
    ∃ s server, Reachable Net.step (L.boot disk) s ∧ L.Up s server := by
  have hload : ∀ i, loadShardId (L.host i) i (L.db disk i) = .ok ((ids i).val : Int) := by
    intro i
    have hget : (L.host i).getFails = false := (hL.up i).2.1
    rcases h i with hid | ⟨hnone, hid⟩
    · exact load_of_up (hL.up i).1 hget hid
    · have hentry : (disk (L.place i))[shardIdKey]? = none := Option.map_eq_none_iff.1 hnone
      unfold Launch.db
      rw [if_pos (hL.up i).1, loadShardId]
      simp only [hget, hentry, hid, Bool.false_eq_true, if_false]
  have hids : ∀ i, ((ids i).val : Int) ≠ -1 := fun i => by omega
  obtain ⟨root, hroot⟩ := ServerLauncher.proxy_rank hids
  obtain ⟨s, hs, -, -, -, hall⟩ := ServerLauncher.startup_completes hload hids
    ((ServerLauncher.matched_perm ids).2 (.inl hzero)) hroot
  refine ⟨s, fun j => ids.symm j.succ, hs, ?_, hL.machines, ?_⟩
  · exact hall (fun j => (hL.up j).2.2) fun j _ => hL.address j
  · intro l hl j
    exact ServerLauncher.started_address hzero hload hs hl j

end Launch

/-! ## Two starts on the same machines -/

/-- **When every shard is served from the database it was served from before.**  `n` is an `int`, and
the first start found the ids `ids`, on rank 0 the id 0.  Between the two starts the servers run, and
leave the launcher's entries as they are. -/
theorem served_again_iff (n : Nat) (hn : n < 2 ^ 31) (disk disk' : Fin (n + 1) → Store)
    (L L' : Launch n) (hplace : L'.place = L.place) (ids : Equiv.Perm (Fin (n + 1)))
    (hzero : ids 0 = 0) (hfinds : L.Finds disk ids)
    (s s' : Net (n + 1) (Option Store) MpiMessage Abort ServerLauncher.Launched)
    (hs : Reachable Net.step (L.boot disk) s) (server : Fin n → Fin (n + 1)) (hup : L.Up s server)
    (hkept : ∀ k, shardIdIn (disk' k) = shardIdIn (L.booted disk s k))
    (hs' : Reachable Net.step (L'.boot disk') s') (server' : Fin n → Fin (n + 1))
    (hup' : L'.Up s' server') :
    (∀ j, L'.place (server' j) = L.place (server j)) ↔ L.Fits disk := by
  have hfinds' : L'.Finds disk' (Equiv.refl _) := fun i => by
    rw [hplace, hkept, hup.saved hn hfinds hs]
    exact .inl rfl
  rw [hfinds.fits_iff]
  have hserver : ∀ j, L'.place (server' j) = L.place (server j) ↔ ids j.succ = j.succ := by
    intro j
    rw [hup.server_eq hfinds hzero hs, hup'.server_eq hfinds' rfl hs', hplace,
      L.place.apply_eq_iff_eq, Equiv.eq_symm_apply]
    rfl
  simp only [hserver]
  constructor
  · intro h i
    cases i using Fin.cases with
    | zero => exact hzero
    | succ j => exact h j
  · exact fun h j => h j.succ

/-- A machine on which every call succeeds, with the address `name`. -/
def hostNamed (name : HostName) : Host :=
  ⟨false, true, some [⟨[105, 98, 48], true, true, some name⟩], [], []⟩

/-- Three machines, "n0", "n1" and "n2". -/
def threeHosts : Launch 2 where
  place := Equiv.refl _
  opened _ := true
  host := ![hostNamed ⟨[110, 48], by decide, by decide⟩,
    hostNamed ⟨[110, 49], by decide, by decide⟩, hostNamed ⟨[110, 50], by decide, by decide⟩]

theorem threeHosts_sound : threeHosts.Sound where
  up := by decide
  address := by decide
  machines := by decide

/-- Two databases with exchanged ids are served as before once, and exchanged at the next start. -/
theorem served_again_swapped :
    ∃ s server s' server', Reachable Net.step
        (threeHosts.boot (disks fun i : Fin 3 => (Equiv.swap 1 2 i).val)) s ∧
      threeHosts.Up s server ∧
      Reachable Net.step (threeHosts.boot (threeHosts.booted
        (disks fun i : Fin 3 => (Equiv.swap 1 2 i).val) s)) s' ∧
      threeHosts.Up s' server' ∧ ¬ ∀ j, server' j = server j := by
  have hids : ∀ i : Fin 3, shardIdIn (disks (fun i : Fin 3 => (Equiv.swap 1 2 i).val) i) =
      some (.ok (((Equiv.swap 1 2 i : Fin 3).val : Nat) : Int)) := by
    intro i
    refine shardIdIn_insert ?_
    fin_cases i <;> decide
  have hfinds : threeHosts.Finds (disks fun i : Fin 3 => (Equiv.swap 1 2 i).val)
      (Equiv.swap 1 2) := fun i => .inl (hids i)
  obtain ⟨s, server, hs, hup⟩ := threeHosts_sound.exists_up hfinds (by decide)
  have hfinds' : threeHosts.Finds (threeHosts.booted
      (disks fun i : Fin 3 => (Equiv.swap 1 2 i).val) s) (Equiv.refl _) := fun i =>
    .inl (hup.saved (by decide) hfinds hs i)
  obtain ⟨s', server', hs', hup'⟩ := threeHosts_sound.exists_up hfinds' rfl
  refine ⟨s, server, s', server', hs, hup, hs', hup', fun hsame => ?_⟩
  have hfits := (served_again_iff 2 (by decide) _ _ _ _ rfl (Equiv.swap 1 2) (by decide) hfinds s s' hs
    server hup (fun _ => rfl) hs' server' hup').1 hsame
  exact absurd (hfinds.fits_iff.1 hfits 1) (by decide)

end SqpKv
