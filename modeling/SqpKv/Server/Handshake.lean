import SqpKv.Lib.Rounds
import SqpKv.Server.ServerLauncher

/-!
# The two rounds of `ShakeHands`
-/

namespace SqpKv

open Wire Processes Machine Function

namespace ServerLauncher

variable {n : Nat}

/-- The process that a rank names. -/
def rankOf (n r : Nat) : Fin (n + 1) := Fin.ofNat (n + 1) r

/-- Rank `i` of `n + 1` behind `GetShardId`. -/
def loaded (ids : Fin (n + 1) → Int) (i : Fin (n + 1)) : ServerLauncher :=
  { init (n + 1) i with shardId := ids i }

/-- Rank 0 when it has the shard ids of all. -/
def gathered (ids : Fin (n + 1) → Int) : ServerLauncher :=
  (List.range' 1 n).foldl (fun l rank => l.enter rank (ids (rankOf n rank)))
    (loaded ids 0).startTable

/-- Rank `i` behind the first round. -/
def informed (ids : Fin (n + 1) → Int) (i : Fin (n + 1)) : ServerLauncher :=
  { (if i = 0 then gathered ids else loaded ids i) with proxyRank := (gathered ids).proxyRank }

/-! ## What rank 0 computes -/

section

variable (g : Nat → Int) (l : ServerLauncher) (rs : List Nat)

/-- The members the loop over the shard ids leaves alone. -/
theorem foldl_enter_fields :
    let t := rs.foldl (fun l r => l.enter r (g r)) l
    t.shardId = l.shardId ∧ t.worldSize = l.worldSize ∧ t.worldRank = l.worldRank ∧
      t.ipAddresses = l.ipAddresses := by
  induction rs using List.reverseRecOn with
  | nil => exact ⟨rfl, rfl, rfl, rfl⟩
  | append_singleton rs r ih =>
    rw [List.foldl_append]
    exact ih

theorem foldl_enter_idToRank (s : Int) :
    let t := rs.foldl (fun l r => l.enter r (g r)) l
    (t.idToRank s = l.idToRank s ∧ ∀ r ∈ rs, g r ≠ s) ∨ ∃ r ∈ rs, g r = s ∧ t.idToRank s = r := by
  induction rs using List.reverseRecOn with
  | nil => exact .inl ⟨rfl, fun r hr => absurd hr List.not_mem_nil⟩
  | append_singleton rs r ih =>
    simp only [List.foldl_append, List.foldl_cons, List.foldl_nil] at ih ⊢
    generalize rs.foldl (fun l r => l.enter r (g r)) l = t at ih ⊢
    show (update t.idToRank (g r) r s = _ ∧ _) ∨
      ∃ r' ∈ rs ++ [r], g r' = s ∧ update t.idToRank (g r) r s = r'
    by_cases hs : g r = s
    · subst hs
      exact .inr ⟨r, by simp, rfl, update_self ..⟩
    · rw [update_of_ne (Ne.symm hs)]
      rcases ih with ⟨heq, hne⟩ | ⟨r', hr', hg, heq⟩
      · refine .inl ⟨heq, fun r' hr' => ?_⟩
        rcases List.mem_append.1 hr' with hr' | hr'
        · exact hne r' hr'
        · rw [List.mem_singleton.1 hr']
          exact hs
      · exact .inr ⟨r', List.mem_append_left _ hr', hg, heq⟩

/-- An id -1 sticks; else the proxy is the last rank that says 0. -/
theorem foldl_enter_proxyRank :
    let t := rs.foldl (fun l r => l.enter r (g r)) l
    (t.proxyRank = -1 ∧ (l.proxyRank = -1 ∨ ∃ r ∈ rs, g r = -1)) ∨
      (l.proxyRank ≠ -1 ∧ (∀ r ∈ rs, g r ≠ -1) ∧
        ((t.proxyRank = l.proxyRank ∧ ∀ r ∈ rs, g r ≠ 0) ∨
          ∃ r ∈ rs, g r = 0 ∧ t.proxyRank = r)) := by
  induction rs using List.reverseRecOn with
  | nil =>
    by_cases hl : l.proxyRank = -1
    · exact .inl ⟨hl, .inl hl⟩
    · exact .inr ⟨hl, by simp, .inl ⟨rfl, by simp⟩⟩
  | append_singleton rs r ih =>
    simp only [List.foldl_append, List.foldl_cons, List.foldl_nil, List.mem_append,
      List.mem_singleton] at ih ⊢
    generalize rs.foldl (fun l r => l.enter r (g r)) l = t at ih ⊢
    show ((if g r = -1 then -1 else if t.proxyRank ≠ -1 ∧ g r = 0 then (r : Int) else t.proxyRank) =
      -1 ∧ _) ∨ _ ∧ _ ∧ (((if g r = -1 then -1 else if t.proxyRank ≠ -1 ∧ g r = 0 then (r : Int)
        else t.proxyRank) = _ ∧ _) ∨ ∃ _, _ ∧ _ ∧ (if g r = -1 then -1
          else if t.proxyRank ≠ -1 ∧ g r = 0 then (r : Int) else t.proxyRank) = _)
    by_cases hr : g r = -1
    · exact .inl ⟨if_pos hr, .inr ⟨r, .inr rfl, hr⟩⟩
    · rw [if_neg hr]
      rcases ih with ⟨ht, hbad⟩ | ⟨hl, hno, ht⟩
      · rw [if_neg (by rw [ht]; simp)]
        refine .inl ⟨ht, hbad.imp_right ?_⟩
        rintro ⟨r', hr', hg⟩
        exact ⟨r', .inl hr', hg⟩
      · have htne : t.proxyRank ≠ -1 := by
          rcases ht with ⟨ht, -⟩ | ⟨r', -, -, ht⟩
          · rw [ht]
            exact hl
          · omega
        refine .inr ⟨hl, ?_, ?_⟩
        · rintro r' (hr' | rfl)
          · exact hno r' hr'
          · exact hr
        · by_cases h0 : g r = 0
          · rw [if_pos ⟨htne, h0⟩]
            exact .inr ⟨r, .inr rfl, h0, rfl⟩
          · rw [if_neg (fun h => h0 h.2)]
            rcases ht with ⟨ht, hne⟩ | ⟨r', hr', hg, ht⟩
            · refine .inl ⟨ht, ?_⟩
              rintro r' (hr' | rfl)
              · exact hne r' hr'
              · exact h0
            · exact .inr ⟨r', .inl hr', hg, ht⟩

end

theorem mem_range'_val {r : Nat} : r ∈ List.range' 1 n ↔ r ≠ 0 ∧ r < n + 1 := by
  rw [List.mem_range'_1]
  omega

theorem covers_range' : Net.Covers (0 : Fin (n + 1)) (List.range' 1 n) :=
  ⟨List.nodup_range', fun _ => mem_range'_val⟩

theorem rankOf_of_lt {r : Nat} (h : r < n + 1) : (rankOf n r).val = r := Nat.mod_eq_of_lt h

theorem rankOf_val (i : Fin (n + 1)) : rankOf n i.val = i := Fin.ext (rankOf_of_lt i.isLt)

theorem rankOf_ne_zero {r : Nat} (h : r ∈ List.range' 1 n) :
    rankOf n r ≠ 0 ∧ (rankOf n r).val = r := by
  obtain ⟨h0, hlt⟩ := mem_range'_val.1 h
  have hval := rankOf_of_lt hlt
  exact ⟨fun h => h0 (hval ▸ congrArg Fin.val h), hval⟩

/-- The queue of another rank than the one that collects. -/
theorem queues_other {μ : Type} (ms : Fin (n + 1) → List μ) {root : Fin (n + 1)} {r : Nat}
    (hne : r ≠ root) (hlt : r < n + 1) :
    Net.queues (fun i => if i = root then [] else ms i) r = ms (rankOf n r) := by
  have hroot : rankOf n r ≠ root := by
    rintro rfl
    exact hne (rankOf_of_lt hlt).symm
  have heq : rankOf n r = ⟨r, hlt⟩ := Fin.ext (rankOf_of_lt hlt)
  rw [heq] at hroot ⊢
  exact (dif_pos hlt).trans (if_neg hroot)

theorem val_mem_range' {i : Fin (n + 1)} (h : i ≠ 0) : i.val ∈ List.range' 1 n :=
  mem_range'_val.2 ⟨fun h0 => h (Fin.ext h0), i.isLt⟩

theorem gathered_idToRank (ids : Fin (n + 1) → Int) (s : Int) :
    ((gathered ids).idToRank s = 0 ∧ ∀ i ≠ 0, ids i ≠ s) ∨
      ∃ i ≠ 0, ids i = s ∧ (gathered ids).idToRank s = i.val := by
  rcases foldl_enter_idToRank (fun r => ids (rankOf n r)) (loaded ids 0).startTable
    (List.range' 1 n) s with ⟨heq, hne⟩ | ⟨r, hr, hids, heq⟩
  · refine .inl ⟨heq.trans ?_, fun i hi => ?_⟩
    · -- rank 0 enters the rank 0, which is also what is there before
      show update (fun _ => 0) _ 0 s = 0
      rw [update_apply, ite_self]
    · have := hne i.val (val_mem_range' hi)
      rwa [rankOf_val] at this
  · obtain ⟨hr0, hval⟩ := rankOf_ne_zero hr
    exact .inr ⟨rankOf n r, hr0, hids, heq.trans hval.symm⟩

theorem gathered_proxyRank (ids : Fin (n + 1) → Int) :
    ((gathered ids).proxyRank = -1 ∧ ∃ i, ids i = -1) ∨
      ((∀ i, ids i ≠ -1) ∧ (((gathered ids).proxyRank = 0 ∧ ∀ i ≠ 0, ids i ≠ 0) ∨
        ∃ i ≠ 0, ids i = 0 ∧ (gathered ids).proxyRank = i.val)) := by
  have hstart : (loaded ids 0).startTable.proxyRank = if ids 0 = -1 then -1 else 0 := rfl
  rcases foldl_enter_proxyRank (fun r => ids (rankOf n r)) (loaded ids 0).startTable
    (List.range' 1 n) with ⟨heq, hbad⟩ | ⟨hl, hno, ht⟩
  · refine .inl ⟨heq, ?_⟩
    rcases hbad with h | ⟨r, -, h⟩
    · refine ⟨0, ?_⟩
      by_contra h0
      rw [hstart, if_neg h0] at h
      cases h
    · exact ⟨_, h⟩
  · have h0 : ids 0 ≠ -1 := by
      intro h
      rw [hstart, if_pos h] at hl
      exact hl rfl
    refine .inr ⟨fun i => ?_, ?_⟩
    · by_cases hi : i = 0
      · rw [hi]
        exact h0
      · have := hno i.val (val_mem_range' hi)
        rwa [rankOf_val] at this
    · rcases ht with ⟨heq, hne⟩ | ⟨r, hr, hids, heq⟩
      · refine .inl ⟨heq.trans (by rw [hstart, if_neg h0]), fun i hi => ?_⟩
        have := hne i.val (val_mem_range' hi)
        rwa [rankOf_val] at this
      · obtain ⟨hr0, hval⟩ := rankOf_ne_zero hr
        exact .inr ⟨rankOf n r, hr0, hids, heq.trans (by rw [hval])⟩

section

variable {host : Fin (n + 1) → Host} {db : Fin (n + 1) → Option Store} {ids : Fin (n + 1) → Int}
  {α : Type}

/-- The first round. -/
theorem reachable_exchangeIds (hload : ∀ i, loadShardId (host i) i (db i) = .ok (ids i))
    (f : Fin (n + 1) → ServerLauncher → Rank α) :
    Reachable Net.step
      (.calm (fun i => ((init (n + 1) i).getShardId (host i)).bind fun l => l.exchangeIds.bind (f i)) db)
      (.calm (fun i => f i (informed ids i)) db) := by
  let ms : Fin (n + 1) → List MpiMessage := fun i => if i = 0 then [] else [.int (ids i)]
  have hload' : ∀ i, Rank.ofExcept (loadShardId (host i) (init (n + 1) i).worldRank (db i)) =
      .done (ids i) := fun i => congrArg Rank.ofExcept (hload i)
  refine Net.round 0 ms (m := .int (gathered ids).proxyRank)
    (b := fun i => .int (-1))
    (k := fun i m => (m.toInt.bind fun proxyRank =>
      .done { (if i = 0 then gathered ids else loaded ids i) with proxyRank }).bind (f i)) ?_ rfl ?_
  · intro i hi
    have hrank : (loaded ids i).worldRank ≠ 0 := fun h => hi (Fin.ext h)
    refine .load ?_
    show Sends 0 (((Rank.ofExcept (loadShardId (host i) (init (n + 1) i).worldRank (db i))).bind _).bind
      _) _ _ _ _
    rw [hload' i]
    show Sends 0 ((exchangeIds (loaded ids i)).bind (f i)) _ (ms i) _ _
    rw [exchangeIds, if_neg hrank, if_neg hi, show ms i = [.int (ids i)] from if_neg hi]
    exact .send (.refl _ _)
  · refine .load ?_
    show Takes _ (((Rank.ofExcept (loadShardId (host 0) (init (n + 1) (0 : Fin (n + 1))).worldRank
      (db 0))).bind _).bind _) _ _ _ _
    rw [hload' 0]
    show Takes _ ((exchangeIds (loaded ids 0)).bind (f 0)) _ _ _ _
    rw [exchangeIds, if_pos rfl]
    have hloop := Takes.foldlM (x := db 0)
      (f := fun l rank => (recvInt rank).bind fun commShardId => .done (l.enter rank commShardId))
      (g := fun l rank => l.enter rank (ids (rankOf n rank)))
      (fun r => r) (Net.queues ms) (List.range' 1 n) (loaded ids 0).startTable ?_ ?_
    · rw [List.map_id', covers_range'.taken (show ms 0 = [] from rfl)] at hloop
      exact (hloop.bind _).bind _
    · rw [List.map_id']
      exact List.nodup_range'
    · intro l r inbox hr hin
      obtain ⟨hr0, hlt⟩ := mem_range'_val.1 hr
      exact .recv (hin.trans (queues_other _ hr0 hlt)) (.refl _ _ _)

/-! ## The second round -/

/-- `save_success` of a rank. -/
def saved (h : Host) : Int := if h.putOk then 1 else 0

/-- The database behind `db_->Put`. -/
def stored (h : Host) (i : Nat) (db : Option Store) : Option Store :=
  if h.putOk then db.map fun db => db.insert shardIdKey (decimal i) else db

theorem sends_putShardId (root : Nat) (h : Host) (l : ServerLauncher) {db : Option Store}
    (hdb : db ≠ none) (f : Int → Rank α) :
    Sends root ((l.putShardId h).bind f) db [] (f (saved h)) (stored h l.worldRank db) := by
  refine .load ?_
  unfold saved stored
  rcases db with _ | db
  · exact absurd rfl hdb
  · show Sends root (Proc.bind (if h.putOk then _ else _) f) _ _ _ _
    by_cases hput : h.putOk = true
    · rw [if_pos hput, if_pos hput, if_pos hput]
      exact .store (.refl _ _)
    · rw [if_neg hput, if_neg hput, if_neg hput]
      exact .refl _ _

theorem saveShardId_bind {h : Host} {l : ServerLauncher} (hl : l.proxyRank ≠ -1)
    (f : ServerLauncher → Rank α) :
    (l.saveShardId h).bind f =
      (l.putShardId h).bind fun v => (l.exchangeSaves v).bind fun v => f (l.settle v) := by
  rw [saveShardId, if_neg hl]
  show (Proc.bind (l.putShardId h) fun v => (l.exchangeSaves v).bind fun v => .done (l.settle v)).bind
    f = _
  rw [Proc.bind_assoc]
  congr 1
  funext v
  exact Proc.bind_assoc _ _ _

/-- The sources the proxy receives from, in its order. -/
def sources (l : ServerLauncher) : List Nat := l.others.map fun (shardId : Nat) => l.idToRank shardId

section

variable {ls : Fin (n + 1) → ServerLauncher} {root : Fin (n + 1)}

/-- What the others do in the second round. -/
theorem sends_saveShardId {i : Fin (n + 1)} (hi : i ≠ root) (hrank : (ls i).worldRank = i)
    (hproxy : (ls i).proxyRank = root.val) (hdb : db i ≠ none) (f : ServerLauncher → Rank α) :
    Sends root (((ls i).saveShardId (host i)).bind f) (db i) [.int (saved (host i))]
      (.bcast root (.int (saved (host i))) fun m => m.toInt.bind fun v => f ((ls i).settle v))
      (stored (host i) i (db i)) := by
  have hself : ¬((ls i).worldRank : Int) = (ls i).proxyRank := by
    rw [hrank, hproxy]
    exact fun h => hi (Fin.ext (Int.ofNat.inj h))
  have hdest : (ls i).proxyRank.toNat = root.val := by omega
  have hput := sends_putShardId root (host i) (ls i) hdb fun v =>
    ((ls i).exchangeSaves v).bind fun v => f ((ls i).settle v)
  rw [hrank, exchangeSaves, if_neg hself, hdest] at hput
  rw [saveShardId_bind (by omega)]
  exact hput.trans (.send (.refl _ _))

/-- What the loop over the others' `save_success` computes. -/
def collectedSaves (host : Fin (n + 1) → Host) (l : ServerLauncher) (root : Fin (n + 1)) : Int :=
  l.others.foldl (fun v (shardId : Nat) => both (saved (host (rankOf n (l.idToRank shardId)))) v)
    (saved (host root))

/-- The messages of the second round. -/
def saves (host : Fin (n + 1) → Host) (root i : Fin (n + 1)) : List MpiMessage :=
  if i = root then [] else [.int (saved (host i))]

theorem takes_collectSave {l : ServerLauncher} {x : Option Store} (v : Int) (shardId : Nat)
    (inbox : Nat → List MpiMessage)
    (hsource : l.idToRank shardId ≠ root ∧ l.idToRank shardId < n + 1)
    (hin : inbox (l.idToRank shardId) = Net.queues (saves host root) (l.idToRank shardId)) :
    Takes inbox (l.collectSave v shardId) x (update inbox (l.idToRank shardId) [])
      (.done (both (saved (host (rankOf n (l.idToRank shardId)))) v)) x :=
  .recv (hin.trans (queues_other _ hsource.1 hsource.2)) (.refl _ _ _)

/-- What the proxy does up to its loop. -/
theorem takes_saveShardId (inbox : Nat → List MpiMessage) (hrank : (ls root).worldRank = root)
    (hproxy : (ls root).proxyRank = root.val) (hdb : db root ≠ none) (f : ServerLauncher → Rank α) :
    Takes inbox (((ls root).saveShardId (host root)).bind f) (db root) inbox
      ((((ls root).others.foldlM (ls root).collectSave (saved (host root))).bind fun v =>
        bcastInt root v).bind fun v => f ((ls root).settle v))
      (stored (host root) root (db root)) := by
  have hself : ((ls root).worldRank : Int) = (ls root).proxyRank := by rw [hrank, hproxy]
  have hdest : (ls root).proxyRank.toNat = root.val := by omega
  have hput := sends_putShardId root (host root) (ls root) hdb fun v =>
    ((ls root).exchangeSaves v).bind fun v => f ((ls root).settle v)
  rw [hrank, exchangeSaves, if_pos hself, hdest] at hput
  rw [saveShardId_bind (by omega)]
  exact hput.takes inbox

variable (hrank : ∀ i, (ls i).worldRank = i) (hsize : (ls root).worldSize = n + 1)
  (hproxy : ∀ i, (ls i).proxyRank = root.val) (hdb : ∀ i, db i ≠ none)

include hrank hproxy hdb

variable (host ls) in
/-- The second round, where the table of the proxy is right. -/
theorem reachable_saveShardId (hcovers : Net.Covers root (ls root).sources)
    (f : Fin (n + 1) → ServerLauncher → Rank α) :
    Reachable Net.step (.calm (fun i => ((ls i).saveShardId (host i)).bind (f i)) db)
      (.calm (fun i => f i ((ls i).settle (collectedSaves host (ls root) root)))
        fun i => stored (host i) i (db i)) := by
  refine Net.round root (saves host root)
    (m := .int (collectedSaves host (ls root) root)) (b := fun i => .int (saved (host i)))
    (k := fun i m => m.toInt.bind fun v => f i ((ls i).settle v)) ?_ (if_pos rfl) ?_
  · intro i hi
    rw [show saves host root i = _ from if_neg hi]
    exact sends_saveShardId hi (hrank i) (hproxy i) (hdb i) (f i)
  · have hloop := Takes.foldlM (x := stored (host root) root (db root))
      (f := (ls root).collectSave)
      (g := fun v (s : Nat) => both (saved (host (rankOf n ((ls root).idToRank s)))) v)
      (fun (s : Nat) => (ls root).idToRank s) (Net.queues (saves host root)) (ls root).others
      (saved (host root)) hcovers.1 fun v s inbox hs hin =>
        takes_collectSave v s inbox ((hcovers.2 _).1 (List.mem_map_of_mem hs)) hin
    rw [show (ls root).others.map _ = (ls root).sources from rfl, hcovers.taken (if_pos rfl)] at hloop
    exact (takes_saveShardId _ (hrank root) (hproxy root) (hdb root) (f root)).trans
      ((hloop.bind _).bind _)

include hsize

variable (host ls) in
/-- The second round, where it is wrong. -/
theorem stuck_saveShardId (hcovers : ¬ Net.Covers root (ls root).sources)
    (f : Fin (n + 1) → ServerLauncher → Rank α) :
    ∃ t, Reachable Net.step (.calm (fun i => ((ls i).saveShardId (host i)).bind (f i)) db) t ∧
      Halted Net.step t ∧ ∀ i, ¬ t.Returned i := by
  have hlen : (ls root).sources.length + 1 = n + 1 := by
    rw [sources, others, hsize, List.length_map, List.length_range']
    omega
  rcases Net.first_spent root (fun (s : Nat) => (ls root).idToRank s) (ls root).others with
    ⟨hnodup, hin⟩ | ⟨pre, s, post, hsplit, hnodup, hin, hspent⟩
  · refine absurd (Net.covers_of_nodup hlen hnodup fun r hr => ?_) hcovers
    obtain ⟨s, hs, rfl⟩ := List.mem_map.1 hr
    exact hin s hs
  · have hempty : (ls root).idToRank s ∈ pre.map (fun (s : Nat) => (ls root).idToRank s) ∨
        Net.queues (saves host root) ((ls root).idToRank s) = [] := by
      refine hspent.imp_right fun h => ?_
      unfold Net.queues
      split
      · next hlt =>
        have heq : (⟨(ls root).idToRank s, hlt⟩ : Fin (n + 1)) = root := by
          by_contra hne
          exact h ⟨fun heq => hne (Fin.ext heq), hlt⟩
        exact if_pos heq
      · rfl
    obtain ⟨inbox, k, hloop, hnone⟩ := Takes.foldlM_stuck
      (x := stored (host root) root (db root)) (f := (ls root).collectSave)
      (g := fun v (s : Nat) => both (saved (host (rankOf n ((ls root).idToRank s)))) v)
      (fun (s : Nat) => (ls root).idToRank s) (Net.queues (saves host root)) post (saved (host root)) hnodup
      (fun v s inbox hs hin' => takes_collectSave v s inbox (hin s hs) hin')
      (fun v => ⟨_, rfl⟩) hempty
    rw [← hsplit] at hloop
    have hroot := (takes_saveShardId _ (hrank root) (hproxy root) (hdb root) (f root)).trans
      ((hloop.bind fun v => bcastInt root v).bind fun v => f root ((ls root).settle v))
    refine Net.stuck root (saves host root) (y := fun i => stored (host i) i (db i))
      (b := fun i => .int (saved (host i)))
      (k := fun i m => m.toInt.bind fun v => f i ((ls i).settle v)) (fun i hi => ?_) (if_pos rfl) hroot hnone
    rw [show saves host root i = _ from if_neg hi]
    exact sends_saveShardId hi (hrank i) (hproxy i) (hdb i) (f i)

end

/-! ## Where the table of the proxy is right -/

/-- The ranks but 0 hold the ids from 1 on; or there are two ranks and the second holds the id 0. -/
def Matched (ids : Fin (n + 1) → Int) : Prop :=
  (∀ s : Nat, 1 ≤ s → s ≤ n → ∃ i ≠ 0, ids i = s) ∨ (n = 1 ∧ ids (Fin.last n) = 0)

/-- The members that the first round leaves alone. -/
theorem informed_fields (i : Fin (n + 1)) :
    (informed ids i).shardId = ids i ∧ (informed ids i).worldSize = n + 1 ∧
      (informed ids i).worldRank = i ∧ (informed ids i).ipAddresses = [] := by
  by_cases hi : i = 0
  · subst hi
    exact foldl_enter_fields _ (loaded ids 0).startTable (List.range' 1 n)
  · unfold informed
    rw [if_neg hi]
    exact ⟨rfl, rfl, rfl, rfl⟩

theorem informed_shardId (i : Fin (n + 1)) : (informed ids i).shardId = ids i :=
  (informed_fields i).1

theorem informed_worldSize (i : Fin (n + 1)) : (informed ids i).worldSize = n + 1 :=
  (informed_fields i).2.1

theorem informed_worldRank (i : Fin (n + 1)) : (informed ids i).worldRank = i :=
  (informed_fields i).2.2.1

theorem informed_ipAddresses (i : Fin (n + 1)) : (informed ids i).ipAddresses = [] :=
  (informed_fields i).2.2.2

theorem others_informed (i : Fin (n + 1)) : (informed ids i).others = List.range' 1 n := by
  unfold others
  rw [informed_worldSize]
  rfl

theorem covers_gathered :
    Net.Covers (0 : Fin (n + 1)) (informed ids 0).sources ↔ ∀ s : Nat, 1 ≤ s → s ≤ n → ∃ i ≠ 0, ids i = s := by
  unfold sources
  rw [others_informed, show (informed ids 0).idToRank = (gathered ids).idToRank from rfl]
  constructor
  · intro h s h1 hs
    have hmem : (gathered ids).idToRank s ∈
        (List.range' 1 n).map fun (s : Nat) => (gathered ids).idToRank s :=
      List.mem_map_of_mem (f := fun (s : Nat) => (gathered ids).idToRank s)
        (mem_range'_val.2 ⟨by omega, by omega⟩)
    rcases gathered_idToRank ids s with ⟨heq, -⟩ | ⟨i, hi, hids, -⟩
    · exact absurd heq ((h.2 _).1 hmem).1
    · exact ⟨i, hi, hids⟩
  · intro h
    have hfound : ∀ s ∈ List.range' 1 n, ∃ i ≠ 0, ids i = (s : Int) ∧
        (gathered ids).idToRank s = i.val := by
      intro s hs
      obtain ⟨h0, hlt⟩ := mem_range'_val.1 hs
      rcases gathered_idToRank ids s with ⟨-, hne⟩ | hfound
      · obtain ⟨i, hi, hids⟩ := h s (by omega) (by omega)
        exact absurd hids (hne i hi)
      · exact hfound
    refine Net.covers_of_nodup ?_ ?_ ?_
    · rw [List.length_map, List.length_range']
    · -- a rank has one id
      refine List.Nodup.map_on ?_ List.nodup_range'
      intro s hs s' hs' heq
      obtain ⟨i, -, hids, hi⟩ := hfound s hs
      obtain ⟨i', -, hids', hi'⟩ := hfound s' hs'
      have hii : i = i' := Fin.ext (by rw [← hi, ← hi', heq])
      rw [hii, hids'] at hids
      exact (Int.ofNat.inj hids).symm
    · intro r hr
      obtain ⟨s, hs, rfl⟩ := List.mem_map.1 hr
      obtain ⟨i, hi, -, heq⟩ := hfound s hs
      rw [heq]
      exact ⟨fun h0 => hi (Fin.ext h0), i.isLt⟩

/-- Every rank but 0 holds its own id from 1 on. -/
theorem rank_of_covers (h : ∀ s : Nat, 1 ≤ s → s ≤ n → ∃ i ≠ 0, ids i = s) {i : Fin (n + 1)}
    (hi : i ≠ 0) : ∃ s : Nat, 1 ≤ s ∧ s ≤ n ∧ ids i = s ∧ (gathered ids).idToRank s = i.val := by
  have hmem := ((covers_gathered.2 h).2 i.val).2 ⟨fun h0 => hi (Fin.ext h0), i.isLt⟩
  unfold sources at hmem
  rw [others_informed] at hmem
  obtain ⟨s, hs, heq⟩ := List.mem_map.1 hmem
  obtain ⟨h0, hlt⟩ := mem_range'_val.1 hs
  have heq : (gathered ids).idToRank s = i.val := heq
  refine ⟨s, by omega, by omega, ?_, heq⟩
  rcases gathered_idToRank ids s with ⟨hzero, -⟩ | ⟨j, hj, hids, hval⟩
  · exact absurd (Fin.ext (heq.symm.trans hzero)) hi
  · rw [show i = j from Fin.ext (heq.symm.trans hval)]
    exact hids

theorem covers_informed {root : Fin (n + 1)} (hids : ∀ i, ids i ≠ -1)
    (hproxy : (gathered ids).proxyRank = root.val) :
    Net.Covers root (informed ids root).sources ↔ Matched ids := by
  rcases gathered_proxyRank ids with ⟨-, i, hi⟩ | ⟨-, ⟨h0, hno⟩ | ⟨p, hp, hids0, heq⟩⟩
  · exact absurd hi (hids i)
  · have hroot : root = 0 := Fin.ext (by
      rw [h0] at hproxy
      exact (Int.ofNat.inj hproxy).symm)
    subst hroot
    rw [covers_gathered]
    refine ⟨.inl, ?_⟩
    rintro (h | ⟨rfl, hlast⟩)
    · exact h
    · exact absurd hlast (hno _ (by decide))
  · have hroot : root = p := Fin.ext (by
      rw [heq] at hproxy
      exact (Int.ofNat.inj hproxy).symm)
    subst hroot
    have hn : n ≠ 0 := by
      rintro rfl
      exact hp (Fin.ext (by omega))
    -- the proxy has an empty table: all its sources are rank 0
    have hsources : (informed ids root).sources = List.replicate n 0 := by
      unfold sources
      rw [others_informed, List.eq_replicate_iff]
      refine ⟨by rw [List.length_map, List.length_range'], fun r hr => ?_⟩
      obtain ⟨s, -, rfl⟩ := List.mem_map.1 hr
      unfold informed
      rw [if_neg hp]
      rfl
    rw [hsources]
    constructor
    · intro h
      have hn1 : n ≤ 1 := List.nodup_replicate.1 h.1
      have hone : n = 1 := by omega
      subst hone
      refine .inr ⟨rfl, ?_⟩
      have hlast : root = Fin.last 1 := by
        have := root.isLt
        have : root.val ≠ 0 := fun h0 => hp (Fin.ext h0)
        exact Fin.ext (show root.val = 1 by omega)
      rw [← hlast]
      exact hids0
    · rintro (h | ⟨rfl, -⟩)
      · obtain ⟨s, h1, -, hs, -⟩ := rank_of_covers h hp
        omega
      · refine ⟨by simp, fun r => ?_⟩
        have := root.isLt
        have : root.val ≠ 0 := fun h0 => hp (Fin.ext h0)
        rw [List.mem_replicate]
        omega

/-! ## Both rounds -/

/-- Rank `i` behind both rounds. -/
def agreed (host : Fin (n + 1) → Host) (ids : Fin (n + 1) → Int) (i : Fin (n + 1)) : ServerLauncher :=
  { informed ids i with
    proxyRank := if ∀ j, (host j).putOk = true then (gathered ids).proxyRank else -1 }

theorem both_ne_zero {a b : Int} : both a b ≠ 0 ↔ a ≠ 0 ∧ b ≠ 0 := by
  unfold both
  split
  · next h => simp [h]
  · next h => simpa using h

theorem saved_ne_zero {h : Host} : saved h ≠ 0 ↔ h.putOk = true := by
  unfold saved
  by_cases hput : h.putOk = true
  · rw [if_pos hput]
    exact ⟨fun _ => hput, fun _ => by decide⟩
  · rw [if_neg hput]
    exact ⟨fun hzero => absurd rfl hzero, fun h1 => absurd h1 hput⟩

theorem foldl_both (v : Int) (g : Nat → Int) (l : List Nat) :
    l.foldl (fun v s => both (g s) v) v ≠ 0 ↔ v ≠ 0 ∧ ∀ s ∈ l, g s ≠ 0 := by
  induction l generalizing v with
  | nil => simp
  | cons s l ih =>
    rw [List.foldl_cons, ih, both_ne_zero, List.forall_mem_cons]
    constructor
    · rintro ⟨⟨hs, hv⟩, hl⟩
      exact ⟨hv, hs, hl⟩
    · rintro ⟨hv, hs, hl⟩
      exact ⟨⟨hs, hv⟩, hl⟩

variable (host) in
theorem collectedSaves_ne_zero {l : ServerLauncher} {root : Fin (n + 1)}
    (h : Net.Covers root l.sources) :
    collectedSaves host l root ≠ 0 ↔ ∀ j, (host j).putOk = true := by
  unfold collectedSaves
  rw [foldl_both, saved_ne_zero]
  constructor
  · rintro ⟨hroot, hall⟩ j
    by_cases hj : j = root
    · rw [hj]
      exact hroot
    · obtain ⟨s, hs, heq⟩ := List.mem_map.1 ((h.2 j.val).2 ⟨fun heq => hj (Fin.ext heq), j.isLt⟩)
      have hput := saved_ne_zero.1 (hall s hs)
      rwa [heq, rankOf_val] at hput
  · intro hall
    exact ⟨hall root, fun s _ => saved_ne_zero.2 (hall _)⟩

theorem settle_collectedSaves {root : Fin (n + 1)}
    (h : Net.Covers root (informed ids root).sources) (i : Fin (n + 1)) :
    (informed ids i).settle (collectedSaves host (informed ids root) root) = agreed host ids i := by
  have hiff := collectedSaves_ne_zero host h
  unfold settle agreed
  by_cases hput : ∀ j, (host j).putOk = true
  · rw [if_pos hput, if_pos (hiff.2 hput)]
    rfl
  · rw [if_neg hput, if_neg (fun hv => hput (hiff.1 hv))]

variable (host db) in
/-- Ranks that find their shard ids and shake hands, and go on with `f`. -/
def shaking (f : Fin (n + 1) → ServerLauncher → Rank α) : Net (n + 1) (Option Store) MpiMessage Abort α :=
  .calm (fun i => ((init (n + 1) i).getShardId (host i)).bind fun l =>
    (l.shakeHands (host i)).bind (f i)) db

theorem proxy_rank (hids : ∀ i, ids i ≠ -1) :
    ∃ root : Fin (n + 1), (gathered ids).proxyRank = root.val := by
  rcases gathered_proxyRank ids with ⟨-, i, hi⟩ | ⟨-, ⟨heq, -⟩ | ⟨i, -, -, heq⟩⟩
  · exact absurd hi (hids i)
  · exact ⟨0, heq⟩
  · exact ⟨i, heq⟩

section

variable (hload : ∀ i, loadShardId (host i) i (db i) = .ok (ids i))
  (f : Fin (n + 1) → ServerLauncher → Rank α)

include hload

theorem reachable_saving :
    Reachable Net.step (shaking host db f)
      (.calm (fun i => ((informed ids i).saveShardId (host i)).bind (f i)) db) := by
  have h := reachable_exchangeIds hload fun i l => (l.saveShardId (host i)).bind (f i)
  unfold shaking
  convert h using 5
  exact Proc.bind_assoc _ _ _

theorem db_ne_none {i : Fin (n + 1)} (hi : ids i ≠ -1) : db i ≠ none := by
  intro hnone
  have h := hload i
  rw [hnone] at h
  exact hi (Except.ok.inj h).symm

/-- A rank without a shard id fails all. -/
theorem shaking_fails (hbad : ∃ i, ids i = -1) :
    Reachable Net.step (shaking host db f) (.calm (fun i => f i (informed ids i)) db) ∧
      (gathered ids).proxyRank = -1 := by
  rcases gathered_proxyRank ids with ⟨heq, -⟩ | ⟨hids, -⟩
  · refine ⟨?_, heq⟩
    have h := reachable_saving hload f
    convert h using 3
    next i =>
    unfold saveShardId
    rw [if_pos (show (informed ids i).proxyRank = -1 from heq)]
    rfl
  · obtain ⟨i, hi⟩ := hbad
    exact absurd hi (hids i)

theorem shaking_completes (hids : ∀ i, ids i ≠ -1) (hm : Matched ids) :
    Reachable Net.step (shaking host db f)
      (.calm (fun i => f i (agreed host ids i)) fun i => stored (host i) i (db i)) := by
  obtain ⟨root, hroot⟩ := proxy_rank hids
  have hcovers := (covers_informed hids hroot).2 hm
  have h := reachable_saveShardId host (informed ids) informed_worldRank
    (fun i => hroot) (fun i => db_ne_none hload (hids i)) hcovers f
  simp only [settle_collectedSaves hcovers] at h
  exact (reachable_saving hload f).trans h

theorem shaking_stuck (hids : ∀ i, ids i ≠ -1) (hm : ¬ Matched ids) :
    ∃ t, Reachable Net.step (shaking host db f) t ∧ Halted Net.step t ∧ ∀ i, ¬ t.Returned i := by
  obtain ⟨root, hroot⟩ := proxy_rank hids
  obtain ⟨t, ht, hhalted, hnone⟩ := stuck_saveShardId host (informed ids)
    informed_worldRank (informed_worldSize root) (fun i => hroot)
    (fun i => db_ne_none hload (hids i)) (fun h => hm ((covers_informed hids hroot).1 h)) f
  exact ⟨t, (reachable_saving hload f).trans ht, hhalted, hnone⟩

end

end

/-! ## The network of the handshake -/

/-- `n + 1` ranks in `GetShardId` and `ShakeHands`. -/
def handshake (host : Fin (n + 1) → Host) (db : Fin (n + 1) → Option Store) :
    Net (n + 1) (Option Store) MpiMessage Abort ServerLauncher :=
  .calm (fun i => do
    let l ← (init (n + 1) i).getShardId (host i)
    l.shakeHands (host i)) db

theorem handshake_eq (host : Fin (n + 1) → Host) (db : Fin (n + 1) → Option Store) :
    handshake host db = shaking host db fun _ => .done := by
  unfold shaking
  simp only [Proc.bind_done]
  rfl

/-- What a rank has when it returns, and what is then in its database. -/
theorem handshake_done {host : Fin (n + 1) → Host} {db : Fin (n + 1) → Option Store}
    {ids : Fin (n + 1) → Int} (hload : ∀ i, loadShardId (host i) i (db i) = .ok (ids i))
    {s : Net (n + 1) (Option Store) MpiMessage Abort ServerLauncher}
    (hs : Reachable Net.step (handshake host db) s) {i : Fin (n + 1)} {l : ServerLauncher}
    (hi : s.proc i = .done l) :
    (l = informed ids i ∧ l.proxyRank = -1 ∧ ∃ j, ids j = -1) ∨
      (l = agreed host ids i ∧ s.mem i = stored (host i) i (db i) ∧ (∀ j, ids j ≠ -1) ∧
        Matched ids) := by
  rw [handshake_eq] at hs
  by_cases hids : ∀ j, ids j ≠ -1
  · by_cases hm : Matched ids
    · have hend := shaking_completes hload (fun _ => .done) hids hm
      obtain ⟨hproc, hmem⟩ := Net.done_unique (Net.halted_of_returned fun i => ⟨_, rfl⟩) hend hs hi
      exact .inr ⟨(Proc.done.inj hproc).symm, hmem.symm, hids, hm⟩
    · obtain ⟨t, ht, hhalted, hnone⟩ := shaking_stuck hload (fun _ => .done) hids hm
      exact absurd ⟨l, (Net.done_unique hhalted ht hs hi).1⟩ (hnone i)
  · obtain ⟨j, hj⟩ := not_forall.1 hids
    obtain ⟨hend, hproxy⟩ := shaking_fails hload (fun _ => .done) ⟨j, not_not.1 hj⟩
    have hproc := (Net.done_unique (Net.halted_of_returned fun i => ⟨_, rfl⟩) hend hs hi).1
    have hl : l = informed ids i := (Proc.done.inj hproc).symm
    refine .inl ⟨hl, ?_, j, not_not.1 hj⟩
    rw [hl]
    exact hproxy

end ServerLauncher

end SqpKv
