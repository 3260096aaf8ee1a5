import SqpKv.Cluster.Calls
import SqpKv.Cluster.GetAll

/-!
# What a GetAll sees of one shard

A GetAll takes effect on the shard `home` when the worker of `home`
scans its RocksDB: before that it waits (`Session.Waits`), and from then on the
keys that will be returned for that shard are fixed (`Session.Has`).  So if of
the keys a GetAll returns only those of one shard are looked at, all calls are
linearizable as calls on one map that can list its keys:

    every trace, seen from one shard, is linearizable      (Cluster.exists_order)
-/

namespace SqpKv

open Wire Machine History

/-- One map, whose keys that are `mine` can be listed in their order. -/
def listSpec (mine : Bytes → Bool) : SeqSpec (Bytes → Option Bytes) Command CallResult where
  next := keySpec.next
  returns m
    | .getAll keyPrefix, ret => ∃ keys, ret = .getAll .Ok keys ∧
        (keys.Pairwise fun a b => compare a b = .lt) ∧
        ∀ key, key ∈ keys ↔ keyPrefix <+: key ∧ mine key = true ∧ m key ≠ none
    | c, ret => keySpec.returns m c ret

/-- What a result says about the keys that are `mine`. -/
def CallResult.on (mine : Bytes → Bool) : CallResult → CallResult
  | .getAll status keys => .getAll status (keys.filter mine)
  | ret => ret

/-- An event with its result cut down to these keys. -/
def cutTo {Cl : Type} (mine : Bytes → Bool) : CallEvent Cl → CallEvent Cl
  | .inv id c => .inv id c
  | .res id ret => .res id (ret.on mine)

/-- The key is one of the shard's. -/
def onShard {n : Nat} (home : Fin n) (key : Bytes) : Bool := decide (route n key = some home)

theorem onShard_eq {n : Nat} {home : Fin n} {key : Bytes} :
    onShard home key = true ↔ route n key = some home := decide_eq_true_iff

theorem Connection.finish_on {mine : Bytes → Bool} {c : Command} {key : Bytes} {r : Response}
    {ret : CallResult} (hc : c.key? = some key) (h : Connection.finish c r = some ret) :
    ret.on mine = ret := by
  cases ret with
  | getAll status keys =>
    cases c with
    | getAll keyPrefix => cases hc
    | get key => cases r <;> simp only [Connection.finish] at h <;> (try split at h) <;> cases h
    | _ => cases r <;> cases h
  | _ => rfl

/-- The keys of a shard that a scan of its RocksDB finds. -/
def foundOn {n : Nat} (home : Fin n) (db : Store) (keyPrefix : Bytes) : List Bytes :=
  (collect keyPrefix (seek db keyPrefix)).filter (onShard home)

/-! ## A GetAll before and behind the scan of one shard -/

namespace Session

variable {n : Nat} {s s' : Session n} {home : Fin n} {found : List Bytes}

/-- The shard has not answered, and of its keys none has been collected. -/
def Waits (home : Fin n) (s : Session n) : Prop :=
  s.Gathers (fun j keys => j ≠ home ∧ keys.filter (onShard home) = [])
    fun next keys => next ≤ home.val ∧ keys.filter (onShard home) = []

/-- The shard has been asked, and has scanned. -/
structure Past (home : Fin n) (s : Session n) : Prop where
  asked : ∀ c, ¬ (s.lane home).At (.asked c)
  fanOut : ∀ keyPrefix next, s.proxy = .fanOut keyPrefix next → home.val < next
  read : s.proxy = .idle → s.up = []

/-- Of the shard's keys the call returns `found`. -/
structure Has (home : Fin n) (found : List Bytes) (s : Session n) : Prop where
  past : s.Past home
  gathers : s.Gathers (fun j keys => keys.filter (onShard home) = if j = home then found else [])
    fun next keys => keys.filter (onShard home) = if home.val < next then found else []

theorem joins_waits : Joins (n := n) (fun j keys => j ≠ home ∧ keys.filter (onShard home) = [])
    fun next keys => next ≤ home.val ∧ keys.filter (onShard home) = [] where
  nil := ⟨Nat.zero_le _, rfl⟩
  append j keys more hkeys hmore := by
    have hne : j.val ≠ home.val := fun heq => hmore.1 (Fin.ext heq)
    refine ⟨by omega, ?_⟩
    rw [List.filter_append, hkeys.2, hmore.2, List.nil_append]

theorem joins_has :
    Joins (n := n) (fun j keys => keys.filter (onShard home) = if j = home then found else [])
      fun next keys => keys.filter (onShard home) = if home.val < next then found else [] where
  nil := (if_neg (Nat.not_lt_zero _)).symm
  append j keys more hkeys hmore := by
    rw [List.filter_append, hkeys, hmore]
    by_cases heq : j = home
    · subst heq
      rw [if_neg (Nat.lt_irrefl _), if_pos rfl, if_pos (Nat.lt_succ_self _), List.nil_append]
    · have hne : j.val ≠ home.val := fun h => heq (Fin.ext h)
      rw [if_neg heq, List.append_nil]
      by_cases hlt : home.val < j.val
      · rw [if_pos hlt, if_pos (by omega)]
      · rw [if_neg hlt, if_neg (by omega)]

/-! ### Steps behind the scan -/

theorem Past.setLane (h : s.Past home) {i : Fin n} {l : Lane}
    (hl : i = home → ∀ c, ¬ l.At (.asked c)) : (s.setLane i l).Past home := by
  refine ⟨?_, h.fanOut, h.read⟩
  intro c hc
  by_cases hi : home = i
  · subst hi
    rw [setLane_lane_self] at hc
    exact hl rfl c hc
  · rw [setLane_lane_of_ne hi] at hc
    exact h.asked c hc

theorem Past.keepLane (h : s.Past home) {i : Fin n} {l : Lane} {lst : LaneStage}
    (hi : (s.lane i).At lst) (hl : l.At lst) : (s.setLane i l).Past home := by
  refine h.setLane ?_
  rintro rfl c hc
  rw [hl.unique hc] at hi
  exact h.asked c hi

/-- A worker that calls RocksDB answers. -/
theorem Past.workerExec (h : s.Past home) (hshape : s.Shape .scanning) {notFound : Bytes} {i : Fin n}
    {db db' : Store} (hs : s.workerExec notFound i db = some (db', s')) : s'.Past home := by
  obtain ⟨⟨db'', l⟩, hl, hs⟩ := Option.bind_eq_some_iff.1 hs
  cases hs
  obtain ⟨lst, hat⟩ := hshape.exists_at i
  obtain ⟨c, -, -, hanswered⟩ := hat.exec hl
  refine h.setLane fun _ c hc => ?_
  cases hanswered.unique hc

theorem Past.proxyStep (h : s.Past home) (hshape : s.Shape .scanning) (hs : s.proxyStep = some s') :
    s'.Past home := by
  cases hshape with
  | scanRequested hp hu hx hd hl =>
    rw [h.read hx] at hu
    cases hu
  | @fanOut keyPrefix next hp hu hx hd hasked hl =>
    rcases Shape.proxyStep_fanOut hx hs with ⟨hnext, rfl⟩ | ⟨-, rfl⟩
    · have hbehind := h.fanOut keyPrefix next hx
      refine ⟨(h.setLane fun heq => ?_).asked, ?_, fun hidle => nomatch hidle⟩
      · rw [← heq] at hbehind
        exact absurd hbehind (Nat.lt_irrefl _)
      · rintro _ _ ⟨⟩
        omega
    · exact ⟨h.asked, fun _ _ hx => (nomatch hx), fun hidle => nomatch hidle⟩
  | @collect keyPrefix next keys hp hu hx hd hl hasked =>
    rcases Shape.proxyStep_collect hx hs with ⟨hnext, status, more, responses, hr, rfl⟩ | ⟨-, rfl⟩
    · have hquiet := (hasked ⟨next, hnext⟩ (Nat.le_refl _)).pop hr
      refine ⟨(h.setLane fun _ c hc => ?_).asked, fun _ _ hx => (nomatch hx), fun hidle => nomatch hidle⟩
      cases hquiet.unique hc
    · exact ⟨h.asked, fun _ _ hx => (nomatch hx), fun hidle => nomatch hidle⟩
  | respond hp hu hx hd hl =>
    unfold Session.proxyStep at hs
    rw [hx] at hs
    cases hs
    exact ⟨h.asked, fun _ _ hx => (nomatch hx), fun _ => hu⟩
  | scanned hp hu hx hd hl =>
    unfold Session.proxyStep at hs
    rw [hx, hu] at hs
    cases hs

/-- A shard that scans for a GetAll has been asked. -/
theorem Shape.past_of_exec (h : s.Shape .scanning) {notFound : Bytes} {db db' : Store}
    (hs : s.workerExec notFound home db = some (db', s')) : s'.Past home := by
  obtain ⟨⟨db'', l⟩, hl, hs⟩ := Option.bind_eq_some_iff.1 hs
  cases hs
  have quiet : ¬ (s.lane home).At .quiet := by
    intro hq
    obtain ⟨c, hc, -⟩ := hq.exec hl
    cases hc
  obtain ⟨lst, hat⟩ := h.exists_at home
  obtain ⟨c, -, -, hanswered⟩ := hat.exec hl
  refine ⟨?_, ?_, ?_⟩
  · intro c' hc'
    rw [setLane_lane_self] at hc'
    cases hanswered.unique hc'
  · intro keyPrefix next hx'
    replace hx' : s.proxy = .fanOut keyPrefix next := hx'
    by_contra hle
    cases h with
    | fanOut hp hu hx hd hasked hl' =>
      rw [hx] at hx'
      cases hx'
      exact quiet (hl' home (Nat.not_lt.1 hle))
    | scanRequested hp hu hx => rw [hx] at hx'; cases hx'
    | collect hp hu hx => rw [hx] at hx'; cases hx'
    | respond hp hu hx => rw [hx] at hx'; cases hx'
    | scanned hp hu hx => rw [hx] at hx'; cases hx'
  · intro hx'
    replace hx' : s.proxy = .idle := hx'
    show s.up = []
    cases h with
    | scanRequested hp hu hx hd hl' => exact absurd (hl' home) quiet
    | _ => assumption

theorem Past.not_exec (h : s.Past home) (hshape : s.Shape .scanning) {notFound : Bytes}
    {db : Store} : s.workerExec notFound home db = none := by
  rw [Option.eq_none_iff_forall_ne_some]
  rintro ⟨db', s'⟩ hs
  obtain ⟨⟨db'', l⟩, hl, -⟩ := Option.bind_eq_some_iff.1 hs
  obtain ⟨lst, hat⟩ := hshape.exists_at home
  obtain ⟨c, rfl, -⟩ := hat.exec hl
  exact h.asked c hat

/-! ### Steps before and behind the scan -/

theorem pending_of_call {c : Command} (hs : s.call c = some s') : s'.pending = some c := by
  unfold Session.call at hs
  split at hs
  · cases hs
    rfl
  · cases hs

theorem Waits.of_call {st : Stage} (hshape : s.Shape st) {c : Command} (hs : s.call c = some s') :
    s'.Waits home := Gathers.call hshape hs

/-- What is kept by the steps of proxy and workers that do not call RocksDB. -/
def Internal (s s' : Session n) : Prop :=
  s.proxyStep = some s' ∨ (∃ i, s.workerRead i = some s') ∨ ∃ i, s.workerSend i = some s'

theorem Internal.shape (h : s.Internal s') {st : Stage} (hshape : s.Shape st) :
    s'.Shape st ∧ s'.calls = s.calls := by
  rcases h with h | ⟨i, h⟩ | ⟨i, h⟩
  · exact hshape.proxyStep h
  · exact hshape.workerRead h
  · exact hshape.workerSend h

theorem Internal.gathers (h : s.Internal s') (hshape : s.Shape .scanning)
    {Q : Fin n → List Bytes → Prop} {R : Nat → List Bytes → Prop} (hj : Joins Q R)
    (hg : s.Gathers Q R) : s'.Gathers Q R ∧ s'.pending = s.pending := by
  rcases h with h | ⟨i, h⟩ | ⟨i, h⟩
  · exact hg.proxyStep hj hshape h
  · exact hg.workerRead hshape h
  · exact hg.workerSend hshape h

theorem Internal.past (h : s.Internal s') (hshape : s.Shape .scanning) (hpast : s.Past home) :
    s'.Past home := by
  rcases h with h | ⟨i, h⟩ | ⟨i, h⟩
  · exact hpast.proxyStep hshape h
  · obtain ⟨l, hl, h⟩ := Option.bind_eq_some_iff.1 h
    cases h
    obtain ⟨lst, hi⟩ := hshape.exists_at i
    exact hpast.keepLane hi (hi.read hl)
  · obtain ⟨l, hl, h⟩ := Option.bind_eq_some_iff.1 h
    cases h
    obtain ⟨lst, hi⟩ := hshape.exists_at i
    exact hpast.keepLane hi (hi.send hl)

/-- A GetAll returns what it has of the shard, and not before the shard has scanned. -/
theorem Shape.result_scanning (h : s.Shape .scanning) {c : Command} {ret : CallResult}
    (hs : s.result = some (c, ret, s')) :
    ∃ keyPrefix keys, c = .getAll keyPrefix ∧ ret = .getAll .Ok keys := by
  unfold Session.result at hs
  cases h with
  | scanned hp hu hx hd hl =>
    rw [hp, hd] at hs
    cases hs
    exact ⟨_, _, rfl, rfl⟩
  | scanRequested hp hu hx hd hl => rw [hp, hd] at hs; cases hs
  | fanOut hp hu hx hd hasked hl => rw [hp, hd] at hs; cases hs
  | collect hp hu hx hd hl hasked => rw [hp, hd] at hs; cases hs
  | respond hp hu hx hd hl => rw [hp, hd] at hs; cases hs

end Session

namespace Cluster

variable {Cl : Type} {n : Nat} {notFound : Bytes} {home : Fin n}

/-! ## The invariant -/

/-- The stage of the call `id`, as the shard sees it. -/
def Located (home : Fin n) (hist : List (CallEvent Cl)) (L : Order Cl) (id : Cl × Nat) (t : Session n) :
    Session.Stage → Prop
  | .scanning => ∃ keyPrefix, t.pending = some (.getAll keyPrefix) ∧
      ((Event.inv id (.getAll keyPrefix) ∈ hist ∧ id ∉ L.map Entry.id ∧ t.Waits home) ∨
        ∃ found, ⟨id, .getAll keyPrefix, .getAll .Ok found⟩ ∈ L ∧ t.Has home found)
  | st => Linked hist L id st

/-- The session of the client `cl`, and its calls to come have not started. -/
def Seen (home : Fin n) (hist : List (CallEvent Cl)) (L : Order Cl) (cl : Cl) (t : Session n) : Prop :=
  ∃ st, t.Shape st ∧ Located home hist L (cl, t.calls) t st ∧
    ∀ k op, Event.inv (cl, k) op ∈ hist → k < t.calls ∨ (k = t.calls ∧ st ≠ .idle)

/-- `H` is what has been seen from the shard, and `L` explains it. -/
structure Snap (home : Fin n) (s : Cluster Cl n) (H : List (CallEvent Cl)) (L : Order Cl) : Prop where
  tracks : Tracks (listSpec (onShard home)) (fun _ => none) H L
  stores : ∀ key i, route n key = some i → (s.db i)[key]? = merged L key
  seen : ∀ cl, Seen home H L cl (s.session cl)

theorem Located.mono {hist hist' : List (CallEvent Cl)} {L L' : Order Cl} {id : Cl × Nat}
    {t : Session n} {st : Session.Stage} (h : Located home hist L id t st) (hhist : hist ⊆ hist')
    (hL : L ⊆ L') (hnew : id ∈ L'.map Entry.id → id ∈ L.map Entry.id) :
    Located home hist' L' id t st := by
  cases st with
  | scanning =>
    obtain ⟨keyPrefix, hp, ⟨hinv, hid, hwaits⟩ | ⟨found, hmem, hhas⟩⟩ := h
    · exact ⟨keyPrefix, hp, .inl ⟨hhist hinv, fun hid' => hid (hnew hid'), hwaits⟩⟩
    · exact ⟨keyPrefix, hp, .inr ⟨found, hL hmem, hhas⟩⟩
  | idle => trivial
  | before c =>
    have hlinked : Linked hist L id (.before c) := h
    exact hlinked.mono hhist hL hnew
  | after c r =>
    have hlinked : Linked hist L id (.after c r) := h
    exact hlinked.mono hhist hL hnew

/-- What happens to other clients does not matter. -/
theorem Seen.mono {hist es : List (CallEvent Cl)} {L Ls : Order Cl} {cl : Cl} {t : Session n}
    (h : Seen home hist L cl t) (hes : ∀ k op, Event.inv (cl, k) op ∉ es)
    (hLs : ∀ e ∈ Ls, e.id.1 ≠ cl) : Seen home (hist ++ es) (L ++ Ls) cl t := by
  obtain ⟨st, hshape, hlocated, hfresh⟩ := h
  refine ⟨st, hshape, hlocated.mono (List.subset_append_left _ _) (List.subset_append_left _ _)
    (id_mem_of_others hLs), ?_⟩
  intro k op hk
  rcases List.mem_append.1 hk with hk | hk
  · exact hfresh k op hk
  · exact absurd hk (hes k op)

theorem merged_getAll {L : Order Cl} {id : Cl × Nat} {keyPrefix : Bytes} {ret : CallResult} :
    merged (L ++ [⟨id, .getAll keyPrefix, ret⟩]) = merged L := merged_append

/-- **A scan lists the shard's keys.** -/
theorem returns_foundOn {db : Store} {m : Bytes → Option Bytes} {keyPrefix : Bytes}
    (hdb : ∀ key, route n key = some home → db[key]? = m key) :
    (listSpec (onShard home)).returns m (.getAll keyPrefix)
      (.getAll .Ok (foundOn home db keyPrefix)) := by
  refine ⟨_, rfl, ?_, ?_⟩
  · unfold foundOn
    rw [collect_seek]
    exact (db.ordered_keys.filter _).filter _
  · intro key
    unfold foundOn
    rw [List.mem_filter, mem_scan]
    constructor
    · rintro ⟨⟨hmem, hbegins⟩, hhome⟩
      refine ⟨hbegins, hhome, ?_⟩
      rw [← hdb key (onShard_eq.1 hhome), ← Option.isSome_iff_ne_none]
      rwa [Std.TreeMap.mem_iff_isSome_getElem?] at hmem
    · rintro ⟨hbegins, hhome, hm⟩
      rw [← hdb key (onShard_eq.1 hhome), ← Option.isSome_iff_ne_none,
        ← Std.TreeMap.mem_iff_isSome_getElem?] at hm
      exact ⟨⟨hm, hbegins⟩, hhome⟩

/-- The other shards have none of its keys. -/
theorem Placed.foundOn_of_ne {db : Fin n → Store} (h : Placed db) {i : Fin n} (hi : i ≠ home)
    (keyPrefix : Bytes) : foundOn home (db i) keyPrefix = [] := by
  unfold foundOn
  rw [List.filter_eq_nil_iff]
  intro key hkey hhome
  exact hi (h key home i (onShard_eq.1 hhome) (mem_scan.1 hkey).1)

/-- No shard has a key that clients can ask for, not even one of another shard. -/
def NoKeys (db : Fin n → Store) : Prop := ∀ key i j, route n key = some i → (db j)[key]? = none

theorem Snap.init {db : Fin n → Store} (hdb : NoKeys db) :
    Snap home (init db : Cluster Cl n) [] [] where
  tracks := .nil
  stores key i h := hdb key i i h
  seen _ := ⟨.idle, Session.init_shape, trivial, fun _ _ hk => absurd hk List.not_mem_nil⟩

section Steps

variable [DecidableEq Cl] {s : Cluster Cl n} {H : List (CallEvent Cl)} {L : Order Cl} {cl : Cl}
  {t : Session n}

/-- One session changes, the others keep what they have. -/
theorem Snap.seen_update {E : List (CallEvent Cl)} {M : Order Cl} (h : Snap home s H L)
    (hes : ∀ e ∈ E, ∀ cl' k op, e = Event.inv (cl', k) op → cl' = cl)
    (hLs : ∀ e ∈ M, e.id.1 = cl) (ht : Seen home (H ++ E) (L ++ M) cl t) (cl' : Cl) :
    Seen home (H ++ E) (L ++ M) cl' ((s.setSession cl t).session cl') := by
  by_cases hne : cl' = cl
  · subst hne
    rwa [setSession_session_self]
  · show Seen home _ _ cl' (Function.update s.session cl t cl')
    rw [Function.update_of_ne hne]
    refine (h.seen cl').mono (fun k op hk => hne (hes _ hk cl' k op rfl)) ?_
    intro e he heq
    exact hne (heq ▸ hLs e he)

/-- A session goes on, and nothing takes effect. -/
theorem Snap.keep (h : Snap home s H L) (ht : Seen home H L cl t) : Snap home (s.setSession cl t) H L := by
  refine ⟨h.tracks, h.stores, fun cl' => ?_⟩
  have hseen := h.seen_update (E := []) (M := []) (by simp) (by simp)
    (by rwa [List.append_nil, List.append_nil]) cl'
  rwa [List.append_nil, List.append_nil] at hseen

/-- A session goes on, and the operation of its client takes effect. -/
theorem Snap.commit (h : Snap home s H L) {e : Entry (Cl × Nat) Command CallResult} {db : Fin n → Store}
    (htracks : Tracks (listSpec (onShard home)) (fun _ => none) H (L ++ [e]))
    (hstores : ∀ key i, route n key = some i → (db i)[key]? = merged (L ++ [e]) key)
    (hid : e.id.1 = cl) (ht : Seen home H (L ++ [e]) cl t) :
    Snap home { s.setSession cl t with db } H (L ++ [e]) := by
  refine ⟨htracks, hstores, fun cl' => ?_⟩
  have ht' : Seen home (H ++ []) (L ++ [e]) cl t := by rwa [List.append_nil]
  have hseen := h.seen_update (by simp) (by simp [hid]) ht' cl'
  rwa [List.append_nil] at hseen

/-- A step of one session that nobody sees. -/
theorem Snap.internal (h : Snap home s H L) (hs : (s.session cl).Internal t) :
    Snap home (s.setSession cl t) H L := by
  refine h.keep ?_
  obtain ⟨st, hshape, hlocated, hfresh⟩ := h.seen cl
  obtain ⟨hshape', hcalls⟩ := hs.shape hshape
  refine ⟨st, hshape', ?_, by rwa [hcalls]⟩
  rw [hcalls]
  cases st with
  | scanning =>
    obtain ⟨keyPrefix, hp, ⟨hinv, hid, hwaits⟩ | ⟨found, hmem, hhas⟩⟩ := hlocated
    · obtain ⟨hwaits', hp'⟩ := hs.gathers hshape Session.joins_waits hwaits
      exact ⟨keyPrefix, hp'.trans hp, .inl ⟨hinv, hid, hwaits'⟩⟩
    · obtain ⟨hgathers, hp'⟩ := hs.gathers hshape Session.joins_has hhas.gathers
      exact ⟨keyPrefix, hp'.trans hp, .inr ⟨found, hmem, hs.past hshape hhas.past, hgathers⟩⟩
  | _ => exact hlocated

/-- A call starts. -/
theorem Snap.call (h : Snap home s H L) {c : Command} (hs : (s.session cl).call c = some t)
    (hhist : List (CallEvent Cl)) :
    Snap home { s.setSession cl t with history := hhist }
      (H ++ [.inv (cl, (s.session cl).calls) c]) L := by
  obtain ⟨st, hshape, -, hfresh⟩ := h.seen cl
  obtain ⟨rfl, hcalls, hkind⟩ := hshape.call hs
  have hnew : ∀ op, Event.inv (cl, (s.session cl).calls) op ∉ H := by
    intro op hop
    rcases hfresh _ op hop with hlt | ⟨-, hne⟩
    · omega
    · exact hne rfl
  have hid : (cl, (s.session cl).calls) ∉ L.map Entry.id := by
    intro hid
    obtain ⟨e, he, heq⟩ := List.mem_map.1 hid
    exact hnew e.op (heq ▸ h.tracks.invoked e he)
  have hfresh' : ∀ st : Session.Stage, st ≠ .idle → ∀ k op,
      Event.inv (cl, k) op ∈ H ++ [.inv (cl, (s.session cl).calls) c] →
        k < (s.session cl).calls ∨ (k = (s.session cl).calls ∧ st ≠ .idle) := by
    intro st hst k op hk
    rcases List.mem_append.1 hk with hk | hk
    · rcases hfresh k op hk with hlt | ⟨-, hne⟩
      · exact .inl hlt
      · exact absurd rfl hne
    · cases List.mem_singleton.1 hk
      exact .inr ⟨rfl, hst⟩
  have ht : Seen home (H ++ [.inv (cl, (s.session cl).calls) c]) (L ++ []) cl t := by
    rw [List.append_nil]
    rcases hkind with ⟨key, -, hshape'⟩ | ⟨hc, hshape'⟩
    · refine ⟨.before c, hshape', ?_, by rw [hcalls]; exact hfresh' _ (by simp)⟩
      rw [hcalls]
      exact ⟨by simp, hid⟩
    · refine ⟨.scanning, hshape', ?_, by rw [hcalls]; exact hfresh' _ (by simp)⟩
      have hwaits : t.Waits home := .of_call hshape hs
      cases c with
      | getAll keyPrefix =>
        rw [hcalls]
        exact ⟨keyPrefix, Session.pending_of_call hs, .inl ⟨by simp, hid, hwaits⟩⟩
      | _ => cases hc
  refine ⟨h.tracks.invoke c hnew, h.stores, fun cl' => ?_⟩
  have hseen := h.seen_update (M := []) (fun e he cl'' k op heq => by
    rw [List.mem_singleton.1 he] at heq
    cases heq
    rfl) (by simp) ht cl'
  rwa [List.append_nil] at hseen

/-- A call returns. -/
theorem Snap.result (h : Snap home s H L) {c : Command} {ret : CallResult}
    (hs : (s.session cl).result = some (c, ret, t)) (hhist : List (CallEvent Cl)) :
    Snap home { s.setSession cl t with history := hhist }
      (H ++ [.res (cl, (s.session cl).calls) (ret.on (onShard home))]) L := by
  obtain ⟨st, hshape, hlocated, hfresh⟩ := h.seen cl
  obtain ⟨hcalls, hshape', hkind⟩ := hshape.result hs
  have ht : Seen home (H ++ [.res (cl, (s.session cl).calls) (ret.on (onShard home))]) (L ++ []) cl
      t := by
    refine ⟨.idle, hshape', trivial, ?_⟩
    intro k op hk
    rw [hcalls]
    rcases List.mem_append.1 hk with hk | hk
    · rcases hfresh k op hk with hlt | ⟨heq, -⟩
      · exact .inl (by omega)
      · exact .inl (by omega)
    · cases List.mem_singleton.1 hk
  have hentry : ∃ e ∈ L, e.id = (cl, (s.session cl).calls) ∧ e.ret = ret.on (onShard home) := by
    rcases hkind with ⟨key, r, rfl, hc, hret⟩ | ⟨rfl, -⟩
    · obtain ⟨ret', hret', hmem⟩ := hlocated
      rw [hret] at hret'
      cases hret'
      exact ⟨_, hmem, rfl, (Connection.finish_on hc hret).symm⟩
    · obtain ⟨keyPrefix, keys, rfl, rfl⟩ := hshape.result_scanning hs
      obtain ⟨_, -, ⟨-, -, hwaits⟩ | ⟨found, hmem, hhas⟩⟩ := hlocated
      · -- the shard has been asked and has answered
        have hle := (Session.Gathers.result hwaits hshape hs).1
        exact absurd home.isLt (Nat.not_lt.2 hle)
      · have hkeys := hhas.gathers.result hshape hs
        rw [if_pos home.isLt] at hkeys
        refine ⟨_, hmem, rfl, ?_⟩
        rw [CallResult.on, hkeys]
  obtain ⟨e, he, hid, hret⟩ := hentry
  refine ⟨?_, h.stores, fun cl' => ?_⟩
  · rw [← hid, ← hret]
    exact h.tracks.respond he
  · have hseen := h.seen_update (M := []) (fun e he cl'' k op heq => by
      rw [List.mem_singleton.1 he] at heq
      cases heq) (by simp) ht cl'
    rwa [List.append_nil] at hseen

/-- A worker calls RocksDB for an operation on a key, which takes effect. -/
theorem Snap.exec_key (h : Snap home s H L) {c : Command} {key : Bytes} {i : Fin n}
    (hc : c.key? = some key) (hroute : route n key = some i)
    (hinv : Event.inv (cl, (s.session cl).calls) c ∈ H)
    (hnew : (cl, (s.session cl).calls) ∉ L.map Entry.id)
    (hfresh : ∀ k op, Event.inv (cl, k) op ∈ H → k < (s.session cl).calls ∨ k = (s.session cl).calls)
    (hcalls : t.calls = (s.session cl).calls)
    (hshape : t.Shape (.after c (KvWorker.handle notFound (s.db i) c).2.decoded)) :
    ∃ L', Snap home { s.setSession cl t with
      db := Function.update s.db i (KvWorker.handle notFound (s.db i) c).1 } H L' := by
  obtain ⟨⟨ret, hret, hallowed⟩, hkey, hother⟩ :=
    KvWorker.handle_refines notFound hc (h.stores key i hroute)
  let e : Entry (Cl × Nat) Command CallResult := ⟨(cl, (s.session cl).calls), c, ret⟩
  have hallowed' : (listSpec (onShard home)).returns (merged L) c ret := by
    cases c with
    | getAll keyPrefix => cases hc
    | _ => exact hallowed
  refine ⟨L ++ [e], h.commit (h.tracks.commit hinv hnew hallowed') ?_ rfl ?_⟩
  · intro k j hk
    rw [merged_append]
    by_cases hne : k = key
    · subst hne
      rw [hroute] at hk
      cases hk
      rw [Function.update_self]
      exact hkey
    · rw [(hother k hne).2, ← h.stores k j hk]
      by_cases hj : j = i
      · subst hj
        rw [Function.update_self]
        exact (hother k hne).1
      · rw [Function.update_of_ne hj]
  · refine ⟨.after c _, hshape, ⟨ret, hret, by simp [e, hcalls]⟩, ?_⟩
    intro k op hk
    rw [hcalls]
    exact (hfresh k op hk).imp_right fun heq => ⟨heq, by simp⟩

/-- The worker of `home` scans for a GetAll, which takes effect. -/
theorem Snap.exec_scan (h : Snap home s H L) {keyPrefix : Bytes}
    (hshape : (s.session cl).Shape .scanning) (hp : (s.session cl).pending = some (.getAll keyPrefix))
    (hinv : Event.inv (cl, (s.session cl).calls) (.getAll keyPrefix) ∈ H)
    (hnew : (cl, (s.session cl).calls) ∉ L.map Entry.id) (hwaits : (s.session cl).Waits home)
    (hs : (s.session cl).workerExec notFound home (s.db home) = some (s.db home, t))
    (hcalls : t.calls = (s.session cl).calls) (hshape' : t.Shape .scanning)
    (hfresh : ∀ k op, Event.inv (cl, k) op ∈ H →
      k < t.calls ∨ (k = t.calls ∧ Session.Stage.scanning ≠ .idle)) :
    ∃ L', Snap home (s.setSession cl t) H L' := by
  let found := foundOn home (s.db home) keyPrefix
  let e : Entry (Cl × Nat) Command CallResult :=
    ⟨(cl, (s.session cl).calls), .getAll keyPrefix, .getAll .Ok found⟩
  have hgathers : (s.session cl).Gathers
      (fun j keys => keys.filter (onShard home) = if j = home then found else [])
      (fun next keys => keys.filter (onShard home) = if home.val < next then found else []) := by
    refine hwaits.mono ?_ ?_
    · intro j keys hkeys
      rw [if_neg hkeys.1]
      exact hkeys.2
    · intro next keys hkeys
      rw [if_neg (Nat.not_lt.2 hkeys.1)]
      exact hkeys.2
  obtain ⟨hgathers', hp'⟩ := hgathers.workerExec hshape hp (if_pos rfl).symm hs
  have hmem : ⟨(cl, t.calls), .getAll keyPrefix, .getAll .Ok found⟩ ∈ L ++ [e] := by
    rw [hcalls]
    exact List.mem_append_right _ (List.mem_singleton_self e)
  refine ⟨L ++ [e], h.commit (h.tracks.commit hinv hnew (returns_foundOn fun key hkey =>
    h.stores key home hkey)) ?_ rfl ?_⟩
  · intro k j hk
    rw [merged_getAll]
    exact h.stores k j hk
  · exact ⟨.scanning, hshape', ⟨keyPrefix, hp'.trans hp, .inr ⟨found, hmem, hshape.past_of_exec hs,
      hgathers'⟩⟩, hfresh⟩

/-- A worker calls RocksDB: an operation on a key takes effect, and so does a GetAll if it is the
worker of `home`. -/
theorem Snap.exec (h : Snap home s H L) (hplaced : Placed s.db) {i : Fin n} {db : Store}
    (hs : (s.session cl).workerExec notFound i (s.db i) = some (db, t)) :
    ∃ L', Snap home { s.setSession cl t with db := Function.update s.db i db } H L' := by
  obtain ⟨st, hshape, hlocated, hfresh⟩ := h.seen cl
  obtain ⟨hcalls, ⟨c, key, rfl, hc, hroute, rfl, hshape'⟩ | ⟨rfl, rfl, hshape'⟩⟩ :=
    hshape.workerExec hs
  · obtain ⟨hinv, hnew⟩ := hlocated
    exact h.exec_key hc hroute hinv hnew (fun k op hk => (hfresh k op hk).imp_right And.left) hcalls
      hshape'
  · have hdb : Function.update s.db i (s.db i) = s.db := Function.update_eq_self i s.db
    rw [hdb]
    have hfresh' : ∀ k op, Event.inv (cl, k) op ∈ H →
        k < t.calls ∨ (k = t.calls ∧ Session.Stage.scanning ≠ .idle) := by rwa [hcalls]
    obtain ⟨keyPrefix, hp, ⟨hinv, hnew, hwaits⟩ | ⟨found, hmem, hhas⟩⟩ := hlocated
    · by_cases hi : i = home
      · subst hi
        exact h.exec_scan hshape hp hinv hnew hwaits hs hcalls hshape' hfresh'
      · obtain ⟨hwaits', hp'⟩ := Session.Gathers.workerExec hwaits hshape hp
          ⟨hi, hplaced.foundOn_of_ne hi keyPrefix⟩ hs
        refine ⟨L, h.keep ⟨.scanning, hshape', ?_, hfresh'⟩⟩
        rw [hcalls]
        exact ⟨keyPrefix, hp'.trans hp, .inl ⟨hinv, hnew, hwaits'⟩⟩
    · have hi : i ≠ home := by
        rintro rfl
        rw [hhas.past.not_exec hshape] at hs
        cases hs
      have hscan : foundOn home (s.db i) keyPrefix = if i = home then found else [] := by
        rw [if_neg hi]
        exact hplaced.foundOn_of_ne hi keyPrefix
      obtain ⟨hgathers, hp'⟩ := hhas.gathers.workerExec hshape hp hscan hs
      have hpast : t.Past home := hhas.past.workerExec hshape hs
      refine ⟨L, h.keep ⟨.scanning, hshape', ?_, hfresh'⟩⟩
      rw [hcalls]
      exact ⟨keyPrefix, hp'.trans hp, .inr ⟨found, hmem, hpast, hgathers⟩⟩

theorem Snap.step (h : Snap home s H L) (hplaced : Placed s.db) {s' : Cluster Cl n} {a : Action Cl n}
    (hs : step notFound s a = some s') :
    ∃ L', Snap home s' (H ++ (event s a).map (cutTo (onShard home))) L' := by
  cases a with
  | call cl c =>
    obtain ⟨t, ht, hs⟩ := Option.bind_eq_some_iff.1 hs
    cases hs
    exact ⟨L, h.call ht _⟩
  | result cl =>
    obtain ⟨⟨c, ret, t⟩, ht, hs⟩ := Option.bind_eq_some_iff.1 hs
    cases hs
    simp only [event, ht]
    exact ⟨L, h.result ht _⟩
  | workerExec cl i =>
    obtain ⟨⟨db, t⟩, ht, hs⟩ := Option.bind_eq_some_iff.1 hs
    cases hs
    simp only [event, List.map_nil, List.append_nil]
    exact h.exec hplaced ht
  | proxyStep cl =>
    obtain ⟨t, ht, hs⟩ := Option.bind_eq_some_iff.1 hs
    cases hs
    simp only [event, List.map_nil, List.append_nil]
    exact ⟨L, h.internal (.inl ht)⟩
  | workerRead cl i =>
    obtain ⟨t, ht, hs⟩ := Option.bind_eq_some_iff.1 hs
    cases hs
    simp only [event, List.map_nil, List.append_nil]
    exact ⟨L, h.internal (.inr (.inl ⟨i, ht⟩))⟩
  | workerSend cl i =>
    obtain ⟨t, ht, hs⟩ := Option.bind_eq_some_iff.1 hs
    cases hs
    simp only [event, List.map_nil, List.append_nil]
    exact ⟨L, h.internal (.inr (.inr ⟨i, ht⟩))⟩

/-- **Along a run there is always an order that explains what is seen from the shard.** -/
theorem exists_order {db : Fin n → Store} (hdb : NoKeys db) {H : List (CallEvent Cl)}
    (h : Emits (step notFound) event (init db) s H) (home : Fin n) :
    ∃ L, Snap home s (H.map (cutTo (onShard home))) L := by
  refine h.invariant (I := fun s H => ∃ L, Snap home s (H.map (cutTo (onShard home))) L)
    ⟨[], .init hdb⟩ ?_
  intro s H a s' hreach ⟨L, hL⟩ hs
  have hplaced : Placed db := by
    intro key i j hroute hmem
    rw [Std.TreeMap.mem_iff_isSome_getElem?, hdb key i j hroute] at hmem
    cases hmem
  rw [List.map_append]
  exact hL.step (Sound.reachable hplaced hreach).placed hs

end Steps

end Cluster

end SqpKv
