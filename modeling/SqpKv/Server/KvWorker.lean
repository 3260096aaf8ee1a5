import Std.Data.TreeMap
import SqpKv.Protocol.Content

/-!
# The worker of a shard (src/server/kv_worker.h, kv_worker.cc)

`HandleClient` reads a command, carries it out on the shard's RocksDB and sends
the response, for ever.  Messages are the contents of packets, delivered whole;
the database is a map ordered as RocksDB orders keys (bytewise, a prefix before
what it begins).  Get, Put and Delete answer with the store's own status, GetAll
with `Status::Ok()`.
-/

namespace SqpKv

open Wire

/-- RocksDB as a map. -/
abbrev Store := Std.TreeMap Bytes Bytes

/-- `iter->Seek(prefix)`: the keys from the first on that is not below the prefix. -/
def seek (db : Store) (keyPrefix : Bytes) : List Bytes :=
  db.keys.dropWhile fun key => compare key keyPrefix == .lt

/-- The loop of GetAll: `Valid() && key().starts_with(prefix)`. -/
def collect (keyPrefix : Bytes) : List Bytes → List Bytes
  | [] => []
  | key :: keys => if keyPrefix.isPrefixOf key then key :: collect keyPrefix keys else []

/-- What the branches of `HandleClient` do to the database, and the response they send;
`notFound` is the text of the status of a missing key. -/
def KvWorker.handle (notFound : Bytes) (db : Store) : Command → Store × Response
  | .get key =>
    match db[key]? with
    | some value => (db, .get (.ofRocks .ok) value)
    | none => (db, .get (.ofRocks (.error notFound)) [])
  | .put key value => (db.insert key value, .put (.ofRocks .ok))
  | .delete key => (db.erase key, .delete (.ofRocks .ok))
  | .getAll keyPrefix => (db, .getAll .Ok (collect keyPrefix (seek db keyPrefix)))

/-! ## What a scan finds -/

/-- A key that is not below the prefix but below a key that has it, has it. -/
theorem isPrefix_of_between {keyPrefix a b : Bytes} (hb : keyPrefix <+: b)
    (hge : compare a keyPrefix ≠ .lt) (hlt : compare a b = .lt) : keyPrefix <+: a := by
  induction keyPrefix generalizing a b with
  | nil => exact List.nil_prefix
  | cons x keyPrefix ih =>
    obtain ⟨rest, rfl⟩ := hb
    cases a with
    | nil => exact absurd rfl hge
    | cons y a =>
      rw [List.cons_append, List.compare_cons_cons] at hlt
      rw [List.compare_cons_cons] at hge
      have hxy : compare y x = .eq := by
        cases hc : compare y x with
        | lt =>
          rw [hc] at hge
          exact absurd rfl hge
        | eq => rfl
        | gt =>
          rw [hc] at hlt
          cases hlt
      rw [hxy] at hlt hge
      rw [Std.LawfulEqOrd.eq_of_compare hxy, List.cons_prefix_cons]
      exact ⟨rfl, ih (List.prefix_append _ _) hge hlt⟩

theorem not_lt_of_isPrefix {keyPrefix a : Bytes} (h : keyPrefix <+: a) : compare a keyPrefix ≠ .lt := by
  obtain ⟨rest, rfl⟩ := h
  induction keyPrefix with
  | nil => cases rest <;> exact fun h => nomatch h
  | cons x keyPrefix ih =>
    rw [List.cons_append, List.compare_cons_cons, Std.ReflOrd.compare_self]
    exact ih

/-- On keys in order the loop of GetAll finds all that have the prefix. -/
theorem collect_eq_filter {keyPrefix : Bytes} {keys : List Bytes}
    (horder : keys.Pairwise fun a b => compare a b = .lt)
    (hge : ∀ key ∈ keys, compare key keyPrefix ≠ .lt) :
    collect keyPrefix keys = keys.filter keyPrefix.isPrefixOf := by
  induction keys with
  | nil => rfl
  | cons key keys ih =>
    rw [List.pairwise_cons] at horder
    have hrest := ih horder.2 fun k hk => hge k (List.mem_cons_of_mem _ hk)
    rw [collect]
    by_cases hkey : keyPrefix.isPrefixOf key = true
    · rw [if_pos hkey, hrest, List.filter_cons_of_pos hkey]
    · -- no key behind this one has the prefix
      rw [if_neg hkey, List.filter_cons_of_neg hkey, eq_comm, List.filter_eq_nil_iff]
      intro k hk hprefix
      rw [List.isPrefixOf_iff_prefix] at hkey hprefix
      exact hkey (isPrefix_of_between hprefix (hge key List.mem_cons_self) (horder.1 k hk))

/-- **A scan is complete**: it finds the keys with the prefix, in their order. -/
theorem collect_seek (db : Store) (keyPrefix : Bytes) :
    collect keyPrefix (seek db keyPrefix) = db.keys.filter keyPrefix.isPrefixOf := by
  unfold seek
  have horder := db.ordered_keys
  generalize db.keys = keys at horder
  induction keys with
  | nil => rfl
  | cons key keys ih =>
    by_cases hlt : compare key keyPrefix = .lt
    · have hkey : ¬ keyPrefix.isPrefixOf key = true := fun h =>
        not_lt_of_isPrefix (List.isPrefixOf_iff_prefix.1 h) hlt
      rw [List.dropWhile_cons_of_pos (by simp [hlt]), List.filter_cons_of_neg hkey]
      exact ih (List.pairwise_cons.1 horder).2
    · rw [List.dropWhile_cons_of_neg (by simp [hlt])]
      refine collect_eq_filter horder fun k hk hk' => ?_
      rcases List.mem_cons.1 hk with rfl | hk
      · exact hlt hk'
      · exact hlt (Std.TransCmp.lt_trans ((List.pairwise_cons.1 horder).1 k hk) hk')

theorem mem_scan {db : Store} {keyPrefix key : Bytes} :
    key ∈ collect keyPrefix (seek db keyPrefix) ↔ key ∈ db ∧ keyPrefix <+: key := by
  rw [collect_seek, List.mem_filter, Std.TreeMap.mem_keys, List.isPrefixOf_iff_prefix]

theorem nodup_scan (db : Store) (keyPrefix : Bytes) :
    (collect keyPrefix (seek db keyPrefix)).Nodup := by
  rw [collect_seek]
  exact db.nodup_keys.filter _

/-- `HandleClient` between two of its calls. -/
inductive KvWorker
  | idle
  | got (c : Command)
  | reply (r : Response)

/-- A connection from the proxy to a shard, with the worker at its end. -/
structure Lane where
  requests : List Command
  worker : KvWorker
  responses : List Response

namespace Lane

/-- Nothing under way. -/
def quiet : Lane := ⟨[], .idle, []⟩

/-- The proxy's `SendPacket`. -/
def push (l : Lane) (c : Command) : Lane := { l with requests := l.requests ++ [c] }

/-- The worker's `ReadFromClient`. -/
def read (l : Lane) : Option Lane :=
  match l.worker, l.requests with
  | .idle, c :: requests => some { l with worker := .got c, requests }
  | _, _ => none

/-- The worker's call of RocksDB. -/
def exec (notFound : Bytes) (db : Store) (l : Lane) : Option (Store × Lane) :=
  match l.worker with
  | .got c =>
    let (db, r) := KvWorker.handle notFound db c
    some (db, { l with worker := .reply r })
  | _ => none

/-- The worker's `SendPacket`. -/
def send (l : Lane) : Option Lane :=
  match l.worker with
  | .reply r => some { l with worker := .idle, responses := l.responses ++ [r.decoded] }
  | _ => none

end Lane

/-! ## Where a request is -/

/-- How far the one request of a lane has got. -/
inductive LaneStage
  | quiet
  | asked (c : Command)
  | answered (r : Response)

/-- The request, or its response, is in one place of the lane and there is nothing else. -/
inductive Lane.At : Lane → LaneStage → Prop
  | quiet : At quiet .quiet
  | requested (c : Command) : At ⟨[c], .idle, []⟩ (.asked c)
  | got (c : Command) : At ⟨[], .got c, []⟩ (.asked c)
  | reply (r : Response) : At ⟨[], .reply r, []⟩ (.answered r.decoded)
  | responded (r : Response) : At ⟨[], .idle, [r]⟩ (.answered r)

namespace Lane.At

theorem push {l : Lane} (h : l.At .quiet) (c : Command) : (l.push c).At (.asked c) := by
  cases h
  exact .requested c

theorem read {l l' : Lane} {st : LaneStage} (h : l.At st) (hl : l.read = some l') : l'.At st := by
  cases h with
  | requested c =>
    cases hl
    exact .got c
  | _ => cases hl

theorem exec {notFound : Bytes} {db db' : Store} {l l' : Lane} {st : LaneStage} (h : l.At st)
    (hl : l.exec notFound db = some (db', l')) :
    ∃ c, st = .asked c ∧ db' = (KvWorker.handle notFound db c).1 ∧
      l'.At (.answered (KvWorker.handle notFound db c).2.decoded) := by
  cases h with
  | got c =>
    cases hl
    exact ⟨c, rfl, rfl, .reply _⟩
  | _ => cases hl

theorem send {l l' : Lane} {st : LaneStage} (h : l.At st) (hl : l.send = some l') : l'.At st := by
  cases h with
  | reply r =>
    cases hl
    exact .responded r.decoded
  | _ => cases hl

/-- What the proxy reads from a lane that carries a response. -/
theorem pop {l : Lane} {st : LaneStage} (h : l.At st) {r : Response} {rest : List Response}
    (hr : l.responses = r :: rest) :
    st = .answered r ∧ Lane.At { l with responses := rest } .quiet := by
  cases h with
  | responded r' =>
    cases hr
    exact ⟨rfl, .quiet⟩
  | _ => cases hr

end Lane.At

end SqpKv
