import Mathlib.Data.List.Induction
import SqpKv.Lib.Machine
import SqpKv.Server.KvWorker
import SqpKv.Client.Connection

/-!
# Calls on one connection that fail

`Connection::Get`, `Put`, `Delete` and `GetAll` send their command, and if that
went well read one response.  A call whose read fails returns, but the response
to it still arrives, and the next call reads it as its own.  With the calls of a
connection numbered in their order,

    every response is returned by its own call
      iff  no read succeeds after one that has failed     (ownResponses_iff)

Messages are the contents of packets, delivered whole; the server answers what
it has received once and in order, whenever it likes.
-/

namespace SqpKv

open Wire Machine

/-- How a call ends: `SendPacket` failed, `ReadFromServer` failed, or it read the response `r`,
which the server made for the call number `owner`. -/
inductive CallEnd
  | notSent
  | notRead
  | response (owner : Nat) (r : Response)
deriving DecidableEq

/-- What a call returns whose `SendPacket` or `ReadFromServer` failed. -/
def Connection.fail (s : Status) : Command → CallResult
  | .get _ => .get s none
  | .put _ _ => .done s
  | .delete _ => .done s
  | .getAll _ => .getAll s []

/-- What a call returns. -/
def Connection.returns (errorText : Bytes) (c : Command) : CallEnd → Option CallResult
  | .notSent => some (Connection.fail (.Err errorText) c)
  | .notRead => some (Connection.fail (.Err errorText) c)
  | .response _ r => Connection.finish c r

/-- A connection with the server at its other end.  `requests` and `responses` are on the way, each
with the number of its call; `pending` is the command of the call that waits for its response. -/
structure Exchange (σ : Type) where
  server : σ
  requests : List (Nat × Command)
  responses : List (Nat × Response)
  pending : Option Command
  ended : List (Command × CallEnd)

/-- A call is made and its `SendPacket` succeeds or fails, the server answers, or the call that
waits has its `ReadFromServer` succeed or fail. -/
inductive Exchange.Action
  | send (c : Command) (ok : Bool)
  | serve
  | read (ok : Bool)
deriving DecidableEq

namespace Exchange

variable {σ : Type}

def init (server : σ) : Exchange σ := ⟨server, [], [], none, []⟩

/-- The call that waits ends. -/
def finish (s : Exchange σ) (c : Command) (e : CallEnd) : Exchange σ :=
  { s with pending := none, ended := s.ended ++ [(c, e)] }

def step (serve : σ → Command → σ × Response) (s : Exchange σ) : Action → Option (Exchange σ)
  | .send c ok =>
    match s.pending with
    | some _ => none
    | none =>
      if ok then some { s with pending := some c, requests := s.requests ++ [(s.ended.length, c)] }
      else some (s.finish c .notSent)
  | .serve =>
    match s.requests with
    | [] => none
    | (call, c) :: requests =>
      let (server, r) := serve s.server c
      some { s with server, requests, responses := s.responses ++ [(call, r.decoded)] }
  | .read ok =>
    match s.pending with
    | none => none
    | some c =>
      if ok then
        match s.responses with
        | [] => none
        | (owner, r) :: responses => some ({ s with responses }.finish c (.response owner r))
      else some (s.finish c .notRead)

/-! ## Whose response is read -/

/-- The calls whose responses were read, in the order of the reads. -/
def owners (ended : List (Command × CallEnd)) : List Nat :=
  ended.filterMap fun e =>
    match e.2 with
    | .response owner _ => some owner
    | _ => none

/-- The calls whose commands were sent. -/
def sentCalls (ended : List (Command × CallEnd)) : List Nat :=
  ended.zipIdx.filterMap fun e => if e.1.2 = .notSent then none else some e.2

section

variable {ended : List (Command × CallEnd)} {c : Command}

theorem owners_concat (e : CallEnd) :
    owners (ended ++ [(c, e)]) = owners ended ++ owners [(c, e)] := List.filterMap_append

theorem sentCalls_concat (e : CallEnd) :
    sentCalls (ended ++ [(c, e)]) =
      sentCalls ended ++ if e = .notSent then [] else [ended.length] := by
  unfold sentCalls
  rw [List.zipIdx_append, List.filterMap_append, Nat.zero_add]
  by_cases he : e = .notSent
  · rw [if_pos he]
    simp [he]
  · rw [if_neg he]
    simp [he]

theorem lt_of_mem_sentCalls {call : Nat} (h : call ∈ sentCalls ended) : call < ended.length := by
  obtain ⟨⟨e, i⟩, hmem, he⟩ := List.mem_filterMap.1 h
  have hlt := List.snd_lt_of_mem_zipIdx hmem
  split at he
  · cases he
  · cases he
    exact hlt

/-- Every call that was sent and has ended has read a response, or failed to. -/
theorem owners_length (ended : List (Command × CallEnd)) :
    (owners ended).length + ended.countP (fun e => e.2 = .notRead) = (sentCalls ended).length := by
  induction ended using List.reverseRecOn with
  | nil => rfl
  | append_singleton ended e ih =>
    obtain ⟨c, e⟩ := e
    rw [owners_concat, sentCalls_concat, List.countP_append, List.length_append, List.length_append,
      ← ih]
    cases e with
    | notSent => simp [owners]
    | notRead =>
      simp [owners]
      omega
    | response owner r =>
      simp [owners]
      omega

end

/-- Every response was read by its own call, up to the first call that failed to read. -/
def Owned (ended : List (Command × CallEnd)) : Prop :=
  ∀ j c owner r, ended[j]? = some (c, .response owner r) →
    (owner = j ↔ ∀ e ∈ ended.take j, e.2 ≠ .notRead)

theorem Owned.concat {ended : List (Command × CallEnd)} (h : Owned ended) (c : Command) {e : CallEnd}
    (he : ∀ owner r, e = .response owner r →
      (owner = ended.length ↔ ∀ e ∈ ended, e.2 ≠ .notRead)) : Owned (ended ++ [(c, e)]) := by
  intro j c' owner r hj
  by_cases hlt : j < ended.length
  · rw [List.getElem?_append_left hlt] at hj
    rw [List.take_append_of_le_length (Nat.le_of_lt hlt)]
    exact h j c' owner r hj
  · have hlast : j = ended.length := by
      have := (List.getElem?_eq_some_iff.1 hj).1
      rw [List.length_append, List.length_singleton] at this
      omega
    subst hlast
    rw [List.getElem?_concat_length] at hj
    cases hj
    rw [List.take_left]
    exact he owner r rfl

/-- The calls whose responses were read, are to be read and are to come, in the order of the
connection, are those that were sent. -/
structure Inv (s : Exchange σ) : Prop where
  order : owners s.ended ++ (s.responses.map Prod.fst ++ s.requests.map Prod.fst) =
    sentCalls s.ended ++ if s.pending.isSome then [s.ended.length] else []
  owned : Owned s.ended

theorem Inv.init (server : σ) : Inv (init server) :=
  ⟨rfl, fun _ _ _ _ h => (nomatch h)⟩

/-- The call that waits reads the oldest response. -/
theorem Inv.owner_iff {s : Exchange σ} (h : Inv s) {c : Command} (hp : s.pending = some c)
    {owner : Nat} {r : Response} {rest : List (Nat × Response)} (hr : s.responses = (owner, r) :: rest) :
    owner = s.ended.length ↔ ∀ e ∈ s.ended, e.2 ≠ .notRead := by
  have horder := h.order
  rw [hp, hr, Option.isSome_some, if_pos rfl, List.map_cons, List.cons_append] at horder
  have hlen := owners_length s.ended
  constructor
  · rintro rfl e he hread
    -- fewer responses were read than commands sent, so this is an earlier one
    have hpos : 0 < s.ended.countP (fun e => e.2 = .notRead) :=
      List.countP_pos_iff.2 ⟨e, he, decide_eq_true hread⟩
    have hmem : s.ended.length ∈ sentCalls s.ended := by
      have hget := congrArg (fun l => l[(owners s.ended).length]?) horder
      simp only [List.getElem?_append_right (Nat.le_refl _), Nat.sub_self, List.getElem?_cons_zero]
        at hget
      rw [List.getElem?_append_left (by omega)] at hget
      exact List.mem_of_getElem? hget.symm
    exact absurd (lt_of_mem_sentCalls hmem) (Nat.lt_irrefl _)
  · intro hall
    have hzero : s.ended.countP (fun e => e.2 = .notRead) = 0 :=
      List.countP_eq_zero.2 fun e he => by simpa using hall e he
    obtain ⟨-, htail⟩ := List.append_inj horder (by omega)
    exact (List.cons.inj htail).1

theorem Inv.step {serve : σ → Command → σ × Response} {s s' : Exchange σ} (h : Inv s)
    {a : Action} (hs : step serve s a = some s') : Inv s' := by
  cases a with
  | send c ok =>
    unfold Exchange.step at hs
    dsimp only at hs
    split at hs
    · cases hs
    · next hp =>
      have horder := h.order
      rw [hp] at horder
      split at hs
      · cases hs
        refine ⟨?_, h.owned⟩
        show owners s.ended ++ (_ ++ (s.requests ++ [(s.ended.length, c)]).map Prod.fst) = _
        rw [List.map_append, ← List.append_assoc (s.responses.map Prod.fst),
          ← List.append_assoc (owners s.ended), horder]
        simp
      · cases hs
        refine ⟨?_, h.owned.concat c fun _ _ he => (nomatch he)⟩
        show owners (s.ended ++ [(c, .notSent)]) ++ _ = sentCalls (s.ended ++ [(c, .notSent)]) ++ _
        rw [owners_concat, sentCalls_concat, show owners [(c, .notSent)] = [] from rfl,
          List.append_nil, if_pos rfl, List.append_nil]
        exact horder
  | serve =>
    unfold Exchange.step at hs
    dsimp only at hs
    split at hs
    · cases hs
    · next call c requests hq =>
      cases hs
      refine ⟨?_, h.owned⟩
      have horder := h.order
      rw [hq] at horder
      show owners s.ended ++ ((s.responses ++ [(call, _)]).map Prod.fst ++ requests.map Prod.fst) = _
      rw [List.map_append, List.append_assoc]
      exact horder
  | read ok =>
    unfold Exchange.step at hs
    dsimp only at hs
    split at hs
    · cases hs
    · next c hp =>
      have horder := h.order
      rw [hp, Option.isSome_some, if_pos rfl] at horder
      split at hs
      · split at hs
        · cases hs
        · next owner r rest hr =>
          cases hs
          refine ⟨?_, h.owned.concat c ?_⟩
          · show owners (s.ended ++ [(c, .response owner r)]) ++ _ =
              sentCalls (s.ended ++ [(c, .response owner r)]) ++ []
            rw [hr] at horder
            rw [owners_concat, sentCalls_concat, if_neg (fun h => nomatch h), List.append_nil,
              show owners [(c, .response owner r)] = [owner] from rfl, List.append_assoc]
            exact horder
          · rintro _ _ ⟨⟩
            exact h.owner_iff hp hr
      · cases hs
        refine ⟨?_, h.owned.concat c fun _ _ he => (nomatch he)⟩
        show owners (s.ended ++ [(c, .notRead)]) ++ _ = sentCalls (s.ended ++ [(c, .notRead)]) ++ _
        rw [owners_concat, sentCalls_concat, show owners [(c, .notRead)] = [] from rfl,
          List.append_nil, if_neg (fun h => nomatch h)]
        exact horder.trans (List.append_nil _).symm

/-! ## Which reads have failed -/

/-- Whether the read of a call succeeded. -/
def read? : CallEnd → Option Bool
  | .notSent => none
  | .notRead => some false
  | .response _ _ => some true

def Action.read? : Action → Option Bool
  | .read ok => some ok
  | _ => none

/-- The reads of the calls that have ended. -/
def reads (ended : List (Command × CallEnd)) : List Bool := ended.filterMap fun e => read? e.2

theorem read?_eq_false {e : CallEnd} : read? e = some false ↔ e = .notRead := by
  cases e <;> simp [read?]

theorem read?_eq_true {e : CallEnd} : read? e = some true ↔ ∃ owner r, e = .response owner r := by
  cases e <;> simp [read?]

theorem Action.read?_eq_some {a : Action} {ok : Bool} : a.read? = some ok ↔ a = .read ok := by
  cases a <;> simp [Action.read?]

theorem reads_concat (ended : List (Command × CallEnd)) (c : Command) (e : CallEnd) :
    reads (ended ++ [(c, e)]) = reads ended ++ (read? e).toList := by
  unfold reads
  rw [List.filterMap_append]
  cases e <;> rfl

theorem reads_step {serve : σ → Command → σ × Response} {s s' : Exchange σ} {a : Action}
    (hs : step serve s a = some s') : reads s'.ended = reads s.ended ++ a.read?.toList := by
  cases a with
  | send c ok =>
    unfold step at hs
    dsimp only at hs
    split at hs
    · cases hs
    · split at hs
      · cases hs
        exact (List.append_nil _).symm
      · cases hs
        exact reads_concat _ _ _
  | serve =>
    unfold step at hs
    dsimp only at hs
    split at hs
    · cases hs
    · cases hs
      exact (List.append_nil _).symm
  | read ok =>
    unfold step at hs
    dsimp only at hs
    split at hs
    · cases hs
    · split at hs
      · next hok =>
        split at hs
        · cases hs
        · cases hs
          rw [hok]
          exact reads_concat _ _ _
      · next hok =>
        cases hs
        rw [Bool.not_eq_true] at hok
        rw [hok]
        exact reads_concat _ _ _

theorem reads_run {serve : σ → Command → σ × Response} {s s' : Exchange σ} {as : List Action}
    (h : run (step serve) s as = some s') :
    reads s'.ended = reads s.ended ++ as.filterMap Action.read? := by
  induction as generalizing s with
  | nil =>
    cases h
    exact (List.append_nil _).symm
  | cons a as ih =>
    obtain ⟨t, ht, h⟩ := Option.bind_eq_some_iff.1 h
    rw [ih h, reads_step ht, List.append_assoc]
    congr 1
    cases hr : a.read? with
    | none => rw [List.filterMap_cons_none hr, Option.toList_none, List.nil_append]
    | some ok => rw [List.filterMap_cons_some hr, Option.toList_some, List.singleton_append]

/-- What `Owned` asks for says that no read succeeds after one that has failed. -/
theorem stops_iff (ended : List (Command × CallEnd)) :
    (∀ (j : Nat) c owner r, ended[j]? = some (c, .response owner r) →
        ∀ e ∈ ended.take j, e.2 ≠ .notRead) ↔
      (reads ended).Pairwise fun a b => a = false → b ≠ true := by
  unfold reads
  rw [List.pairwise_filterMap, List.pairwise_iff_getElem]
  constructor
  · rintro h i j hi hj hij _ ha _ hb rfl rfl
    obtain ⟨owner, r, hr⟩ := read?_eq_true.1 hb
    have hget : ended[j]? = some (ended[j].1, .response owner r) := by
      rw [List.getElem?_eq_getElem hj, ← hr]
    exact h j _ owner r hget ended[i] (List.mem_take_iff_getElem.2 ⟨i, by omega, rfl⟩)
      (read?_eq_false.1 ha)
  · intro h j c owner r hj e he hread
    obtain ⟨hlt, hj⟩ := List.getElem?_eq_some_iff.1 hj
    obtain ⟨i, hi, rfl⟩ := List.mem_take_iff_getElem.1 he
    exact h i j (by omega) hlt (by omega) false (read?_eq_false.2 hread) true
      (read?_eq_true.2 ⟨owner, r, by rw [hj]⟩) rfl rfl

/-- A call that returns a response returns the response to its own command. -/
def OwnResponses (s : Exchange σ) : Prop :=
  ∀ (j : Nat) c owner r, s.ended[j]? = some (c, .response owner r) → owner = j

/-- No read succeeds after one that has failed. -/
def NoReadAfterFailure (as : List Action) : Prop :=
  as.Pairwise fun a b => a = .read false → b ≠ .read true

/-- **When the calls of a connection return their own responses.** -/
theorem ownResponses_iff {serve : σ → Command → σ × Response} {server : σ} {s : Exchange σ}
    {as : List Action} (h : run (step serve) (init server) as = some s) :
    s.OwnResponses ↔ NoReadAfterFailure as := by
  have hinv : Inv s := (Reachable.init.run h).invariant (.init server) fun _ _ _ hI hs => hI.step hs
  have hstops := stops_iff s.ended
  rw [show reads s.ended = as.filterMap Action.read? from reads_run h, List.pairwise_filterMap]
    at hstops
  simp only [Action.read?_eq_some] at hstops
  constructor
  · intro hown
    refine (hstops.1 fun j c owner r hj => ?_).imp fun h ha hb => h false ha true hb rfl rfl
    exact (hinv.owned j c owner r hj).1 (hown j c owner r hj)
  · intro hnone j c owner r hj
    refine (hinv.owned j c owner r hj).2 (hstops.2 (hnone.imp ?_) j c owner r hj)
    rintro a b h _ ha _ hb rfl rfl
    exact h ha hb

/-- A server with the values `x` of `a` and `y` of `b`. -/
def twoKeys : Store := ((∅ : Store).insert [97] [120]).insert [98] [121]

/-- The command of a Get of `a` is not sent; a Get of `b` is, and its response read. -/
theorem ownResponses_notSent :
    ∃ s, Machine.run (step (KvWorker.handle [])) (init twoKeys)
        [.send (.get [97]) false, .send (.get [98]) true, .serve, .read true] = some s ∧
      s.ended = [(.get [97], .notSent), (.get [98], .response 1 (.get .Ok [121]))] ∧
      s.OwnResponses := by
  have hrun : (Machine.run (step (KvWorker.handle [])) (init twoKeys)
      [.send (.get [97]) false, .send (.get [98]) true, .serve, .read true]).map Exchange.ended =
      some [(.get [97], .notSent), (.get [98], .response 1 (.get .Ok [121]))] := by
    decide +kernel
  obtain ⟨s, hs, hended⟩ := Option.map_eq_some_iff.1 hrun
  exact ⟨s, hs, hended, (ownResponses_iff hs).2 (by unfold NoReadAfterFailure; decide)⟩

/-- A Get of `a` fails to read its response; the next call, a Get of `b`, returns the value of
`a`. -/
theorem get_returns_other :
    ∃ s, Machine.run (step (KvWorker.handle [])) (init twoKeys)
        [.send (.get [97]) true, .read false, .serve, .send (.get [98]) true, .read true] = some s ∧
      s.ended = [(.get [97], .notRead), (.get [98], .response 0 (.get .Ok [120]))] ∧
      Connection.returns [] (.get [98]) (.response 0 (.get .Ok [120])) =
        some (.get .Ok (some [120])) ∧
      ¬ s.OwnResponses := by
  have hrun : (Machine.run (step (KvWorker.handle [])) (init twoKeys)
      [.send (.get [97]) true, .read false, .serve, .send (.get [98]) true, .read true]).map
        Exchange.ended =
      some [(.get [97], .notRead), (.get [98], .response 0 (.get .Ok [120]))] := by
    decide +kernel
  obtain ⟨s, hs, hended⟩ := Option.map_eq_some_iff.1 hrun
  refine ⟨s, hs, hended, rfl, fun h => ?_⟩
  have hown := h 1 (.get [98]) 0 (.get .Ok [120]) (by rw [hended]; rfl)
  cases hown

end Exchange

end SqpKv
