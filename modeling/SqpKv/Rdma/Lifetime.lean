import Mathlib.Logic.Function.Basic
import SqpKv.Rdma.Poller

/-!
# The lifetime of a `Context` (src/rdma/rdma_connection.cc, rdma_client.cc, rdma_server.cc)

A `Context` is destroyed by `DestroyConnection`, and by `BuildContext` where it
returns an error.  Its poller has no end of its own and is never joined, so
that the destruction of a `Context` whose thread has been started is
`std::terminate`.  `RegisterMemoryRegion` takes the memory region it gets for a
failure: with the calls up to the start of the thread successful

    a region is registered  →  BuildContext returns an error behind the start of the thread

and that is the only way to such a destruction (`safe_iff`).  If
`RegisterMemoryRegion` did not fail, a disconnect would be one
(`safe_iff_not_meets`).
-/

namespace SqpKv

open Wire Machine

namespace Lifetime

/-! ## The process -/

inductive Role
  | client
  | server
deriving DecidableEq

/-- An event of the connection manager, with what the library gives the calls made for it. -/
inductive CmEvent
  | addrResolved (calls : VerbsCalls) (resolveRoute : Int)
  | routeResolved (connect : Int)
  | connectRequest (calls : VerbsCalls) (accept : Int)
  | established (sendMr : Status)
  | disconnected
  | other

/-- A `Context` that has been created: whether it still is, and its poller, if the thread was
started. -/
structure Cell where
  context : Context
  live : Bool
  poller : CqPoller

/-- `cells` are the `Context`s by their addresses, `next` is the address of the next one.  `destroyed`
are the `Context`s that were destroyed, as they were then; `handled` says of every completion whether
its `Context` was live. -/
structure State (ι : Type) where
  cells : Nat → Cell := fun _ => ⟨{}, false, .returned⟩
  next : Nat := 0
  idContext : ι → ContextPtr := fun _ => none
  cmId : Option ι := none
  connecting : Bool := false
  terminate : Bool := false
  ended : Bool := false
  destroyed : List Context := []
  handled : List Bool := []

namespace State

variable {ι : Type} (register : VerbsCalls → Status) (s : State ι)

/-- `BuildContext(id)`, and whether it returns Ok. -/
def build [DecidableEq ι] (id : ι) (calls : VerbsCalls) : State ι × Bool :=
  let (context, result) := buildContext register calls
  let created (live : Bool) : State ι :=
    { s with
      cells := Function.update s.cells s.next ⟨context, live, .waiting (some s.next)⟩
      next := s.next + 1
      idContext :=
        if context.pollerJoinable then Function.update s.idContext id (some s.next) else s.idContext }
  match result with
  | .error _ => ({ created true with ended := true }, false)
  | .ok status =>
    if status.ok then (created true, true)
    else
      -- `~unique_ptr`; the thread of the `Context` decides whether it terminates
      ({ created false with
          destroyed := s.destroyed ++ [context]
          ended := context.pollerJoinable }, false)

/-- `DestroyConnection`; `nullptr` is dereferenced. -/
def destroyConnection : ContextPtr → State ι
  | none => { s with ended := true }
  | some address =>
    let cell := s.cells address
    { s with
      cells := Function.update s.cells address { cell with live := false }
      destroyed := s.destroyed ++ [cell.context]
      ended := cell.context.pollerJoinable }

/-- `OnDisconnect(id)`. -/
def onDisconnect (id : ι) : State ι :=
  let s := s.destroyConnection (s.idContext id)
  if s.ended then s else { s with terminate := true }

/-- `RDMAClient::Disconnect`; a client without a `cm_id_` dereferences `nullptr`. -/
def disconnect (getCmEvent : Int) : State ι :=
  match s.cmId with
  | none => { s with ended := true }
  | some id => if getCmEvent ≠ 0 then s else s.onDisconnect id

/-- An id that the library has created, whose context is `nullptr`. -/
def newId [DecidableEq ι] (id : ι) : State ι :=
  { s with idContext := Function.update s.idContext id none }

/-- `OnEvent`, and whether it returns Ok. -/
def onEvent [DecidableEq ι] (role : Role) (id : ι) : CmEvent → State ι × Bool
  | .addrResolved calls resolveRoute =>
    match role with
    | .client =>
      let (s, built) := s.build register id calls
      (s, built && resolveRoute = 0)
    | .server => (s, true)
  | .routeResolved connect =>
    match role with
    | .client => (s, connect = 0)
    | .server => (s, true)
  | .connectRequest calls accept =>
    match role with
    | .client => (s, true)
    | .server =>
      -- the context is that of the id that listens
      let (s, built) := (s.newId id).build register id calls
      (s, built && accept = 0)
  | .established sendMr =>
    match s.idContext id with
    | none => ({ s with ended := true }, false)
    | some _ => (s, sendMr.ok)
  | .disconnected => (s.onDisconnect id, true)
  | .other => (s, false)

end State

/-- A client calls `Connect` (with the calls before its loop successful) and `Disconnect`, and takes
events in the loop of `Connect`; a server takes events in `Run`.  The pollers run beside it. -/
inductive Action (ι : Type)
  | connect (id : ι)
  | event (id : ι) (e : CmEvent)
  | disconnect (getCmEvent : Int)
  | poll (address : Nat) (a : PollAction)

variable {ι : Type}

/-- One step of the poller of a `Context`.  The `wr_id` of a completion is the `Context` whose queue pair
posted the request, that of the poller. -/
def pollStep (s : State ι) (address : Nat) (a : PollAction) : Option (State ι) :=
  let cell := s.cells address
  if cell.context.pollerJoinable then
    match cell.poller, a with
    -- `nullptr->completion_channel`
    | .waiting none, .event _ _ => some { s with ended := true }
    | poller, a =>
      (poller.step (fun address => (s.cells address).context) a).map fun poller =>
        { s with
          cells := Function.update s.cells address { cell with poller := poller }
          handled := if a = .completion then s.handled ++ [cell.live] else s.handled }
  else none

/-- The threads of a client or of a server. -/
def step [DecidableEq ι] (role : Role) (register : VerbsCalls → Status) (s : State ι)
    (a : Action ι) : Option (State ι) :=
  if s.ended then none
  else
    match role, a with
    | .client, .connect id =>
      if s.connecting then none
      else some { s.newId id with cmId := some id, connecting := true }
    | .client, .event id e =>
      if s.connecting then
        let (s, ok) := s.onEvent register role id e
        let established := match e with | .established _ => true | _ => false
        some { s with connecting := ok && !established }
      else none
    | .client, .disconnect getCmEvent =>
      if s.connecting then none else some (s.disconnect getCmEvent)
    | .server, .event id e => if s.terminate then none else some (s.onEvent register role id e).1
    | .server, .connect _ => none
    | .server, .disconnect _ => none
    | _, .poll address a => pollStep s address a

/-- A `Context` was destroyed only when its thread was not joinable, and no completion was handled
with a `Context` that had been destroyed. -/
structure Safe (s : State ι) : Prop where
  destroyed : ∀ context ∈ s.destroyed, context.pollerJoinable = false
  handled : ∀ live ∈ s.handled, live = true

/-! ## What a step does to the `Context`s -/

/-- `BuildContext` returns an error behind the start of the thread. -/
def Drops (register : VerbsCalls → Status) (calls : VerbsCalls) : Prop :=
  calls.StartsPoller ∧
    ((register calls).ok = false ∨ (calls.regLocalMr = true ∧ calls.postRecv ≠ 0))

/-- What `BuildContext` comes to. -/
inductive Outcome (register : VerbsCalls → Status) (calls : VerbsCalls) :
    Context × Except Fault Status → Prop
  | refused {context : Context} (safe : ¬ Drops register calls)
      (joinable : context.pollerJoinable = false) :
      Outcome register calls (context, .ok (.Err calls.errorText))
  | dropped {context : Context} {status : Status} (drops : Drops register calls)
      (joinable : context.pollerJoinable = true) (fails : status.ok = false) :
      Outcome register calls (context, .ok status)
  | crashed {context : Context} {fault : Fault} (safe : ¬ Drops register calls)
      (joinable : context.pollerJoinable = true) : Outcome register calls (context, .error fault)
  | built {context : Context} (safe : ¬ Drops register calls)
      (joinable : context.pollerJoinable = true) : Outcome register calls (context, .ok .Ok)

theorem buildContext_outcome (register : VerbsCalls → Status) (calls : VerbsCalls) :
    Outcome register calls (buildContext register calls) := by
  by_cases hstarts : calls.StartsPoller
  · obtain ⟨channel, hbuilt⟩ := buildContext_started register hstarts
    rw [hbuilt]
    by_cases hregister : (register calls).ok = true
    · rw [if_pos hregister, firstPostReceive]
      have hok : (register calls).ok ≠ false := by simp [hregister]
      by_cases hlocal : calls.regLocalMr = true
      · rw [if_neg (by simp [hlocal])]
        by_cases hpost : calls.postRecv = 0
        · rw [if_neg (not_not.2 hpost)]
          exact .built (fun h => h.2.elim hok fun h => h.2 hpost) rfl
        · rw [if_pos hpost]
          exact .dropped ⟨hstarts, .inr ⟨hlocal, hpost⟩⟩ rfl rfl
      · rw [if_pos (by simpa using hlocal)]
        exact .crashed (fun h => h.2.elim hok fun h => hlocal h.1) rfl
    · rw [if_neg hregister]
      have hfail : (register calls).ok = false := by simpa using hregister
      exact .dropped ⟨hstarts, .inl hfail⟩ rfl hfail
  · obtain ⟨hjoinable, hresult⟩ := buildContext_not_started register hstarts
    have hpair : buildContext register calls =
        ((buildContext register calls).1, .ok (.Err calls.errorText)) := Prod.ext rfl hresult
    rw [hpair]
    exact .refused (fun h => hstarts h.1) hjoinable

/-- An event that has a `Context` destroyed whose thread was started. -/
def EventEndangers (role : Role) (register : VerbsCalls → Status) (s : State ι) (id : ι) :
    CmEvent → Prop
  | .addrResolved calls _ => role = .client ∧ Drops register calls
  | .connectRequest calls _ => role = .server ∧ Drops register calls
  | .disconnected => s.idContext id ≠ none
  | _ => False

/-- An action that has a `Context` destroyed whose thread was started. -/
def Endangers (role : Role) (register : VerbsCalls → Status) (s : State ι) : Action ι → Prop
  | .event id e => EventEndangers role register s id e
  | .disconnect getCmEvent => getCmEvent = 0 ∧ ∃ id, s.cmId = some id ∧ s.idContext id ≠ none
  | _ => False

/-- No id has a `Context` that it did not have. -/
def Fewer (s t : State ι) : Prop :=
  ∀ id address, t.idContext id = some address → s.idContext id = some address

/-- The effects of a step, by what becomes of the `Context`s; only the last two are dangerous. -/
inductive Effect (register : VerbsCalls → Status) (s t : State ι) (danger : Prop) : Prop
  | quiet (safe : ¬ danger) (cells : t.cells = s.cells) (next : t.next = s.next)
      (destroyed : t.destroyed = s.destroyed) (handled : t.handled = s.handled) (ids : Fewer s t)
  | polled (safe : ¬ danger) {address : Nat} {poller : CqPoller}
      (joinable : (s.cells address).context.pollerJoinable = true)
      (cells : t.cells = Function.update s.cells address { s.cells address with poller := poller })
      (next : t.next = s.next) (destroyed : t.destroyed = s.destroyed)
      (handled : t.handled = s.handled ∨ t.handled = s.handled ++ [(s.cells address).live])
      (ids : Fewer s t)
  | refused (safe : ¬ danger) {context : Context} {poller : CqPoller}
      (joinable : context.pollerJoinable = false)
      (cells : t.cells = Function.update s.cells s.next ⟨context, false, poller⟩)
      (next : t.next = s.next + 1) (destroyed : t.destroyed = s.destroyed ++ [context])
      (handled : t.handled = s.handled) (ids : Fewer s t)
  | built (safe : ¬ danger) {context : Context} {poller : CqPoller}
      (joinable : context.pollerJoinable = true)
      (cells : t.cells = Function.update s.cells s.next ⟨context, true, poller⟩)
      (next : t.next = s.next + 1) (destroyed : t.destroyed = s.destroyed)
      (handled : t.handled = s.handled)
      (ids : ∀ id address, t.idContext id = some address →
        s.idContext id = some address ∨ address = s.next)
      (returns : t.ended = true ∨ ∃ calls, (buildContext register calls).2 = .ok .Ok)
  | dropped (dangerous : danger) {context : Context} (joinable : context.pollerJoinable = true)
      (destroyed : t.destroyed = s.destroyed ++ [context]) (ended : t.ended = true)
  | deleted (dangerous : danger) {id : ι} {address : Nat} (id_context : s.idContext id = some address)
      (destroyed : t.destroyed = s.destroyed ++ [(s.cells address).context])

section Effects

variable {register : VerbsCalls → Status} {s t : State ι}

/-- Whether the loops go on is of no matter. -/
theorem Effect.loops {danger : Prop} (h : Effect register s t danger) (connecting terminate : Bool) :
    Effect register s { t with connecting := connecting, terminate := terminate } danger := by
  cases h with
  | quiet safe cells next destroyed handled ids => exact .quiet safe cells next destroyed handled ids
  | polled safe joinable cells next destroyed handled ids =>
    exact .polled safe joinable cells next destroyed handled ids
  | refused safe joinable cells next destroyed handled ids =>
    exact .refused safe joinable cells next destroyed handled ids
  | built safe joinable cells next destroyed handled ids returns =>
    exact .built safe joinable cells next destroyed handled ids returns
  | dropped dangerous joinable destroyed ended => exact .dropped dangerous joinable destroyed ended
  | deleted dangerous id_context destroyed => exact .deleted dangerous id_context destroyed

/-- `BuildContext`, for an id whose context may have been forgotten before. -/
theorem build_effect [DecidableEq ι] {s₀ : State ι} (hids : Fewer s₀ s) (hcells : s.cells = s₀.cells)
    (hnext : s.next = s₀.next) (hdestroyed : s.destroyed = s₀.destroyed)
    (hhandled : s.handled = s₀.handled) (id : ι) (calls : VerbsCalls) :
    Effect register s₀ (s.build register id calls).1 (Drops register calls) := by
  have hids' : ∀ id' address, Function.update s.idContext id (some s.next) id' = some address →
      s₀.idContext id' = some address ∨ address = s₀.next := by
    intro id' address h
    by_cases heq : id' = id
    · rw [heq, Function.update_self] at h
      exact .inr ((Option.some.inj h).symm.trans hnext)
    · rw [Function.update_of_ne heq] at h
      exact .inl (hids id' address h)
  have houtcome := buildContext_outcome register calls
  unfold State.build
  generalize hresult : buildContext register calls = result at houtcome
  cases houtcome with
  | @refused context hnot hjoinable =>
    simp only [show (Status.Err calls.errorText).ok = false from rfl, hjoinable, Bool.false_eq_true, if_false]
    exact .refused hnot hjoinable (by rw [← hcells, ← hnext]) (by rw [← hnext])
      (by rw [← hdestroyed]) hhandled hids
  | @dropped context status hdrops hjoinable hfail =>
    simp only [hfail, Bool.false_eq_true, if_false]
    exact .dropped hdrops hjoinable (by rw [← hdestroyed]) hjoinable
  | @crashed context fault hnot hjoinable =>
    simp only [hjoinable, if_true]
    exact .built hnot hjoinable (by rw [← hcells, ← hnext]) (by rw [← hnext]) hdestroyed hhandled hids'
      (.inl rfl)
  | @built context hnot hjoinable =>
    simp only [show Status.Ok.ok = true from rfl, hjoinable, if_true]
    exact .built hnot hjoinable (by rw [← hcells, ← hnext]) (by rw [← hnext]) hdestroyed hhandled hids'
      (.inr ⟨calls, by rw [hresult]⟩)

/-- `OnDisconnect`. -/
theorem onDisconnect_effect (s : State ι) (id : ι) :
    Effect register s (s.onDisconnect id) (s.idContext id ≠ none) := by
  unfold State.onDisconnect
  cases hid : s.idContext id with
  | none => exact .quiet (not_not.2 rfl) rfl rfl rfl rfl fun _ _ h => h
  | some address =>
    have hdestroyed : Effect register s (s.destroyConnection (some address)) (some address ≠ none) :=
      .deleted nofun hid rfl
    dsimp only
    split
    · exact hdestroyed
    · exact hdestroyed.loops _ true

/-- A step that leaves the `Context`s alone. -/
theorem quiet_effect (s : State ι) (ended : Bool) {danger : Prop} (h : ¬ danger) :
    Effect register s { s with ended := ended } danger :=
  .quiet h rfl rfl rfl rfl fun _ _ h => h

/-- `Disconnect`. -/
theorem disconnect_effect (s : State ι) (getCmEvent : Int) :
    Effect register s (s.disconnect getCmEvent)
      (Endangers .client register s (.disconnect getCmEvent)) := by
  unfold State.disconnect
  split
  · next hnone =>
    refine quiet_effect s true ?_
    rintro ⟨-, id, hid, -⟩
    rw [hnone] at hid
    cases hid
  · next id hid =>
    split
    · next hfails => exact quiet_effect s s.ended fun h => hfails h.1
    · next hzero =>
      have hdanger : Endangers .client register s (.disconnect getCmEvent) ↔ s.idContext id ≠ none := by
        constructor
        · rintro ⟨-, id', hid', hne⟩
          rw [hid] at hid'
          cases hid'
          exact hne
        · intro hne
          exact ⟨not_not.1 hzero, id, hid, hne⟩
      rw [hdanger]
      exact onDisconnect_effect s id

theorem fewer_newId [DecidableEq ι] (s : State ι) (id : ι) : Fewer s (s.newId id) := by
  intro id' address h
  change Function.update s.idContext id none id' = some address at h
  by_cases heq : id' = id
  · rw [heq, Function.update_self] at h
    cases h
  · rwa [Function.update_of_ne heq] at h

theorem onEvent_effect [DecidableEq ι] (register : VerbsCalls → Status) (role : Role) (s : State ι)
    (id : ι) (e : CmEvent) :
    Effect register s (s.onEvent register role id e).1 (EventEndangers role register s id e) := by
  cases e with
  | addrResolved calls resolveRoute =>
    cases role with
    | client =>
      have hbuild : Effect register s (s.build register id calls).1 (Drops register calls) :=
        build_effect (fun _ _ h => h) rfl rfl rfl rfl id calls
      simpa [State.onEvent, EventEndangers] using hbuild
    | server => exact quiet_effect s s.ended fun h => nomatch h.1
  | routeResolved connect =>
    cases role with
    | client => exact quiet_effect s s.ended not_false
    | server => exact quiet_effect s s.ended not_false
  | connectRequest calls accept =>
    cases role with
    | client => exact quiet_effect s s.ended fun h => nomatch h.1
    | server =>
      have hbuild : Effect register s ((s.newId id).build register id calls).1 (Drops register calls) :=
        build_effect (fewer_newId s id) rfl rfl rfl rfl id calls
      simpa [State.onEvent, EventEndangers] using hbuild
  | established sendMr =>
    unfold State.onEvent
    dsimp only
    split
    · exact quiet_effect s true not_false
    · exact quiet_effect s s.ended not_false
  | disconnected => exact onDisconnect_effect s id
  | other => exact quiet_effect s s.ended not_false

theorem pollStep_effect {address : Nat} {a : PollAction} (h : pollStep s address a = some t) :
    Effect register s t False := by
  unfold pollStep at h
  dsimp only at h
  split at h
  · next hjoinable =>
    split at h
    · cases h
      exact quiet_effect s true not_false
    · obtain ⟨poller, -, h⟩ := Option.map_eq_some_iff.1 h
      cases h
      refine .polled not_false hjoinable rfl rfl rfl ?_ fun _ _ h => h
      split
      · exact .inr rfl
      · exact .inl rfl
  · cases h

/-- **One step.** -/
theorem step_effect [DecidableEq ι] {role : Role} {a : Action ι}
    (h : step role register s a = some t) :
    s.ended = false ∧ Effect register s t (Endangers role register s a) := by
  unfold step at h
  split at h
  · cases h
  · next hended =>
    refine ⟨by simpa using hended, ?_⟩
    cases a with
    | connect id =>
      cases role with
      | client =>
        dsimp only at h
        split at h
        · cases h
        · cases h
          exact .quiet not_false rfl rfl rfl rfl (fewer_newId s id)
      | server => cases h
    | event id e =>
      have heffect := onEvent_effect register role s id e
      cases role with
      | client =>
        dsimp only at h
        split at h
        · cases h
          exact heffect.loops _ _
        · cases h
      | server =>
        dsimp only at h
        split at h
        · cases h
        · cases h
          exact heffect
    | disconnect getCmEvent =>
      cases role with
      | client =>
        dsimp only at h
        split at h
        · cases h
        · cases h
          exact disconnect_effect s getCmEvent
      | server => cases h
    | poll address x =>
      cases role with
      | client => exact pollStep_effect h
      | server => exact pollStep_effect h

/-! ## Runs -/

/-- The invariant of the steps that are not dangerous. -/
structure Good (s : State ι) : Prop where
  safe : Safe s
  live : ∀ address, (s.cells address).context.pollerJoinable = true → (s.cells address).live = true
  started : ∀ id address, s.idContext id = some address →
    (s.cells address).context.pollerJoinable = true
  fresh : ∀ address, s.next ≤ address → (s.cells address).context.pollerJoinable = false

/-- A `Context` was destroyed with a joinable thread. -/
def Lost (s : State ι) : Prop := ∃ context ∈ s.destroyed, context.pollerJoinable = true

theorem Good.init : Good ({} : State ι) where
  safe := ⟨nofun, nofun⟩
  live _ h := nomatch h
  started _ _ h := nomatch h
  fresh _ _ := rfl

/-- A step that creates no `Context` and destroys none. -/
theorem Good.same (hs : Good s)
    (hcells : ∀ address, (t.cells address).context = (s.cells address).context ∧
      (t.cells address).live = (s.cells address).live)
    (hnext : t.next = s.next) (hdestroyed : t.destroyed = s.destroyed)
    (hhandled : ∀ live ∈ t.handled, live = true) (hids : Fewer s t) : Good t where
  safe := ⟨by rw [hdestroyed]; exact hs.safe.destroyed, hhandled⟩
  live address h := by
    rw [(hcells address).1] at h
    rw [(hcells address).2]
    exact hs.live address h
  started id address hid := by
    rw [(hcells address).1]
    exact hs.started id address (hids id address hid)
  fresh address hge := by
    rw [hnext] at hge
    rw [(hcells address).1]
    exact hs.fresh address hge

/-- A poller moves. -/
theorem Good.polled (hs : Good s) {address : Nat} {poller : CqPoller}
    (joinable : (s.cells address).context.pollerJoinable = true)
    (cells : t.cells = Function.update s.cells address { s.cells address with poller := poller })
    (next : t.next = s.next) (destroyed : t.destroyed = s.destroyed)
    (handled : t.handled = s.handled ∨ t.handled = s.handled ++ [(s.cells address).live])
    (ids : Fewer s t) : Good t := by
  refine hs.same ?_ next destroyed ?_ ids
  · intro address'
    rw [cells]
    by_cases heq : address' = address
    · rw [heq, Function.update_self]
      exact ⟨rfl, rfl⟩
    · rw [Function.update_of_ne heq]
      exact ⟨rfl, rfl⟩
  · intro live hlive
    rcases handled with hsame | hmore
    · rw [hsame] at hlive
      exact hs.safe.handled live hlive
    · rw [hmore] at hlive
      rcases List.mem_append.1 hlive with hold | hnew
      · exact hs.safe.handled live hold
      · rw [List.mem_singleton.1 hnew]
        exact hs.live address joinable

/-- A `Context` is destroyed that never had a thread. -/
theorem Good.refused (hs : Good s) {context : Context} {poller : CqPoller}
    (joinable : context.pollerJoinable = false)
    (cells : t.cells = Function.update s.cells s.next ⟨context, false, poller⟩)
    (next : t.next = s.next + 1) (destroyed : t.destroyed = s.destroyed ++ [context])
    (handled : t.handled = s.handled) (ids : Fewer s t) : Good t := by
  have hnew : (t.cells s.next).context.pollerJoinable = false := by
    rw [cells, Function.update_self]
    exact joinable
  have hold : ∀ address, address ≠ s.next → t.cells address = s.cells address := by
    intro address hne
    rw [cells, Function.update_of_ne hne]
  constructor
  · refine ⟨?_, by rw [handled]; exact hs.safe.handled⟩
    intro c hc
    rw [destroyed] at hc
    rcases List.mem_append.1 hc with hbefore | hlast
    · exact hs.safe.destroyed c hbefore
    · rwa [List.mem_singleton.1 hlast]
  · intro address h
    by_cases heq : address = s.next
    · rw [heq, hnew] at h
      cases h
    · rw [hold address heq] at h ⊢
      exact hs.live address h
  · intro id address hid
    have hstarted := hs.started id address (ids id address hid)
    by_cases heq : address = s.next
    · rw [heq, hs.fresh s.next (Nat.le_refl _)] at hstarted
      cases hstarted
    · rwa [hold address heq]
  · intro address hge
    rw [next] at hge
    rw [hold address (by omega)]
    exact hs.fresh address (by omega)

/-- A `Context` is built, and its poller started. -/
theorem Good.built (hs : Good s) {context : Context} {poller : CqPoller}
    (joinable : context.pollerJoinable = true)
    (cells : t.cells = Function.update s.cells s.next ⟨context, true, poller⟩)
    (next : t.next = s.next + 1) (destroyed : t.destroyed = s.destroyed)
    (handled : t.handled = s.handled)
    (ids : ∀ id address, t.idContext id = some address →
      s.idContext id = some address ∨ address = s.next) : Good t := by
  have hnew : t.cells s.next = ⟨context, true, poller⟩ := by rw [cells, Function.update_self]
  have hold : ∀ address, address ≠ s.next → t.cells address = s.cells address := by
    intro address hne
    rw [cells, Function.update_of_ne hne]
  constructor
  · exact ⟨by rw [destroyed]; exact hs.safe.destroyed, by rw [handled]; exact hs.safe.handled⟩
  · intro address h
    by_cases heq : address = s.next
    · rw [heq, hnew]
    · rw [hold address heq] at h ⊢
      exact hs.live address h
  · intro id address hid
    by_cases heq : address = s.next
    · rw [heq, hnew]
      exact joinable
    · rw [hold address heq]
      exact hs.started id address ((ids id address hid).resolve_right heq)
  · intro address hge
    rw [next] at hge
    rw [hold address (by omega)]
    exact hs.fresh address (by omega)

theorem Good.keep {danger : Prop} (hs : Good s) (hsafe : ¬ danger)
    (h : Effect register s t danger) : Good t := by
  cases h with
  | quiet _ cells next destroyed handled ids =>
    refine hs.same ?_ next destroyed ?_ ids
    · intro address
      rw [cells]
      exact ⟨rfl, rfl⟩
    · rw [handled]
      exact hs.safe.handled
  | polled _ joinable cells next destroyed handled ids =>
    exact hs.polled joinable cells next destroyed handled ids
  | refused _ joinable cells next destroyed handled ids =>
    exact hs.refused joinable cells next destroyed handled ids
  | built _ joinable cells next destroyed handled ids _ =>
    exact hs.built joinable cells next destroyed handled ids
  | dropped dangerous _ _ _ => exact absurd dangerous hsafe
  | deleted dangerous _ _ => exact absurd dangerous hsafe

theorem Good.lose {danger : Prop} (hs : Good s) (hdanger : danger)
    (h : Effect register s t danger) : Lost t := by
  cases h with
  | quiet safe _ _ _ _ _ => exact absurd hdanger safe
  | polled safe _ _ _ _ _ _ => exact absurd hdanger safe
  | refused safe _ _ _ _ _ _ => exact absurd hdanger safe
  | built safe _ _ _ _ _ _ _ => exact absurd hdanger safe
  | @dropped _ context joinable destroyed _ =>
    refine ⟨context, ?_, joinable⟩
    rw [destroyed]
    exact List.mem_append_right _ List.mem_cons_self
  | @deleted _ id address id_context destroyed =>
    refine ⟨(s.cells address).context, ?_, hs.started id address id_context⟩
    rw [destroyed]
    exact List.mem_append_right _ List.mem_cons_self

theorem Lost.of_eq (h : Lost s) (hsame : t.destroyed = s.destroyed) : Lost t := by
  unfold Lost
  rwa [hsame]

theorem Lost.grows {more : List Context} (h : Lost s) (hmore : t.destroyed = s.destroyed ++ more) :
    Lost t := by
  obtain ⟨context, hmem, hjoinable⟩ := h
  refine ⟨context, ?_, hjoinable⟩
  rw [hmore]
  exact List.mem_append_left _ hmem

theorem Lost.stays {danger : Prop} (hs : Lost s) (h : Effect register s t danger) : Lost t := by
  cases h with
  | quiet _ _ _ destroyed _ _ => exact hs.of_eq destroyed
  | polled _ _ _ _ destroyed _ _ => exact hs.of_eq destroyed
  | refused _ _ _ _ destroyed _ _ => exact hs.grows destroyed
  | built _ _ _ _ destroyed _ _ _ => exact hs.of_eq destroyed
  | dropped _ _ destroyed _ => exact hs.grows destroyed
  | deleted _ _ destroyed => exact hs.grows destroyed

theorem Lost.not_safe (h : Lost s) : ¬ Safe s := by
  intro hsafe
  obtain ⟨context, hmem, hjoinable⟩ := h
  rw [hsafe.destroyed context hmem] at hjoinable
  cases hjoinable

/-- Whatever `RegisterMemoryRegion` returns: the `Context`s outlive their pollers exactly when
`BuildContext` returns no error behind the start of a thread, and no id that has a `Context` is
disconnected. -/
theorem safe_iff_not_meets [DecidableEq ι] (role : Role) (register : VerbsCalls → Status)
    {as : List (Action ι)} {t : State ι} (h : run (step role register) {} as = some t) :
    Safe t ↔ ¬ Meets (step role register) (Endangers role register) {} as := by
  refine run_iff_not_meets Good Lost ?_ ?_ ?_ Good.init h Good.safe Lost.not_safe
  · intro s a u hs hsafe hstep
    exact hs.keep hsafe (step_effect hstep).2
  · intro s a u hs hdanger hstep
    exact hs.lose hdanger (step_effect hstep).2
  · intro s a u hs hstep
    exact hs.stays (step_effect hstep).2

/-- A client that connects and disconnects, with a `RegisterMemoryRegion` that returns Ok. -/
example :
    (run (step .client fun _ => .Ok) ({} : State Unit)
      [.connect (), .event () (.addrResolved goodCalls 0), .event () (.routeResolved 0),
        .event () (.established .Ok), .disconnect 0]).map (·.destroyed.map (·.pollerJoinable)) =
      some [true] := rfl

end Effects

/-! ## `RegisterMemoryRegion` -/

/-- The thread is started, and then `RegisterMemoryRegion` gets a memory region, or leaves a status that
is not Ok. -/
def RegistrationFails (calls : VerbsCalls) : Prop :=
  calls.StartsPoller ∧
    (calls.regLocalMr = true ∨ calls.regRemoteMr = true ∨ calls.registerEnd.ok = false)

theorem registerMemoryRegion_ok {calls : VerbsCalls} (h : (registerMemoryRegion calls).ok = true) :
    calls.regLocalMr = false ∧ calls.regRemoteMr = false ∧ calls.registerEnd.ok = true := by
  unfold registerMemoryRegion at h
  split at h
  · cases h
  · next hlocal =>
    split at h
    · cases h
    · next hremote => exact ⟨by simpa using hlocal, by simpa using hremote, h⟩

theorem drops_registerMemoryRegion (calls : VerbsCalls) :
    Drops registerMemoryRegion calls ↔ RegistrationFails calls := by
  refine and_congr_right fun _ => ?_
  by_cases hok : (registerMemoryRegion calls).ok = true
  · obtain ⟨hlocal, hremote, hend⟩ := registerMemoryRegion_ok hok
    simp [hok, hlocal, hremote, hend]
  · have hfail : (registerMemoryRegion calls).ok = false := by simpa using hok
    refine iff_of_true (.inl hfail) ?_
    unfold registerMemoryRegion at hfail
    split at hfail
    · next hlocal => exact .inl hlocal
    · split at hfail
      · next hremote => exact .inr (.inl hremote)
      · exact .inr (.inr hfail)

/-- With it `BuildContext` never returns a `Context`. -/
theorem buildContext_ne_ok (calls : VerbsCalls) :
    (buildContext registerMemoryRegion calls).2 ≠ .ok .Ok := by
  intro h
  by_cases hstarts : calls.StartsPoller
  · obtain ⟨channel, hbuilt⟩ := buildContext_started registerMemoryRegion hstarts
    rw [hbuilt] at h
    by_cases hok : (registerMemoryRegion calls).ok = true
    · rw [if_pos hok, firstPostReceive, (registerMemoryRegion_ok hok).1] at h
      cases h
    · rw [if_neg hok] at h
      rw [Except.ok.inj h] at hok
      exact hok rfl
  · rw [(buildContext_not_started _ hstarts).2] at h
    cases h

/-- It refuses, or ends the process. -/
theorem Build.of_ne_returned (calls : VerbsCalls) :
    Build.of (buildContext registerMemoryRegion calls) ≠ .returned := by
  have hne := buildContext_ne_ok calls
  have houtcome := buildContext_outcome registerMemoryRegion calls
  generalize buildContext registerMemoryRegion calls = built at hne houtcome
  cases houtcome with
  | refused safe joinable => simp [Build.of, joinable, Status.ok, Status.Err]
  | dropped drops joinable fails => simp [Build.of, joinable, fails]
  | crashed => simp [Build.of]
  | built => exact absurd rfl hne

/-- So no id has one while the process goes on. -/
theorem no_context {role : Role} [DecidableEq ι] {as : List (Action ι)} {s : State ι}
    (h : run (step role registerMemoryRegion) {} as = some s) :
    s.ended = true ∨ ∀ id, s.idContext id = none := by
  refine run_invariant (I := fun s => s.ended = true ∨ ∀ id, s.idContext id = none) ?_
    (.inr fun _ => rfl) h
  intro s a t hs hstep
  obtain ⟨hended, heffect⟩ := step_effect hstep
  have hnone : ∀ id, s.idContext id = none := hs.resolve_left (by simp [hended])
  have hfewer : Fewer s t → ∀ id, t.idContext id = none := by
    intro ids id
    cases hid : t.idContext id with
    | none => rfl
    | some address =>
      have hold := ids id address hid
      rw [hnone id] at hold
      cases hold
  cases heffect with
  | quiet _ _ _ _ _ ids => exact .inr (hfewer ids)
  | polled _ _ _ _ _ _ ids => exact .inr (hfewer ids)
  | refused _ _ _ _ _ _ ids => exact .inr (hfewer ids)
  | built _ _ _ _ _ _ _ returns =>
    rcases returns with hend | ⟨calls, hok⟩
    · exact .inl hend
    · exact absurd hok (buildContext_ne_ok calls)
  | dropped _ _ _ ended => exact .inl ended
  | @deleted _ id address id_context _ =>
    rw [hnone id] at id_context
    cases id_context

/-- The client has resolved its address, or the server is requested to connect, and the registration
fails. -/
def Fails (role : Role) : Action ι → Prop
  | .event _ (.addrResolved calls _) => role = .client ∧ RegistrationFails calls
  | .event _ (.connectRequest calls _) => role = .server ∧ RegistrationFails calls
  | _ => False

theorem Fails.endangers {role : Role} {a : Action ι} (h : Fails role a) (s : State ι) :
    Endangers role registerMemoryRegion s a := by
  cases a with
  | event id e =>
    cases e with
    | addrResolved calls resolveRoute => exact ⟨h.1, (drops_registerMemoryRegion calls).2 h.2⟩
    | connectRequest calls accept => exact ⟨h.1, (drops_registerMemoryRegion calls).2 h.2⟩
    | routeResolved connect => exact h.elim
    | established sendMr => exact h.elim
    | disconnected => exact h.elim
    | other => exact h.elim
  | connect id => exact h.elim
  | disconnect getCmEvent => exact h.elim
  | poll address x => exact h.elim

theorem Fails.of_endangers {role : Role} {a : Action ι} {s : State ι}
    (hnone : ∀ id, s.idContext id = none) (h : Endangers role registerMemoryRegion s a) :
    Fails role a := by
  cases a with
  | event id e =>
    cases e with
    | addrResolved calls resolveRoute => exact ⟨h.1, (drops_registerMemoryRegion calls).1 h.2⟩
    | connectRequest calls accept => exact ⟨h.1, (drops_registerMemoryRegion calls).1 h.2⟩
    | routeResolved connect => exact h
    | established sendMr => exact h
    | disconnected => exact absurd (hnone id) h
    | other => exact h
  | connect id => exact h
  | disconnect getCmEvent =>
    obtain ⟨-, id, -, hcontext⟩ := h
    exact absurd (hnone id) hcontext
  | poll address x => exact h

/-- **When the `Context`s outlive their pollers.**  In every run of a client or of a server, whatever
the order of its events, its completions and the failures of the library: no `Context` is destroyed with
a joinable thread, and none is used behind its destruction, exactly when no `BuildContext` of the run
starts a thread whose memory regions are then registered, or not registered with an Ok. -/
theorem safe_iff [DecidableEq ι] (role : Role) {as : List (Action ι)} {t : State ι}
    (h : run (step role registerMemoryRegion) {} as = some t) : Safe t ↔ ∀ a ∈ as, ¬ Fails role a := by
  rw [safe_iff_not_meets role registerMemoryRegion h]
  constructor
  · intro hno a ha hfails
    obtain ⟨front, rest, rfl⟩ := List.append_of_mem ha
    obtain ⟨s, hs, -⟩ := run_split h
    exact hno (.of_run hs (hfails.endangers s))
  · intro hnone hmeets
    obtain ⟨front, a, rest, s, rfl, hs, hdanger⟩ := hmeets.split
    obtain ⟨s', hs', hrest⟩ := run_split h
    rw [hs] at hs'
    cases hs'
    obtain ⟨u, hstep, -⟩ := Option.bind_eq_some_iff.1 hrest
    have hgoes := (step_effect hstep).1
    have hids := (no_context hs).resolve_left (by simp [hgoes])
    exact hnone a (List.mem_append_right _ List.mem_cons_self) (.of_endangers hids hdanger)

/-- A connect request without a protection domain: the `Context` is destroyed before it has a thread. -/
theorem safe_refused :
    ∃ t : State Unit,
      run (step .server registerMemoryRegion) {}
        [.event () (.connectRequest { goodCalls with allocPd := false } 0)] = some t ∧
      (Safe t ↔ ∀ a ∈ [Action.event () (.connectRequest { goodCalls with allocPd := false } 0)],
        ¬ Fails .server a) :=
  ⟨_, rfl, safe_iff .server rfl⟩

/-- A connect request for which every call of the library succeeds: the `Context` is destroyed with its
thread running. -/
theorem not_safe_dropped :
    ∃ t : State Unit,
      run (step .server registerMemoryRegion) {} [.event () (.connectRequest goodCalls 0)] = some t ∧
      t.destroyed.map Context.pollerJoinable = [true] ∧ ¬ Safe t := by
  refine ⟨_, rfl, rfl, ?_⟩
  intro hsafe
  have hjoinable := hsafe.destroyed _ List.mem_cons_self
  cases hjoinable

end Lifetime

end SqpKv
