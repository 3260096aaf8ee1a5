import SqpKv.Protocol.Status
import SqpKv.Lib.Machine

/-!
# The poller of a `Context` (src/rdma/rdma_connection.h, rdma_connection.cc)

`BuildContext` creates the completion queue of a `Context` and starts a thread
that runs `PollCompletionQueue` on it.  The pointer of that loop is also its
output: `ibv_get_cq_event` stores there the `cq_context` that the queue was
created with.  `BuildContext` gives `nullptr`, so that the pointer is

    the Context, at the head of the first iteration,     nullptr, at the head of every later one

and the loop waits on the channel of its Context as long as no second iteration
begins (`poll_waits_iff`).  The Context is taken to outlive the loop; `BuildContext`
destroys it, or ends in a fault, as soon as it has started the thread
(`Build.of_ne_returned`).
-/

namespace SqpKv

open Wire Machine

/-! ## `BuildContext` -/

/-- A `Context *`; `none` is `nullptr`. -/
abbrev ContextPtr := Option Nat

/-- What `ibv_create_cq` was given: the `cq_context`, and the channel of the events. -/
structure CompletionQueue where
  cqContext : ContextPtr
  channel : Nat
deriving DecidableEq

/-- The members of a `Context` that its poller uses, and whether `cq_poller_thread` is joinable.  A
new one is zeroed, and its thread is not. -/
structure Context where
  completionChannel : Option Nat := none
  completionQueue : Option CompletionQueue := none
  pollerJoinable : Bool := false
deriving DecidableEq

/-- What the library gives `BuildContext`: whether a pointer is not null, or what the call returned.
`registerEnd` is the status `RegisterMemoryRegion` leaves where it ends without a `return`. -/
structure VerbsCalls where
  allocPd : Bool
  createCompChannel : Option Nat
  createCq : Bool
  reqNotifyCq : Int
  createQp : Bool
  regLocalMr : Bool
  regRemoteMr : Bool
  registerEnd : Status
  postRecv : Int
  errorText : Bytes

/-- `RegisterMemoryRegion`: a pointer that is not null is non-zero. -/
def registerMemoryRegion (calls : VerbsCalls) : Status :=
  if calls.regLocalMr then .Err calls.errorText
  else if calls.regRemoteMr then .Err calls.errorText
  else calls.registerEnd

/-- The first `PostReceive`: it reads `rdma_local_mr->lkey`. -/
def firstPostReceive (calls : VerbsCalls) : Except Fault Status :=
  if !calls.regLocalMr then .error .nullPointer
  else if calls.postRecv ≠ 0 then .ok (.Err calls.errorText)
  else .ok .Ok

/-- `BuildContext`, whose call of `RegisterMemoryRegion` returns `register calls`: the `Context` as it
is left, and the status. -/
def buildContext (register : VerbsCalls → Status) (calls : VerbsCalls) :
    Context × Except Fault Status :=
  let context : Context := {}
  let failed := .ok (.Err calls.errorText)
  if !calls.allocPd then (context, failed)
  else
    match calls.createCompChannel with
    | none => (context, failed)
    | some channel =>
      let context := { context with completionChannel := some channel }
      if !calls.createCq then (context, failed)
      else
        -- the `cq_context` is `nullptr`
        let context := { context with completionQueue := some ⟨none, channel⟩ }
        if calls.reqNotifyCq ≠ 0 then (context, failed)
        else if !calls.createQp then (context, failed)
        else
          let context := { context with pollerJoinable := true }
          let status := register calls
          if !status.ok then (context, .ok status) else (context, firstPostReceive calls)

/-- The calls up to the start of the thread succeed. -/
structure VerbsCalls.StartsPoller (calls : VerbsCalls) : Prop where
  allocPd : calls.allocPd = true
  createCompChannel : calls.createCompChannel.isSome
  createCq : calls.createCq = true
  reqNotifyCq : calls.reqNotifyCq = 0
  createQp : calls.createQp = true

variable (register : VerbsCalls → Status) {calls : VerbsCalls}

/-- `BuildContext` from the start of the thread on. -/
theorem buildContext_started (h : calls.StartsPoller) :
    ∃ channel, buildContext register calls =
      (⟨some channel, some ⟨none, channel⟩, true⟩,
        if (register calls).ok then firstPostReceive calls else .ok (register calls)) := by
  obtain ⟨channel, hchannel⟩ := Option.isSome_iff_exists.1 h.createCompChannel
  refine ⟨channel, ?_⟩
  simp only [buildContext, h.allocPd, hchannel, h.createCq, h.reqNotifyCq, h.createQp]
  cases (register calls).ok with
  | true => rfl
  | false => rfl

/-- Before, it returns an error, and there is no thread. -/
theorem buildContext_not_started (h : ¬ calls.StartsPoller) :
    (buildContext register calls).1.pollerJoinable = false ∧
      (buildContext register calls).2 = .ok (.Err calls.errorText) := by
  unfold buildContext
  dsimp only
  split
  · exact ⟨rfl, rfl⟩
  · next hpd =>
    split
    · exact ⟨rfl, rfl⟩
    · next channel hchannel =>
      split
      · exact ⟨rfl, rfl⟩
      · next hcq =>
        split
        · exact ⟨rfl, rfl⟩
        · next hnotify =>
          split
          · exact ⟨rfl, rfl⟩
          · next hqp =>
            exfalso
            apply h
            constructor
            · simpa using hpd
            · rw [hchannel]
              rfl
            · simpa using hcq
            · exact not_not.1 hnotify
            · simpa using hqp

/-- How `BuildContext` ends: it returns a `Context`; or an error, before the thread is started; or
behind that, which destroys a `Context` whose thread was not joined, and ends the process. -/
inductive Build
  | returned
  | refused
  | terminated
deriving DecidableEq

def Build.of : Context × Except Fault Status → Build
  | (context, .ok status) =>
    if status.ok then .returned else if context.pollerJoinable then .terminated else .refused
  | (_, .error _) => .terminated

/-! ## `PollCompletionQueue` -/

/-- Where the poller is, with the value of `context`. -/
inductive CqPoller
  | waiting (context : ContextPtr)
  | draining (context : ContextPtr)
  | returned
deriving DecidableEq

/-- What the library gives the poller: an iteration's `ibv_get_cq_event` and `ibv_req_notify_cq`, and
an `ibv_poll_cq` that is not zero, or zero. -/
inductive PollAction
  | event (getCqEvent reqNotifyCq : Int)
  | completion
  | emptied
deriving DecidableEq

namespace CqPoller

/-- One step of the loop; `contexts` are the `Context`s by their addresses. -/
def step (contexts : Nat → Context) : CqPoller → PollAction → Option CqPoller
  | .waiting context, .event getCqEvent reqNotifyCq => do
    -- `nullptr` is no address: the process does not get further
    let queue ← (contexts (← context)).completionQueue
    if getCqEvent ≠ 0 then return .returned
    else
      let context := queue.cqContext
      if reqNotifyCq ≠ 0 then return .returned else return .draining context
  | .draining context, .completion => some (.draining context)
  | .draining context, .emptied => some (.waiting context)
  | _, _ => none

/-- The channel an iteration waits on. -/
def channel (contexts : Nat → Context) : ContextPtr → Except Fault (Option Nat)
  | none => .error .nullPointer
  | some address => .ok (contexts address).completionChannel

/-- An iteration that begins waits on the channel of the `Context` at `own`. -/
def WaitsOn (contexts : Nat → Context) (own : Nat) (p : CqPoller) : Prop :=
  ∀ context, p = .waiting context →
    channel contexts context = .ok (contexts own).completionChannel

/-- The steps of the loop. -/
inductive Moves (contexts : Nat → Context) : CqPoller → PollAction → CqPoller → Prop
  | stopped {address : Nat} {getCqEvent reqNotifyCq : Int} :
      getCqEvent ≠ 0 ∨ reqNotifyCq ≠ 0 →
      Moves contexts (.waiting (some address)) (.event getCqEvent reqNotifyCq) .returned
  | woken {address : Nat} {queue : CompletionQueue} :
      (contexts address).completionQueue = some queue →
      Moves contexts (.waiting (some address)) (.event 0 0) (.draining queue.cqContext)
  | handled {context : ContextPtr} : Moves contexts (.draining context) .completion (.draining context)
  | emptied {context : ContextPtr} : Moves contexts (.draining context) .emptied (.waiting context)

theorem step_cases {contexts : Nat → Context} {p t : CqPoller} {a : PollAction}
    (h : p.step contexts a = some t) : Moves contexts p a t := by
  cases p with
  | waiting context =>
    cases a with
    | event getCqEvent reqNotifyCq =>
      obtain ⟨address, rfl, h⟩ := Option.bind_eq_some_iff.1 h
      obtain ⟨queue, hqueue, h⟩ := Option.bind_eq_some_iff.1 h
      split at h
      · next hevent =>
        cases h
        exact .stopped (.inl hevent)
      · next hevent =>
        split at h
        · next hnotify =>
          cases h
          exact .stopped (.inr hnotify)
        · next hnotify =>
          cases h
          obtain rfl := not_not.1 hevent
          obtain rfl := not_not.1 hnotify
          exact .woken hqueue
    | completion => cases h
    | emptied => cases h
  | draining context =>
    cases a with
    | event getCqEvent reqNotifyCq => cases h
    | completion =>
      cases h
      exact .handled
    | emptied =>
      cases h
      exact .emptied
  | returned => cases h

/-- The pointer of the poller that was started with `own`, whose queue has the `cq_context` `q`: at
first `own`, and `q` since the first event. -/
structure Follows (own : Nat) (q : ContextPtr) (p : CqPoller) : Prop where
  waiting : ∀ context, p = .waiting context → context = some own ∨ context = q
  draining : ∀ context, p = .draining context → context = q

theorem Follows.start (own : Nat) (q : ContextPtr) : Follows own q (.waiting (some own)) where
  waiting context h := by
    cases h
    exact .inl rfl
  draining context h := by cases h

/-- The pointer follows when the queue has no `cq_context`, or that of its own `Context`. -/
theorem Follows.step {contexts : Nat → Context} {own : Nat} {queue : CompletionQueue}
    (hown : (contexts own).completionQueue = some queue)
    (hq : queue.cqContext = none ∨ queue.cqContext = some own) {p t : CqPoller} {a : PollAction}
    (hp : Follows own queue.cqContext p) (h : p.step contexts a = some t) :
    Follows own queue.cqContext t := by
  cases step_cases h with
  | stopped => constructor <;> (intro c hc; cases hc)
  | @woken address queue' hqueue =>
    -- the pointer is not null, so it is that of the own `Context`
    have haddress : address = own := by
      rcases hp.waiting _ rfl with hfirst | hlater
      · exact Option.some.inj hfirst
      · rcases hq with hnull | hsame
        · rw [hnull] at hlater
          cases hlater
        · rw [hsame] at hlater
          exact Option.some.inj hlater
    rw [haddress, hown] at hqueue
    cases hqueue
    constructor
    · intro c hc
      cases hc
    · intro c hc
      cases hc
      rfl
  | handled => exact hp
  | @emptied context =>
    constructor
    · intro c hc
      cases hc
      exact .inr (hp.draining _ rfl)
    · intro c hc
      cases hc

theorem Follows.run {contexts : Nat → Context} {own : Nat} {queue : CompletionQueue}
    (hown : (contexts own).completionQueue = some queue)
    (hq : queue.cqContext = none ∨ queue.cqContext = some own) {p : CqPoller}
    {actions : List PollAction}
    (h : Machine.run (CqPoller.step contexts) (.waiting (some own)) actions = some p) :
    Follows own queue.cqContext p :=
  run_invariant (I := Follows own queue.cqContext) (fun _ _ _ hp hstep => hp.step hown hq hstep)
    (.start own _) h

/-- A queue created with its `Context` is waited on in every iteration. -/
theorem waitsOn_of_own {contexts : Nat → Context} {own : Nat} {queue : CompletionQueue}
    (hown : (contexts own).completionQueue = some queue) (hq : queue.cqContext = some own)
    {p : CqPoller} {actions : List PollAction}
    (h : Machine.run (CqPoller.step contexts) (.waiting (some own)) actions = some p) :
    p.WaitsOn contexts own := by
  intro context hp
  have hfollows := Follows.run hown (.inr hq) h
  have hcontext : context = some own := by
    rcases hfollows.waiting context hp with hfirst | hlater
    · exact hfirst
    · rw [hlater, hq]
  rw [hcontext]
  rfl

/-- The head of an iteration has the pointer the loop was started with. -/
def First (own : Nat) (p : CqPoller) : Prop := ∀ context, p = .waiting context → context = some own

/-- The head of an iteration is the first one's where no iteration ends. -/
theorem run_waiting {contexts : Nat → Context} {own : Nat} {actions : List PollAction}
    {context : ContextPtr} (hno : PollAction.emptied ∉ actions)
    (h : Machine.run (CqPoller.step contexts) (.waiting (some own)) actions = some (.waiting context)) :
    context = some own := by
  have hmeets :
      ¬ Meets (CqPoller.step contexts) (fun _ a => a = .emptied) (.waiting (some own)) actions := by
    intro hmeets
    obtain ⟨front, a, rest, -, rfl, -, rfl⟩ := hmeets.split
    exact hno (List.mem_append_right _ List.mem_cons_self)
  have hfirst : First own (.waiting context) := by
    refine run_of_not_meets ?_ ?_ h hmeets
    · intro p a t _ ha hstep c ht
      rw [ht] at hstep
      -- an iteration begins with the end of the one before
      cases step_cases hstep with
      | emptied => exact absurd rfl ha
    · intro c hc
      cases hc
      rfl
  exact hfirst context rfl

/-- An `ibv_poll_cq` that finds the queue empty begins an iteration with the `cq_context`. -/
theorem run_emptied {contexts : Nat → Context} {own : Nat} {queue : CompletionQueue}
    (hown : (contexts own).completionQueue = some queue) (hq : queue.cqContext = none)
    {front : List PollAction} {p : CqPoller}
    (h : Machine.run (CqPoller.step contexts) (.waiting (some own)) (front ++ [.emptied]) = some p) :
    p = .waiting none := by
  obtain ⟨u, hu, h⟩ := run_split h
  have hstep : u.step contexts .emptied = some p := by
    obtain ⟨v, hv, h⟩ := Option.bind_eq_some_iff.1 h
    cases h
    exact hv
  cases step_cases hstep with
  | emptied => rw [(Follows.run hown (.inl hq) hu).draining _ rfl, hq]

end CqPoller

open CqPoller

/-- **When the poller survives.**  Whatever `Context` is built and whatever its events and completions
are: every iteration waits on the channel of that `Context` exactly when the queue is never found
empty, so that no second iteration begins. -/
theorem poll_waits_iff {contexts : Nat → Context} {own : Nat} {calls : VerbsCalls}
    (hstarts : calls.StartsPoller)
    (hown : contexts own = (buildContext registerMemoryRegion calls).1) {actions : List PollAction}
    {t : CqPoller}
    (hrun : Machine.run (CqPoller.step contexts) (.waiting (some own)) actions = some t) :
    (∀ front rest p, actions = front ++ rest →
      Machine.run (CqPoller.step contexts) (.waiting (some own)) front = some p →
      p.WaitsOn contexts own) ↔ .emptied ∉ actions := by
  obtain ⟨channel, hbuilt⟩ := buildContext_started registerMemoryRegion hstarts
  have hqueue : (contexts own).completionQueue = some ⟨none, channel⟩ := by rw [hown, hbuilt]
  constructor
  · intro hall hmem
    obtain ⟨front, rest, rfl⟩ := List.append_of_mem hmem
    have hsplit : front ++ .emptied :: rest = (front ++ [.emptied]) ++ rest := by simp
    rw [hsplit] at hrun
    obtain ⟨p, hp, -⟩ := run_split hrun
    have hwaits := hall (front ++ [.emptied]) rest p hsplit hp
    rw [run_emptied hqueue rfl hp] at hwaits
    have hnull := hwaits none rfl
    cases hnull
  · intro hno front rest p hsplit hp context hcontext
    subst hsplit
    subst hcontext
    rw [run_waiting (fun hmem => hno (List.mem_append_left _ hmem)) hp]
    rfl

/-- A device on which every call succeeds. -/
def goodCalls : VerbsCalls where
  allocPd := true
  createCompChannel := some 7
  createCq := true
  reqNotifyCq := 0
  createQp := true
  regLocalMr := true
  regRemoteMr := true
  registerEnd := .Ok
  postRecv := 0
  errorText := []

theorem goodCalls_startsPoller : goodCalls.StartsPoller := ⟨rfl, rfl, rfl, rfl, rfl⟩

/-- The first event, and a completion. -/
theorem poll_waits_first :
    (∀ front rest p, [PollAction.event 0 0, .completion] = front ++ rest →
      Machine.run (CqPoller.step fun _ => (buildContext registerMemoryRegion goodCalls).1)
        (.waiting (some 0)) front = some p →
      p.WaitsOn (fun _ => (buildContext registerMemoryRegion goodCalls).1) 0) ↔
      .emptied ∉ [PollAction.event 0 0, .completion] :=
  poll_waits_iff goodCalls_startsPoller rfl (t := .draining none) rfl

/-- After one event with one completion the pointer is null. -/
theorem poll_waits_second :
    let contexts := fun _ => (buildContext registerMemoryRegion goodCalls).1
    Machine.run (CqPoller.step contexts) (.waiting (some 0)) [.event 0 0, .completion, .emptied] =
        some (.waiting none) ∧
      ¬ (CqPoller.waiting none).WaitsOn contexts 0 := by
  refine ⟨rfl, ?_⟩
  intro hwaits
  have hnull := hwaits none rfl
  cases hnull

end SqpKv
