import Mathlib.Data.List.Forall2
import SqpKv.Rdma.Connection

/-!
# The messages of a queue pair

A message needs `local_buffer` from its arrival until the handler is done with
it, and a posted receive may take the buffer at any time.  So the two are
counted together:

    claims  =  receives posted + messages unread + messages in handling

A `BuildContext` that returns (none does, `Build.of_ne_returned`) makes it 1, and
the arrival and the handling of a message keep it (`claims_le`).
`OnWorkCompletion` posts a receive for a completed send too, which took none:
`Overposts` is that step.  Without it there is one receive, a
message is intact when it is handled (`oneReceive_of_run`), and each message is
passed to the handler once and in order (`messages_handled`), among them the
first, which is the peer's memory region (`messages_keptApart_iff`).
-/

namespace SqpKv

open Wire Machine

def Completion.message? : Completion → Option Bytes
  | .recv message => some message
  | .send => none

namespace Endpoint

/-- The messages that arrived and whose completions are in the queue. -/
def unread (s : Endpoint) : List Bytes := s.completions.filterMap Completion.message?

/-- The message the handler is reading. -/
def reading (s : Endpoint) : List Bytes :=
  if s.poller = .reading then s.received.getLast?.toList else []

/-- At most one receive is posted, none while the handler reads, and the messages that are not
handled are in `local_buffer`. -/
structure OneReceive (s : Endpoint) : Prop where
  outstanding : s.receives ≤ 1
  exclusive : s.poller = .reading → s.receives = 0
  intact : ∀ m ∈ s.unread ++ s.reading, m <+: s.localBuffer

/-- What needs `local_buffer`. -/
def claims (s : Endpoint) : Nat := s.receives + s.unread.length + s.poller.busy

/-- The completion of a send is taken while a receive is posted or a message unread. -/
def Overposts (s : Endpoint) (a : Action) : Prop :=
  a = .poll ∧ s.poller = .idle ∧ (∃ rest, s.completions = .send :: rest) ∧ 1 ≤ s.claims

variable {mr : Bytes} {handler : Nat → ReadHandler} {s t : Endpoint} {a : Action}

/-! ## One receive -/

theorem unread_recv (message : Bytes) (rest : List Completion) :
    (Completion.recv message :: rest).filterMap Completion.message? =
      message :: rest.filterMap Completion.message? := rfl

theorem unread_send (rest : List Completion) :
    (Completion.send :: rest).filterMap Completion.message? =
      rest.filterMap Completion.message? := rfl

/-- A step that does not overpost keeps what needs the buffer. -/
theorem claims_le (h : step mr handler s a = some t) (hbad : ¬ Overposts s a) (hs : s.claims ≤ 1) :
    t.claims ≤ 1 := by
  unfold claims unread at *
  cases step_cases h with
  | connect => exact hs
  | copyMr => exact hs
  | postMr => exact hs
  | deliver message hroom =>
    show s.receives - 1 + ((s.completions ++ [Completion.recv message]).filterMap _).length + _ ≤ 1
    rw [List.filterMap_append, List.length_append]
    show s.receives - 1 + (_ + 1) + s.poller.busy ≤ 1
    omega
  | complete =>
    show s.receives + ((s.completions ++ [Completion.send]).filterMap _).length + _ ≤ 1
    rw [List.filterMap_append, List.length_append]
    exact hs
  | @takeSend rest hidle hqueue =>
    have hnone : ¬ 1 ≤ s.claims := fun hclaims => hbad ⟨rfl, hidle, ⟨rest, hqueue⟩, hclaims⟩
    unfold claims unread at hnone
    rw [hqueue, unread_send] at hnone
    show s.receives + 1 + (rest.filterMap _).length + s.poller.busy ≤ 1
    omega
  | @takeReceive message rest hidle hqueue =>
    rw [hqueue, unread_recv, List.length_cons] at hs
    show s.receives + (rest.filterMap _).length + 1 ≤ 1
    omega
  | handle hreading =>
    obtain ⟨out, poller, receives, heq, -, hposted, -⟩ :=
      s.returned_cases (handler s.handled.length s.localBuffer s.remoteBuffer)
    rw [heq]
    rw [hreading] at hs
    show receives + (s.completions.filterMap _).length + poller.busy ≤ 1
    change s.receives + _ + 1 ≤ 1 at hs
    omega
  | @post size hposting _ =>
    rw [hposting] at hs
    change s.receives + _ + 1 ≤ 1 at hs
    show s.receives + 1 + (s.completions.filterMap _).length + 0 ≤ 1
    omega

/-- The invariant of the steps that do not overpost: the buffer is needed once, and holds the message
that needs it; `handled` are the messages received, and `peer_mr` is from the first. -/
structure Kept (mrSize : Nat) (s : Endpoint) : Prop where
  single : s.claims ≤ 1
  unread : ∀ m ∈ s.unread, m <+: s.localBuffer
  reading : s.poller = .reading → ∃ l m, s.received = l ++ [m] ∧ m <+: s.localBuffer
  passed : List.Forall₂ (· <+: ·) s.received s.handled
  flag : s.conn.mrReceived = !s.received.isEmpty
  stored : ∀ first ∈ s.received.head?, ∃ b, first <+: b ∧ s.peerMr = some (b.take mrSize)

theorem Kept.init (mrSize : Nat) (localBuffer remoteBuffer : Bytes) :
    Kept mrSize (init localBuffer remoteBuffer) where
  single := Nat.le_refl 1
  unread := nofun
  reading := nofun
  passed := .nil
  flag := rfl
  stored := nofun

theorem Kept.oneReceive {mrSize : Nat} (hs : Kept mrSize s) : OneReceive s := by
  have hsingle := hs.single
  unfold claims at hsingle
  refine ⟨by omega, ?_, ?_⟩
  · intro hreading
    rw [hreading] at hsingle
    change _ + _ + 1 ≤ 1 at hsingle
    omega
  · intro m hm
    rcases List.mem_append.1 hm with hm | hm
    · exact hs.unread m hm
    · unfold Endpoint.reading at hm
      split at hm
      · next hreading =>
        obtain ⟨l, last, hreceived, hlast⟩ := hs.reading hreading
        rw [hreceived, List.getLast?_concat] at hm
        obtain rfl : m = last := by simpa using hm
        exact hlast
      · cases hm

/-- The message taken is intact, is passed to the handler, and the first is stored. -/
theorem Kept.takeReceive {message : Bytes} {rest : List Completion} {mrSize : Nat} (hs : Kept mrSize s)
    (hclaims : (s.takeReceive mrSize message rest).claims ≤ 1)
    (hqueue : s.completions = .recv message :: rest) : Kept mrSize (s.takeReceive mrSize message rest) := by
  have hmem : ∀ m ∈ message :: rest.filterMap Completion.message?, m <+: s.localBuffer := by
    intro m hm
    apply hs.unread
    unfold Endpoint.unread
    rw [hqueue, unread_recv]
    exact hm
  have hmessage := hmem message List.mem_cons_self
  refine ⟨hclaims, fun m hm => hmem m (List.mem_cons_of_mem _ hm), ?_, ?_, ?_, ?_⟩
  · intro _
    exact ⟨s.received, message, rfl, hmessage⟩
  · exact List.rel_append hs.passed (.cons hmessage .nil)
  · show (s.conn.receive mrSize s.localBuffer s.peerMr).1.mrReceived = !(s.received ++ [message]).isEmpty
    unfold RDMAConnection.receive
    split
    · next hflag => simp [hflag]
    · simp
  · show ∀ first ∈ (s.received ++ [message]).head?, ∃ b, first <+: b ∧
      (s.conn.receive mrSize s.localBuffer s.peerMr).2 = some (b.take mrSize)
    unfold RDMAConnection.receive
    rw [hs.flag]
    cases hreceived : s.received with
    | nil =>
      rintro first ⟨⟩
      exact ⟨s.localBuffer, hmessage, rfl⟩
    | cons m ms =>
      rintro first ⟨⟩
      exact hs.stored m (by rw [hreceived]; rfl)

theorem Kept.step (hs : Kept mr.length s) (h : step mr handler s a = some t) (hbad : ¬ Overposts s a) :
    Kept mr.length t := by
  have hclaims := claims_le h hbad hs.single
  cases step_cases h with
  | connect => exact { hs with single := hclaims }
  | copyMr => exact { hs with single := hclaims }
  | postMr => exact { hs with single := hclaims }
  | deliver message hroom =>
    -- the receive was the only claim: no message is unread, none is read
    have hsingle := hs.single
    unfold claims at hsingle
    have hnone : s.completions.filterMap Completion.message? = [] :=
      List.length_eq_zero_iff.1 (show s.unread.length = 0 by omega)
    refine { hs with single := hclaims, unread := ?_, reading := ?_ }
    · intro m hm
      change m ∈ (s.completions ++ [Completion.recv message]).filterMap _ at hm
      rw [List.filterMap_append, hnone, List.nil_append, unread_recv] at hm
      obtain rfl : m = message := by simpa using hm
      exact List.prefix_append _ _
    · intro hreading
      change s.poller = .reading at hreading
      rw [hreading] at hsingle
      change _ + _ + 1 ≤ 1 at hsingle
      omega
  | complete =>
    refine { hs with single := hclaims, unread := ?_ }
    intro m hm
    change m ∈ (s.completions ++ [Completion.send]).filterMap _ at hm
    rw [List.filterMap_append, List.filterMap_cons, List.filterMap_nil, Completion.message?,
      List.append_nil] at hm
    exact hs.unread m hm
  | @takeSend rest hidle hqueue =>
    refine { hs with single := hclaims, unread := ?_, flag := ?_ }
    · intro m hm
      apply hs.unread
      unfold Endpoint.unread
      rw [hqueue, unread_send]
      exact hm
    · show s.conn.send.1.mrReceived = !s.received.isEmpty
      rw [← hs.flag]
      unfold RDMAConnection.send
      split <;> rfl
  | takeReceive hidle hqueue => exact hs.takeReceive hclaims hqueue
  | handle hreading =>
    obtain ⟨out, poller, receives, heq, hdone, -⟩ :=
      s.returned_cases (handler s.handled.length s.localBuffer s.remoteBuffer)
    rw [heq] at hclaims ⊢
    exact { hs with single := hclaims, reading := fun h => absurd h hdone }
  | post => exact { hs with single := hclaims, reading := nofun }

theorem Kept.of_run {localBuffer remoteBuffer : Bytes} {as : List Action}
    (h : run (Endpoint.step mr handler) (Endpoint.init localBuffer remoteBuffer) as = some s)
    (hgood : ¬ Meets (Endpoint.step mr handler) Overposts (Endpoint.init localBuffer remoteBuffer) as) :
    Kept mr.length s :=
  run_of_not_meets (fun _ _ _ hs hbad ha => hs.step ha hbad) (Kept.init _ _ _) h hgood

theorem step_poll_send {rest : List Completion} (hidle : s.poller = .idle)
    (hqueue : s.completions = .send :: rest) : step mr handler s .poll = some (s.takeSend rest) := by
  simp only [step, hidle, hqueue]
  rfl

theorem step_poll_recv {message : Bytes} {rest : List Completion} (hidle : s.poller = .idle)
    (hqueue : s.completions = .recv message :: rest) :
    step mr handler s .poll = some (s.takeReceive mr.length message rest) := by
  simp only [step, hidle, hqueue]
  rfl

/-- After a step that overposts there are two receives, or one and an unread message; then the
handler reads while one is posted. -/
theorem overposts_breaks (h : step mr handler s a = some t) (hbad : Overposts s a) :
    ¬ OneReceive t ∨ ∃ u, step mr handler t .poll = some u ∧ ¬ OneReceive u := by
  obtain ⟨rfl, hidle, ⟨rest, hqueue⟩, hclaims⟩ := hbad
  rw [step_poll_send hidle hqueue] at h
  cases h
  by_cases hnone : s.receives = 0
  · right
    have hunread : 0 < (rest.filterMap Completion.message?).length := by
      unfold claims unread at hclaims
      rw [hqueue, unread_send, hidle, hnone] at hclaims
      change 1 ≤ 0 + _ + 0 at hclaims
      omega
    cases rest with
    | nil => exact absurd hunread (Nat.lt_irrefl 0)
    | cons c rest =>
      cases c with
      | send =>
        refine ⟨_, step_poll_send hidle rfl, fun hone => ?_⟩
        have hle : s.receives + 1 + 1 ≤ 1 := hone.outstanding
        omega
      | recv message =>
        refine ⟨_, step_poll_recv hidle rfl, fun hone => ?_⟩
        have hzero : s.receives + 1 = 0 := hone.exclusive rfl
        omega
  · left
    intro hone
    have hle : s.receives + 1 ≤ 1 := hone.outstanding
    omega

/-- **One receive per buffer**, in the runs that never take the completion of a send while a receive
is posted or a message unread.  A run that does leaves it at that step or with the next completion. -/
theorem oneReceive_of_run (mr : Bytes) (handler : Nat → ReadHandler)
    (localBuffer remoteBuffer : Bytes) (as : List Action)
    (h : run (step mr handler) (init localBuffer remoteBuffer) as = some s) :
    (¬ Meets (step mr handler) Overposts (init localBuffer remoteBuffer) as → OneReceive s) ∧
    (Meets (step mr handler) Overposts (init localBuffer remoteBuffer) as →
      ∃ bs u, bs <+: as ∧ ¬ OneReceive u ∧
        (run (step mr handler) (init localBuffer remoteBuffer) bs = some u ∨
          run (step mr handler) (init localBuffer remoteBuffer) (bs ++ [.poll]) = some u)) := by
  refine ⟨fun hgood => (Kept.of_run h hgood).oneReceive, fun hmeets => ?_⟩
  obtain ⟨bs, a, cs, t, rfl, ht, hbad⟩ := hmeets.split
  obtain ⟨t', ht', h⟩ := run_split h
  rw [ht] at ht'
  cases ht'
  obtain ⟨u, hu, -⟩ := Option.bind_eq_some_iff.1 h
  have hrun : run (step mr handler) (init localBuffer remoteBuffer) (bs ++ [a]) = some u :=
    run_append ht (by rw [run, hu]; rfl)
  have hprefix : bs ++ [a] <+: bs ++ a :: cs := ⟨cs, by simp⟩
  rcases overposts_breaks hu hbad with hnot | ⟨v, hv, hnot⟩
  · exact ⟨bs ++ [a], u, hprefix, hnot, .inl hrun⟩
  · exact ⟨bs ++ [a], v, hprefix, hnot, .inr (run_append hrun (by rw [run, hv]; rfl))⟩

/-- A message is taken and the handler has nothing to send. -/
theorem oneReceive_of_run_message :
    OneReceive { fresh with
      conn := { mrReceived := true }
      localBuffer := [7] ++ freshBuffer.bytes.drop 1
      peerMr := some (([7] ++ freshBuffer.bytes.drop 1 : Bytes).take 1)
      received := [[7]]
      handled := [[7] ++ freshBuffer.bytes.drop 1] } := by
  refine (oneReceive_of_run [9] (fun _ _ out => .ok (.ofPtr (some 0), out))
    _ _ [.deliver [7], .poll, .handle] rfl).1 ?_
  rintro (⟨⟨⟩, -⟩ | ⟨s, ⟨⟩, ⟨-, -, ⟨rest, ⟨⟩⟩, -⟩ | ⟨s, ⟨⟩, ⟨⟨⟩, -⟩ | ⟨s, ⟨⟩, ⟨⟩⟩⟩⟩)

/-- The memory region is sent, and the completion of that send posts a second receive. -/
theorem sendMr_not_oneReceive :
    ∃ s, run (step [9] emptyStore) fresh [.connect, .copyMr, .postMr, .complete, .poll] = some s ∧
      ¬ OneReceive s := by
  refine ⟨_, rfl, fun hone => ?_⟩
  have hle : 2 ≤ 1 := hone.outstanding
  omega

/-! ## The first message -/

/-- The first message is in `peer_mr` and was not passed to the handler; each later one was, once and
in order. -/
def KeptApart (mrSize : Nat) (s : Endpoint) : Prop :=
  (∀ first ∈ s.received.head?, ∃ b, first <+: b ∧ s.peerMr = some (b.take mrSize)) ∧
  List.Forall₂ (· <+: ·) s.received.tail s.handled

/-- The completion of a receive is taken. -/
def TakesMessage (s : Endpoint) (a : Action) : Prop :=
  a = .poll ∧ s.poller = .idle ∧ ∃ message rest, s.completions = .recv message :: rest

/-- Without overposting every message is passed once and in order, and the first is in `peer_mr`. -/
theorem messages_handled {localBuffer remoteBuffer : Bytes} {as : List Action}
    (h : run (step mr handler) (init localBuffer remoteBuffer) as = some s)
    (hgood : ¬ Meets (step mr handler) Overposts (init localBuffer remoteBuffer) as) :
    List.Forall₂ (· <+: ·) s.received s.handled ∧
      ∀ first ∈ s.received.head?, ∃ b, first <+: b ∧ s.peerMr = some (b.take mr.length) :=
  ⟨(Kept.of_run h hgood).passed, (Kept.of_run h hgood).stored⟩

/-- Only `TakesMessage` adds to the two logs, and it adds to both. -/
theorem logs_cases (h : step mr handler s a = some t) :
    (TakesMessage s a ∧ (∃ message, t.received = s.received ++ [message]) ∧
      ∃ buffer, t.handled = s.handled ++ [buffer]) ∨
    (¬ TakesMessage s a ∧ t.received = s.received ∧ t.handled = s.handled) := by
  cases step_cases h with
  | @takeReceive message rest hidle hqueue =>
    exact .inl ⟨⟨rfl, hidle, message, rest, hqueue⟩, ⟨message, rfl⟩, ⟨s.localBuffer, rfl⟩⟩
  | @takeSend rest hidle hqueue =>
    refine .inr ⟨?_, rfl, rfl⟩
    rintro ⟨-, -, message, rest', hqueue'⟩
    rw [hqueue] at hqueue'
    cases hqueue'
  | handle =>
    obtain ⟨out, poller, receives, heq, -⟩ :=
      s.returned_cases (handler s.handled.length s.localBuffer s.remoteBuffer)
    rw [heq]
    exact .inr ⟨nofun, rfl, rfl⟩
  | _ => exact .inr ⟨nofun, rfl, rfl⟩

/-- **The handshake message and the requests are kept apart** as long as no message is taken: the
first one is passed to the handler too. -/
theorem messages_keptApart_iff (mr : Bytes) (handler : Nat → ReadHandler)
    (localBuffer remoteBuffer : Bytes) (as : List Action)
    (h : run (step mr handler) (init localBuffer remoteBuffer) as = some s) :
    KeptApart mr.length s ↔
      ¬ Meets (step mr handler) TakesMessage (init localBuffer remoteBuffer) as := by
  refine run_iff_not_meets (fun s => s.received = [] ∧ s.handled = [])
    (fun s => s.received ≠ [] ∧ s.handled.length = s.received.length) ?_ ?_ ?_ ⟨rfl, rfl⟩ h ?_ ?_
  · intro u a v hu hno ha
    rcases logs_cases ha with ⟨htakes, -⟩ | ⟨-, hreceived, hhandled⟩
    · exact absurd htakes hno
    · rw [hreceived, hhandled]
      exact hu
  · intro u a v hu htakes ha
    rcases logs_cases ha with ⟨-, ⟨message, hreceived⟩, buffer, hhandled⟩ | ⟨hno, -⟩
    · rw [hreceived, hhandled, hu.1, hu.2]
      exact ⟨List.cons_ne_nil _ _, rfl⟩
    · exact absurd htakes hno
  · intro u a v hu ha
    rcases logs_cases ha with ⟨-, ⟨message, hreceived⟩, buffer, hhandled⟩ | ⟨-, hreceived, hhandled⟩
    · rw [hreceived, hhandled, List.length_append, List.length_append, hu.2]
      exact ⟨List.append_ne_nil_of_left_ne_nil hu.1 _, rfl⟩
    · rw [hreceived, hhandled]
      exact hu
  · rintro ⟨hreceived, hhandled⟩
    unfold KeptApart
    rw [hreceived, hhandled]
    exact ⟨nofun, .nil⟩
  · rintro ⟨hsome, hlength⟩ hapart
    -- the handler was called for the first message too
    have htail := hapart.2.length_eq
    have hpos : 0 < s.received.length := List.length_pos_iff.2 hsome
    rw [List.length_tail] at htail
    omega

/-- The memory region is sent and no message has come. -/
theorem messages_keptApart_mrSent : KeptApart 1 mrSent := by
  refine (messages_keptApart_iff [9] emptyStore _ _ [.connect, .copyMr, .postMr]
    run_onConnection).2 ?_
  rintro (⟨⟨⟩, -⟩ | ⟨s, ⟨⟩, ⟨⟨⟩, -⟩ | ⟨s, ⟨⟩, ⟨⟨⟩, -⟩ | ⟨s, ⟨⟩, ⟨⟩⟩⟩⟩)

/-- The peer's memory region comes, and is passed to the handler. -/
theorem firstMessage_not_keptApart :
    ∃ s, run (step [9] emptyStore) fresh [.deliver [8], .poll] = some s ∧ ¬ KeptApart 1 s := by
  refine ⟨_, rfl, fun hapart => ?_⟩
  have hlength : 0 = 1 := hapart.2.length_eq
  omega

end Endpoint

end SqpKv
