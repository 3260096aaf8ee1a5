import SqpKv.Rdma.Connection

/-!
# The send buffer of a queue pair

`OnConnection` and the poller write to one `remote_buffer` and post sends from
it.  `OnConnection` sets `connected` before it has posted its own send, so the
poller, which waits for the flag only, may post before it; and nothing holds a
response back until the send before it has completed.  `Clashes` are the steps
where that happens:

* the handler is called while a send is in flight, or while the copy of the
  memory region waits to be posted;
* the poller posts before `OnConnection` has.

Without them the first send is the memory region and no send in flight is
written over (`sendBuffer_stable`).  All of it is behind a `BuildContext` that
returns, and none does (`Build.of_ne_returned`).
-/

namespace SqpKv

open Wire Machine

namespace Endpoint

/-- The first send carries the memory region, and nothing was stored to `remote_buffer` since a send in
flight was posted. -/
structure Stable (mr : Bytes) (s : Endpoint) : Prop where
  first : ∀ send ∈ s.sent.head?, send.bytes = mr
  inFlight : ∀ send ∈ s.inFlight, send.stored = s.remoteBuffer.stored

/-- The poller gets in the way of a send. -/
def Clashes (s : Endpoint) : Action → Prop
  | .handle => s.inFlight ≠ [] ∨ s.phase = .copied
  | .post => s.phase ≠ .posted
  | _ => False

variable {mr : Bytes} {handler : Nat → ReadHandler} {s t : Endpoint} {a : Action}

/-- The invariant of the steps that do not clash: before `OnConnection` has posted nothing is sent,
and between its copy and its post the buffer holds the memory region. -/
structure Ordered (mr : Bytes) (s : Endpoint) : Prop extends Stable mr s where
  unsent : s.phase ≠ .posted → s.sent = [] ∧ s.inFlight = []
  copied : s.phase = .copied → s.remoteBuffer.bytes.take mr.length = mr
  posted : s.phase = .posted → s.sent ≠ []

theorem Ordered.init (mr localBuffer remoteBuffer : Bytes) :
    Ordered mr (init localBuffer remoteBuffer) where
  first := nofun
  inFlight := nofun
  unsent _ := ⟨rfl, rfl⟩
  copied := nofun
  posted := nofun

theorem postSend_inFlight {size : Nat}
    (hs : ∀ send ∈ s.inFlight, send.stored = s.remoteBuffer.stored) :
    ∀ send ∈ (s.postSend size).inFlight, send.stored = s.remoteBuffer.stored := by
  intro send hsend
  rcases List.mem_append.1 hsend with hsend | hsend
  · exact hs send hsend
  · obtain rfl := List.mem_singleton.1 hsend
    rfl

theorem Ordered.step (hs : Ordered mr s) (h : step mr handler s a = some t)
    (hno : ¬ Clashes s a) : Ordered mr t := by
  cases step_cases h with
  | connect hphase =>
    obtain ⟨hsent, hflight⟩ := hs.unsent (by rw [hphase]; nofun)
    exact { hs with unsent := fun _ => ⟨hsent, hflight⟩, copied := nofun, posted := nofun }
  | copyMr hphase =>
    obtain ⟨hsent, hflight⟩ := hs.unsent (by rw [hphase]; nofun)
    refine { hs with inFlight := ?_, unsent := fun _ => ⟨hsent, hflight⟩, copied := ?_, posted := nofun }
    · intro send hsend
      change send ∈ s.inFlight at hsend
      rw [hflight] at hsend
      cases hsend
    · intro _
      exact List.take_left
  | postMr hphase =>
    obtain ⟨hsent, hflight⟩ := hs.unsent (by rw [hphase]; nofun)
    refine ⟨⟨?_, postSend_inFlight hs.inFlight⟩, fun hne => absurd rfl hne, nofun, ?_⟩
    · intro send hsend
      change send ∈ (s.sent ++ [_]).head? at hsend
      rw [hsent] at hsend
      cases hsend
      exact hs.copied hphase
    · intro _
      exact List.append_ne_nil_of_right_ne_nil _ (List.cons_ne_nil _ _)
  | deliver => exact { hs with }
  | @complete send rest hflight =>
    refine { hs with inFlight := ?_, unsent := ?_ }
    · intro send' hsend
      exact hs.inFlight send' (by rw [hflight]; exact List.mem_cons_of_mem _ hsend)
    · intro hphase
      have hnone := (hs.unsent hphase).2
      rw [hflight] at hnone
      cases hnone
  | takeSend => exact { hs with }
  | takeReceive => exact { hs with }
  | handle hreading =>
    obtain ⟨hflight, hphase⟩ := not_or.1 hno
    obtain ⟨out, poller, receives, heq, -⟩ :=
      s.returned_cases (handler s.handled.length s.localBuffer s.remoteBuffer)
    rw [heq]
    refine { hs with inFlight := ?_, copied := fun hcopied => absurd hcopied hphase }
    -- whatever the handler has written, no send is in flight
    intro send hsend
    exact absurd (List.ne_nil_of_mem hsend) hflight
  | @post size hposting hphase =>
    have hposted : s.phase = .posted := Decidable.of_not_not hno
    have hsent := hs.posted hposted
    refine ⟨⟨?_, postSend_inFlight (s := { s with poller := .idle }) hs.inFlight⟩,
      fun hne => absurd hposted hne, fun hcopied => ?_, ?_⟩
    · intro send hsend
      change send ∈ (s.sent ++ [_]).head? at hsend
      rw [List.head?_append_of_ne_nil _ hsent] at hsend
      exact hs.first send hsend
    · change s.phase = .copied at hcopied
      rw [hposted] at hcopied
      cases hcopied
    · intro _
      exact List.append_ne_nil_of_left_ne_nil hsent _

/-- **The send buffer is stable and the memory region goes first**, in the runs where the poller does
not get in the way of a send. -/
theorem sendBuffer_stable (mr : Bytes) (handler : Nat → ReadHandler)
    (localBuffer remoteBuffer : Bytes) (as : List Action)
    (h : run (step mr handler) (init localBuffer remoteBuffer) as = some s)
    (hno : ¬ Meets (step mr handler) Clashes (init localBuffer remoteBuffer) as) :
    Stable mr s := by
  have hordered := run_of_not_meets (fun _ _ _ hs hno ha => Ordered.step hs ha hno)
    (Ordered.init mr localBuffer remoteBuffer) h hno
  exact hordered.toStable

/-- The memory region is sent, its send completes, and the completion is taken. -/
theorem sendBuffer_stable_mrSent :
    Stable [9] { mrSent.postReceive with conn := { mrSent := true }, inFlight := [] } := by
  refine sendBuffer_stable [9] emptyStore _ _ [.connect, .copyMr, .postMr, .complete, .poll] rfl ?_
  rintro (⟨⟨⟩⟩ | ⟨s, ⟨⟩, ⟨⟨⟩⟩ | ⟨s, ⟨⟩, ⟨⟨⟩⟩ | ⟨s, ⟨⟩, ⟨⟨⟩⟩ | ⟨s, ⟨⟩, ⟨⟨⟩⟩ | ⟨s, ⟨⟩, ⟨⟩⟩⟩⟩⟩⟩)

theorem step_handle (mr : Bytes) (handler : Nat → ReadHandler) (hreading : s.poller = .reading) :
    step mr handler s .handle =
      some (s.returned (handler s.handled.length s.localBuffer s.remoteBuffer)) := by
  simp only [step, hreading]
  rfl

/-- A write over a send in flight is one that `Stable` does not allow. -/
theorem handle_breaks (hs : Stable mr s) (h : step mr handler s .handle = some t)
    (hflight : s.inFlight ≠ []) {statusOr : StatusOr Nat} {out : Block}
    (hcall : handler s.handled.length s.localBuffer s.remoteBuffer = .ok (statusOr, out))
    (hout : out.stored ≠ s.remoteBuffer.stored) : ¬ Stable mr t := by
  intro ht
  cases step_cases h with
  | handle hreading =>
    obtain ⟨out', poller, receives, heq, -, -, hout'⟩ :=
      s.returned_cases (handler s.handled.length s.localBuffer s.remoteBuffer)
    rw [hcall] at heq ht
    rw [heq] at ht
    obtain rfl := hout' _ _ hcall
    obtain ⟨send, hsend⟩ := List.exists_mem_of_ne_nil _ hflight
    have hbefore := hs.inFlight send hsend
    have hafter : send.stored = out'.stored := ht.inFlight send hsend
    exact hout (hafter.symm.trans hbefore)

end Endpoint

/-! ## The handlers of the servers -/

/-- Every response is stored to `remote_buffer`. -/
theorem KvRequestHandler.stores {db : Rocks} {inBuffer : Bytes} {b out : Block}
    {statusOr : StatusOr Nat} (hbuf : b.bytes.length < 2 ^ 32)
    (h : KvRequestHandler.handleReadCompletion db inBuffer b = .ok (statusOr, out)) :
    out.stored ≠ b.stored := by
  obtain ⟨packet, r, -, -, -, -, rfl⟩ := KvRequestHandler.handleReadCompletion_eq_ok hbuf h
  have hlen := r.encoding_length
  intro hsame
  have hlength := congrArg List.length hsame
  simp only [Block.overwrite, List.length_append, List.length_range] at hlength
  omega

namespace Endpoint

/-- With `KvRequestHandler` every response that is built while a send is in flight is written over it. -/
theorem kvRequestHandler_breaks {db : Nat → Rocks} {statusOr : StatusOr Nat} {out : Block}
    (hs : Stable mr s)
    (h : step mr (fun n => KvRequestHandler.handleReadCompletion (db n)) s .handle = some t)
    (hbuf : s.remoteBuffer.bytes.length < 2 ^ 32) (hflight : s.inFlight ≠ [])
    (hcall : KvRequestHandler.handleReadCompletion (db s.handled.length) s.localBuffer
      s.remoteBuffer = .ok (statusOr, out)) : ¬ Stable mr t :=
  handle_breaks hs h hflight hcall (KvRequestHandler.stores hbuf hcall)

/-- A message that comes while the poller waits, and is answered. -/
theorem run_message (mr : Bytes) (handler : Nat → ReadHandler) {message : Bytes} {size : Nat}
    {out : Block} (hidle : s.poller = .idle) (hqueue : s.completions = []) (hreceives : 0 < s.receives)
    (hroom : message.length ≤ kMaxBufferSize)
    (hcall : handler (s.handled.length + 1) (message ++ s.localBuffer.drop message.length)
      s.remoteBuffer = .ok (.ofPtr (some (size + 1)), out)) :
    ∃ t, run (step mr handler) s [.deliver message, .poll, .handle] = some t ∧
      t.remoteBuffer = out ∧ t.poller = .posting (size + 1) ∧ t.phase = s.phase ∧
      t.sent = s.sent ∧ t.inFlight = s.inFlight := by
  let arrived : Endpoint := { s with
    receives := s.receives - 1
    localBuffer := message ++ s.localBuffer.drop message.length
    completions := s.completions ++ [.recv message] }
  let taken := arrived.takeReceive mr.length message []
  have hdeliver : step mr handler s (.deliver message) = some arrived := by
    simp [step, hidle, hreceives, hroom, arrived]
  have hpoll : step mr handler arrived .poll = some taken := by
    simp [step, hidle, hqueue, arrived, taken]
  have hhandle := step_handle mr handler (s := taken) rfl
  have hlength : taken.handled.length = s.handled.length + 1 := List.length_append
  rw [hlength, show taken.localBuffer = message ++ s.localBuffer.drop message.length from rfl,
    show taken.remoteBuffer = s.remoteBuffer from rfl, hcall] at hhandle
  refine ⟨{ taken with remoteBuffer := out, poller := .posting (size + 1) }, ?_,
    rfl, rfl, rfl, rfl, rfl⟩
  exact Option.bind_eq_some_iff.2 ⟨_, hdeliver, Option.bind_eq_some_iff.2 ⟨_, hpoll,
    Option.bind_eq_some_iff.2 ⟨_, hhandle, rfl⟩⟩⟩

/-- The poller posts a response when `OnConnection` has only set `connected`. -/
theorem run_connect_post (mr : Bytes) (handler : Nat → ReadHandler) {size : Nat}
    (hposting : s.poller = .posting size) (hphase : s.phase = .waiting) :
    run (step mr handler) s [.connect, .post] =
      some ({ s with phase := .connected, poller := .idle }.postSend size).postReceive := by
  have hconnect : step mr handler s .connect = some { s with phase := .connected } := by
    simp [step, hposting, hphase]
  have hpost : step mr handler { s with phase := .connected } .post =
      some ({ s with phase := .connected, poller := .idle }.postSend size).postReceive := by
    simp [step, hposting]
  rw [run, hconnect, Option.bind_some, run, hpost]
  rfl

/-- A Put of "v" under "k". -/
def putMessage : Bytes := (Command.put [107] [118]).encoding

theorem putMessage_response (tail : Bytes) {b : Block} (hb : b.bytes.length = kMaxBufferSize) :
    KvRequestHandler.handleReadCompletion (.ofStore [] ∅) (putMessage ++ tail) b =
      .ok (.ofPtr (some (11 + 1)), b.overwrite (Response.put .Ok).encoding) :=
  KvRequestHandler.handleReadCompletion_encoding (.ofStore [] ∅) (.put [107] [118]) tail b
    (by decide) (by decide) (by rw [hb]; exact Nat.le_trans (by decide) (show 64 ≤ _ by decide))

/-- A request that comes before `OnConnection`: its response is the first send. -/
theorem putMessage_first :
    ∃ s, run (step [9] emptyStore) fresh
      [.deliver putMessage, .poll, .handle, .connect, .post] = some s ∧ ¬ Stable [9] s := by
  obtain ⟨s, hrun, hbuffer, hposting, hphase, hsent, -⟩ := run_message [9] emptyStore (s := fresh)
    rfl rfl Nat.zero_lt_one (by decide) (putMessage_response _ freshBuffer_length)
  have hall := run_append hrun (run_connect_post [9] emptyStore hposting hphase)
  refine ⟨_, hall, fun hstable => ?_⟩
  have hfirst : s.remoteBuffer.bytes.take (11 + 1) = [9] :=
    hstable.first ⟨_, s.remoteBuffer.stored⟩ (by
      show _ ∈ (s.sent ++ [_]).head?
      rw [hsent]
      rfl)
  rw [hbuffer, Block.overwrite, List.take_left' (by decide)] at hfirst
  exact absurd hfirst (by decide)

/-- A request that comes while the memory region is in flight: its response is written over it. -/
theorem putMessage_over :
    ∃ s, run (step [9] emptyStore) fresh
      [.connect, .copyMr, .postMr, .deliver putMessage, .poll, .handle] = some s ∧
        ¬ Stable [9] s := by
  have hlength : mrSent.remoteBuffer.bytes.length = kMaxBufferSize := by
    have hfresh := freshBuffer_length
    show ([9] ++ freshBuffer.bytes.drop 1).length = _
    rw [List.length_append, List.length_drop, hfresh]
    decide
  obtain ⟨s, hrun, hbuffer, -, -, -, hflight⟩ := run_message [9] emptyStore (s := mrSent)
    rfl rfl Nat.zero_lt_one (by decide) (putMessage_response _ hlength)
  have hall := run_append run_onConnection hrun
  refine ⟨s, hall, fun hstable => ?_⟩
  have hsame := hstable.inFlight ⟨_, [0]⟩ (by
    rw [hflight]
    exact List.mem_singleton.2 rfl)
  rw [hbuffer] at hsame
  exact absurd hsame (by decide)

theorem putMessage_not_stable :
    (∃ s, run (step [9] emptyStore) fresh
      [.deliver putMessage, .poll, .handle, .connect, .post] = some s ∧ ¬ Stable [9] s) ∧
    ∃ s, run (step [9] emptyStore) fresh
      [.connect, .copyMr, .postMr, .deliver putMessage, .poll, .handle] = some s ∧
        ¬ Stable [9] s :=
  ⟨putMessage_first, putMessage_over⟩

end Endpoint

end SqpKv
