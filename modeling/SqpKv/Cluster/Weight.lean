import Mathlib.Algebra.BigOperators.Fin
import SqpKv.Cluster.ByteProxy

/-!
# The weight of a session

How often the pieces of a session have still to be written, carried and read,
each place on their way counting for the places behind it.  A call of a thread
takes some of this weight off, or the thread turns to something new: the worker
has a command (`KvLoop.workerStep_weight`), the client a response
(`ClientLoop.step_weight`), the proxy goes on to another part of its service
(`ProxyLoop.proxyStep_weight`).  What the network carries gets lighter
(`ByteSession.carry_weight`).
-/

namespace SqpKv

open Wire

variable {n : Nat}

/-- Only one summand changes. -/
theorem sum_of_ne {f g : Fin n → Nat} (i : Fin n) (h : ∀ j, j ≠ i → g j = f j) :
    ∑ j, g j + f i = ∑ j, f j + g i := by
  have hf := Finset.univ.add_sum_erase f (Finset.mem_univ i)
  have hg := Finset.univ.add_sum_erase g (Finset.mem_univ i)
  have hrest : ∑ j ∈ Finset.univ.erase i, g j = ∑ j ∈ Finset.univ.erase i, f j :=
    Finset.sum_congr rfl fun j hj => h j (Finset.ne_of_mem_erase hj)
  omega

/-! ## Weights -/

def KvControl.weight : KvControl → Nat
  | .head _ => 2
  | .reading _ => 1
  | .sending left => 5 * left.length + 2
  | .returned => 0
  | .crashed => 0

def KvLoop.weight (k : KvLoop) : Nat :=
  k.fromClient.length + k.control.weight + 4 * k.toClient.length

def Link.weight (l : Link) : Nat := 2 * l.toShard.length + 3 * l.toProxy.length

def Control.weight : Control n → Nat
  | .head _ => 2
  | .reading _ => 1
  | .dispatch _ left => 3 * left.length + 4
  | .forward _ => 3
  | .fanOut _ _ left => 3 * left.length + 4
  | .collect _ _ _ _ => 3
  | .respond left _ => 3 * left.length + 3
  | .returned => 0
  | .crashed => 0

def ProxyLoop.weight (p : ProxyLoop n) : Nat :=
  p.control.weight + p.fromClient.length + 2 * p.toClient.length + ∑ i, (p.link i).weight

def ClientControl.weight : ClientControl → Nat
  | .idle => 0
  | .sending _ left => 3 * left.length + 1
  | .reading _ _ => 1
  | .failed => 0
  | .crashed => 0

def ClientLoop.weight (c : ClientLoop) : Nat :=
  c.control.weight + 2 * c.toServer.length + c.fromServer.length

def ByteSession.weight (s : ByteSession n) : Nat :=
  s.client.weight + s.proxy.weight + ∑ i, (s.shard i).weight

/-- What a read that does not fail takes from its queue. -/
theorem Call.read_length {α : Type} {bytes : α → Bytes} {r : Call} {queue taken rest : List α}
    {result : ReadResult} (h : r.read bytes queue = some (result, taken, rest)) :
    rest.length + 1 = queue.length ∨ (rest = queue ∧ (result = .failed ∨ result = .data [])) := by
  rcases Call.read_cases h with ⟨a, rfl, -⟩ | ⟨-, hgives, rfl, -⟩
  · exact .inl rfl
  · exact .inr ⟨rfl, hgives⟩

/-- A read behind which `ReadWholePacket` goes on has taken a write. -/
theorem Call.read_goesOn {α : Type} {bytes : α → Bytes} {r : Call} {queue taken rest : List α}
    {result : ReadResult} (h : r.read bytes queue = some (result, taken, rest)) {alloc : Allocator}
    {errorText : Bytes} {packet packet' : ReadState}
    (hd : (readWholePacket alloc errorText).deliver packet result = .inl packet') :
    rest.length + 1 = queue.length := by
  rcases Call.read_length h with hlen | ⟨-, hgives⟩
  · exact hlen
  · obtain ⟨status, hd', -⟩ := readWholePacket_givesUp alloc errorText packet hgives
    rw [hd] at hd'
    cases hd'

/-- A step of the worker that has no command makes the session lighter. -/
theorem KvLoop.workerStep_weight {e : KvEnv} {r w : Call} {s t : KvLoop}
    (hs : s.workerStep e r w = some t) (hnone : s.command e r = none) : t.weight < s.weight := by
  cases hc : s.control with
  | head err =>
    obtain rfl := workerStep_head hs hc
    simp only [weight, hc, KvControl.weight]
    cases err with
    | true =>
      show s.fromClient.length + 0 + 4 * s.toClient.length < _
      omega
    | false =>
      show s.fromClient.length + 1 + 4 * s.toClient.length < _
      omega
  | reading packet =>
    obtain ⟨result, taken, fromClient, hread, rfl⟩ := workerStep_reading hs hc
    have hcommand := command_reading (e := e) hc hread
    rw [hnone] at hcommand
    have hlen := Call.read_length hread
    rcases hd : (readWholePacket e.alloc e.errorText).deliver packet result with packet' | read
    · have htook := Call.read_goesOn hread hd
      simp only [weight, hc, KvControl.weight, clientRead]
      omega
    · have hle : fromClient.length ≤ s.fromClient.length := by
        rcases hlen with hlen | ⟨rfl, -⟩
        · omega
        · exact Nat.le_refl _
      rw [hd] at hcommand
      dsimp only at hcommand
      simp only [clientRead]
      split
      · simp only [weight, hc, KvControl.weight]
        omega
      · next q hq =>
        rw [hq] at hcommand
        cases hcommand
      · simp only [weight, hc, KvControl.weight]
        omega
  | sending left =>
    obtain ⟨bs, rest, rfl, rfl⟩ := workerStep_sending hs hc
    by_cases hw : w.written bs ≤ 0
    · rw [if_pos hw]
      simp only [weight, hc, KvControl.weight, List.length_cons]
      omega
    · rw [if_neg hw]
      by_cases hrest : rest = []
      · rw [if_pos hrest]
        simp only [weight, hc, KvControl.weight, List.length_cons, List.length_append, hrest,
          List.length_nil]
        omega
      · rw [if_neg hrest]
        simp only [weight, hc, KvControl.weight, List.length_cons, List.length_append, List.length_nil]
        omega
  | returned => exact absurd hc (workerStep_running hs).1
  | crashed => exact absurd hc (workerStep_running hs).2

/-- A step of the client with which its call does not return makes the session lighter. -/
theorem ClientLoop.step_weight {e : ClientEnv} {r w : Call} {s t : ClientLoop}
    (hs : s.step e r w = some (t, none)) : t.weight < s.weight := by
  cases hc : s.control with
  | sending c left =>
    obtain ⟨bs, rest, rfl, -, rfl⟩ := step_sending hs hc
    by_cases hw : w.written bs ≤ 0
    · rw [if_pos hw]
      simp only [weight, hc, ClientControl.weight, List.length_cons]
      omega
    · rw [if_neg hw]
      by_cases hrest : rest = []
      · rw [if_pos hrest]
        simp only [weight, hc, ClientControl.weight, List.length_cons, List.length_append, hrest,
          List.length_nil]
        omega
      · rw [if_neg hrest]
        simp only [weight, hc, ClientControl.weight, List.length_cons, List.length_append,
          List.length_nil]
        omega
  | reading c packet =>
    obtain ⟨result, taken, fromServer, hread, heq⟩ := step_reading hs hc
    have hlen := Call.read_length hread
    have hle : fromServer.length ≤ s.fromServer.length := by
      rcases hlen with hlen | ⟨rfl, -⟩
      · omega
      · exact Nat.le_refl _
    rcases hd : (readWholePacket e.alloc e.errorText).deliver packet result with packet' | read
    · have htook := Call.read_goesOn hread hd
      rw [hd] at heq
      cases heq
      simp only [weight, hc, ClientControl.weight]
      omega
    · rw [hd] at heq
      simp only [serverRead] at heq
      split at heq
      · cases heq
        simp only [weight, hc, ClientControl.weight]
        omega
      · split at heq
        · split at heq
          · cases heq
          · cases heq
            simp only [weight, hc, ClientControl.weight]
            omega
        · cases heq
          simp only [weight, hc, ClientControl.weight]
          omega
  | idle => exact absurd hc (step_running hs).1
  | failed => exact absurd hc (step_running hs).2.1
  | crashed => exact absurd hc (step_running hs).2.2

/-! ## The proxy -/

/-- How far the service of a command is, without the pieces. -/
def Control.phase : Control n → Nat × Nat
  | .dispatch _ _ => (1, 0)
  | .forward _ => (2, 0)
  | .fanOut _ next _ => (3, next)
  | .collect next _ _ _ => (4, next)
  | .respond _ _ => (5, 0)
  | _ => (0, 0)

def ProxyWorker.phase : ProxyWorker n → Nat × Nat
  | .idle => (0, 0)
  | .dispatch _ _ => (1, 0)
  | .forward _ => (2, 0)
  | .fanOut _ next => (3, next)
  | .collect next _ => (4, next)
  | .respond _ => (5, 0)
  | .relay _ => (6, 0)

theorem ControlRel.phase_eq {lost : Prop} {c : Control n} {x : ProxyWorker n} {got sofar : List Bytes}
    {todo : Fin n → Todo} {taken : Fin n → List Bytes} (h : ControlRel lost c x got sofar todo taken) :
    c.phase = x.phase ∨ c.Gone := by
  cases h with
  | idle hc =>
    cases c with
    | head _ => exact .inl rfl
    | reading _ => exact .inl rfl
    | _ => exact hc.elim
  | gone _ hc => exact .inr hc
  | _ => exact .inl rfl

namespace ProxyLoop

variable {e : ProxyEnv n} {r w : Call} {s t : ProxyLoop n}

theorem setLink_weight (s : ProxyLoop n) (i : Fin n) (l : Link) :
    ∑ j, ((s.setLink i l).link j).weight + (s.link i).weight = ∑ j, (s.link j).weight + l.weight := by
  have h := sum_of_ne (f := fun j => (s.link j).weight) (g := fun j => ((s.setLink i l).link j).weight)
    i fun j hj => by
      show (Function.update s.link i l j).weight = _
      rw [Function.update_of_ne hj]
  have hself : (s.setLink i l).link i = l := Function.update_self ..
  rwa [hself] at h

/-- The proxy goes on to something else. -/
def Turns (s t : ProxyLoop n) : Prop :=
  t.control.phase ≠ s.control.phase ∧ ¬ t.control.Gone ∧ ¬ s.control.Gone

/-- The proxy writes a piece to a shard. -/
theorem sendPiece_weight {i : Fin n} {bs : Bytes} {next : Control n}
    (hnext : next.weight + 2 < s.control.weight) :
    (s.sendPiece e w i bs next).weight < s.weight := by
  unfold sendPiece
  by_cases hw : w.written bs ≤ 0
  · rw [if_pos hw]
    simp only [weight]
    show 2 + _ + _ + _ < _
    omega
  · rw [if_neg hw]
    have h := s.setLink_weight i ((s.link i).write ⟨s.served, bs⟩)
    have hwrite : ((s.link i).write ⟨s.served, bs⟩).weight = (s.link i).weight + 2 := by
      simp only [Link.weight, Link.write, List.length_append, List.length_singleton]
      omega
    show next.weight + s.fromClient.length + 2 * s.toClient.length +
      ∑ j, ((s.setLink i ((s.link i).write ⟨s.served, bs⟩)).link j).weight < _
    unfold weight
    omega

/-- The proxy reads from a shard. -/
theorem pull_weight {i : Fin n} {taken toProxy : List Piece} {result : ReadResult}
    (hread : r.read Piece.bytes (s.link i).toProxy = some (result, taken, toProxy)) :
    (∑ j, ((s.setLink i { s.link i with toProxy }).link j).weight + 3 = ∑ j, (s.link j).weight) ∨
      ((∑ j, ((s.setLink i { s.link i with toProxy }).link j).weight = ∑ j, (s.link j).weight) ∧
        (result = .failed ∨ result = .data []) ∧ taken = []) := by
  have h := s.setLink_weight i { s.link i with toProxy }
  rcases Call.read_cases hread with ⟨p, hqueue, -⟩ | ⟨-, hgives, rfl, rfl⟩
  · have hone : Link.weight { s.link i with toProxy } + 3 = (s.link i).weight := by
      simp only [Link.weight, hqueue, List.length_cons]
      omega
    exact .inl (by omega)
  · refine .inr ⟨?_, hgives, rfl⟩
    have hsame : Link.weight { s.link i with toProxy := (s.link i).toProxy } = (s.link i).weight := rfl
    omega

theorem serverRead_weight (s : ProxyLoop n) (next : Nat) (keys : List Bytes) (sources : List Nat)
    (d : ReadState ⊕ (Status × Bytes)) : (s.serverRead e next keys sources d).weight ≤
      3 + s.fromClient.length + 2 * s.toClient.length + ∑ j, (s.link j).weight := by
  unfold serverRead
  split
  · exact Nat.le_refl _
  · split
    · split
      · exact Nat.le_refl _
      · simp only [weight, Control.weight]
        omega
    · simp only [weight, Control.weight]
      omega

section Steps

variable (hs : s.proxyStep e r w = some t)

include hs

theorem proxyStep_head_weight {status : Status}
    (hc : s.control = .head status) : t.weight < s.weight := by
  obtain rfl := proxyStep_head hs hc
  cases hok : status.ok with
  | true =>
    show 1 + s.fromClient.length + 2 * s.toClient.length + ∑ i, (s.link i).weight < s.weight
    simp only [weight, hc, Control.weight]
    omega
  | false =>
    show 0 + s.fromClient.length + 2 * s.toClient.length + ∑ i, (s.link i).weight < s.weight
    simp only [weight, hc, Control.weight]
    omega

theorem proxyStep_reading_weight {packet : ReadState}
    (hc : s.control = .reading packet) : t.weight < s.weight ∨ Turns s t := by
  obtain ⟨result, taken, fromClient, hread, rfl⟩ := proxyStep_reading hs hc
  have hlen := Call.read_length hread
  have hle : fromClient.length ≤ s.fromClient.length := by
    rcases hlen with hlen | ⟨rfl, -⟩
    · omega
    · exact Nat.le_refl _
  rcases hd : (readWholePacket e.alloc e.errorText).deliver packet result with packet' | ⟨status, buf⟩
  · left
    have htook := Call.read_goesOn hread hd
    simp only [weight, hc, Control.weight, clientRead]
    omega
  · simp only [clientRead]
    split
    · left
      simp only [weight, hc, Control.weight]
      omega
    · unfold start
      split
      · next q hq =>
        cases hkey : q.command.key? with
        | none =>
          right
          refine ⟨?_, id, ?_⟩
          · simp [hc, Control.phase]
          · rw [hc]
            exact id
        | some key =>
          dsimp only
          cases hroute : route n key with
          | some i =>
            right
            refine ⟨?_, id, ?_⟩
            · simp [hc, Control.phase]
            · rw [hc]
              exact id
          | none =>
            left
            simp only [weight, hc, Control.weight]
            omega
      · left
        simp only [weight, hc, Control.weight]
        omega

theorem proxyStep_dispatch_weight {i : Fin n} {left : List Bytes}
    (hc : s.control = .dispatch i left) : t.weight < s.weight := by
  obtain ⟨bs, rest, rfl, rfl⟩ := proxyStep_dispatch hs hc
  apply sendPiece_weight
  by_cases hrest : rest = []
  · simp only [hc, Control.weight, if_pos hrest, List.length_cons]
    omega
  · simp only [hc, Control.weight, if_neg hrest, List.length_cons]
    omega

theorem proxyStep_forward_weight {i : Fin n}
    (hc : s.control = .forward i) : t.weight < s.weight := by
  obtain ⟨result, taken, toProxy, hread, rfl⟩ := proxyStep_forward hs hc
  have hsent : ∀ d, (forwardPacket (fun _ bs => w.written bs) e.errorText).deliver [] result = d →
      (∃ sent, d = .inl sent ∧ sent.length ≤ 1) ∨ ∃ status sent, d = .inr (status, sent) ∧
        sent.length ≤ 1 := by
    rintro d rfl
    cases result with
    | failed => exact .inr ⟨_, _, rfl, Nat.zero_le _⟩
    | data bs =>
      unfold forwardPacket
      dsimp only
      split
      · exact .inr ⟨_, _, rfl, Nat.zero_le _⟩
      · split
        · exact .inr ⟨_, _, rfl, Nat.zero_le _⟩
        · split
          · exact .inr ⟨_, _, rfl, Nat.zero_le _⟩
          · split
            · exact .inr ⟨_, _, rfl, Nat.le_refl 1⟩
            · exact .inl ⟨_, rfl, Nat.le_refl 1⟩
  rcases pull_weight hread with hpull | ⟨hpull, hgives, rfl⟩
  · rcases hsent _ rfl with ⟨sent, hd, hlen⟩ | ⟨status, sent, hd, hlen⟩
    · rw [hd]
      show 3 + s.fromClient.length + 2 * (s.toClient ++ _).length +
        ∑ j, ((s.setLink i { s.link i with toProxy }).link j).weight < s.weight
      dsimp only at hpull
      simp only [weight, hc, Control.weight, List.length_append, List.length_map]
      omega
    · rw [hd]
      show 2 + s.fromClient.length + 2 * (s.toClient ++ _).length +
        ∑ j, ((s.setLink i { s.link i with toProxy }).link j).weight < s.weight
      dsimp only at hpull
      simp only [weight, hc, Control.weight, List.length_append, List.length_map]
      omega
  · have hgive : ∃ status, (forwardPacket (fun _ bs => w.written bs) e.errorText).deliver [] result =
        .inr (status, []) := by
      rcases hgives with rfl | rfl
      · exact ⟨_, rfl⟩
      · exact ⟨.Eof, rfl⟩
    obtain ⟨status, hd⟩ := hgive
    rw [hd]
    show 2 + s.fromClient.length + 2 * (s.toClient ++ []).length +
      ∑ j, ((s.setLink i { s.link i with toProxy }).link j).weight < s.weight
    rw [hpull, List.append_nil]
    simp only [weight, hc, Control.weight]
    omega

theorem proxyStep_fanOut_weight {data : Bytes} {next : Nat} {left : List Bytes}
    (hc : s.control = .fanOut data next left) : t.weight < s.weight ∨ Turns s t := by
  rcases proxyStep_fanOut hs hc with ⟨hn, bs, rest, rfl, rfl⟩ | ⟨hn, rfl⟩
  · by_cases hrest : rest = []
    · rw [if_pos hrest]
      unfold sendPiece
      by_cases hw : w.written bs ≤ 0
      · rw [if_pos hw]
        left
        simp only [weight, hc, Control.weight]
        omega
      · rw [if_neg hw]
        right
        refine ⟨?_, id, ?_⟩
        · simp [hc, Control.phase]
        · rw [hc]
          exact id
    · rw [if_neg hrest]
      left
      apply sendPiece_weight
      simp only [hc, Control.weight, List.length_cons]
      omega
  · right
    refine ⟨?_, id, ?_⟩
    · simp [hc, Control.phase]
    · rw [hc]
      exact id

theorem proxyStep_collect_weight {next : Nat} {packet : ReadState} {keys : List Bytes}
    {sources : List Nat}
    (hc : s.control = .collect next packet keys sources) : t.weight < s.weight ∨ Turns s t := by
  rcases proxyStep_collect hs hc with ⟨hn, result, taken, toProxy, hread, rfl⟩ | ⟨hn, ⟨data, rfl⟩ | rfl⟩
  · left
    rcases pull_weight hread with hpull | ⟨hpull, hgives, rfl⟩
    · refine Nat.lt_of_le_of_lt (serverRead_weight _ _ _ _ _) ?_
      show 3 + s.fromClient.length + 2 * s.toClient.length +
        ∑ j, ((s.setLink ⟨next, hn⟩ { s.link ⟨next, hn⟩ with toProxy }).link j).weight < s.weight
      dsimp only at hpull ⊢
      simp only [weight, hc, Control.weight]
      omega
    · obtain ⟨status, hd, hok, -⟩ := readWholePacket_givesUp e.alloc e.errorText packet hgives
      have hno : ¬ status.ok = true := fun h => by
        rw [hok] at h
        cases h
      rw [hd]
      unfold serverRead
      dsimp only
      rw [if_neg hno]
      show 2 + s.fromClient.length + 2 * s.toClient.length +
        ∑ j, ((s.setLink ⟨next, hn⟩ { s.link ⟨next, hn⟩ with toProxy }).link j).weight < s.weight
      rw [hpull]
      simp only [weight, hc, Control.weight]
      omega
  · right
    refine ⟨?_, id, ?_⟩
    · simp [hc, Control.phase]
    · rw [hc]
      exact id
  · left
    simp only [weight, hc, Control.weight]
    omega

theorem proxyStep_respond_weight {left : List Bytes} {sources : List Nat}
    (hc : s.control = .respond left sources) : t.weight < s.weight := by
  obtain ⟨bs, rest, rfl, rfl⟩ := proxyStep_respond hs hc
  by_cases hw : w.written bs ≤ 0
  · rw [if_pos hw]
    simp only [weight, hc, Control.weight]
    omega
  · rw [if_neg hw]
    by_cases hrest : rest = []
    · rw [if_pos hrest]
      simp only [weight, hc, Control.weight, List.length_cons, List.length_append, hrest,
        List.length_nil]
      omega
    · rw [if_neg hrest]
      simp only [weight, hc, Control.weight, List.length_cons, List.length_append, List.length_nil]
      omega

end Steps

/-- A step of the proxy makes it lighter, or the proxy goes on to something else. -/
theorem proxyStep_weight (hs : s.proxyStep e r w = some t) : t.weight < s.weight ∨ Turns s t := by
  cases hc : s.control with
  | head status => exact .inl (proxyStep_head_weight hs hc)
  | reading packet => exact proxyStep_reading_weight hs hc
  | dispatch i left => exact .inl (proxyStep_dispatch_weight hs hc)
  | forward i => exact .inl (proxyStep_forward_weight hs hc)
  | fanOut data next left => exact proxyStep_fanOut_weight hs hc
  | collect next packet keys sources => exact proxyStep_collect_weight hs hc
  | respond left sources => exact .inl (proxyStep_respond_weight hs hc)
  | returned => exact absurd hc (proxyStep_running hs).1
  | crashed => exact absurd hc (proxyStep_running hs).2

end ProxyLoop

/-! ## A session -/

namespace ByteSession

variable {s s' : ByteSession n}

theorem setShard_weight (s : ByteSession n) (i : Fin n) (k : KvLoop) :
    ∑ j, ((s.setShard i k).shard j).weight + (s.shard i).weight =
      ∑ j, (s.shard j).weight + k.weight := by
  have h := sum_of_ne (f := fun j => (s.shard j).weight)
    (g := fun j => ((s.setShard i k).shard j).weight) i fun j hj => by
      show (Function.update s.shard i k j).weight = _
      rw [Function.update_of_ne hj]
  have hself : (s.setShard i k).shard i = k := Function.update_self ..
  rwa [hself] at h

/-- A piece is carried on the connection to the shard `i`. -/
theorem weight_of_carry {l : Link} {k : KvLoop} (i : Fin n)
    (h : l.weight + k.weight < (s.proxy.link i).weight + (s.shard i).weight) :
    ({ s.setShard i k with proxy := s.proxy.setLink i l } : ByteSession n).weight < s.weight := by
  have hshard := s.setShard_weight i k
  have hlink := s.proxy.setLink_weight i l
  show s.client.weight + (s.proxy.control.weight + s.proxy.fromClient.length +
    2 * s.proxy.toClient.length + ∑ j, ((s.proxy.setLink i l).link j).weight) +
      ∑ j, ((s.setShard i k).shard j).weight < s.weight
  unfold weight
  rw [ProxyLoop.weight]
  omega

theorem carry_weight {a : Action n} (hs : s.carry a = some s') : s'.weight < s.weight := by
  cases a with
  | carryUp =>
    unfold carry at hs
    cases hq : s.client.toServer with
    | nil =>
      simp only [hq] at hs
      cases hs
    | cons bs rest =>
      simp only [hq] at hs
      cases hs
      simp only [weight, ClientLoop.weight, ProxyLoop.weight, hq, List.length_cons, List.length_append,
        List.length_nil]
      omega
  | carryDown =>
    unfold carry at hs
    cases hq : s.proxy.toClient with
    | nil =>
      simp only [hq] at hs
      cases hs
    | cons p rest =>
      simp only [hq] at hs
      cases hs
      simp only [weight, ClientLoop.weight, ProxyLoop.weight, hq, List.length_cons, List.length_append,
        List.length_nil]
      omega
  | carryToShard i =>
    unfold carry at hs
    cases hq : (s.proxy.link i).toShard with
    | nil =>
      simp only [hq] at hs
      cases hs
    | cons p rest =>
      simp only [hq] at hs
      cases hs
      refine weight_of_carry (l := { s.proxy.link i with toShard := rest })
        (k := { s.shard i with fromClient := (s.shard i).fromClient ++ [p.bytes] }) i ?_
      simp only [Link.weight, KvLoop.weight, hq, List.length_cons, List.length_append, List.length_nil]
      omega
  | carryToProxy i =>
    unfold carry at hs
    cases hq : (s.shard i).toClient with
    | nil =>
      simp only [hq] at hs
      cases hs
    | cons p rest =>
      simp only [hq] at hs
      cases hs
      refine weight_of_carry (k := { s.shard i with toClient := rest })
        (l := { s.proxy.link i with toProxy := (s.proxy.link i).toProxy ++ [⟨p.1, p.2⟩] }) i ?_
      simp only [Link.weight, KvLoop.weight, hq, List.length_cons, List.length_append, List.length_nil]
      omega
  | client r w => cases hs
  | proxy r w => cases hs
  | worker i r w => cases hs

end ByteSession

end SqpKv
