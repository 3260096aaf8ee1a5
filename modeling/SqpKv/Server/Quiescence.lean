import SqpKv.Server.ProxyLoop

/-!
# The proxy's connections between two requests

    whenever the loop is about to read a request, no connection to a shard carries anything,
    and what went to the client for a request comes from responses to this request
                                                                          (loopHead_quiet)

What is still to come on a connection (`Link.due`) is not changed by the shard,
so a connection is idle, being asked or owing an answer whatever the shards
have done meanwhile (`Link.Stage`).  The loop knows the stage of every
connection at each of its calls (`Control.stage`), and a call that fails leads
out of the loop.
-/

namespace SqpKv

open Wire Machine

/-! ## What a connection still owes -/

/-- The pieces of a packet: all but the last fill a write. -/
inductive Message : List Bytes → Prop
  | last {bs : Bytes} (hpos : 0 < bs.length) (hlt : bs.length < kMaxNetPacketSize) : Message [bs]
  | cons {bs : Bytes} {rest : List Bytes} (hlen : bs.length = kMaxNetPacketSize)
      (hrest : Message rest) : Message (bs :: rest)

theorem pieces_message (data : Bytes) : Message (pieces data) := by
  induction data using pieces_induction with
  | short data h =>
    rw [pieces_of_lt h]
    by_cases hd : data = []
    · rw [if_pos hd]
      exact .last (by decide) (by decide)
    · rw [if_neg hd]
      exact .last (List.length_pos_of_ne_nil hd) h
  | long data h ih =>
    rw [pieces_of_ge h]
    exact .cons (by rw [List.length_take]; omega) ih

/-- The answers to the requests on the way to a shard that has answered `k` so far. -/
def replies (answers : Nat → Bytes) : Nat → List Piece → List Piece
  | _, [] => []
  | k, p :: rest =>
    if p.Short then answerPieces p.request (answers k) ++ replies answers (k + 1) rest
    else replies answers k rest

theorem replies_concat (answers : Nat → Bytes) (k : Nat) (ps : List Piece) (p : Piece) :
    ∃ j, replies answers k (ps ++ [p]) = replies answers k ps ++
      if p.Short then answerPieces p.request (answers j) else [] := by
  induction ps generalizing k with
  | nil =>
    refine ⟨k, ?_⟩
    simp only [List.nil_append, replies, List.append_nil]
  | cons q ps ih =>
    simp only [List.cons_append, replies]
    by_cases hq : q.Short
    · obtain ⟨j, hj⟩ := ih (k + 1)
      exact ⟨j, by rw [if_pos hq, if_pos hq, hj, List.append_assoc]⟩
    · obtain ⟨j, hj⟩ := ih k
      exact ⟨j, by rw [if_neg hq, if_neg hq, hj]⟩

namespace Link

/-- All the proxy will read, if it writes no more. -/
def due (answers : Nat → Bytes) (l : Link) : List Piece :=
  l.toProxy ++ (l.writing ++ replies answers l.answered l.toShard)

/-- No request has been begun and not ended. -/
def Closed (l : Link) : Prop := ∀ p ∈ (l.reading ++ l.toShard).getLast?, p.Short

/-- What the shard has read ends no request. -/
def Waits (l : Link) : Prop := ∀ p ∈ l.reading, ¬ p.Short

variable {answers : Nat → Bytes} {l l' : Link}

/-- What no step of a shard changes. -/
structure Follows (answers : Nat → Bytes) (l l' : Link) : Prop where
  due : l'.due answers = l.due answers
  closed : l.Closed → l'.Closed
  waits : l.Waits → l'.Waits

theorem shardRead_follows (h : l.shardRead answers = some l') : Follows answers l l' := by
  unfold shardRead at h
  split at h
  · next p toShard hw ht =>
    by_cases hp : p.Short
    · rw [if_pos hp] at h
      cases h
      refine ⟨?_, ?_, fun _ _ hq => (nomatch hq)⟩
      · simp only [Link.due, hw, ht, replies, if_pos hp, List.nil_append]
      · intro hclosed q hq
        refine hclosed q ?_
        rw [ht]
        cases toShard with
        | nil => cases hq
        | cons q' rest =>
          rw [List.getLast?_append_of_ne_nil _ (List.cons_ne_nil _ _), List.getLast?_cons_cons]
          exact hq
    · rw [if_neg hp] at h
      cases h
      refine ⟨?_, ?_, ?_⟩
      · simp only [Link.due, hw, ht, replies, if_neg hp]
      · intro hclosed q hq
        refine hclosed q ?_
        rwa [ht, List.append_cons]
      · intro hwaits q hq
        rcases List.mem_append.1 hq with hq | hq
        · exact hwaits q hq
        · rwa [List.mem_singleton.1 hq]
  · cases h

theorem shardWrite_follows (h : l.shardWrite = some l') : Follows answers l l' := by
  unfold shardWrite at h
  split at h
  · next p writing hw =>
    cases h
    refine ⟨?_, id, id⟩
    simp only [Link.due, hw, List.append_assoc, List.cons_append, List.nil_append]
  · cases h

/-- A connection that owes nothing and carries no request in part is quiet. -/
theorem quiet_of_due (hdue : l.due answers = []) (hclosed : l.Closed) (hwaits : l.Waits) :
    l.Quiet := by
  unfold Link.due at hdue
  rw [List.append_eq_nil_iff, List.append_eq_nil_iff] at hdue
  obtain ⟨hproxy, hwriting, hreplies⟩ := hdue
  have hshard : l.toShard = [] := by
    rcases List.eq_nil_or_concat' l.toShard with h | ⟨ps, p, h⟩
    · exact h
    · have hp : p.Short := hclosed p (by rw [h, ← List.append_assoc]; simp)
      obtain ⟨j, hj⟩ := replies_concat answers l.answered ps p
      rw [h, hj, if_pos hp, List.append_eq_nil_iff] at hreplies
      have hne := hreplies.2
      unfold answerPieces at hne
      rw [List.map_eq_nil_iff] at hne
      have hmsg := pieces_message (answers j)
      rw [hne] at hmsg
      cases hmsg
  refine ⟨hshard, ?_, hwriting, hproxy⟩
  rcases List.eq_nil_or_concat' l.reading with h | ⟨ps, p, h⟩
  · exact h
  · refine absurd (hclosed p ?_) (hwaits p ?_)
    · rw [hshard, List.append_nil, h]
      simp
    · rw [h]
      simp

/-! ## Stages -/

/-- What the proxy knows of a connection. -/
inductive Stage
  | idle
  | asking
  | owing (request : Nat)

/-- Nothing is to come; nothing is to come but a request may be under way; one answer is to come,
or the rest of it. -/
def At (answers : Nat → Bytes) (l : Link) : Stage → Prop
  | .idle => l.due answers = [] ∧ l.Closed
  | .asking => l.due answers = []
  | .owing k => (∃ left, Message left ∧ l.due answers = left.map (Piece.mk k)) ∧ l.Closed

theorem At.follows {st : Stage} (h : l.At answers st) (hf : Follows answers l l') :
    l'.At answers st := by
  cases st with
  | idle => exact ⟨hf.due.trans h.1, hf.closed h.2⟩
  | asking => exact hf.due.trans h
  | owing k =>
    obtain ⟨⟨left, hmsg, hdue⟩, hclosed⟩ := h
    exact ⟨⟨left, hmsg, hf.due.trans hdue⟩, hf.closed hclosed⟩

theorem At.asking_of_idle (h : l.At answers .idle) : l.At answers .asking := h.1

/-- The proxy writes a piece of a request: behind the last one there is an answer to come. -/
theorem At.write {k : Nat} {bs : Bytes} {left : List Bytes} (h : l.At answers .asking)
    (hmsg : Message (bs :: left)) :
    (l.write ⟨k, bs⟩).At answers (if left = [] then .owing k else .asking) ∧
      (left ≠ [] → Message left) := by
  obtain ⟨j, hj⟩ := replies_concat answers l.answered l.toShard ⟨k, bs⟩
  have hdue : (l.write ⟨k, bs⟩).due answers = l.due answers ++
      if (⟨k, bs⟩ : Piece).Short then answerPieces k (answers j) else [] := by
    unfold Link.due Link.write
    dsimp only
    rw [hj, ← List.append_assoc l.writing, ← List.append_assoc l.toProxy]
  rw [show l.due answers = [] from h, List.nil_append] at hdue
  cases hmsg with
  | last hpos hlt =>
    have hshort : (⟨k, bs⟩ : Piece).Short := hlt
    refine ⟨⟨⟨_, pieces_message (answers j), ?_⟩, ?_⟩, fun h => absurd rfl h⟩
    · rw [hdue, if_pos hshort]
      rfl
    · intro p hp
      unfold Link.write at hp
      rw [← List.append_assoc, List.getLast?_concat] at hp
      cases hp
      exact hshort
  | cons hlen hrest =>
    have hne : left ≠ [] := by
      rintro rfl
      cases hrest
    refine ⟨?_, fun _ => hrest⟩
    rw [if_neg hne]
    have hlong : ¬ (⟨k, bs⟩ : Piece).Short := fun hlt => absurd hlen (Nat.ne_of_lt hlt)
    rw [if_neg hlong] at hdue
    exact hdue

/-- The proxy reads a piece of an answer: behind the last one nothing is to come. -/
theorem At.read {k : Nat} {p : Piece} {rest : List Piece} (h : l.At answers (.owing k))
    (hp : l.toProxy = p :: rest) :
    p.request = k ∧ 0 < p.bytes.length ∧ p.bytes.length ≤ kMaxNetPacketSize ∧
      Link.At answers { l with toProxy := rest } (if p.Short then .idle else .owing k) := by
  obtain ⟨⟨left, hmsg, hdue⟩, hclosed⟩ := h
  have hcons : l.due answers = p :: Link.due answers { l with toProxy := rest } := by
    unfold Link.due
    rw [hp, List.cons_append]
  rw [hcons] at hdue
  cases hmsg with
  | @last bs hpos hlt =>
    obtain ⟨rfl, hrest⟩ := List.cons.inj hdue
    have hshort : (⟨k, bs⟩ : Piece).Short := hlt
    refine ⟨rfl, hpos, Nat.le_of_lt hlt, ?_⟩
    rw [if_pos hshort]
    exact ⟨hrest, hclosed⟩
  | @cons bs left hlen hmsg =>
    obtain ⟨rfl, hrest⟩ := List.cons.inj hdue
    have hlong : ¬ (⟨k, bs⟩ : Piece).Short := fun hlt => absurd hlen (Nat.ne_of_lt hlt)
    refine ⟨rfl, hlen ▸ kMaxNetPacketSize_pos, Nat.le_of_eq hlen, ?_⟩
    rw [if_neg hlong]
    exact ⟨⟨left, hmsg, hrest⟩, hclosed⟩

/-- What a call of `read` can do while an answer is to come. -/
theorem At.call {k : Nat} {r : Call} {result : ReadResult} {taken toProxy : List Piece}
    (h : l.At answers (.owing k))
    (hr : r.read Piece.bytes l.toProxy = some (result, taken, toProxy)) :
    (∀ p ∈ taken, p.request = k) ∧
      (result = .failed ∨ result = .data [] ∨
        ∃ p : Piece, result = .data p.bytes ∧ 0 < p.bytes.length ∧
          p.bytes.length ≤ kMaxNetPacketSize ∧
          Link.At answers { l with toProxy } (if p.Short then .idle else .owing k)) := by
  cases r with
  | done =>
    cases hl : l.toProxy with
    | nil =>
      rw [hl] at hr
      cases hr
    | cons p rest =>
      rw [hl] at hr
      cases hr
      obtain ⟨hk, hpos, hle, hat⟩ := h.read hl
      refine ⟨?_, Or.inr (Or.inr ⟨p, rfl, hpos, hle, hat⟩)⟩
      intro q hq
      rwa [List.mem_singleton.1 hq]
  | failed =>
    cases hr
    exact ⟨fun _ hp => (nomatch hp), Or.inl rfl⟩
  | zero =>
    cases hr
    exact ⟨fun _ hp => (nomatch hp), Or.inr (Or.inl rfl)⟩

end Link

/-! ## One round of the receivers -/

section Round

variable (errorText : Bytes)

/-- `ForwardPacket` passes on what it read, or gives up. -/
theorem forwardPacket_round (w : Writer) (sent : List Bytes) {c : Bytes} (hpos : 0 < c.length)
    (hc : c.length ≤ kMaxNetPacketSize) :
    (forwardPacket w errorText).deliver sent (.data c) =
      if w sent.length c ≤ 0 then .inr (.Eof, sent)
      else if c.length < kMaxNetPacketSize then
        .inr (.Ok, sent ++ [c.take (w sent.length c).toNat])
      else .inl (sent ++ [c.take (w sent.length c).toNat]) := by
  have hk : kMaxNetPacketSize = 131072 := rfl
  have hrc : toInt32 c.length = c.length := toInt32_of_lt (by omega)
  unfold forwardPacket
  dsimp only
  rw [hrc, Int.toNat_natCast, List.take_length, if_neg (by omega), if_neg (by omega)]

/-- `ReadWholePacket` ends behind a chunk that is no full piece. -/
theorem readWholePacket_round (alloc : Allocator) (packet : ReadState) {c : Bytes}
    (hpos : 0 < c.length) (hc : c.length ≤ kMaxNetPacketSize) :
    (c.length < kMaxNetPacketSize ∧
      ∃ buf, (readWholePacket alloc errorText).deliver packet (.data c) = .inr (.Ok, buf)) ∨
    (¬ c.length < kMaxNetPacketSize ∧
      ∃ packet', (readWholePacket alloc errorText).deliver packet (.data c) = .inl packet') := by
  have hk : kMaxNetPacketSize = 131072 := rfl
  have hrc : toInt32 c.length = c.length := toInt32_of_lt (by omega)
  have hne : ¬ (c.length : Int) = 0 := by omega
  have hnneg : ¬ (c.length : Int) < 0 := by omega
  unfold readWholePacket
  dsimp only
  rw [hrc, Int.toNat_natCast, if_neg hne, if_neg hnneg]
  by_cases hlt : c.length < kMaxNetPacketSize
  · rw [if_pos hlt]
    exact Or.inl ⟨hlt, _, rfl⟩
  · rw [if_neg hlt]
    exact Or.inr ⟨hlt, _, rfl⟩

end Round

/-! ## The invariant -/

namespace Control

variable {n : Nat}

/-- How far the connections are while the request `k` is served. -/
def stage (k : Nat) : Control n → Fin n → Option Link.Stage
  | .head status, _ => if status.ok then some .idle else none
  | .reading _, _ => some .idle
  | .dispatch i _, j => some (if j = i then .asking else .idle)
  | .forward i, j => some (if j = i then .owing k else .idle)
  | .fanOut _ next _, j =>
    some (if j.val < next then .owing k else if j.val = next then .asking else .idle)
  | .collect next _ _ _, j => some (if j.val < next then .idle else .owing k)
  | .respond _ _, _ => some .idle
  | .returned, _ => none
  | .crashed, _ => none

/-- What is left of a packet to send ends it; keys come from the request that is served. -/
def Holds (k : Nat) : Control n → Prop
  | .dispatch _ left => Message left
  | .fanOut _ _ left => Message left
  | .collect _ _ _ sources => ∀ o ∈ sources, o = k
  | .respond _ sources => ∀ o ∈ sources, o = k
  | _ => True

end Control

namespace ProxyLoop

variable {n : Nat} {e : ProxyEnv n} {s s' : ProxyLoop n}

structure Consistent (e : ProxyEnv n) (s : ProxyLoop n) : Prop where
  waits : ∀ i, (s.link i).Waits
  stages : ∀ i, ∀ st ∈ s.control.stage s.served i, (s.link i).At (e.answers i) st
  holds : s.control.Holds s.served
  answered : ∀ w ∈ s.toClient, ∀ o ∈ w.sources, o = w.request

namespace Consistent

theorem init : Consistent e ProxyLoop.init := by
  refine ⟨fun _ _ hp => (nomatch hp), ?_, trivial, fun _ hw => (nomatch hw)⟩
  rintro i st ⟨⟩
  exact ⟨rfl, fun _ hp => (nomatch hp)⟩

/-- A step that touches no connection. -/
theorem goto (h : Consistent e s) {c : Control n}
    (hst : ∀ i, ∀ st ∈ c.stage s.served i, (s.link i).At (e.answers i) st)
    (hc : c.Holds s.served) : Consistent e { s with control := c } :=
  ⟨h.waits, hst, hc, h.answered⟩

/-- A step at the connection `i`. -/
theorem moved (h : Consistent e s) {i : Fin n} {l : Link} {c : Control n}
    (hwaits : l.Waits) (hst : ∀ st ∈ c.stage s.served i, l.At (e.answers i) st)
    (hother : ∀ j, j ≠ i → ∀ st ∈ c.stage s.served j, (s.link j).At (e.answers j) st)
    (hc : c.Holds s.served) : Consistent e { s.setLink i l with control := c } := by
  refine ⟨fun j => ?_, fun j st hj => ?_, hc, h.answered⟩
  · by_cases hji : j = i
    · subst hji
      rwa [show (s.setLink j l).link j = l from Function.update_self ..]
    · rw [show (s.setLink i l).link j = s.link j from Function.update_of_ne hji ..]
      exact h.waits j
  · by_cases hji : j = i
    · subst hji
      rw [show (s.setLink j l).link j = l from Function.update_self ..]
      exact hst st hj
    · rw [show (s.setLink i l).link j = s.link j from Function.update_of_ne hji ..]
      exact hother j hji st hj

/-- A step at the connection `i` behind which the loop reads no request any more. -/
theorem leave (h : Consistent e s) {i : Fin n} {l : Link} {c : Control n} (hwaits : l.Waits)
    (hst : ∀ j, c.stage s.served j = none) (hc : c.Holds s.served) :
    Consistent e { s.setLink i l with control := c } :=
  h.moved hwaits (fun _ hi => (nomatch (hst i).symm.trans hi))
    (fun j _ _ hj => (nomatch (hst j).symm.trans hj)) hc

/-- Writes to the client for the request that is served. -/
theorem wrote (h : Consistent e s) {ws : List Written}
    (hws : ∀ w ∈ ws, ∀ o ∈ w.sources, o = w.request) :
    Consistent e { s with toClient := s.toClient ++ ws } := by
  refine ⟨h.waits, h.stages, h.holds, fun w hw => ?_⟩
  rcases List.mem_append.1 hw with hw | hw
  · exact h.answered w hw
  · exact hws w hw

/-- Shards change nothing that the invariant speaks of. -/
theorem follows (h : Consistent e s) {i : Fin n} {l : Link}
    (hl : Link.Follows (e.answers i) (s.link i) l) : Consistent e (s.setLink i l) :=
  h.moved (hl.waits (h.waits i)) (fun st hst => (h.stages i st hst).follows hl)
    (fun j _ => h.stages j) h.holds

theorem start (h : Consistent e s) (hidle : ∀ i, (s.link i).At (e.answers i) .idle) (buf : Bytes) :
    Consistent e (s.start buf) := by
  have crash : ∀ k, Consistent e { s with served := k, control := .crashed } := fun k =>
    ⟨h.waits, fun _ _ hst => (nomatch hst), trivial, h.answered⟩
  unfold ProxyLoop.start
  split
  · next packet _ =>
    dsimp only
    split
    · refine ⟨h.waits, fun i st hst => ?_, pieces_message _, h.answered⟩
      obtain rfl : _ = st := Option.some.inj hst
      rw [if_neg (Nat.not_lt_zero _)]
      split
      · exact (hidle i).asking_of_idle
      · exact hidle i
    · split
      · refine ⟨h.waits, fun j st hst => ?_, pieces_message _, h.answered⟩
        obtain rfl : _ = st := Option.some.inj hst
        split
        · exact (hidle j).asking_of_idle
        · exact hidle j
      · exact crash _
  · exact crash _

/-- A write that fails leaves the loop.  Behind the last piece of a packet an answer is to come. -/
theorem sendPiece (h : Consistent e s) {w : Call} {i : Fin n} {bs : Bytes} {left : List Bytes}
    {done more : Control n} (hi : s.control.stage s.served i = some .asking)
    (hmsg : Message (bs :: left)) (hdone : done.stage s.served i = some (.owing s.served))
    (hother : ∀ j, j ≠ i → ∀ st ∈ done.stage s.served j, (s.link j).At (e.answers j) st)
    (hdone' : done.Holds s.served) (hmore : more.stage s.served = s.control.stage s.served)
    (hmore' : Message left → more.Holds s.served) :
    Consistent e (s.sendPiece e w i bs (if left = [] then done else more)) := by
  unfold ProxyLoop.sendPiece
  split
  · exact h.goto (fun _ _ hst => (nomatch hst)) trivial
  · obtain ⟨hat, hleft⟩ := (h.stages i _ hi).write (k := s.served) hmsg
    by_cases hl : left = []
    · rw [if_pos hl] at hat ⊢
      refine h.moved (h.waits i) (fun st hst => ?_) hother hdone'
      rw [hdone] at hst
      cases hst
      exact hat
    · rw [if_neg hl] at hat ⊢
      refine h.moved (h.waits i) (fun st hst => ?_) (fun j _ => hmore ▸ h.stages j)
        (hmore' (hleft hl))
      rw [hmore, hi] at hst
      cases hst
      exact hat

/-- The answer of a shard is read, piece by piece. -/
theorem collectRead (h : Consistent e s) {r : Call} {next : Nat} {packet : ReadState}
    {keys : List Bytes} {sources : List Nat} (hc : s.control = .collect next packet keys sources)
    (hn : next < n) {result : ReadResult} {taken toProxy : List Piece}
    (hread : r.read Piece.bytes (s.link ⟨next, hn⟩).toProxy = some (result, taken, toProxy)) :
    Consistent e ((s.setLink ⟨next, hn⟩ { s.link ⟨next, hn⟩ with toProxy }).serverRead e next keys
      (sources ++ taken.map Piece.request)
      ((readWholePacket e.alloc e.errorText).deliver packet result)) := by
  have hnow := h.stages
  have hsources := h.holds
  rw [hc] at hnow hsources
  have howing := hnow ⟨next, hn⟩ (.owing s.served) (congrArg some (if_neg (Nat.lt_irrefl _)))
  obtain ⟨htaken, hcall⟩ := howing.call hread
  have hall : ∀ o ∈ sources ++ taken.map Piece.request, o = s.served := by
    intro o ho
    rcases List.mem_append.1 ho with ho | ho
    · exact hsources o ho
    · obtain ⟨p, hp, rfl⟩ := List.mem_map.1 ho
      exact htaken p hp
  rcases hcall with rfl | rfl | ⟨p, rfl, hpos, hle, hat⟩
  · exact h.leave (h.waits _) (fun _ => rfl) trivial
  · exact h.leave (h.waits _) (fun _ => rfl) trivial
  · rcases readWholePacket_round e.errorText e.alloc packet hpos hle with
      ⟨hshort, buf, hbuf⟩ | ⟨hlong, packet', hpacket⟩
    · rw [hbuf]
      rw [if_pos (show p.Short from hshort)] at hat
      unfold serverRead
      dsimp only
      rw [if_pos (show Status.Ok.ok = true from rfl)]
      split
      · -- the answer is complete, the connection owes nothing any more
        refine h.moved (h.waits _) (fun st hst => ?_) (fun j hj st hst => ?_) hall
        · cases hst
          rw [if_pos (Nat.lt_succ_self _)]
          exact hat
        · have hne : j.val ≠ next := fun heq => hj (Fin.ext heq)
          cases hst
          refine hnow j _ (congrArg some ?_)
          by_cases hlt : j.val < next
          · rw [if_pos hlt, if_pos (Nat.lt_succ_of_lt hlt)]
          · rw [if_neg hlt, if_neg (by omega)]
      · exact h.leave (h.waits _) (fun _ => rfl) trivial
    · rw [hpacket]
      rw [if_neg (show ¬ p.Short from hlong)] at hat
      refine h.moved (h.waits _) (fun st hst => ?_) (fun j _ => hnow j) hall
      cases hst
      rw [if_neg (Nat.lt_irrefl _)]
      exact hat

section Steps

variable {r w : Call} (h : Consistent e s) (hs : s.proxyStep e r w = some s')

include h hs

theorem head {status : Status} (hc : s.control = .head status) : Consistent e s' := by
  obtain rfl := proxyStep_head hs hc
  split
  · next hok =>
    refine h.goto (fun i st hst => h.stages i st ?_) trivial
    rw [hc]
    exact (if_pos hok).trans hst
  · exact h.goto (fun _ _ hst => (nomatch hst)) trivial

theorem reading {packet : ReadState} (hc : s.control = .reading packet) : Consistent e s' := by
  obtain ⟨result, taken, fromClient, -, rfl⟩ := proxyStep_reading hs hc
  have hidle : ∀ i, (s.link i).At (e.answers i) .idle := fun i =>
    h.stages i .idle (by rw [hc]; rfl)
  have hrest : Consistent e { s with fromClient } := ⟨h.waits, h.stages, h.holds, h.answered⟩
  unfold clientRead
  split
  · refine hrest.goto (fun i st hst => ?_) trivial
    cases hst
    exact hidle i
  · split
    · exact hrest.goto (fun _ _ hst => (nomatch hst)) trivial
    · exact hrest.start hidle _

theorem dispatch {i : Fin n} {left : List Bytes} (hc : s.control = .dispatch i left) :
    Consistent e s' := by
  have hnow := h.stages
  have hmsg := h.holds
  rw [hc] at hnow hmsg
  obtain ⟨bs, rest, rfl, rfl⟩ := proxyStep_dispatch hs hc
  refine h.sendPiece ?_ hmsg (congrArg some (if_pos rfl)) ?_ trivial ?_ id
  · rw [hc]
    exact congrArg some (if_pos rfl)
  · intro j hj st hst
    cases hst
    rw [if_neg hj]
    exact hnow j .idle (congrArg some (if_neg hj))
  · rw [hc]
    rfl

theorem fanOut {data : Bytes} {next : Nat} {left : List Bytes}
    (hc : s.control = .fanOut data next left) : Consistent e s' := by
  have hnow := h.stages
  have hmsg := h.holds
  rw [hc] at hnow hmsg
  obtain ⟨hn, bs, rest, rfl, rfl⟩ | ⟨hn, rfl⟩ := proxyStep_fanOut hs hc
  · refine h.sendPiece ?_ hmsg (congrArg some (if_pos (Nat.lt_succ_self _))) ?_
      (pieces_message data) ?_ id
    · rw [hc]
      exact congrArg some ((if_neg (Nat.lt_irrefl _)).trans (if_pos rfl))
    · intro j hj st hst
      have hne : j.val ≠ next := fun heq => hj (Fin.ext heq)
      cases hst
      by_cases hlt : j.val < next
      · rw [if_pos (Nat.lt_succ_of_lt hlt)]
        exact hnow j _ (congrArg some (if_pos hlt))
      · -- one of these connections is the next to be asked
        have hidle := hnow j .idle (congrArg some ((if_neg hlt).trans (if_neg hne)))
        rw [if_neg (by omega)]
        split
        · exact hidle.asking_of_idle
        · exact hidle
    · rw [hc]
      rfl
  · refine h.goto (fun i st hst => ?_) (fun _ ho => (nomatch ho))
    have hi : i.val < next := Nat.lt_of_lt_of_le i.isLt hn
    cases hst
    rw [if_neg (Nat.not_lt_zero _)]
    exact hnow i _ (congrArg some (if_pos hi))

theorem forward {i : Fin n} (hc : s.control = .forward i) : Consistent e s' := by
  have hnow := h.stages
  rw [hc] at hnow
  have howing := hnow i (.owing s.served) (congrArg some (if_pos rfl))
  have hidle : ∀ j, j ≠ i → (s.link j).At (e.answers j) .idle := fun j hj =>
    hnow j .idle (congrArg some (if_neg hj))
  obtain ⟨result, taken, toProxy, hread, rfl⟩ := proxyStep_forward hs hc
  obtain ⟨htaken, hcall⟩ := howing.call hread
  have hwrote : ∀ sent : List Bytes, Consistent e { s with
      toClient := s.toClient ++ sent.map (Written.mk s.served (taken.map Piece.request)) } := by
    intro sent
    refine h.wrote fun w hw o ho => ?_
    obtain ⟨bs, -, rfl⟩ := List.mem_map.1 hw
    obtain ⟨p, hp, rfl⟩ := List.mem_map.1 ho
    exact htaken p hp
  have hleave : ∀ (status : Status) (sent : List Bytes), status.ok = false → Consistent e
      { s.setLink i { s.link i with toProxy } with
        toClient := s.toClient ++ sent.map (Written.mk s.served (taken.map Piece.request))
        control := .head status } := by
    intro status sent hok
    exact (hwrote sent).leave (h.waits i) (fun _ => if_neg (Bool.eq_false_iff.1 hok)) trivial
  rcases hcall with rfl | rfl | ⟨p, rfl, hpos, hle, hat⟩
  · exact hleave (.Err e.errorText) [] rfl
  · exact hleave .Eof [] rfl
  · rw [forwardPacket_round _ _ _ hpos hle]
    by_cases hw : w.written p.bytes ≤ 0
    · rw [if_pos hw]
      exact hleave .Eof [] rfl
    · rw [if_neg hw]
      by_cases hshort : p.Short
      · rw [if_pos (show p.bytes.length < kMaxNetPacketSize from hshort)]
        rw [if_pos hshort] at hat
        refine (hwrote _).moved (h.waits i) (fun st hst => ?_) (fun j hj st hst => ?_) trivial
        · cases hst
          exact hat
        · cases hst
          exact hidle j hj
      · rw [if_neg (show ¬ p.bytes.length < kMaxNetPacketSize from hshort)]
        rw [if_neg hshort] at hat
        refine (hwrote _).moved (h.waits i) (fun st hst => ?_) (fun j hj st hst => ?_) trivial
        · cases hst
          rw [if_pos rfl]
          exact hat
        · cases hst
          rw [if_neg hj]
          exact hidle j hj

theorem collect {next : Nat} {packet : ReadState} {keys : List Bytes} {sources : List Nat}
    (hc : s.control = .collect next packet keys sources) : Consistent e s' := by
  obtain ⟨hn, result, taken, toProxy, hread, rfl⟩ | ⟨hn, hs⟩ := proxyStep_collect hs hc
  · exact h.collectRead hc hn hread
  · have hnow := h.stages
    have hsources := h.holds
    rw [hc] at hnow hsources
    obtain ⟨data, rfl⟩ | rfl := hs
    · refine h.goto (fun i st hst => ?_) hsources
      have hi : i.val < next := Nat.lt_of_lt_of_le i.isLt hn
      cases hst
      exact hnow i .idle (congrArg some (if_pos hi))
    · exact h.goto (fun _ _ hst => (nomatch hst)) trivial

theorem respond {left : List Bytes} {sources : List Nat} (hc : s.control = .respond left sources) :
    Consistent e s' := by
  have hnow := h.stages
  have hsources := h.holds
  rw [hc] at hnow hsources
  obtain ⟨bs, rest, rfl, rfl⟩ := proxyStep_respond hs hc
  split
  · exact h.goto (fun _ _ hst => (nomatch hst)) trivial
  · have hone : ∀ w ∈ [(⟨s.served, sources, bs⟩ : Written)], ∀ o ∈ w.sources, o = w.request := by
      intro w hw
      rw [List.mem_singleton.1 hw]
      exact hsources
    have hwrote := h.wrote hone
    by_cases hl : rest = []
    · rw [if_pos hl]
      exact hwrote.goto hnow trivial
    · rw [if_neg hl]
      exact hwrote.goto hnow hsources

/-- One step of the loop, at whatever call it stands. -/
theorem proxyStep : Consistent e s' := by
  cases hc : s.control with
  | head status => exact h.head hs hc
  | reading packet => exact h.reading hs hc
  | dispatch i left => exact h.dispatch hs hc
  | forward i => exact h.forward hs hc
  | fanOut data next left => exact h.fanOut hs hc
  | collect next packet keys sources => exact h.collect hs hc
  | respond left sources => exact h.respond hs hc
  | returned => exact absurd hc (proxyStep_running hs).1
  | crashed => exact absurd hc (proxyStep_running hs).2

end Steps

theorem step {a : Action n} (h : Consistent e s) (hs : s.step e a = some s') : Consistent e s' := by
  cases a with
  | proxy r w => exact h.proxyStep hs
  | shardRead i =>
    obtain ⟨l, hl, hs⟩ := Option.bind_eq_some_iff.1 hs
    cases hs
    exact h.follows (Link.shardRead_follows hl)
  | shardWrite i =>
    obtain ⟨l, hl, hs⟩ := Option.bind_eq_some_iff.1 hs
    cases hs
    exact h.follows (Link.shardWrite_follows hl)
  | client bs =>
    cases hs
    exact ⟨h.waits, h.stages, h.holds, h.answered⟩

theorem of_reachable (h : Reachable (ProxyLoop.step e) ProxyLoop.init s) : Consistent e s :=
  h.invariant init fun _ _ _ => step

/-- Connections at rest are quiet. -/
theorem quiet (h : Consistent e s) {i : Fin n}
    (hi : s.control.stage s.served i = some .idle) : (s.link i).Quiet := by
  obtain ⟨hdue, hclosed⟩ := h.stages i _ hi
  exact Link.quiet_of_due hdue hclosed (h.waits i)

end Consistent

/-! ## Between two requests -/

/-- The loop is about to read a request: `while (status.ok())` holds, or `ReadFromClient` runs. -/
def atRequest (s : ProxyLoop n) : Bool :=
  match s.control with
  | .head status => status.ok
  | .reading _ => true
  | _ => false

theorem stage_of_atRequest (h : s.atRequest = true) (i : Fin n) :
    s.control.stage s.served i = some .idle := by
  unfold atRequest at h
  split at h
  · next status hc =>
    rw [hc]
    exact if_pos h
  · next packet hc =>
    rw [hc]
    rfl
  · cases h

/-- In every run, whatever fails: when the loop is about to read a request no connection to a shard
carries a request or an answer, and what went to the client for a request comes from answers to it.
That these are also the bytes of the keys the shards answered is part of `ByteCluster.bytes_refine`. -/
theorem loopHead_quiet (e : ProxyEnv n) {s : ProxyLoop n}
    (h : Reachable (ProxyLoop.step e) ProxyLoop.init s) :
    (s.atRequest = true → ∀ i, (s.link i).Quiet) ∧
      ∀ w ∈ s.toClient, ∀ o ∈ w.sources, o = w.request := by
  have hs := Consistent.of_reachable h
  exact ⟨fun hrequest i => hs.quiet (stage_of_atRequest hrequest i), hs.answered⟩

/-- A request that comes in one short write is read at once. -/
theorem proxyStep_of_short {packet : ReadState} {bs : Bytes} {rest : List Bytes} (w : Call)
    (hc : s.control = .reading packet) (hclient : s.fromClient = bs :: rest) (hpos : 0 < bs.length)
    (hlt : bs.length < kMaxNetPacketSize) (hreq : bs.length ≤ (packet.prepare e.alloc).bufLen) :
    s.proxyStep e .done w = some ({ s with fromClient := rest }.start (packet.buf.data ++ bs)) := by
  have hd := readWholePacket_short e.alloc e.errorText packet hpos hlt hreq
  have hread : Call.done.read id s.fromClient = some (.data bs, [bs], rest) := by
    rw [hclient]
    rfl
  simp only [proxyStep, hc]
  refine Option.bind_eq_some_iff.2 ⟨_, hread, congrArg some ?_⟩
  exact (congrArg (clientRead _) hd).trans rfl

/-- Two shards that answer "x" to every Get. -/
def answerX : ProxyEnv 2 where
  alloc := .exact
  errorText := []
  fresh _ := ⟨[], []⟩
  answers _ _ := [13, 0, 0, 0, 0, 0, 2, 0, 0, 0, 79, 75, 1, 0, 0, 0, 120]

/-- The client asks for "a_1", and the proxy is told. -/
def readGet : List (Action n) :=
  [.client [8, 0, 0, 0, 0, 3, 0, 0, 0, 97, 95, 49], .proxy .done .done, .proxy .done .done]

/-- The proxy asks shard `i` and passes its answer on. -/
def passGet (i : Fin n) : List (Action n) :=
  [.proxy .done .done, .shardRead i, .shardWrite i, .proxy .done .done, .proxy .done .done]

theorem loopHead_quiet_get :
    ∃ s, Machine.run (step answerX) init (readGet ++ passGet 0) = some s ∧
      s.toClient.map (fun w => (w.request, w.bytes)) = [(1, answerX.answers 0 0)] ∧
      (∀ i, (s.link i).Quiet) ∧ ∀ w ∈ s.toClient, ∀ o ∈ w.sources, o = w.request := by
  have hread := proxyStep_of_short (e := answerX)
    (s := ⟨.reading (.init .exact), 0, [[8, 0, 0, 0, 0, 3, 0, 0, 0, 97, 95, 49]], [], fun _ => .init⟩)
    .done rfl rfl (by decide) (by decide) (by decide)
  have hstart : Machine.run (step answerX) init readGet = _ :=
    Option.bind_eq_some_iff.2 ⟨_, rfl, Option.bind_eq_some_iff.2 ⟨_, rfl,
      Option.bind_eq_some_iff.2 ⟨_, hread, rfl⟩⟩⟩
  have hpass : (Machine.run (step answerX) (start ⟨.reading (.init .exact), 0, [], [], fun _ => .init⟩
      [8, 0, 0, 0, 0, 3, 0, 0, 0, 97, 95, 49]) (passGet 0)).map
        (fun s => (s.atRequest, s.toClient.map fun w => (w.request, w.bytes))) =
      some (true, [(1, answerX.answers 0 0)]) := by
    decide +kernel
  obtain ⟨s, hs, heq⟩ := Option.map_eq_some_iff.1 hpass
  obtain ⟨hrequest, hclient⟩ := Prod.mk.inj heq
  have hrun := run_append hstart hs
  obtain ⟨hquiet, hanswered⟩ := loopHead_quiet answerX (Reachable.init.run hrun)
  exact ⟨s, hrun, hclient, hquiet hrequest, hanswered⟩

end ProxyLoop

end SqpKv
