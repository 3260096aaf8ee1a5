import SqpKv.Cluster.Levels
import SqpKv.Server.KvLoop
import SqpKv.Server.Quiescence

/-!
# The steps of one connection

What the worker of a shard and the proxy do to their connection keeps the two
levels together.  The worker has the command exactly when it reads the last
piece of one that the proxy has written to the end; the proxy has the response
exactly when it reads the last piece of it:

    the worker reads p    it reads on, or the lane is asked c and what it has read decodes to c     (LaneRel.worker_reads)
    the proxy reads p     a packet has begun, or the lane is answered r and what it has decodes to r   (LaneRel.proxy_reads)
-/

namespace SqpKv

open Wire

/-! ## Calls -/

/-- How a read from a queue goes. -/
theorem Call.read_cases {α : Type} {bytes : α → Bytes} {r : Call} {queue taken rest : List α}
    {result : ReadResult} (h : r.read bytes queue = some (result, taken, rest)) :
    (∃ a, queue = a :: rest ∧ result = .data (bytes a) ∧ taken = [a]) ∨
      (r ≠ .done ∧ (result = .failed ∨ result = .data []) ∧ rest = queue ∧ taken = []) := by
  by_cases hr : r = .done
  · subst hr
    exact .inl (Call.read_done h)
  · refine .inr ⟨hr, Call.read_of_ne hr h, ?_⟩
    cases r with
    | done => exact absurd rfl hr
    | failed =>
      cases h
      exact ⟨rfl, rfl⟩
    | zero =>
      cases h
      exact ⟨rfl, rfl⟩

/-- A write that does not succeed. -/
theorem Call.ne_done_of_written {w : Call} {bs : Bytes} (hpos : 0 < bs.length)
    (hw : w.written bs ≤ 0) : w ≠ .done := by
  rintro rfl
  exact Call.written_pos hpos hw

/-- A write that succeeds. -/
theorem Call.eq_done_of_written {w : Call} {bs : Bytes} (hw : ¬ w.written bs ≤ 0) : w = .done := by
  by_contra hne
  exact hw (Call.written_nonpos hne bs)

theorem readWholePacket_givesUp (alloc : Allocator) (errorText : Bytes) (packet : ReadState)
    {result : ReadResult} (h : result = .failed ∨ result = .data []) :
    ∃ status, (readWholePacket alloc errorText).deliver packet result = .inr (status, []) ∧
      status.ok = false ∧ (status.err = true ∨ status.eof = true) := by
  rcases h with rfl | rfl
  · exact ⟨.Err errorText, rfl, rfl, .inl rfl⟩
  · exact ⟨.Eof, readWholePacket_eof alloc errorText packet, rfl, .inr rfl⟩

namespace LaneRel

variable {lost : Prop} {v : ByteLane} {l : Lane} {todo : Todo} {taken : List Bytes}

/-! ## The worker -/

/-- A step of the worker between two commands, or behind the loop. -/
theorem worker_goes (h : LaneRel lost v l todo taken) {w : KvControl}
    (hgot : ∀ got, v.worker.Got got → w.Got got) (hgone : v.worker.Gone → w.Gone)
    (hsend : ∀ rest, v.worker ≠ .sending rest) : LaneRel lost { v with worker := w } l todo taken := by
  cases h with
  | quiet hw hto hfrom hl htodo htaken => exact .quiet (hgot _ hw) hto hfrom hl htodo htaken
  | asking hw hto hrest hfrom hl hsize htodo htaken =>
    exact .asking (hgot _ hw) hto hrest hfrom hl hsize htodo htaken
  | asked hw hto hfrom hl hsize htodo htaken =>
    exact .asked (hgot _ hw) hto hfrom hl hsize htodo htaken
  | answered hw hto hfrom hdata hl htodo =>
    refine .answered ?_ hto hfrom hdata hl htodo
    rcases hw with ⟨hw, -⟩ | ⟨hrest, hw⟩
    · exact absurd hw (hsend _)
    · exact .inr ⟨hrest, hw.imp (hgot _) (And.imp_right hgone)⟩
  | gone hlost hw hfrom => exact .gone hlost (hgone hw) hfrom

/-- The worker leaves its loop when it should read. -/
theorem worker_leaves (h : LaneRel lost v l todo taken) (hlost : lost) {packet : ReadState}
    (hread : v.worker = .reading packet) {w : KvControl} (hw : w.Gone) :
    LaneRel lost { v with worker := w } l todo taken := by
  have leave : taken = [] → v.toProxy = [] → LaneRel lost { v with worker := w } l todo taken := by
    intro htaken hfrom
    refine .gone hlost hw ?_
    rw [htaken]
    show Begins ([] ++ v.toProxy)
    rw [hfrom]
    exact begins_nil
  cases h with
  | quiet _ _ hfrom _ _ htaken => exact leave htaken hfrom
  | asking _ _ _ hfrom _ _ _ htaken => exact leave htaken hfrom
  | asked _ _ hfrom _ _ _ htaken => exact leave htaken hfrom
  | answered hw' hto hfrom hdata hl htodo =>
    rcases hw' with ⟨hsend, -⟩ | ⟨hrest, -⟩
    · rw [hread] at hsend
      cases hsend
    · exact .answered (.inr ⟨hrest, .inr ⟨hlost, hw⟩⟩) hto hfrom hdata hl htodo
  | gone _ hgone _ =>
    rw [hread] at hgone
    exact hgone.elim

/-- The worker reads a piece of a command. -/
theorem worker_reads (h : LaneRel lost v l todo taken) {packet : ReadState} {p : Bytes}
    {ps : List Bytes} (hw : v.worker = .reading packet) (hp : v.toShard = p :: ps) (alloc : Allocator)
    (errorText : Bytes) :
    (∃ packet', (readWholePacket alloc errorText).deliver packet (.data p) = .inl packet' ∧
      LaneRel lost { v with toShard := ps, worker := .reading packet' } l todo taken) ∨
    ∃ c : Command, (readWholePacket alloc errorText).deliver packet (.data p) =
        .inr (.Ok, c.encoding ++ terminator c.encoding) ∧
      c.encoding.length < 2 ^ 32 ∧ ps = [] ∧ v.toProxy = [] ∧ l = ⟨[c], .idle, []⟩ ∧ todo = none ∧
      taken = [] := by
  cases h with
  | quiet _ hto =>
    rw [hp] at hto
    cases hto
  | asking hgot hto hrest hfrom hl hsize htodo htaken =>
    rw [hw] at hgot
    rw [hp, List.append_assoc] at hto
    obtain ⟨hnil, -⟩ | ⟨-, packet', hd, hgot'⟩ := ReadState.Reads.piece alloc errorText hgot hto
    · exact absurd (List.append_eq_nil_iff.1 hnil).2 hrest
    · exact .inl ⟨packet', hd, .asking hgot' (by simpa using hto) hrest hfrom hl hsize htodo htaken⟩
  | asked hgot hto hfrom hl hsize htodo htaken =>
    rw [hw] at hgot
    rw [hp] at hto
    obtain ⟨hnil, hd⟩ | ⟨-, packet', hd, hgot'⟩ := ReadState.Reads.piece alloc errorText hgot hto
    · exact .inr ⟨_, hd, hsize, hnil, hfrom, hl, htodo, htaken⟩
    · exact .inl ⟨packet', hd, .asked hgot' (by simpa using hto) hfrom hl hsize htodo htaken⟩
  | answered _ hto =>
    rw [hp] at hto
    cases hto
  | gone _ hgone =>
    rw [hw] at hgone
    exact hgone.elim

/-- The worker begins to answer. -/
theorem worker_answers {data : Bytes} (hw : v.worker = .sending (pieces data)) (hto : v.toShard = [])
    (hfrom : v.toProxy = []) {r : Response} (hdata : DecodesTo data r) :
    LaneRel lost v ⟨[], .idle, [r]⟩ none [] := by
  refine .answered (.inl ⟨hw, pieces_ne_nil data⟩) hto ?_ hdata rfl rfl
  rw [hfrom]
  rfl

/-- A worker that is writing has still to write the end of its response. -/
theorem sending (h : LaneRel lost v l todo taken) {rest : List Bytes} (hw : v.worker = .sending rest) :
    ∃ r data, rest ≠ [] ∧ v.toShard = [] ∧ taken ++ v.toProxy ++ rest = pieces data ∧
      DecodesTo data r ∧ l = ⟨[], .idle, [r]⟩ ∧ todo = none := by
  cases h with
  | answered hw' hto hfrom hdata hl htodo =>
    rcases hw' with ⟨hsend, hrest⟩ | ⟨-, hgot | ⟨-, hgone⟩⟩
    · rw [hw] at hsend
      cases hsend
      exact ⟨_, _, hrest, hto, hfrom, hdata, hl, htodo⟩
    · rw [hw] at hgot
      exact hgot.elim
    · rw [hw] at hgone
      exact hgone.elim
  | gone _ hgone =>
    rw [hw] at hgone
    exact hgone.elim
  | _ hgot =>
    rw [hw] at hgot
    exact hgot.elim

theorem sending_pos (h : LaneRel lost v l todo taken) {bs : Bytes} {rest : List Bytes}
    (hw : v.worker = .sending (bs :: rest)) : 0 < bs.length := by
  obtain ⟨r, data, -, -, hfrom, -⟩ := h.sending hw
  exact (piece_of_packet hfrom).1

/-- The worker writes a piece of its response. -/
theorem worker_writes (h : LaneRel lost v l todo taken) {bs : Bytes} {rest : List Bytes}
    (hw : v.worker = .sending (bs :: rest)) :
    LaneRel lost { v with
      worker := if rest = [] then .head false else .sending rest
      toProxy := v.toProxy ++ [bs] } l todo taken := by
  obtain ⟨r, data, -, hto, hfrom, hdata, hl, htodo⟩ := h.sending hw
  have hfrom' : taken ++ (v.toProxy ++ [bs]) ++ rest = pieces data := by
    rw [← hfrom]
    simp
  refine .answered ?_ hto hfrom' hdata hl htodo
  by_cases hrest : rest = []
  · refine .inr ⟨hrest, .inl ?_⟩
    show KvControl.Got [] (if rest = [] then _ else _)
    rw [if_pos hrest]
    exact ⟨rfl, rfl⟩
  · exact .inl ⟨if_neg hrest, hrest⟩

/-- The worker leaves its loop with a piece of its response unwritten. -/
theorem worker_fails (h : LaneRel lost v l todo taken) (hlost : lost) {bs : Bytes} {rest : List Bytes}
    (hw : v.worker = .sending (bs :: rest)) {w : KvControl} (hgone : w.Gone) :
    LaneRel lost { v with worker := w } l todo taken := by
  obtain ⟨r, data, hrest, -, hfrom, -⟩ := h.sending hw
  exact .gone hlost hgone ⟨data, _, hrest, hfrom⟩

/-! ## The proxy -/

/-- The proxy begins to send a command. -/
theorem proxy_asks (h : LaneRel lost v .quiet none []) {c : Command}
    (hsize : c.encoding.length < 2 ^ 32) :
    LaneRel lost v .quiet (some (c, pieces c.encoding)) [] := by
  cases h with
  | quiet hw hto hfrom hl htodo htaken =>
    refine .asking hw ?_ (pieces_ne_nil _) hfrom hl hsize rfl htaken
    rw [hto]
    rfl
  | asking _ _ _ _ _ _ htodo => cases htodo
  | asked _ _ _ hl => cases hl
  | answered _ _ _ _ hl => cases hl
  | gone hlost hw hfrom => exact .gone hlost hw hfrom

/-- What the proxy has still to write of a command. -/
theorem todo_pos {c : Command} {bs : Bytes} {rest : List Bytes}
    (h : LaneRel lost v l (some (c, bs :: rest)) taken) : lost ∨ 0 < bs.length := by
  cases h with
  | asking _ hto _ _ _ _ htodo =>
    cases htodo
    exact .inr (piece_of_packet hto).1
  | gone hlost => exact .inl hlost
  | quiet _ _ _ _ htodo => cases htodo
  | asked _ _ _ _ _ htodo => cases htodo
  | answered _ _ _ _ _ htodo => cases htodo

/-- Some of the command is left. -/
theorem todo_ne_nil {c : Command} {rest : List Bytes}
    (h : LaneRel False v l (some (c, rest)) taken) : rest ≠ [] := by
  cases h with
  | asking _ _ hrest _ _ _ htodo =>
    cases htodo
    exact hrest
  | gone hlost => exact hlost.elim
  | quiet _ _ _ _ htodo => cases htodo
  | asked _ _ _ _ _ htodo => cases htodo
  | answered _ _ _ _ _ htodo => cases htodo

/-- The proxy writes a piece of a command. -/
theorem proxy_writes {c : Command} {bs : Bytes} {rest : List Bytes}
    (h : LaneRel lost v l (some (c, bs :: rest)) taken) :
    LaneRel lost { v with toShard := v.toShard ++ [bs] } (if rest = [] then l.push c else l)
      (if rest = [] then none else some (c, rest)) taken := by
  cases h with
  | @asking c' got rest' hw hto _ hfrom hl hsize htodo htaken =>
    cases htodo
    have hto' : got ++ (v.toShard ++ [bs]) ++ rest = pieces c.encoding := by
      rw [← hto]
      simp
    by_cases hrest : rest = []
    · rw [if_pos hrest, if_pos hrest, hl]
      rw [hrest, List.append_nil] at hto'
      exact .asked hw hto' hfrom rfl hsize rfl htaken
    · rw [if_neg hrest, if_neg hrest]
      exact .asking hw hto' hrest hfrom hl hsize rfl htaken
  | gone hlost hw hfrom => exact .gone hlost hw hfrom
  | quiet _ _ _ _ htodo => cases htodo
  | asked _ _ _ _ _ htodo => cases htodo
  | answered _ _ _ _ _ htodo => cases htodo

/-- The proxy reads a piece of a response, and keeps it. -/
theorem proxy_pulls (h : LaneRel lost v l none taken) {p : Bytes} {ps : List Bytes}
    (hp : v.toProxy = p :: ps) : LaneRel lost { v with toProxy := ps } l none (taken ++ [p]) := by
  cases h with
  | answered hw hto hfrom hdata hl htodo =>
    refine .answered hw hto ?_ hdata hl htodo
    rw [← hfrom, hp]
    simp
  | gone hlost hw hfrom =>
    refine .gone hlost hw ?_
    rw [hp] at hfrom
    simpa using hfrom
  | quiet _ _ hfrom =>
    rw [hp] at hfrom
    cases hfrom
  | asking _ _ _ hfrom =>
    rw [hp] at hfrom
    cases hfrom
  | asked _ _ hfrom =>
    rw [hp] at hfrom
    cases hfrom

/-- The piece is one of a packet that has only begun, or it ends the shard's response. -/
theorem proxy_reads (h : LaneRel lost v l none taken) {p : Bytes} {ps : List Bytes}
    (hp : v.toProxy = p :: ps) :
    Begins (taken ++ [p]) ∨
      ∃ r data, taken ++ [p] = pieces data ∧ DecodesTo data r ∧ l = ⟨[], .idle, [r]⟩ ∧
        LaneRel lost { v with toProxy := ps } .quiet none [] := by
  cases h with
  | @answered r data rest hw hto hfrom hdata hl htodo =>
    have hfrom' : taken ++ [p] ++ (ps ++ rest) = pieces data := by
      rw [← hfrom, hp]
      simp
    by_cases hleft : ps ++ rest = []
    · obtain ⟨rfl, rfl⟩ := List.append_eq_nil_iff.1 hleft
      rw [hleft, List.append_nil] at hfrom'
      refine .inr ⟨r, data, hfrom', hdata, hl, ?_⟩
      rcases hw with ⟨-, hne⟩ | ⟨-, hgot | ⟨hlost, hgone⟩⟩
      · exact absurd rfl hne
      · exact .quiet hgot hto rfl rfl rfl rfl
      · exact .gone hlost hgone begins_nil
    · exact .inl ⟨data, _, hleft, hfrom'⟩
  | gone hlost hw hfrom =>
    rw [hp, List.append_cons] at hfrom
    exact .inl hfrom.left
  | quiet _ _ hfrom =>
    rw [hp] at hfrom
    cases hfrom
  | asking _ _ _ hfrom =>
    rw [hp] at hfrom
    cases hfrom
  | asked _ _ hfrom =>
    rw [hp] at hfrom
    cases hfrom

end LaneRel

end SqpKv
