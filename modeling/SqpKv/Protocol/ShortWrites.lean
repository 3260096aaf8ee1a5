import SqpKv.Lib.Arrivals
import SqpKv.Lib.Writes
import SqpKv.Protocol.Transfer

/-!
# What Ok says when writes are short (SendPacket and ForwardPacket of src/protocol/protocol.cc)

Both loops look at the sign of what `write` returns and go on with the next
piece, however much was taken; and `SendPacket` counts in 32 bits, so it sends
`wrapped data`.  An Ok therefore stands for a complete transfer exactly when
some call has failed (there is no Ok then), or

    every write takes its whole piece     and, for SendPacket, wrapped data = data

where the second holds of up to `2 ^ 32` bytes (`transfer_ok_iff`).
-/

namespace SqpKv

open Wire

/-! ## `SendPacket` -/

/-- The bytes `SendPacket` reads: behind `2 ^ 32` it starts again. -/
def wrapped (data : Bytes) : Bytes := (List.range data.length).map fun j => data.getD (j % 2 ^ 32) 0

@[simp] theorem wrapped_length (data : Bytes) : (wrapped data).length = data.length := by
  rw [wrapped, List.length_map, List.length_range]

theorem wrapped_getElem? {data : Bytes} {j : Nat} (h : j < data.length) :
    (wrapped data)[j]? = data[j % 2 ^ 32]? := by
  have hj : j % 2 ^ 32 < data.length := Nat.lt_of_le_of_lt (Nat.mod_le _ _) h
  rw [wrapped, List.getElem?_map, List.getElem?_range h, Option.map_some, List.getD_eq_getElem?_getD,
    List.getElem?_eq_getElem hj, Option.getD_some]

theorem wrapped_eq {data : Bytes} (h : data.length ≤ 2 ^ 32) : wrapped data = data := by
  apply List.ext_getElem?
  intro j
  by_cases hj : j < data.length
  · rw [wrapped_getElem? hj, Nat.mod_eq_of_lt (by omega)]
  · rw [List.getElem?_eq_none (by rw [wrapped_length]; omega), List.getElem?_eq_none (by omega)]

/-- A piece does not lie across `2 ^ 32`. -/
theorem wrapped_piece {data : Bytes} {off k : Nat} (hoff : kMaxNetPacketSize ∣ off)
    (hk : k ≤ kMaxNetPacketSize) (hlen : off + k ≤ data.length) :
    (data.drop (off % 2 ^ 32)).take k = ((wrapped data).drop off).take k := by
  have hpiece : kMaxNetPacketSize = 131072 := rfl
  rw [hpiece] at hoff hk
  apply List.ext_getElem?
  intro j
  by_cases hj : j < k
  · rw [List.getElem?_take_of_lt hj, List.getElem?_take_of_lt hj, List.getElem?_drop,
      List.getElem?_drop, wrapped_getElem? (by omega)]
    congr 1
    omega
  · rw [List.getElem?_eq_none (by rw [List.length_take]; omega),
      List.getElem?_eq_none (by rw [List.length_take]; omega)]

theorem terminator_wrapped (data : Bytes) : terminator (wrapped data) = terminator data := by
  rw [terminator, terminator, wrapped_length]

/-- The loop writes the pieces of `wrapped data` up to the first write that fails. -/
theorem sendLoop_spec (w : Writer) (errorText data : Bytes) {size off : Nat}
    (hoff : kMaxNetPacketSize ∣ off) (hsize : off + size = data.length) (sent : List Bytes) :
    (Succeeds w sent.length (pieces ((wrapped data).drop off)) →
      sendLoop w errorText data size (off % 2 ^ 32) sent =
        (.Ok, sent ++ taken w sent.length (pieces ((wrapped data).drop off)))) ∧
    (¬ Succeeds w sent.length (pieces ((wrapped data).drop off)) →
      ∃ front rest, pieces ((wrapped data).drop off) = front ++ rest ∧ rest ≠ [] ∧
        sendLoop w errorText data size (off % 2 ^ 32) sent =
          (.Err errorText, sent ++ taken w sent.length front)) := by
  induction hn : size using Nat.strongRecOn generalizing size off sent with
  | _ n ih =>
    subst hn
    have hk : kMaxNetPacketSize = 131072 := rfl
    have hrest : ((wrapped data).drop off).length = size := by
      rw [List.length_drop, wrapped_length]
      omega
    rw [sendLoop]
    by_cases hlt : size < kMaxNetPacketSize
    · have hpiece := wrapped_piece (k := size) hoff (Nat.le_of_lt hlt) (Nat.le_of_eq hsize)
      rw [List.take_of_length_le (Nat.le_of_eq hrest)] at hpiece
      rw [pieces_of_lt (by omega), hpiece]
      by_cases hpos : 0 < size
      · have hne : (wrapped data).drop off ≠ [] := List.ne_nil_of_length_pos (by omega)
        rw [if_pos hpos, if_neg (Nat.not_le.2 hlt), if_neg hne]
        simp only [Succeeds, taken, and_true]
        constructor
        · intro hw
          rw [if_neg (by omega)]
        · intro hw
          refine ⟨[], [(wrapped data).drop off], rfl, List.cons_ne_nil _ _, ?_⟩
          rw [if_pos (by omega), taken, List.append_nil]
      · have hnil : (wrapped data).drop off = [] := List.length_eq_zero_iff.1 (by omega)
        rw [if_neg hpos, if_pos hnil]
        simp only [Succeeds, taken, and_true]
        constructor
        · intro hw
          -- the terminator is taken if its write does not fail
          rw [if_neg (by omega), List.take_of_length_le (by rw [List.length_singleton]; omega)]
        · intro hw
          refine ⟨[], [[0]], rfl, List.cons_ne_nil _ _, ?_⟩
          rw [if_pos (by omega), taken, List.append_nil]
    · have hge := Nat.not_lt.1 hlt
      have hpiece := wrapped_piece hoff (Nat.le_refl kMaxNetPacketSize)
        (show off + kMaxNetPacketSize ≤ data.length by omega)
      have hnext : toUInt32 (off % 2 ^ 32 + kMaxNetPacketSize) =
          (off + kMaxNetPacketSize) % 2 ^ 32 := by
        unfold toUInt32
        omega
      have hstep := fun sent => ih (size - kMaxNetPacketSize) (by omega)
        (Nat.dvd_add hoff (Nat.dvd_refl kMaxNetPacketSize))
        (show off + kMaxNetPacketSize + (size - kMaxNetPacketSize) = data.length by omega) sent rfl
      have hlong := pieces_of_ge (show kMaxNetPacketSize ≤ ((wrapped data).drop off).length by omega)
      rw [if_pos (by omega), if_pos hge, hlong, hpiece, hnext, List.drop_drop]
      generalize ((wrapped data).drop off).take kMaxNetPacketSize = piece
      rw [Succeeds, taken]
      by_cases hw : 0 < w sent.length piece
      · obtain ⟨hok, herr⟩ := hstep (sent ++ [piece.take (w sent.length piece).toNat])
        rw [List.length_append, List.length_singleton] at hok herr
        rw [if_neg (by omega)]
        constructor
        · rintro ⟨-, hs⟩
          rw [hok hs, List.append_assoc]
          rfl
        · intro hs
          obtain ⟨front, rest, hsplit, hrest, hsent⟩ := herr fun h => hs ⟨hw, h⟩
          refine ⟨piece :: front, rest, by rw [hsplit]; rfl, hrest, ?_⟩
          rw [hsent, taken, List.append_assoc]
          rfl
      · rw [if_pos (by omega)]
        refine ⟨fun h => absurd h.1 hw, fun _ => ?_⟩
        exact ⟨[], _, rfl, List.cons_ne_nil _ _, by rw [taken, List.append_nil]⟩

/-- `SendPacket`: an error as soon as a write fails. -/
theorem sendPacket_spec (w : Writer) (errorText data : Bytes) :
    (Succeeds w 0 (pieces (wrapped data)) →
      sendPacket w errorText data = (.Ok, taken w 0 (pieces (wrapped data)))) ∧
    (¬ Succeeds w 0 (pieces (wrapped data)) →
      ∃ front rest, pieces (wrapped data) = front ++ rest ∧ rest ≠ [] ∧
        sendPacket w errorText data = (.Err errorText, taken w 0 front)) :=
  sendLoop_spec w errorText data (Nat.dvd_zero _) (Nat.zero_add _) []

/-- An Ok of `SendPacket` says that the socket took the data, and the terminator if there is one. -/
def SendsAll (w : Writer) (errorText data : Bytes) : Prop :=
  (sendPacket w errorText data).1.ok = true →
    (sendPacket w errorText data).2.flatten = data ++ terminator data

theorem sendsAll_iff {w : Writer} (hw : TakesPart w) (errorText data : Bytes) :
    SendsAll w errorText data ↔ (Succeeds w 0 (pieces (wrapped data)) →
      TakesWhole w 0 (pieces (wrapped data)) ∧ wrapped data = data) := by
  obtain ⟨hok, herr⟩ := sendPacket_spec w errorText data
  have hflat : (pieces (wrapped data)).flatten = wrapped data ++ terminator data := by
    rw [pieces_flatten, terminator_wrapped]
  unfold SendsAll
  by_cases hs : Succeeds w 0 (pieces (wrapped data))
  · rw [hok hs]
    constructor
    · intro h _
      have hall := h rfl
      have hlen := congrArg List.length hall
      have hwhole := takesWhole_of_length hw hs (by
        rw [hlen, hflat, List.length_append, List.length_append, wrapped_length])
      refine ⟨hwhole, ?_⟩
      replace hall : (taken w 0 (pieces (wrapped data))).flatten = _ := hall
      rw [taken_of_takesWhole hwhole, hflat] at hall
      exact List.append_cancel_right hall
    · intro h _
      obtain ⟨hwhole, heq⟩ := h hs
      show (taken w 0 (pieces (wrapped data))).flatten = _
      rw [taken_of_takesWhole hwhole, hflat, heq]
  · obtain ⟨front, rest, -, -, hsent⟩ := herr hs
    rw [hsent]
    exact iff_of_true Bool.false_ne_true.elim fun h => absurd h hs

/-! ## `ForwardPacket` -/

/-- The chunks of the packet that these reads give: full ones and a shorter one.  There is none when a
read fails, or is at the end of the stream, before that. -/
def packetRead : List ReadResult → Option (List Bytes)
  | .data bs :: results =>
    if bs = [] then none
    else if bs.length < kMaxNetPacketSize then some [bs]
    else (packetRead results).map (bs :: ·)
  | _ => none

/-- `read` gives no more than was asked for. -/
def ReadsPart (results : List ReadResult) : Prop :=
  ∀ bs, ReadResult.data bs ∈ results → bs.length ≤ kMaxNetPacketSize

section

variable (w : Writer) (errorText : Bytes)

/-- One round on a chunk that is not empty. -/
theorem forwardPacket_chunk (sent : List Bytes) {bs : Bytes} (hne : bs ≠ [])
    (hle : bs.length ≤ kMaxNetPacketSize) :
    (forwardPacket w errorText).deliver sent (.data bs) =
      if w sent.length bs ≤ 0 then .inr (.Eof, sent)
      else if bs.length < kMaxNetPacketSize then
        .inr (.Ok, sent ++ [bs.take (w sent.length bs).toNat])
      else .inl (sent ++ [bs.take (w sent.length bs).toNat]) := by
  have hk : kMaxNetPacketSize = 131072 := rfl
  have hpos := List.length_pos_of_ne_nil hne
  have hrc : toInt32 bs.length = bs.length := toInt32_of_lt (by omega)
  unfold forwardPacket
  dsimp only
  rw [hrc, Int.toNat_natCast, List.take_length, if_neg (by omega), if_neg (by omega)]

/-- When `ForwardPacket` returns Ok, and what the destination has taken then. -/
theorem forwardPacket_run_ok {results : List ReadResult} (hresults : ReadsPart results)
    (sent : List Bytes) {sent' : List Bytes} {unread : List ReadResult} :
    (forwardPacket w errorText).run sent results = .returned (.Ok, sent') unread ↔
      ∃ cs, packetRead results = some cs ∧ Succeeds w sent.length cs ∧
        sent' = sent ++ taken w sent.length cs ∧ results = cs.map .data ++ unread := by
  induction results generalizing sent with
  | nil =>
    constructor
    · intro h
      cases h
    · rintro ⟨cs, h, -⟩
      cases h
  | cons result results ih =>
    have hrest : ReadsPart results := fun bs h => hresults bs (List.mem_cons_of_mem _ h)
    cases result with
    | failed =>
      constructor
      · intro h
        cases h
      · rintro ⟨cs, h, -⟩
        cases h
    | data bs =>
      rw [packetRead, Receiver.run]
      by_cases hne : bs = []
      · subst hne
        constructor
        · intro h
          cases h
        · rintro ⟨cs, h, -⟩
          cases h
      · rw [forwardPacket_chunk w errorText sent hne (hresults bs List.mem_cons_self), if_neg hne]
        by_cases hw : w sent.length bs ≤ 0
        · -- the write fails, and the status is Eof
          rw [if_pos hw]
          constructor
          · intro h
            cases h
          · rintro ⟨cs, hcs, hs, -⟩
            split at hcs
            · cases hcs
              exact absurd hs.1 (by omega)
            · obtain ⟨cs', -, rfl⟩ := Option.map_eq_some_iff.1 hcs
              exact absurd hs.1 (by omega)
        · rw [if_neg hw]
          by_cases hlt : bs.length < kMaxNetPacketSize
          · rw [if_pos hlt, if_pos hlt]
            constructor
            · rintro ⟨⟩
              exact ⟨[bs], rfl, ⟨by omega, trivial⟩, rfl, rfl⟩
            · rintro ⟨cs, hcs, -, rfl, h⟩
              cases hcs
              obtain rfl := (List.cons.inj h).2
              rfl
          · rw [if_neg hlt, if_neg hlt]
            refine (ih hrest _).trans ?_
            rw [List.length_append, List.length_singleton]
            constructor
            · rintro ⟨cs, hcs, hs, rfl, rfl⟩
              exact ⟨bs :: cs, by rw [hcs]; rfl, ⟨by omega, hs⟩, by rw [List.append_assoc]; rfl, rfl⟩
            · rintro ⟨cs, hcs, hs, rfl, h⟩
              obtain ⟨cs', hcs', rfl⟩ := Option.map_eq_some_iff.1 hcs
              exact ⟨cs', hcs', hs.2, by rw [List.append_assoc]; rfl, (List.cons.inj h).2⟩

end

/-- The reads that give a packet come first, and none of them is at the end of the stream. -/
theorem packetRead_eq_some {results : List ReadResult} {cs : List Bytes}
    (h : packetRead results = some cs) :
    (∀ c ∈ cs, c ≠ []) ∧ ∃ unread, results = cs.map .data ++ unread := by
  induction results generalizing cs with
  | nil => cases h
  | cons result results ih =>
    cases result with
    | failed => cases h
    | data bs =>
      rw [packetRead] at h
      split at h
      · cases h
      · next hne =>
        split at h
        · cases h
          exact ⟨List.forall_mem_singleton.2 hne, results, rfl⟩
        · obtain ⟨cs', hcs', rfl⟩ := Option.map_eq_some_iff.1 h
          obtain ⟨hall, unread, rfl⟩ := ih hcs'
          exact ⟨List.forall_mem_cons.2 ⟨hne, hall⟩, unread, rfl⟩

/-- An Ok of `ForwardPacket` says that the destination took the bytes that were read. -/
def ForwardsAll (w : Writer) (errorText : Bytes) (results : List ReadResult) : Prop :=
  ∀ sent unread, (forwardPacket w errorText).run [] results = .returned (.Ok, sent) unread →
    ∃ cs : List Bytes, results = cs.map .data ++ unread ∧ sent.flatten = cs.flatten

theorem forwardsAll_iff {w : Writer} (hw : TakesPart w) (errorText : Bytes)
    {results : List ReadResult} (hresults : ReadsPart results) :
    ForwardsAll w errorText results ↔
      ∀ cs, packetRead results = some cs → Succeeds w 0 cs → TakesWhole w 0 cs := by
  constructor
  · intro h cs hcs hs
    obtain ⟨-, unread, hsplit⟩ := packetRead_eq_some hcs
    obtain ⟨cs', hsplit', hflat⟩ := h _ unread
      ((forwardPacket_run_ok w errorText hresults []).2 ⟨cs, hcs, hs, rfl, hsplit⟩)
    rw [hsplit] at hsplit'
    have hsame : cs = cs' := by
      have hmap := List.append_cancel_right hsplit'
      exact List.map_injective_iff.2 (fun a b h => ReadResult.data.inj h) hmap
    rw [← hsame] at hflat
    exact (taken_flatten_iff hw hs).1 hflat
  · intro h sent unread hrun
    obtain ⟨cs, hcs, hs, rfl, hsplit⟩ := (forwardPacket_run_ok w errorText hresults []).1 hrun
    exact ⟨cs, hsplit, (taken_flatten_iff hw hs).2 (h cs hcs hs)⟩

/-! ## Both -/

/-- **When Ok means that everything was transferred.** -/
theorem transfer_ok_iff (w : Writer) (hw : TakesPart w) (errorText : Bytes) :
    (∀ data, SendsAll w errorText data ↔ (Succeeds w 0 (pieces (wrapped data)) →
      TakesWhole w 0 (pieces (wrapped data)) ∧ wrapped data = data)) ∧
    (∀ results, ReadsPart results → (ForwardsAll w errorText results ↔
      ∀ cs, packetRead results = some cs → Succeeds w 0 cs → TakesWhole w 0 cs)) :=
  ⟨fun data => sendsAll_iff hw errorText data, fun _ hresults => forwardsAll_iff hw errorText hresults⟩

theorem completeWriter_takesPart : TakesPart completeWriter := fun _ _ => Int.le_refl _

/-- Writes that take everything. -/
theorem transfer_ok_complete :
    (∀ data, SendsAll completeWriter [] data ↔ (Succeeds completeWriter 0 (pieces (wrapped data)) →
      TakesWhole completeWriter 0 (pieces (wrapped data)) ∧ wrapped data = data)) ∧
    (∀ results, ReadsPart results → (ForwardsAll completeWriter [] results ↔
      ∀ cs, packetRead results = some cs → Succeeds completeWriter 0 cs →
        TakesWhole completeWriter 0 cs)) :=
  transfer_ok_iff completeWriter completeWriter_takesPart []

/-- A socket that takes one byte at a time. -/
def byteWriter : Writer := fun _ bs => min 1 bs.length

theorem byteWriter_takesPart : TakesPart byteWriter := by
  intro i bs
  show min 1 (bs.length : Int) ≤ bs.length
  omega

/-- Two bytes are sent, or forwarded, with Ok, and one is taken. -/
theorem transfer_short :
    TakesPart byteWriter ∧ ¬ SendsAll byteWriter [] [1, 2] ∧ ¬ ForwardsAll byteWriter [] [.data [1, 2]] := by
  have hk : kMaxNetPacketSize = 131072 := rfl
  have hpart := byteWriter_takesPart
  have hlen : ([1, 2] : Bytes).length < kMaxNetPacketSize := by
    show 2 < kMaxNetPacketSize
    omega
  have hsucceeds : Succeeds byteWriter 0 [[1, 2]] := ⟨by decide, trivial⟩
  have hnot : ¬ TakesWhole byteWriter 0 [[1, 2]] := by
    rintro ⟨h, -⟩
    revert h
    decide
  have hpieces : pieces (wrapped [1, 2]) = [[1, 2]] := by
    rw [wrapped_eq (by decide), pieces_of_lt hlen, if_neg (by decide)]
  refine ⟨hpart, ?_, ?_⟩
  · rw [sendsAll_iff hpart, hpieces]
    intro h
    exact hnot (h hsucceeds).1
  · rw [forwardsAll_iff hpart]
    · intro h
      refine hnot (h [[1, 2]] ?_ hsucceeds)
      rw [packetRead, if_neg (by decide), if_pos hlen]
    · intro bs hbs
      rw [List.mem_singleton] at hbs
      cases hbs
      exact Nat.le_of_lt hlen

end SqpKv
