import SqpKv.Protocol.Protocol

/-!
# Where a packet ends

`SendPacket` writes `pieces data`: full pieces, then one shorter piece.  A
receiver that is given these writes one by one finds the end
(`relay_transparent`).  A stream that cuts the bytes elsewhere may hide it:
`ReadWholePacket` reads everything and stops exactly when

    every chunk but the last has kMaxNetPacketSize bytes or more, the last has fewer   (readWholePacket_iff)

and when every read is served all that has arrived, the two receivers agree exactly when

    |p| / kMaxNetPacketSize  is zero or a power of two                                 (receivers_agree_iff)
-/

namespace SqpKv

open Wire

/-! ## The pieces of a packet -/

/-- What `SendPacket` writes, write by write. -/
def pieces (data : Bytes) : List Bytes :=
  if kMaxNetPacketSize ≤ data.length then
    data.take kMaxNetPacketSize :: pieces (data.drop kMaxNetPacketSize)
  else if data = [] then [[0]] else [data]
termination_by data.length
decreasing_by
  simp only [kMaxNetPacketSize, List.length_drop] at *
  omega

/-- The zero byte behind a packet that leaves no shorter piece. -/
def terminator (data : Bytes) : Bytes := if kMaxNetPacketSize ∣ data.length then [0] else []

theorem pieces_of_ge {data : Bytes} (h : kMaxNetPacketSize ≤ data.length) :
    pieces data = data.take kMaxNetPacketSize :: pieces (data.drop kMaxNetPacketSize) := by
  rw [pieces, if_pos h]

theorem pieces_of_lt {data : Bytes} (h : data.length < kMaxNetPacketSize) :
    pieces data = if data = [] then [[0]] else [data] := by
  rw [pieces, if_neg (by omega)]

theorem terminator_of_lt {data : Bytes} (h : data.length < kMaxNetPacketSize) :
    terminator data = if data = [] then [0] else [] := by
  unfold terminator
  by_cases hd : data = []
  · subst hd
    simp
  · have hpos := List.length_pos_of_ne_nil hd
    rw [if_neg hd, if_neg]
    intro hdvd
    have := Nat.le_of_dvd hpos hdvd
    omega

theorem terminator_drop {data : Bytes} (h : kMaxNetPacketSize ≤ data.length) :
    terminator (data.drop kMaxNetPacketSize) = terminator data := by
  unfold terminator
  rw [List.length_drop]
  have : kMaxNetPacketSize ∣ data.length - kMaxNetPacketSize ↔ kMaxNetPacketSize ∣ data.length := by
    simp only [kMaxNetPacketSize] at h ⊢
    omega
  simp only [this]

/-- Induction along the pieces of a packet. -/
theorem pieces_induction {P : Bytes → Prop}
    (short : ∀ data, data.length < kMaxNetPacketSize → P data)
    (long : ∀ data, kMaxNetPacketSize ≤ data.length → P (data.drop kMaxNetPacketSize) → P data)
    (data : Bytes) : P data := by
  induction hn : data.length using Nat.strongRecOn generalizing data with
  | _ n ih =>
    by_cases h : data.length < kMaxNetPacketSize
    · exact short data h
    · refine long data (Nat.not_lt.1 h) (ih _ ?_ _ rfl)
      simp only [kMaxNetPacketSize, List.length_drop] at *
      omega

theorem pieces_flatten (data : Bytes) : (pieces data).flatten = data ++ terminator data := by
  induction data using pieces_induction with
  | short data h =>
    rw [pieces_of_lt h, terminator_of_lt h]
    split
    · next hd => subst hd; rfl
    · simp
  | long data h ih =>
    rw [pieces_of_ge h, List.flatten_cons, ih, terminator_drop h, ← List.append_assoc,
      List.take_append_drop]

theorem pieces_eq (data : Bytes) :
    ∃ front last, pieces data = front ++ [last] ∧ (∀ c ∈ front, c.length = kMaxNetPacketSize) ∧
      0 < last.length ∧ last.length < kMaxNetPacketSize := by
  induction data using pieces_induction with
  | short data h =>
    rw [pieces_of_lt h]
    split
    · exact ⟨[], [0], rfl, by simp, by simp, by simp [kMaxNetPacketSize]⟩
    · next hd => exact ⟨[], data, rfl, by simp, List.length_pos_of_ne_nil hd, h⟩
  | long data h ih =>
    obtain ⟨front, last, heq, hfront, hlast⟩ := ih
    refine ⟨data.take kMaxNetPacketSize :: front, last, by rw [pieces_of_ge h, heq]; rfl, ?_, hlast⟩
    rintro c (_ | ⟨_, hc⟩)
    · rw [List.length_take]
      omega
    · exact hfront c hc

theorem pieces_bounds {data p : Bytes} (h : p ∈ pieces data) :
    0 < p.length ∧ p.length ≤ kMaxNetPacketSize := by
  obtain ⟨front, last, heq, hfront, hpos, hlt⟩ := pieces_eq data
  rw [heq, List.mem_append, List.mem_singleton] at h
  rcases h with h | rfl
  · rw [hfront p h]
    exact ⟨kMaxNetPacketSize_pos, Nat.le_refl _⟩
  · exact ⟨hpos, Nat.le_of_lt hlt⟩

/-- With the terminator, a packet below `2 ^ 32` bytes stays below. -/
theorem terminator_length_lt {data : Bytes} (h : data.length < 2 ^ 32) :
    (data ++ terminator data).length < 2 ^ 32 := by
  rw [List.length_append, terminator]
  split
  · next hd =>
    simp only [kMaxNetPacketSize] at hd
    simp only [List.length_singleton]
    omega
  · simpa using h

/-! ## Sending -/

theorem sendLoop_eq {w : Writer} (hw : w.Completes) (errorText : Bytes) {data : Bytes}
    (hdata : data.length < 2 ^ 32) {size sizeWritten : Nat} (hsize : sizeWritten + size = data.length)
    (sent : List Bytes) :
    sendLoop w errorText data size sizeWritten sent =
      (.Ok, sent ++ pieces (data.drop sizeWritten)) := by
  have hrest : (data.drop sizeWritten).length = size := by
    rw [List.length_drop]
    omega
  induction size using Nat.strongRecOn generalizing sizeWritten sent with
  | _ size ih =>
    rw [sendLoop]
    simp only [hw _ _]
    by_cases hlt : size < kMaxNetPacketSize
    · rw [pieces_of_lt (by omega), if_neg (by omega : ¬ kMaxNetPacketSize ≤ size)]
      have htake : (data.drop sizeWritten).take size = data.drop sizeWritten :=
        List.take_of_length_le (by omega)
      rw [htake, hrest]
      by_cases hpos : 0 < size
      · have hne : data.drop sizeWritten ≠ [] := List.ne_nil_of_length_pos (by omega)
        rw [if_pos hpos, if_neg (by omega), if_neg hne, Int.toNat_natCast,
          List.take_of_length_le (by omega)]
      · have hnil : data.drop sizeWritten = [] := List.length_eq_zero_iff.1 (by omega)
        rw [if_neg hpos, if_pos hnil]
        rfl
    · have hge := Nat.not_lt.1 hlt
      have hk : kMaxNetPacketSize = 131072 := rfl
      have hlong := pieces_of_ge (show kMaxNetPacketSize ≤ (data.drop sizeWritten).length by omega)
      have hpiece : ((data.drop sizeWritten).take kMaxNetPacketSize).length = kMaxNetPacketSize := by
        rw [List.length_take]
        omega
      rw [if_pos (by omega), if_pos hge, hpiece, if_neg (by omega), Int.toNat_natCast,
        toUInt32_of_lt (by omega), List.take_of_length_le (Nat.le_of_eq hpiece),
        ih (size - kMaxNetPacketSize) (by omega) (by omega) _ (by rw [List.length_drop]; omega),
        hlong, List.drop_drop, List.append_assoc]
      rfl

theorem sendPacket_eq {w : Writer} (hw : w.Completes) (errorText : Bytes) {data : Bytes}
    (hdata : data.length < 2 ^ 32) : sendPacket w errorText data = (.Ok, pieces data) := by
  unfold sendPacket
  rw [sendLoop_eq hw errorText hdata (by omega)]
  rfl

/-! ## Forwarding -/

section Forward

variable {w : Writer} (hw : w.Completes) (errorText : Bytes)

include hw

/-- One round of `ForwardPacket`. -/
theorem forwardPacket_deliver (sent : List Bytes) {c : Bytes} (hpos : 0 < c.length)
    (hc : c.length ≤ kMaxNetPacketSize) :
    (forwardPacket w errorText).deliver sent (.data c) =
      if c.length < kMaxNetPacketSize then .inr (.Ok, sent ++ [c]) else .inl (sent ++ [c]) := by
  have hk : kMaxNetPacketSize = 131072 := rfl
  have hrc : toInt32 c.length = c.length := toInt32_of_lt (by omega)
  unfold forwardPacket
  dsimp only
  rw [hrc, Int.toNat_natCast, List.take_length, hw, Int.toNat_natCast, List.take_length,
    if_neg (by omega), if_neg (by omega), if_neg (by omega)]

/-- Full chunks are passed on. -/
theorem forwardPacket_feed (sent : List Bytes) {front : List Bytes}
    (hfront : ∀ c ∈ front, c.length = kMaxNetPacketSize) (rest : List Bytes) :
    (forwardPacket w errorText).feed sent (front ++ rest) =
      (forwardPacket w errorText).feed (sent ++ front) rest := by
  have hk : kMaxNetPacketSize = 131072 := rfl
  induction front generalizing sent with
  | nil => simp
  | cons c front ih =>
    have hc := hfront c List.mem_cons_self
    have hd := forwardPacket_deliver hw errorText sent (c := c) (by omega) (by omega)
    rw [if_neg (by omega)] at hd
    rw [List.cons_append, Receiver.feed_cons_of_inl _ hd,
      ih _ fun d h => hfront d (List.mem_cons_of_mem _ h), List.append_assoc]
    rfl

end Forward

/-! ## Reading a whole packet -/

namespace ReadState

variable (alloc : Allocator) (s : ReadState)

/-- The state after the chunk `c`. -/
def after (c : Bytes) : ReadState := (s.prepare alloc).received alloc c c.length

@[simp] theorem prepare_data : (s.prepare alloc).buf.data = s.buf.data := by
  unfold prepare
  split <;> rfl

theorem after_data {c : Bytes} (hc : c.length ≤ (s.prepare alloc).bufLen) :
    (s.after alloc c).buf.data = s.buf.data ++ c := by
  have h := Vec.resize_fill_resize alloc (s.prepare alloc).buf hc
  rw [prepare_data] at h
  simp only [after, received, prepare_data]
  exact h

/-- A read never reallocates the vector. -/
theorem after_cap {c : Bytes} (hc : c.length ≤ (s.prepare alloc).bufLen) :
    (s.after alloc c).buf.cap = (s.prepare alloc).buf.cap := by
  have hroom := (s.prepare alloc).room
  simp only [after, received]
  rw [Vec.resize_cap, Vec.fill_cap, Vec.resize_cap hroom]
  rw [Vec.fill_cap, Vec.resize_cap hroom]
  omega

end ReadState

section Read

variable (alloc : Allocator) (errorText : Bytes)

/-- What a chunk of a reliable stream does to `ReadWholePacket`: one below
`kMaxNetPacketSize` ends the packet, one from `2 ^ 31` bytes on is taken for an error. -/
theorem readWholePacket_deliver (s : ReadState) {c : Bytes} (hpos : 0 < c.length)
    (hc : c.length < 2 ^ 32) (hreq : c.length ≤ (s.prepare alloc).bufLen) :
    (readWholePacket alloc errorText).deliver s (.data c) =
      if 2 ^ 31 ≤ c.length then .inr (.Err errorText, [])
      else if c.length < kMaxNetPacketSize then .inr (.Ok, s.buf.data ++ c)
      else .inl (s.after alloc c) := by
  unfold readWholePacket
  dsimp only
  by_cases hlt : c.length < 2 ^ 31
  · rw [toInt32_of_lt hlt, Int.toNat_natCast, if_neg (by omega), if_neg (by omega),
      if_neg (Nat.not_le.2 hlt), ← ReadState.after, ReadState.after_data alloc s hreq]
  · have hge := Nat.not_lt.1 hlt
    have hrc := toInt32_of_ge hge hc
    rw [if_neg (by omega), if_pos (by omega), if_pos hge]

/-- A chunk that fills a piece is appended, and another read follows. -/
theorem readWholePacket_long (s : ReadState) {c : Bytes} (hc : kMaxNetPacketSize ≤ c.length)
    (h31 : c.length < 2 ^ 31) (hreq : c.length ≤ (s.prepare alloc).bufLen) :
    (readWholePacket alloc errorText).deliver s (.data c) = .inl (s.after alloc c) := by
  have hpos := Nat.lt_of_lt_of_le kMaxNetPacketSize_pos hc
  rw [readWholePacket_deliver alloc errorText s hpos (by omega) hreq, if_neg (Nat.not_le.2 h31),
    if_neg (Nat.not_lt.2 hc)]

/-- A shorter chunk ends the packet. -/
theorem readWholePacket_short (s : ReadState) {c : Bytes} (hpos : 0 < c.length)
    (hc : c.length < kMaxNetPacketSize) (hreq : c.length ≤ (s.prepare alloc).bufLen) :
    (readWholePacket alloc errorText).deliver s (.data c) = .inr (.Ok, s.buf.data ++ c) := by
  have hk : kMaxNetPacketSize = 131072 := rfl
  rw [readWholePacket_deliver alloc errorText s hpos (by omega) hreq, if_neg (by omega), if_pos hc]

/-- Chunks of `kMaxNetPacketSize` bytes or more are appended, and another read follows. -/
theorem readWholePacket_feed {pol : Policy} (hpol : ∀ r a g, pol r a g → g ≤ r) (s : ReadState)
    {front rest : List Bytes}
    (hfront : ∀ c ∈ front, kMaxNetPacketSize ≤ c.length ∧ c.length < 2 ^ 31)
    (hserves : (readWholePacket alloc errorText).Serves pol s (front ++ rest)) :
    ∃ s', s'.buf.data = s.buf.data ++ front.flatten ∧
      (readWholePacket alloc errorText).feed s (front ++ rest) =
        (readWholePacket alloc errorText).feed s' rest ∧
      (readWholePacket alloc errorText).Serves pol s' rest := by
  have hk : kMaxNetPacketSize = 131072 := rfl
  induction front generalizing s with
  | nil => exact ⟨s, by simp, rfl, hserves⟩
  | cons c front ih =>
    have hc := hfront c List.mem_cons_self
    have hreq : c.length ≤ (s.prepare alloc).bufLen := hpol _ _ _ hserves.1
    have hd := readWholePacket_long alloc errorText s hc.1 hc.2 hreq
    obtain ⟨s', hdata, hfeed, hserves'⟩ := ih (s.after alloc c)
      (fun d h => hfront d (List.mem_cons_of_mem _ h)) (hserves.2 _ hd)
    refine ⟨s', ?_, ?_, hserves'⟩
    · rw [hdata, ReadState.after_data alloc s hreq, List.flatten_cons, List.append_assoc]
    · rw [List.cons_append, Receiver.feed_cons_of_inl _ hd, hfeed]

/-- Every chunk but the last has at least `kMaxNetPacketSize` bytes, and fewer than an `int`
can count; the last has fewer than `kMaxNetPacketSize`. -/
def ShortAtEnd (cs : List Bytes) : Prop :=
  ∃ front last, cs = front ++ [last] ∧
    (∀ c ∈ front, kMaxNetPacketSize ≤ c.length ∧ c.length < 2 ^ 31) ∧
    last.length < kMaxNetPacketSize

theorem readWholePacket_of_shortAtEnd {pol : Policy} (hpol : ∀ r a g, pol r a g → g ≤ r)
    {s : ReadState} {bytes : Bytes} {cs : List Bytes}
    (hcs : (readWholePacket alloc errorText).Delivers pol s bytes cs) (h : ShortAtEnd cs) :
    (readWholePacket alloc errorText).feed s cs = .returned (.Ok, s.buf.data ++ bytes) [] := by
  have hk : kMaxNetPacketSize = 131072 := rfl
  obtain ⟨front, last, rfl, hfront, hlast⟩ := h
  obtain ⟨s', hdata, hfeed, hserves⟩ :=
    readWholePacket_feed alloc errorText hpol s hfront hcs.serves
  have hpos : 0 < last.length := List.length_pos_of_ne_nil (hcs.nonempty last (by simp))
  have hd := readWholePacket_short alloc errorText s' hpos hlast (hpol _ _ _ hserves.1)
  rw [hfeed, Receiver.feed_cons_of_inr _ hd, hdata, ← hcs.all]
  simp

/-- The chunks on which the loop goes on. -/
theorem readWholePacket_consumesAll {s : ReadState} {cs : List Bytes} :
    (readWholePacket alloc errorText).ConsumesAll s cs ↔
      ∃ front last, cs = front ++ [last] ∧
        (∀ c ∈ front, ¬ (toInt32 c.length).toNat < kMaxNetPacketSize) ∧
        (toInt32 last.length).toNat < kMaxNetPacketSize := by
  have hk : kMaxNetPacketSize = 131072 := rfl
  refine Receiver.consumesAll_iff (I := fun _ => True) ?_ ?_ trivial cs
  · intro s c _ hc
    refine ⟨(s.prepare alloc).received alloc c (toInt32 c.length).toNat, ?_, trivial⟩
    unfold readWholePacket
    dsimp only
    rw [if_neg (by omega), if_neg (by omega), if_neg hc]
  · intro s c _ hc
    unfold readWholePacket
    dsimp only
    rw [if_pos hc]
    split
    · exact ⟨_, rfl⟩
    · split <;> exact ⟨_, rfl⟩

/-- `ReadWholePacket` returns the packet `p`, having read all of the chunks. -/
def ReadsWhole (p : Bytes) (cs : List Bytes) : Prop :=
  ∃ buf, (readWholePacket alloc errorText).feed (.init alloc) cs = .returned (.Ok, buf) [] ∧
    p <+: buf

end Read

theorem ReadState.init_request (alloc : Allocator) :
    ((ReadState.init alloc).prepare alloc).bufLen = kMaxNetPacketSize := by
  have h : ¬ (ReadState.init alloc).bufLen < kMaxNetPacketSize := Nat.lt_irrefl _
  rw [prepare, if_neg h]
  rfl

theorem ReadState.init_cap :
    ((ReadState.init .exact).prepare .exact).buf.cap = kMaxNetPacketSize := by
  have h : ¬ (ReadState.init .exact).bufLen < kMaxNetPacketSize := Nat.lt_irrefl _
  rw [prepare, if_neg h]
  exact Vec.reserve_exact_cap kMaxNetPacketSize_pos

@[simp] theorem ReadState.init_data (alloc : Allocator) : (ReadState.init alloc).buf.data = [] := rfl

/-- The first read of a short chunk is the last. -/
theorem readWholePacket_first (alloc : Allocator) (errorText : Bytes) {c : Bytes} (hne : c ≠ [])
    (hc : c.length < kMaxNetPacketSize) :
    anyPrefix ((readWholePacket alloc errorText).request (.init alloc)) c.length c.length ∧
      (readWholePacket alloc errorText).deliver (.init alloc) (.data c) = .inr (.Ok, c) := by
  have hpos := List.length_pos_of_ne_nil hne
  have hreq : c.length ≤ ((ReadState.init alloc).prepare alloc).bufLen := by
    rw [ReadState.init_request]
    exact Nat.le_of_lt hc
  refine ⟨⟨hpos, hreq⟩, ?_⟩
  rw [readWholePacket_short alloc errorText _ hpos hc hreq, ReadState.init_data, List.nil_append]

/-- At the end of the stream. -/
theorem readWholePacket_eof (alloc : Allocator) (errorText : Bytes) (packet : ReadState) :
    (readWholePacket alloc errorText).deliver packet (.data []) = .inr (.Eof, []) := by
  have hzero : toInt32 (([] : Bytes).length : Int) = 0 := toInt32_of_lt (by decide)
  unfold readWholePacket
  dsimp only
  rw [if_pos hzero]

/-- A short string that arrives in one chunk. -/
theorem readWholePacket_single (alloc : Allocator) (errorText : Bytes) {c : Bytes} (hne : c ≠ [])
    (hc : c.length < kMaxNetPacketSize) :
    (readWholePacket alloc errorText).Delivers anyPrefix (.init alloc) c [c] := by
  obtain ⟨hpol, hd⟩ := readWholePacket_first alloc errorText hne hc
  refine Receiver.delivers_single hne hpol ?_
  intro s' hs'
  rw [hd] at hs'
  cases hs'

/-- **On which streams `ReadWholePacket` returns the packet.**  However the bytes that
`SendPacket` wrote arrive, it reads them all and returns the packet exactly when
every chunk but the last fills a piece and the last does not. -/
theorem readWholePacket_iff {w : Writer} (hw : w.Completes) (alloc : Allocator) (errorText : Bytes)
    {p : Bytes} (hp : p.length < 2 ^ 32) {cs : List Bytes}
    (hcs : (readWholePacket alloc errorText).Delivers anyPrefix (.init alloc)
      (sendPacket w errorText p).2.flatten cs) :
    ReadsWhole alloc errorText p cs ↔ ShortAtEnd cs := by
  rw [sendPacket_eq hw errorText hp, pieces_flatten] at hcs
  have hpol : ∀ r a g, anyPrefix r a g → g ≤ r := fun r a g h => h.2
  constructor
  · rintro ⟨buf, hfeed, -⟩
    obtain ⟨front, last, rfl, hfront, hlast⟩ :=
      (readWholePacket_consumesAll alloc errorText).1 ⟨_, hfeed⟩
    -- no chunk is longer than everything sent
    have hlen : ∀ c ∈ front ++ [last], c.length < 2 ^ 32 := by
      intro c hc
      have hle := (List.sublist_flatten_of_mem hc).length_le
      rw [hcs.all] at hle
      have := terminator_length_lt hp
      omega
    have hfront' : ∀ c ∈ front, kMaxNetPacketSize ≤ c.length ∧ c.length < 2 ^ 31 := by
      intro c hc
      have hlt := hlen c (List.mem_append_left _ hc)
      have hrc := hfront c hc
      by_cases h31 : c.length < 2 ^ 31
      · rw [toInt32_of_lt h31, Int.toNat_natCast] at hrc
        exact ⟨Nat.not_lt.1 hrc, h31⟩
      · rw [toInt32_of_ge (Nat.not_lt.1 h31) hlt] at hrc
        simp only [kMaxNetPacketSize] at hrc
        omega
    refine ⟨front, last, rfl, hfront', ?_⟩
    obtain ⟨s', -, hrun, hserves⟩ := readWholePacket_feed alloc errorText hpol _ hfront' hcs.serves
    have hd := readWholePacket_deliver alloc errorText s' (c := last)
      (List.length_pos_of_ne_nil (hcs.nonempty last (by simp))) (hlen last (by simp)) hserves.1.2
    by_cases h31 : last.length < 2 ^ 31
    · rwa [toInt32_of_lt h31, Int.toNat_natCast] at hlast
    · -- a last chunk of `2 ^ 31` bytes would be reported as an error
      rw [if_pos (Nat.not_lt.1 h31)] at hd
      rw [hrun, Receiver.feed_cons_of_inr _ hd] at hfeed
      cases hfeed
  · intro h
    refine ⟨_, readWholePacket_of_shortAtEnd alloc errorText hpol hcs h, ?_⟩
    rw [ReadState.init_data, List.nil_append]
    exact List.prefix_append _ _

/-- Every write of this socket completes. -/
def completeWriter : Writer := fun _ bs => bs.length

theorem completeWriter_completes : completeWriter.Completes := fun _ _ => rfl

/-- The shortest Get packet fits into one read. -/
theorem get_length_lt : (Command.get []).encoding.length < kMaxNetPacketSize := by
  show 9 < 131072
  omega

/-- It is sent in one write. -/
theorem sendPacket_get :
    (sendPacket completeWriter [] (Command.get []).encoding).2.flatten = (Command.get []).encoding := by
  rw [sendPacket_eq completeWriter_completes [] (by decide), pieces_of_lt get_length_lt,
    if_neg (by decide)]
  rfl

/-- A Get packet of 9 bytes that arrives in one chunk. -/
theorem readsWhole_get :
    ReadsWhole .exact [] (Command.get []).encoding [(Command.get []).encoding] := by
  refine (readWholePacket_iff completeWriter_completes .exact [] (by decide) ?_).2
    ⟨[], _, rfl, by simp, get_length_lt⟩
  rw [sendPacket_get]
  exact readWholePacket_single .exact [] (by decide) get_length_lt

/-- The same packet in two chunks: the first read already ends the loop. -/
theorem readWholePacket_stops_early :
    ∃ cs, (readWholePacket .exact []).Delivers anyPrefix (.init .exact)
        (sendPacket completeWriter [] (Command.get []).encoding).2.flatten cs ∧
      ¬ ReadsWhole .exact [] (Command.get []).encoding cs := by
  have hone : [(5 : UInt8)].length < kMaxNetPacketSize := by
    show 1 < 131072
    omega
  obtain ⟨hpol, hd⟩ := readWholePacket_first .exact [] (c := [5]) (by simp) hone
  rw [sendPacket_get]
  refine ⟨[[5], [0, 0, 0, 0, 0, 0, 0, 0]], ⟨by decide, by simp, hpol, ?_⟩, ?_⟩
  · intro s' hs'
    rw [hd] at hs'
    cases hs'
  · rintro ⟨buf, hfeed, -⟩
    rw [Receiver.feed_cons_of_inr _ hd] at hfeed
    cases hfeed

/-- `ReadWholePacket` returns the string `s` on some stream. -/
def CanReturn (s : Bytes) : Prop :=
  ∃ alloc errorText bytes cs,
    (readWholePacket alloc errorText).Delivers anyPrefix (.init alloc) bytes cs ∧
      (readWholePacket alloc errorText).feed (.init alloc) cs = .returned (.Ok, s) []

/-- Any short string: it is what one read gives. -/
theorem canReturn_of_lt {s : Bytes} (hne : s ≠ []) (hs : s.length < kMaxNetPacketSize) :
    CanReturn s :=
  ⟨.exact, [], s, [s], readWholePacket_single .exact [] hne hs,
    Receiver.feed_cons_of_inr _ (readWholePacket_first .exact [] hne hs).2 _⟩

/-- A Get command whose key is announced with `2 ^ 32 - 1` bytes and has none: both factories
read behind the copy of the packet. -/
theorem factories_outOfBounds :
    ∃ s, s ≠ [] ∧ CanReturn s ∧ createCommandPacket s = .error .outOfBounds ∧
      createResponsePacket s = .error .outOfBounds := by
  refine ⟨[5, 0, 0, 0, 0, 255, 255, 255, 255], by simp, canReturn_of_lt (by simp) ?_, rfl, rfl⟩
  rw [kMaxNetPacketSize]
  decide

/-! ## A channel that keeps the writes apart -/

/-- A read returns one write; it has to ask for enough. -/
def wholeWrite : Policy := fun request _ got => got ≤ request

/-- The vector has room for a piece, or has outgrown one. -/
def ReadState.Grown (s : ReadState) : Prop :=
  kMaxNetPacketSize ≤ s.bufLen ∨ kMaxNetPacketSize ≤ s.buf.data.length

/-- Every read asks for a piece at least. -/
theorem ReadState.Grown.le_request {alloc : Allocator} {s : ReadState} (h : s.Grown) :
    kMaxNetPacketSize ≤ (s.prepare alloc).bufLen := by
  by_cases hlt : s.bufLen < kMaxNetPacketSize
  · have hsize := h.resolve_left (by omega)
    have hcap := s.buf.le_reserve_cap alloc (s.buf.data.length * 2)
    rw [prepare, if_pos hlt]
    show _ ≤ (s.buf.reserve alloc (s.buf.data.length * 2)).cap - s.buf.data.length
    omega
  · rw [prepare, if_neg hlt]
    omega

theorem ReadState.init_grown (alloc : Allocator) : (ReadState.init alloc).Grown :=
  .inl (Nat.le_refl _)

theorem ReadState.Grown.after {alloc : Allocator} {s : ReadState} {c : Bytes}
    (hc : kMaxNetPacketSize ≤ c.length) (hreq : c.length ≤ (s.prepare alloc).bufLen) :
    (s.after alloc c).Grown := by
  refine .inr ?_
  rw [s.after_data alloc hreq, List.length_append]
  omega

theorem readWholePacket_serves (alloc : Allocator) (errorText : Bytes) {s : ReadState} (hs : s.Grown)
    {front : List Bytes} {last : Bytes} (hfront : ∀ c ∈ front, c.length = kMaxNetPacketSize)
    (hlast : last.length < kMaxNetPacketSize) :
    (readWholePacket alloc errorText).Serves wholeWrite s (front ++ [last]) := by
  have hk : kMaxNetPacketSize = 131072 := rfl
  induction front generalizing s with
  | nil =>
    exact ⟨Nat.le_trans (Nat.le_of_lt hlast) hs.le_request, fun s' _ => trivial⟩
  | cons c front ih =>
    have hc := hfront c List.mem_cons_self
    have hreq : c.length ≤ (s.prepare alloc).bufLen := by
      rw [hc]
      exact hs.le_request
    have hd := readWholePacket_long alloc errorText s (by omega) (by omega) hreq
    refine ⟨hreq, ?_⟩
    intro s' hs'
    rw [hd] at hs'
    cases hs'
    exact ih (.after (by omega) hreq) fun d h => hfront d (List.mem_cons_of_mem _ h)

theorem forwardPacket_serves (w : Writer) (errorText : Bytes) (sent : List Bytes) {cs : List Bytes}
    (hcs : ∀ c ∈ cs, c.length ≤ kMaxNetPacketSize) :
    (forwardPacket w errorText).Serves wholeWrite sent cs := by
  induction cs generalizing sent with
  | nil => trivial
  | cons c cs ih =>
    exact ⟨hcs c List.mem_cons_self, fun s' _ => ih s' fun d h => hcs d (List.mem_cons_of_mem _ h)⟩

/-- **A relay changes nothing.**  Where every read returns one write, `ForwardPacket` passes on
the writes of `SendPacket` as they are, and `ReadWholePacket` returns the data, followed by the
zero byte if there was one; both leave what comes later. -/
theorem relay_transparent {w w' : Writer} (hw : w.Completes) (hw' : w'.Completes)
    (alloc : Allocator) (errorText : Bytes) {data : Bytes} (hdata : data.length < 2 ^ 32) :
    ∃ chunks, sendPacket w errorText data = (.Ok, chunks) ∧
      chunks.flatten = data ++ (if kMaxNetPacketSize ∣ data.length then [0] else []) ∧
      (forwardPacket w' errorText).Serves wholeWrite [] chunks ∧
      (∀ later, (forwardPacket w' errorText).feed [] (chunks ++ later) =
        .returned (.Ok, chunks) (later.map .data)) ∧
      (readWholePacket alloc errorText).Serves wholeWrite (.init alloc) chunks ∧
      ∀ later, (readWholePacket alloc errorText).feed (.init alloc) (chunks ++ later) =
        .returned (.Ok, data ++ (if kMaxNetPacketSize ∣ data.length then [0] else []))
          (later.map .data) := by
  have hk : kMaxNetPacketSize = 131072 := rfl
  obtain ⟨front, last, heq, hfront, hpos, hlast⟩ := pieces_eq data
  have hserves := readWholePacket_serves alloc errorText (ReadState.init_grown alloc) hfront hlast
  refine ⟨front ++ [last], by rw [sendPacket_eq hw errorText hdata, heq], ?_, ?_, ?_, hserves, ?_⟩
  · rw [← heq]
    exact pieces_flatten data
  · apply forwardPacket_serves
    intro c hc
    rcases List.mem_append.1 hc with hc | hc
    · exact Nat.le_of_eq (hfront c hc)
    · rw [List.mem_singleton.1 hc]
      omega
  · have hd := forwardPacket_deliver hw' errorText front hpos (Nat.le_of_lt hlast)
    rw [if_pos hlast] at hd
    refine Receiver.feed_append_of_returned _ ?_
    rw [forwardPacket_feed hw' errorText [] hfront, List.nil_append,
      Receiver.feed_cons_of_inr _ hd]
    rfl
  · have hne : ∀ c ∈ front ++ [last], c ≠ [] := by
      intro c hc
      refine List.ne_nil_of_length_pos ?_
      rcases List.mem_append.1 hc with hc | hc
      · rw [hfront c hc]
        omega
      · rwa [List.mem_singleton.1 hc]
    have hshort : ShortAtEnd (front ++ [last]) :=
      ⟨front, last, rfl, fun c hc => by rw [hfront c hc]; omega, hlast⟩
    have hall : (front ++ [last]).flatten = data ++ terminator data := by
      rw [← heq, pieces_flatten]
    exact Receiver.feed_append_of_returned _ (readWholePacket_of_shortAtEnd alloc errorText
      (fun r a g h => h) ⟨hall, hne, hserves⟩ hshort)

/-- A packet of exactly one piece is relayed as that piece and a zero byte. -/
theorem relay_transparent_piece :
    ∃ chunks, sendPacket completeWriter [] (List.replicate 131072 7) = (.Ok, chunks) ∧
      chunks.flatten = List.replicate 131072 7 ++
        (if kMaxNetPacketSize ∣ (List.replicate 131072 (7 : UInt8)).length then [0] else []) ∧
      (forwardPacket completeWriter []).Serves wholeWrite [] chunks ∧
      (∀ later, (forwardPacket completeWriter []).feed [] (chunks ++ later) =
        .returned (.Ok, chunks) (later.map .data)) ∧
      (readWholePacket .exact []).Serves wholeWrite (.init .exact) chunks ∧
      ∀ later, (readWholePacket .exact []).feed (.init .exact) (chunks ++ later) =
        .returned (.Ok, List.replicate 131072 7 ++
          (if kMaxNetPacketSize ∣ (List.replicate 131072 (7 : UInt8)).length then [0] else []))
          (later.map .data) :=
  relay_transparent completeWriter_completes completeWriter_completes .exact []
    (by rw [List.length_replicate]; decide)

/-! ## A stream that has arrived -/

/-- The vector is full, with `m` pieces in it. -/
structure ReadState.Full (s : ReadState) (m : Nat) : Prop where
  size : s.buf.data.length = m * kMaxNetPacketSize
  cap : s.buf.cap = m * kMaxNetPacketSize

namespace ReadState.Full

variable {s : ReadState} {m : Nat}

theorem bufLen_eq (h : s.Full m) : s.bufLen = 0 := by
  have hroom := s.room
  rw [h.size, h.cap] at hroom
  omega

/-- The vector is doubled and the new half is asked for. -/
theorem prepare_cap (h : s.Full m) (hm : 1 ≤ m) :
    (s.prepare .exact).buf.cap = 2 * m * kMaxNetPacketSize := by
  have hpos : 0 < m * kMaxNetPacketSize := Nat.mul_pos hm kMaxNetPacketSize_pos
  have hgrow : s.buf.cap < s.buf.data.length * 2 := by
    rw [h.cap, h.size]
    omega
  rw [prepare, if_pos (h.bufLen_eq ▸ kMaxNetPacketSize_pos)]
  show (s.buf.reserve .exact (s.buf.data.length * 2)).cap = _
  rw [Vec.reserve_exact_cap hgrow, h.size, Nat.mul_comm, Nat.mul_assoc]

theorem request_eq (h : s.Full m) (hm : 1 ≤ m) :
    (s.prepare .exact).bufLen = m * kMaxNetPacketSize := by
  have hcap := h.prepare_cap hm
  rw [prepare, if_pos (h.bufLen_eq ▸ kMaxNetPacketSize_pos)] at hcap ⊢
  simp only at hcap ⊢
  rw [hcap, Vec.reserve_data, h.size, Nat.mul_assoc]
  omega

theorem after (h : s.Full m) (hm : 1 ≤ m) {c : Bytes} (hc : c.length = m * kMaxNetPacketSize) :
    (s.after .exact c).Full (2 * m) := by
  have hreq : c.length ≤ (s.prepare .exact).bufLen :=
    Nat.le_of_eq (hc.trans (h.request_eq hm).symm)
  constructor
  · rw [s.after_data .exact hreq, List.length_append, h.size, hc, Nat.mul_assoc]
    omega
  · rw [s.after_cap .exact hreq, h.prepare_cap hm]

end ReadState.Full

/-- Being `m` times a power of two, for a number that is not `m` itself. -/
theorem doubling_iff {m x : Nat} (hm : 1 ≤ m) (hx : m ≤ x) :
    (∃ j, 2 * m + (x - m) = 2 * m * 2 ^ j) ↔ ∃ j, m + x = m * 2 ^ j := by
  constructor
  · rintro ⟨j, hj⟩
    refine ⟨j + 1, ?_⟩
    rw [Nat.pow_succ, Nat.mul_comm (2 ^ j), ← Nat.mul_assoc, Nat.mul_comm m 2]
    omega
  · rintro ⟨j | j, hj⟩
    · omega
    · refine ⟨j, ?_⟩
      rw [Nat.pow_succ, Nat.mul_comm (2 ^ j), ← Nat.mul_assoc, Nat.mul_comm m 2] at hj
      omega

/-- From a full vector of `m` pieces on, with `x` more pieces and a shorter one to come: the
chunks have `m`, `2 * m`, `4 * m`, .. pieces, and the shorter one is read alone only if the
others are used up by then. -/
theorem readWholePacket_full {errorText : Bytes} {s : ReadState} {m x r : Nat} (hs : s.Full m)
    (hm : 1 ≤ m) {bytes : Bytes} (hbytes : bytes.length = x * kMaxNetPacketSize + r) (hr : 0 < r)
    (hr' : r < kMaxNetPacketSize) (hlt : m * kMaxNetPacketSize + bytes.length < 2 ^ 32)
    {cs : List Bytes} (hcs : (readWholePacket .exact errorText).Delivers greedy s bytes cs) :
    (readWholePacket .exact errorText).ConsumesAll s cs ↔ ∃ j, m + x = m * 2 ^ j := by
  have hk : kMaxNetPacketSize = 131072 := rfl
  rw [hk] at hbytes hlt
  induction cs generalizing s m x bytes with
  | nil =>
    have := congrArg List.length hcs.all
    simp only [List.flatten_nil, List.length_nil] at this
    omega
  | cons c cs ih =>
    have hpos := hcs.length_pos
    have hrest := hcs.rest_length
    have hreq := hs.request_eq hm
    rw [hk] at hreq
    have hc : c.length = min (m * 131072) bytes.length := by
      rw [← hreq]
      exact hcs.cons.2.1
    have hd := readWholePacket_deliver .exact errorText s hpos (by omega) (by rw [hreq]; omega)
    rw [if_neg (by omega)] at hd
    by_cases hxm : x < m
    · -- everything that is left fits into the vector
      rw [Nat.min_eq_right (by omega)] at hc
      obtain rfl := hcs.rest_eq_nil hc
      rcases Nat.eq_zero_or_pos x with rfl | hx
      · rw [if_pos (by omega)] at hd
        rw [Receiver.consumesAll_cons_of_inr _ hd]
        exact ⟨fun _ => ⟨0, by simp⟩, fun _ => rfl⟩
      · rw [if_neg (by omega)] at hd
        rw [Receiver.consumesAll_cons_of_inl _ hd]
        refine ⟨fun h => absurd h (Receiver.not_consumesAll_nil _ _), ?_⟩
        rintro ⟨j | j, hj⟩
        · omega
        · have := Nat.mul_le_mul_left m (Nat.one_le_two_pow (n := j))
          rw [Nat.pow_succ, ← Nat.mul_assoc] at hj
          omega
    · -- the new half is filled
      rw [Nat.min_eq_left (by omega)] at hc
      rw [if_neg (by omega)] at hd
      have hleft : cs.flatten.length = (x - m) * 131072 + r := by omega
      have hlt' : 2 * m * 131072 + cs.flatten.length < 2 ^ 32 := by
        rw [Nat.mul_assoc]
        omega
      have hfull := hs.after hm (c := c) (by rw [hc, hk])
      have hnext := ih hfull (by omega) hleft hlt' (hcs.tail hd)
      rw [Receiver.consumesAll_cons_of_inl _ hd]
      exact hnext.trans (doubling_iff hm (Nat.not_lt.1 hxm))

/-- How many pieces and how many bytes behind them `SendPacket` writes; there is always
something behind them. -/
theorem sent_length (p : Bytes) :
    ∃ r, (p ++ terminator p).length = p.length / kMaxNetPacketSize * kMaxNetPacketSize + r ∧
      0 < r ∧ r < kMaxNetPacketSize := by
  have hk : kMaxNetPacketSize = 131072 := rfl
  have hdiv := Nat.div_add_mod' p.length kMaxNetPacketSize
  have hmod := Nat.mod_lt p.length kMaxNetPacketSize_pos
  unfold terminator
  split
  · next hd =>
    have h0 := Nat.mod_eq_zero_of_dvd hd
    exact ⟨1, by rw [List.length_append, List.length_singleton]; omega, by omega, by omega⟩
  · next hd =>
    have h0 := mt Nat.dvd_of_mod_eq_zero hd
    exact ⟨p.length % kMaxNetPacketSize, by rw [List.append_nil]; omega, by omega, hmod⟩

/-- From the start: the first read asks for one piece. -/
theorem readWholePacket_greedy {errorText p : Bytes} (hp : p.length < 2 ^ 32) {cs : List Bytes}
    (hcs : (readWholePacket .exact errorText).Delivers greedy (.init .exact) (p ++ terminator p) cs) :
    (readWholePacket .exact errorText).ConsumesAll (.init .exact) cs ↔
      p.length / kMaxNetPacketSize = 0 ∨ ∃ j, p.length / kMaxNetPacketSize = 2 ^ j := by
  have hk : kMaxNetPacketSize = 131072 := rfl
  have hlt := terminator_length_lt hp
  obtain ⟨r, hlen, hr, hr'⟩ := sent_length p
  generalize p.length / kMaxNetPacketSize = n at hlen ⊢
  cases cs with
  | nil =>
    have := congrArg List.length hcs.all
    rw [List.flatten_nil, List.length_nil] at this
    omega
  | cons c cs =>
    have hpos := hcs.length_pos
    have hrest := hcs.rest_length
    have hreq := ReadState.init_request .exact
    have hc : c.length = min kMaxNetPacketSize (p ++ terminator p).length := by
      rw [← hreq]
      exact hcs.cons.2.1
    have hd := readWholePacket_deliver .exact errorText (.init .exact) hpos (by omega)
      (by rw [hreq]; omega)
    rw [if_neg (by omega)] at hd
    rw [hk] at hlen
    rcases Nat.eq_zero_or_pos n with rfl | hn
    · rw [if_pos (by omega)] at hd
      rw [Receiver.consumesAll_cons_of_inr _ hd, hcs.rest_eq_nil (by omega)]
      exact ⟨fun _ => .inl rfl, fun _ => rfl⟩
    · rw [Nat.min_eq_left (by omega)] at hc
      rw [if_neg (by omega)] at hd
      have hfull : ((ReadState.init .exact).after .exact c).Full 1 := by
        constructor
        · rw [ReadState.after_data _ _ (by rw [hreq]; omega), ReadState.init_data,
            List.nil_append, hc, Nat.one_mul]
        · rw [ReadState.after_cap _ _ (by rw [hreq]; omega), ReadState.init_cap, Nat.one_mul]
      have hnext := readWholePacket_full hfull (Nat.le_refl 1) (x := n - 1) (r := r)
        (by rw [hk]; omega) hr hr' (by rw [hk]; omega) (hcs.tail hd)
      rw [Receiver.consumesAll_cons_of_inl _ hd]
      refine hnext.trans ⟨?_, ?_⟩
      · rintro ⟨j, hj⟩
        exact .inr ⟨j, by omega⟩
      · rintro (h0 | ⟨j, hj⟩)
        · omega
        · exact ⟨j, by omega⟩

/-- `ForwardPacket` is served full pieces until the shorter one is left. -/
theorem forwardPacket_greedy {w : Writer} (hw : w.Completes) (errorText : Bytes)
    {sent : List Bytes} {x r : Nat} (hr : 0 < r) (hr' : r < kMaxNetPacketSize) {bytes : Bytes}
    (hbytes : bytes.length = x * kMaxNetPacketSize + r) {cs : List Bytes}
    (hcs : (forwardPacket w errorText).Delivers greedy sent bytes cs) :
    (forwardPacket w errorText).ConsumesAll sent cs := by
  have hk : kMaxNetPacketSize = 131072 := rfl
  rw [hk] at hbytes
  induction cs generalizing sent bytes x with
  | nil =>
    have := congrArg List.length hcs.all
    rw [List.flatten_nil, List.length_nil] at this
    omega
  | cons c cs ih =>
    have hpos := hcs.length_pos
    have hrest := hcs.rest_length
    have hc : c.length = min kMaxNetPacketSize bytes.length := hcs.cons.2.1
    have hd := forwardPacket_deliver hw errorText sent hpos (by omega)
    rcases Nat.eq_zero_or_pos x with rfl | hx
    · rw [if_pos (by omega)] at hd
      rw [Receiver.consumesAll_cons_of_inr _ hd]
      exact hcs.rest_eq_nil (by omega)
    · rw [if_neg (by omega)] at hd
      rw [Receiver.consumesAll_cons_of_inl _ hd]
      exact ih (x := x - 1) (by omega) (hcs.tail hd)

/-- However the packet `p` is served by a stream on which all of it has arrived, both receivers
read all that was sent and ask for no more. -/
def ReceiversAgree (w' : Writer) (errorText sent : Bytes) : Prop :=
  ∀ cs cs', (readWholePacket .exact errorText).Delivers greedy (.init .exact) sent cs →
    (forwardPacket w' errorText).Delivers greedy [] sent cs' →
    (readWholePacket .exact errorText).ConsumesAll (.init .exact) cs ∧
      (forwardPacket w' errorText).ConsumesAll [] cs'

/-- The loop goes on only with a piece or more read. -/
theorem readWholePacket_grown {alloc : Allocator} {errorText : Bytes} {s s' : ReadState} {c : Bytes}
    (h : (readWholePacket alloc errorText).deliver s (.data c) = .inl s') : s'.Grown := by
  unfold readWholePacket at h
  dsimp only at h
  split at h
  · cases h
  · split at h
    · cases h
    · split at h
      · cases h
      · next hrc =>
        obtain rfl := Sum.inl.inj h
        refine .inr ?_
        rw [ReadState.received, Vec.resize_length]
        omega

/-- There is such a stream, for either receiver. -/
theorem readWholePacket_exists_greedy (alloc : Allocator) (errorText bytes : Bytes) :
    ∃ cs, (readWholePacket alloc errorText).Delivers greedy (.init alloc) bytes cs := by
  refine Receiver.exists_greedy (I := ReadState.Grown) ?_ ?_ (ReadState.init_grown alloc) bytes
  · intro s hs
    exact Nat.lt_of_lt_of_le kMaxNetPacketSize_pos hs.le_request
  · intro s c s' _ _ _ hd
    exact readWholePacket_grown hd

theorem forwardPacket_exists_greedy (w : Writer) (errorText bytes : Bytes) :
    ∃ cs, (forwardPacket w errorText).Delivers greedy [] bytes cs :=
  Receiver.exists_greedy (I := fun _ => True) (fun _ _ => kMaxNetPacketSize_pos)
    (fun _ _ _ _ _ _ _ => trivial) trivial bytes

/-- **When the receivers agree.**  Both read the whole packet and no more exactly when its
number of full pieces is zero or a power of two. -/
theorem receivers_agree_iff {w w' : Writer} (hw : w.Completes) (hw' : w'.Completes)
    (errorText : Bytes) {p : Bytes} (hp : p.length < 2 ^ 32) :
    ReceiversAgree w' errorText (sendPacket w errorText p).2.flatten ↔
      p.length / kMaxNetPacketSize = 0 ∨ ∃ j, p.length / kMaxNetPacketSize = 2 ^ j := by
  rw [sendPacket_eq hw errorText hp, pieces_flatten]
  constructor
  · intro h
    obtain ⟨cs, hcs⟩ := readWholePacket_exists_greedy .exact errorText (p ++ terminator p)
    obtain ⟨cs', hcs'⟩ := forwardPacket_exists_greedy w' errorText (p ++ terminator p)
    exact (readWholePacket_greedy hp hcs).1 (h cs cs' hcs hcs').1
  · intro h cs cs' hcs hcs'
    obtain ⟨r, hlen, hr, hr'⟩ := sent_length p
    exact ⟨(readWholePacket_greedy hp hcs).2 h, forwardPacket_greedy hw' errorText hr hr' hlen hcs'⟩

/-- The shortest Get packet has no full piece. -/
theorem receivers_agree_get :
    ReceiversAgree completeWriter []
      (sendPacket completeWriter [] (Command.get []).encoding).2.flatten :=
  (receivers_agree_iff completeWriter_completes completeWriter_completes []
    (p := (Command.get []).encoding) (by decide)).2 (.inl rfl)

/-- A Get packet of three pieces and one byte: `ReadWholePacket` gets the third piece and the
byte in one read, and waits. -/
theorem receivers_disagree_get :
    ¬ ReceiversAgree completeWriter []
      (sendPacket completeWriter [] (Command.get (List.replicate 393208 0)).encoding).2.flatten := by
  have hlen : (Command.get (List.replicate 393208 0)).encoding.length = 393217 := by
    rw [Command.encoding_length, Command.payload, List.length_cons, Command.body,
      strCodec_write_length, List.length_replicate]
  have hpieces : (Command.get (List.replicate 393208 0)).encoding.length / kMaxNetPacketSize = 3 := by
    rw [hlen]
    rfl
  have hlt : (Command.get (List.replicate 393208 0)).encoding.length < 2 ^ 32 := by
    rw [hlen]
    omega
  intro h
  rw [sendPacket_eq completeWriter_completes [] hlt, pieces_flatten] at h
  obtain ⟨cs, hcs⟩ := readWholePacket_exists_greedy .exact [] _
  obtain ⟨cs', hcs'⟩ := forwardPacket_exists_greedy completeWriter [] _
  have hcond := (readWholePacket_greedy hlt hcs).1 (h cs cs' hcs hcs').1
  rw [hpieces] at hcond
  obtain h0 | ⟨j | j | j, hj⟩ := hcond
  · omega
  · omega
  · omega
  · have := Nat.one_le_two_pow (n := j)
    rw [Nat.pow_add] at hj
    omega

end SqpKv
