import SqpKv.Lib.Framing
import SqpKv.Protocol.ReadBuffer

/-!
# A packet piece by piece

The pieces in which `SendPacket` writes a packet are a frame: the receivers take
a piece that is not full for the last one.  For a reader that gets one piece a
read, with `got` what it has of the packet and `rest` what is still to come,

    got ++ p :: rest = pieces data  →  p ends the packet iff rest = []      (piece_of_packet)

so behind the last piece `ReadWholePacket` returns the packet, and its
terminator if it has one, and behind any other it reads on.
-/

namespace SqpKv

open Wire Framing

/-- A read of `p` ends the packet. -/
def EndsPacket (p : Bytes) : Prop := p.length < kMaxNetPacketSize

theorem pieces_frame (data : Bytes) : Frame EndsPacket (pieces data) := by
  induction data using pieces_induction with
  | short data h =>
    rw [pieces_of_lt h]
    by_cases hd : data = []
    · rw [if_pos hd]
      exact .last (show ([0] : Bytes).length < kMaxNetPacketSize by decide)
    · rw [if_neg hd]
      exact .last h
  | long data h ih =>
    rw [pieces_of_ge h]
    refine .more ?_ ih
    unfold EndsPacket
    rw [List.length_take]
    omega

theorem pieces_ne_nil (data : Bytes) : pieces data ≠ [] := (pieces_frame data).ne_nil

/-- What the next piece of a packet is like. -/
theorem piece_of_packet {got rest : List Bytes} {p data : Bytes} (h : got ++ p :: rest = pieces data) :
    0 < p.length ∧ p.length ≤ kMaxNetPacketSize ∧ (EndsPacket p ↔ rest = []) := by
  have hmem : p ∈ pieces data := by
    rw [← h]
    exact List.mem_append_right _ List.mem_cons_self
  obtain ⟨hpos, hle⟩ := pieces_bounds hmem
  exact ⟨hpos, hle, (h ▸ pieces_frame data).split.2⟩

theorem last_piece {got : List Bytes} {p data : Bytes} (h : got ++ [p] = pieces data) :
    0 < p.length ∧ p.length < kMaxNetPacketSize := by
  obtain ⟨hpos, -, hends⟩ := piece_of_packet h
  exact ⟨hpos, hends.2 rfl⟩

/-- The pieces of a packet of which some are still to come, or never will. -/
def Begins (ps : List Bytes) : Prop := ∃ data left, left ≠ [] ∧ ps ++ left = pieces data

theorem begins_nil : Begins [] := ⟨[], pieces [], pieces_ne_nil [], rfl⟩

/-- A packet that has only begun is in full pieces. -/
theorem Begins.full {got rest : List Bytes} {p : Bytes} (h : Begins (got ++ p :: rest)) :
    p.length = kMaxNetPacketSize := by
  obtain ⟨data, left, hne, heq⟩ := h
  rw [List.append_assoc] at heq
  obtain ⟨-, hle, hends⟩ := piece_of_packet heq
  have hlong : ¬ p.length < kMaxNetPacketSize := fun hlt =>
    hne (List.append_eq_nil_iff.1 (hends.1 hlt)).2
  omega

/-- Of a packet that is not there no last piece is. -/
theorem Begins.left {xs ys : List Bytes} (h : Begins (xs ++ ys)) : Begins xs := by
  obtain ⟨data, left, hne, heq⟩ := h
  refine ⟨data, ys ++ left, ?_, by rw [← heq, List.append_assoc]⟩
  intro hnil
  exact hne (List.append_eq_nil_iff.1 hnil).2

theorem Begins.of_left {got rest : List Bytes} {p data : Bytes} (h : got ++ p :: rest = pieces data)
    (hrest : rest ≠ []) : Begins (got ++ [p]) :=
  ⟨data, rest, hrest, by rw [← h, List.append_assoc]; rfl⟩

/-- A packet is not the beginning of one. -/
theorem Begins.not_all {ps : List Bytes} {data : Bytes} (h : Begins ps) : ps ≠ pieces data := by
  rintro rfl
  obtain ⟨data', left, hne, heq⟩ := h
  obtain ⟨front, last, hlast, -, -, hlt⟩ := pieces_eq data
  rw [hlast, List.append_assoc] at heq
  obtain ⟨-, -, hends⟩ := piece_of_packet heq
  exact hne (hends.1 hlt)

/-! ## `ReadWholePacket` -/

/-- It has read the pieces `got` of a packet, and not the last. -/
structure ReadState.Reads (s : ReadState) (got : List Bytes) : Prop where
  holds : s.Holds got.flatten
  begins : Begins got

/-- The vector before the first read. -/
theorem ReadState.init_reads (alloc : Allocator) : (ReadState.init alloc).Reads [] :=
  ⟨⟨ReadState.init_data alloc, ReadState.init_grown alloc⟩, begins_nil⟩

section

variable (alloc : Allocator) (errorText : Bytes) {s : ReadState} {got : List Bytes} {p : Bytes}

/-- Behind a piece that does not end the packet it reads on. -/
theorem ReadState.Reads.more (h : s.Reads got) (hp : Begins (got ++ [p])) :
    ∃ s', (readWholePacket alloc errorText).deliver s (.data p) = .inl s' ∧
      s'.Reads (got ++ [p]) := by
  have hk : kMaxNetPacketSize = 131072 := rfl
  have hfull : p.length = kMaxNetPacketSize := hp.full
  have hreq : p.length ≤ (s.prepare alloc).bufLen := hfull ▸ h.holds.grown.le_request
  refine ⟨_, readWholePacket_long alloc errorText s (Nat.le_of_eq hfull.symm) (by omega) hreq, ?_, hp⟩
  constructor
  · rw [ReadState.after_data alloc s hreq, h.holds.data, List.flatten_append, List.flatten_singleton]
  · exact .after (Nat.le_of_eq hfull.symm) hreq

/-- With the last piece the packet is returned. -/
theorem ReadState.Reads.last (h : s.Reads got) {data : Bytes} (hdata : got ++ [p] = pieces data) :
    (readWholePacket alloc errorText).deliver s (.data p) = .inr (.Ok, data ++ terminator data) := by
  obtain ⟨hpos, hlt⟩ := last_piece hdata
  have hreq : p.length ≤ (s.prepare alloc).bufLen :=
    Nat.le_trans (Nat.le_of_lt hlt) h.holds.grown.le_request
  rw [readWholePacket_short alloc errorText s hpos hlt hreq, h.holds.data, ← pieces_flatten, ← hdata,
    List.flatten_append, List.flatten_singleton]

theorem ReadState.Reads.piece (h : s.Reads got) {rest : List Bytes} {data : Bytes}
    (hdata : got ++ p :: rest = pieces data) :
    (rest = [] ∧ (readWholePacket alloc errorText).deliver s (.data p) =
        .inr (.Ok, data ++ terminator data)) ∨
      (rest ≠ [] ∧ ∃ s', (readWholePacket alloc errorText).deliver s (.data p) = .inl s' ∧
        s'.Reads (got ++ [p])) := by
  by_cases hrest : rest = []
  · subst hrest
    exact .inl ⟨rfl, h.last alloc errorText hdata⟩
  · exact .inr ⟨hrest, h.more alloc errorText (.of_left hdata hrest)⟩

end

end SqpKv
