import SqpKv.Protocol.Decode

/-!
# Fresh packets and decoded ones

A class fills its fields twice: while it encodes, and from the wire.  The
commands read their strings back from the buffer, so the fresh object has the
fields of the decoded one; so do the keys of a GetAll response.  No encoding
constructor of a response sets `status_`, and that of a Get response leaves
`value_` alone (`Response.unset`), so

    the accessors of the fresh object and of the decoded one agree
      ↔  the contents are what default-constructed fields hold                  (agrees_iff)
-/

namespace SqpKv

open Wire

namespace Content

/-- The decoding constructor of the class, and what the accessors of the object return. -/
def decoded : Content → Bytes → Except Fault (OpCode × Content)
  | .command c, buf => do
    let q ← decodeCommandAs c.op buf
    return (q.getOp, .command q.command)
  | .response r, buf => do
    let q ← decodeResponseAs r.classOp buf
    return (q.response.classOp, .response q.response)

/-- The encoding constructor: what the accessors of the object return, and the caller's buffer. -/
def fresh : Content → Option Block → Except Fault ((OpCode × Content) × Option Block)
  | .command c, buf => do
    let (p, out) ← c.encode buf
    return ((p.getOp, .command p.command), out)
  | .response r, buf => do
    let (p, out) ← r.encode buf
    return ((p.response.classOp, .response p.response), out)

/-- Every accessor returns the same on the object the encoding constructor leaves as on the one
decoded from the buffer.  (Responses have no `GetOp`; in its place stands their class.) -/
def Agrees (c : Content) (b : Block) : Prop :=
  ∃ accessors out, c.fresh (some b) = .ok (accessors, some out) ∧ c.decoded out.bytes = .ok accessors

/-- The size of the packet, as its size field has it. -/
def size : Content → Nat
  | .command c => c.payload.length + 4
  | .response r => r.announced + 4

/-- What the fields hold that an encoding constructor does not set. -/
def Default : Content → Prop
  | .command _ => True
  | .response (.get s value) => s = .Ok ∧ value = []
  | .response (.put s) => s = .Ok
  | .response (.delete s) => s = .Ok
  | .response (.getAll s _) => s = .Ok

end Content

theorem Response.unset_eq_iff (r : Response) : r.unset = r ↔ Content.Default (.response r) := by
  cases r with
  | get s value => simp only [Response.unset, Response.get.injEq, Content.Default, eq_comm]
  | put s => simp only [Response.unset, Response.put.injEq, Content.Default, eq_comm]
  | delete s => simp only [Response.unset, Response.delete.injEq, Content.Default, eq_comm]
  | getAll s keys =>
    simp only [Response.unset, Response.getAll.injEq, Content.Default, and_true, eq_comm]

theorem Command.fresh_eq {c : Command} {b : Block} (hsize : c.encoding.length < 2 ^ 32)
    (hroom : c.encoding.length ≤ b.bytes.length) :
    (Content.command c).fresh (some b) =
      .ok ((c.op, .command c), some (b.overwrite c.encoding)) := by
  obtain ⟨p, hp, -, hc⟩ := Command.encode_block hsize hroom
  have hop : p.getOp = c.op := by rw [← hc, p.command_op]
  simp only [Content.fresh, hp]
  show Except.ok _ = _
  rw [hop, hc]

theorem Command.decoded_encoding {c : Command} (hsize : c.encoding.length < 2 ^ 32) (rest : Bytes) :
    (Content.command c).decoded (c.encoding ++ rest) = .ok (c.op, .command c) := by
  have hlt : (c.body ++ []).length + 5 < 2 ^ 32 := by
    rw [c.encoding_length, Command.payload] at hsize
    simp at hsize ⊢
    omega
  obtain ⟨q, hq, hc, -⟩ := decodeCommandAs_complete c c.op.toByte rest hlt
  have hframe : frame (c.op.toByte :: (c.body ++ [])) = c.encoding := by
    rw [List.append_nil]
    rfl
  rw [hframe] at hq
  have hop : q.getOp = c.op := by rw [← hc, q.command_op]
  simp only [Content.decoded, hq]
  show Except.ok _ = _
  rw [hop, hc]

theorem Response.fresh_eq {r : Response} {b : Block} (hsize : r.encoding.length < 2 ^ 32)
    (hroom : r.encoding.length ≤ b.bytes.length) :
    (Content.response r).fresh (some b) =
      .ok ((r.unset.classOp, .response r.unset), some (b.overwrite r.encoding)) := by
  obtain ⟨p, hp, -, hr⟩ := Response.encode_block hsize hroom
  simp only [Content.fresh, hp]
  show Except.ok _ = _
  rw [hr]

theorem Response.decoded_encoding {r : Response} (hcover : r.payload.length ≤ r.announced)
    (hsize : r.announced + 4 < 2 ^ 32) {rest : Bytes}
    (hrest : r.announced - r.payload.length ≤ rest.length) :
    (Content.response r).decoded (r.encoding ++ rest) = .ok (r.classOp, .response r) := by
  obtain ⟨q, hq, hr⟩ := decodeResponseAs_encoding r hcover hsize hrest
  simp only [Content.decoded, hq]
  show Except.ok _ = _
  rw [hr]

theorem Command.agrees {c : Command} {b : Block} (hsize : c.encoding.length < 2 ^ 32)
    (hroom : c.encoding.length ≤ b.bytes.length) : (Content.command c).Agrees b :=
  ⟨_, _, c.fresh_eq hsize hroom, c.decoded_encoding hsize _⟩

/-- The decoded response has what was encoded, the fresh one what nobody set. -/
theorem Response.agrees_iff_unset {r : Response} {b : Block}
    (hcover : r.payload.length ≤ r.announced) (hsize : r.announced + 4 < 2 ^ 32)
    (hroom : r.announced + 4 ≤ b.bytes.length) :
    (Content.response r).Agrees b ↔ r.unset = r := by
  have hlen := r.encoding_length
  have hfresh := Response.fresh_eq (r := r) (b := b) (by omega) (by omega)
  have hrest : r.announced - r.payload.length ≤ (b.bytes.drop r.encoding.length).length := by
    rw [List.length_drop]
    omega
  have hdecoded := Response.decoded_encoding hcover hsize hrest
  constructor
  · rintro ⟨accessors, out, hf, hd⟩
    rw [hfresh] at hf
    obtain ⟨rfl, rfl⟩ : (r.unset.classOp, Content.response r.unset) = accessors ∧
        b.overwrite r.encoding = out := by simpa using hf
    have heq := hdecoded.symm.trans hd
    simp only [Except.ok.injEq, Prod.mk.injEq, Content.response.injEq] at heq
    exact heq.2.symm
  · intro h
    refine ⟨_, _, hfresh, ?_⟩
    rw [h]
    exact hdecoded

/-- **When a fresh packet and its decoded copy agree**: always for commands, and for responses
when they carry what `status_` and `value_` hold anyway. -/
theorem Content.agrees_iff (c : Content) (b : Block) (hsize : c.size < 2 ^ 32)
    (hcover : c.encoding.length ≤ c.size) (hroom : c.size ≤ b.bytes.length) :
    c.Agrees b ↔ c.Default := by
  cases c with
  | command c =>
    have hlen : c.encoding.length ≤ c.payload.length + 4 := hcover
    refine iff_of_true (Command.agrees ?_ ?_) trivial
    · exact Nat.lt_of_le_of_lt hlen hsize
    · exact Nat.le_trans hlen hroom
  | response r =>
    have hpayload : r.payload.length ≤ r.announced := by
      have := r.encoding_length
      have hlen : r.encoding.length ≤ r.announced + 4 := hcover
      omega
    rw [← r.unset_eq_iff]
    exact Response.agrees_iff_unset hpayload hsize hroom

/-- A Put of "v" under "k", and the response to a Put that succeeded. -/
theorem Content.agrees_put :
    ((Content.command (.put [107] [118])).Agrees { bytes := List.replicate 15 0 } ↔ True) ∧
      ((Content.response (.put .Ok)).Agrees { bytes := List.replicate 12 0 } ↔ Status.Ok = .Ok) :=
  ⟨Content.agrees_iff (.command (.put [107] [118])) _ (by decide) (by decide) (by decide),
    Content.agrees_iff (.response (.put .Ok)) _ (by decide) (by decide) (by decide)⟩

/-- A Get response that found "v", in a buffer of its size: `value()` of the fresh object is empty. -/
theorem getResponse_not_agrees :
    (Content.response (.get .Ok [118])).size = 17 ∧
      (Content.response (.get .Ok [118])).encoding.length = 17 ∧
      ¬ (Content.response (.get .Ok [118])).Agrees { bytes := List.replicate 17 0 } := by
  refine ⟨by decide, by decide, ?_⟩
  rw [Response.agrees_iff_unset (by decide) (by decide) (by decide)]
  decide

end SqpKv
