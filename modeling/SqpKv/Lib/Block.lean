import SqpKv.Lib.Bytes

/-!
# Writable blocks: `memcpy` at a moving cursor

An encoder writes fields one after another through a `char *` into a block it
did not allocate.  `put p off bs` is one such write: it faults on a null
pointer and past the end of the block, and returns the advanced cursor.  A
block also keeps the offsets stored to, in the order of the stores, so that
which bytes an encoder wrote is a statement about `Block.stored`.

    (put p off a >>= fun (q, o) => put q o b)  =  put p off (a ++ b)          (put_put)

So a run of writes is one write of the concatenation, faults included
(`put_bind_put`, `put_bind_putEach`), and `put_start` says what it leaves:
`Block.overwrite`.
-/

namespace Wire

structure Block where
  bytes : Bytes
  /-- the offsets stored to, in order -/
  stored : List Nat := []

/-- `memcpy(p + off, bs, |bs|)`; `none` is the null pointer. -/
def store (p : Option Block) (off : Nat) (bs : Bytes) : Except Fault (Option Block) :=
  match p with
  | none => .error .nullPointer
  | some b =>
    if off + bs.length ≤ b.bytes.length then
      .ok (some { bytes := b.bytes.take off ++ bs ++ b.bytes.drop (off + bs.length)
                  stored := b.stored ++ List.range' off bs.length })
    else .error .outOfBounds

/-- One write at the cursor `off`; returns the block and the advanced cursor. -/
def put (p : Option Block) (off : Nat) (bs : Bytes) : Except Fault (Option Block × Nat) := do
  let q ← store p off bs
  return (q, off + bs.length)

/-- One write for each element of a list. -/
def putEach {α : Type} (write : α → Bytes) (p : Option Block) (off : Nat) :
    List α → Except Fault (Option Block × Nat)
  | [] => .ok (p, off)
  | a :: as => do
    let (p, off) ← put p off (write a)
    putEach write p off as

/-- The bytes a pointer into the block reaches. -/
def reach (p : Option Block) (off : Nat) : Except Fault Bytes :=
  match p with
  | none => .error .nullPointer
  | some b => .ok (b.bytes.drop off)

theorem reach_some (b : Block) (off : Nat) : reach (some b) off = .ok (b.bytes.drop off) := rfl

theorem put_block (b : Block) (off : Nat) (bs : Bytes) :
    put (some b) off bs =
      if off + bs.length ≤ b.bytes.length then
        .ok (some { bytes := b.bytes.take off ++ bs ++ b.bytes.drop (off + bs.length)
                    stored := b.stored ++ List.range' off bs.length }, off + bs.length)
      else .error .outOfBounds := by
  simp only [put, store]
  by_cases h : off + bs.length ≤ b.bytes.length
  · rw [if_pos h, if_pos h]
    rfl
  · rw [if_neg h, if_neg h]
    rfl

/-- Two writes in a row are one write of both. -/
theorem put_put (p : Option Block) (off : Nat) (a b : Bytes) :
    (put p off a >>= fun x => put x.1 x.2 b) = put p off (a ++ b) := by
  cases p with
  | none => rfl
  | some blk =>
    rw [put_block, put_block]
    by_cases ha : off + a.length ≤ blk.bytes.length
    · rw [if_pos ha]
      show put (some _) (off + a.length) b = _
      rw [put_block]
      have hlen : (blk.bytes.take off ++ a ++ blk.bytes.drop (off + a.length)).length =
          blk.bytes.length := by simp; omega
      have hpre : (blk.bytes.take off ++ a).length = off + a.length := by simp; omega
      by_cases hb : off + (a ++ b).length ≤ blk.bytes.length
      · have hb' : off + a.length + b.length ≤ blk.bytes.length := by
          simpa [Nat.add_assoc] using hb
        rw [if_pos (by rw [hlen]; exact hb'), if_pos hb]
        have htake : (blk.bytes.take off ++ a ++ blk.bytes.drop (off + a.length)).take
            (off + a.length) = blk.bytes.take off ++ a := by
          rw [← hpre, List.take_left]
        have hdrop : (blk.bytes.take off ++ a ++ blk.bytes.drop (off + a.length)).drop
            (off + a.length + b.length) = blk.bytes.drop (off + (a ++ b).length) := by
          rw [← List.drop_drop, ← hpre, List.drop_left, List.drop_drop, hpre, List.length_append,
            Nat.add_assoc]
        rw [htake, hdrop]
        simp [Nat.add_assoc, ← List.range'_append_1]
      · rw [if_neg hb, if_neg]
        rw [hlen]
        simpa [Nat.add_assoc] using hb
    · rw [if_neg ha, if_neg]
      · rfl
      · simp only [List.length_append]
        omega

/-- `put_put` with the rest of the encoder behind it. -/
theorem put_bind_put {β : Type} (p : Option Block) (off : Nat) (a b : Bytes)
    (k : Option Block × Nat → Except Fault β) :
    (put p off a >>= fun x => put x.1 x.2 b >>= k) = put p off (a ++ b) >>= k := by
  rw [← put_put, bind_assoc]

theorem put_cursor {p : Option Block} {off : Nat} {bs : Bytes} {r : Option Block × Nat}
    (h : put p off bs = .ok r) : r.2 = off + bs.length := by
  unfold put at h
  obtain ⟨q, -, hr⟩ := bind_eq_ok.1 h
  cases hr
  rfl

/-- `put_bind_put` for a second write at a computed offset that is the cursor of the first. -/
theorem put_bind_putAt {β : Type} (p : Option Block) {off o : Nat} {a : Bytes} (b : Bytes)
    (k : Option Block × Nat → Except Fault β) (ho : o = off + a.length) :
    (put p off a >>= fun x => put x.1 o b >>= k) = put p off (a ++ b) >>= k := by
  rw [← put_bind_put]
  cases h : put p off a with
  | error e => rfl
  | ok r =>
    show put r.1 o b >>= k = put r.1 r.2 b >>= k
    rw [put_cursor h, ho]

/-- A write and then one write for each element are one write of everything. -/
theorem put_bind_putEach {α β : Type} (write : α → Bytes) (as : List α) (p : Option Block)
    (off : Nat) (a : Bytes) (k : Option Block × Nat → Except Fault β) :
    (put p off a >>= fun x => putEach write x.1 x.2 as >>= k) =
      put p off (a ++ as.flatMap write) >>= k := by
  induction as generalizing a with
  | nil =>
    rw [List.flatMap_nil, List.append_nil]
    rfl
  | cons c as ih =>
    rw [List.flatMap_cons, ← List.append_assoc, ← ih, ← put_bind_put]
    simp only [putEach, bind_assoc]

/-- The block after `bs` was written over its start. -/
def Block.overwrite (b : Block) (bs : Bytes) : Block where
  bytes := bs ++ b.bytes.drop bs.length
  stored := b.stored ++ List.range bs.length

/-- What a pointer behind `pre` reaches after `pre ++ bs` was written. -/
theorem Block.overwrite_drop (b : Block) {pre bs : Bytes} {n m : Nat} (hn : pre.length = n)
    (hm : n + bs.length = m) :
    (b.overwrite (pre ++ bs)).bytes.drop n = bs ++ b.bytes.drop m := by
  unfold Block.overwrite
  rw [List.append_assoc, List.drop_left' hn, List.length_append, hn, hm]

theorem put_start {b : Block} {bs : Bytes} (h : bs.length ≤ b.bytes.length) :
    put (some b) 0 bs = .ok (some (b.overwrite bs), bs.length) := by
  rw [put_block, if_pos (by omega)]
  simp [Block.overwrite, List.range_eq_range']

/-- A write at the start of a block that does not fault. -/
theorem put_start_eq_ok {b : Block} {bs : Bytes} {r : Option Block × Nat}
    (h : put (some b) 0 bs = .ok r) :
    bs.length ≤ b.bytes.length ∧ r = (some (b.overwrite bs), bs.length) := by
  have hroom : bs.length ≤ b.bytes.length := by
    rw [put_block] at h
    by_contra hn
    rw [if_neg (by omega)] at h
    cases h
  rw [put_start hroom] at h
  exact ⟨hroom, (Except.ok.inj h).symm⟩

/-! ## Blocks of a known size -/

/-- A pointer to a block of `N` bytes. -/
def HasRoom (N : Nat) (p : Option Block) : Prop := ∃ b, p = some b ∧ b.bytes.length = N

theorem exists_hasRoom (N : Nat) : ∃ p, HasRoom N p :=
  ⟨some { bytes := List.replicate N 0 }, _, rfl, List.length_replicate⟩

theorem HasRoom.put {N off : Nat} {p : Option Block} {bs : Bytes} (hp : HasRoom N p)
    (h : off + bs.length ≤ N) :
    ∃ q, put p off bs = .ok (q, off + bs.length) ∧ HasRoom N q := by
  obtain ⟨b, rfl, rfl⟩ := hp
  refine ⟨_, by rw [put_block, if_pos h], _, rfl, ?_⟩
  simp only [List.length_append, List.length_take, List.length_drop]
  omega

theorem HasRoom.putEach {α : Type} {write : α → Bytes} {N off : Nat} {p : Option Block} {as : List α}
    (hp : HasRoom N p) (h : off + (as.flatMap write).length ≤ N) :
    ∃ q, putEach write p off as = .ok (q, off + (as.flatMap write).length) ∧ HasRoom N q := by
  induction as generalizing p off with
  | nil => exact ⟨p, rfl, hp⟩
  | cons a as ih =>
    rw [List.flatMap_cons, List.length_append] at h ⊢
    obtain ⟨q, hq, hroom⟩ := hp.put (show off + (write a).length ≤ N by omega)
    obtain ⟨q', hq', hroom'⟩ := ih hroom
      (show off + (write a).length + (as.flatMap write).length ≤ N by omega)
    refine ⟨q', ?_, hroom'⟩
    rw [Wire.putEach, hq, ← Nat.add_assoc]
    exact hq'

theorem HasRoom.reach {N : Nat} {p : Option Block} (hp : HasRoom N p) (off : Nat) :
    ∃ bs, reach p off = .ok bs ∧ bs.length = N - off := by
  obtain ⟨b, rfl, rfl⟩ := hp
  exact ⟨_, rfl, List.length_drop⟩

end Wire
