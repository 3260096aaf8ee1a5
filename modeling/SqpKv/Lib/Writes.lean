import SqpKv.Lib.Bytes

/-!
# Short writes

A `write` may take fewer bytes than it is given.  `w i bs` is what the `i`-th
write of a run returns for the bytes `bs`; `taken` is what the other side gets
of the chunks of a run, write by write.  When no write fails,

    the other side gets everything  ↔  every write takes its whole chunk      (taken_flatten_iff)
-/

namespace Wire

variable (w : Nat → Bytes → Int)

/-- A write takes no more than it is given (a return value that is not positive is a failure). -/
def TakesPart : Prop := ∀ i bs, w i bs ≤ bs.length

/-- No write of these chunks fails, from the `i`-th write on. -/
def Succeeds : Nat → List Bytes → Prop
  | _, [] => True
  | i, c :: cs => 0 < w i c ∧ Succeeds (i + 1) cs

/-- Every write takes its whole chunk. -/
def TakesWhole : Nat → List Bytes → Prop
  | _, [] => True
  | i, c :: cs => w i c = c.length ∧ TakesWhole (i + 1) cs

/-- What is taken of the chunks. -/
def taken : Nat → List Bytes → List Bytes
  | _, [] => []
  | i, c :: cs => c.take (w i c).toNat :: taken (i + 1) cs

variable {w} {cs : List Bytes} {i : Nat}

theorem taken_of_takesWhole (h : TakesWhole w i cs) : taken w i cs = cs := by
  induction cs generalizing i with
  | nil => rfl
  | cons c cs ih => rw [taken, h.1, Int.toNat_natCast, List.take_length, ih h.2]

/-- No write fails that takes the whole of a chunk with something in it. -/
theorem TakesWhole.succeeds (h : TakesWhole w i cs) (hne : ∀ c ∈ cs, c ≠ []) : Succeeds w i cs := by
  induction cs generalizing i with
  | nil => trivial
  | cons c cs ih =>
    have hpos := List.length_pos_of_ne_nil (hne c List.mem_cons_self)
    refine ⟨?_, ih h.2 fun d hd => hne d (List.mem_cons_of_mem _ hd)⟩
    rw [h.1]
    omega

theorem taken_flatten_length_le (i : Nat) (cs : List Bytes) :
    (taken w i cs).flatten.length ≤ cs.flatten.length := by
  induction cs generalizing i with
  | nil => exact Nat.le_refl 0
  | cons c cs ih =>
    have hrest := ih (i + 1)
    rw [taken, List.flatten_cons, List.flatten_cons, List.length_append, List.length_append,
      List.length_take]
    omega

/-- A short write is seen from the number of bytes alone. -/
theorem takesWhole_of_length (hw : TakesPart w) (hs : Succeeds w i cs)
    (h : (taken w i cs).flatten.length = cs.flatten.length) : TakesWhole w i cs := by
  induction cs generalizing i with
  | nil => trivial
  | cons c cs ih =>
    have hle := taken_flatten_length_le (w := w) (i + 1) cs
    have hpart := hw i c
    have hpos := hs.1
    rw [taken, List.flatten_cons, List.flatten_cons, List.length_append, List.length_append,
      List.length_take] at h
    exact ⟨by omega, ih hs.2 (by omega)⟩

theorem taken_flatten_iff (hw : TakesPart w) (hs : Succeeds w i cs) :
    (taken w i cs).flatten = cs.flatten ↔ TakesWhole w i cs := by
  constructor
  · intro h
    exact takesWhole_of_length hw hs (congrArg List.length h)
  · intro h
    rw [taken_of_takesWhole h]

end Wire
