import Mathlib.Algebra.Group.Nat.Defs
import Mathlib.Algebra.Ring.Int.Defs
import Mathlib.Data.List.Basic

/-!
# Byte strings: little-endian fields, readers and codecs

A `const char *` is modelled by the bytes of its object from the pointer on, so
that a read past the object is the fault `outOfBounds` and pointer arithmetic
is `List.drop`.  A `Reader` takes a value off the front and returns the
advanced pointer; a `Codec` packages a reader with the writer it inverts:

    c.read p = ok (a, rest)  ↔  c.valid a ∧ p = c.write a ++ rest      (Codec.read_eq_ok)

Read from right to left this is a round trip, and from left to right it says
which strings are read without leaving the object.
-/

namespace Wire

/-- A byte string: a `std::string` or a range of `char`s. -/
abbrev Bytes := List UInt8

/-- What ends a run that does not return: undefined behaviour or an uncaught exception. -/
inductive Fault
  | nullPointer
  | outOfBounds
  | signedOverflow
  | divisionByZero
  | invalidArgument
  | outOfRange
  | lengthError
deriving DecidableEq, Repr

theorem ok_bind {ε α β : Type} (a : α) (f : α → Except ε β) : (Except.ok a >>= f) = f a := rfl

theorem bind_eq_ok {ε α β : Type} {x : Except ε α} {f : α → Except ε β} {b : β} :
    x >>= f = .ok b ↔ ∃ a, x = .ok a ∧ f a = .ok b := by
  cases x with
  | error e => simp [bind, Except.bind]
  | ok a => simp [bind, Except.bind]

theorem exists_bind_ok {ε α β : Type} {x : Except ε α} {f : α → Except ε β} {a : α} (hx : x = .ok a)
    (hf : ∃ b, f a = .ok b) : ∃ b, x >>= f = .ok b := by
  obtain ⟨b, hb⟩ := hf
  exact ⟨b, bind_eq_ok.2 ⟨a, hx, hb⟩⟩

/-- If the run returns, `P` holds of what it returns. -/
def Returns {ε α : Type} (P : α → Prop) (x : Except ε α) : Prop := ∀ a, x = .ok a → P a

theorem Returns.pure {ε α : Type} {P : α → Prop} {a : α} (h : P a) :
    Returns P (pure a : Except ε α) := by
  rintro b ⟨⟩
  exact h

theorem Returns.bind {ε α β : Type} {Q : α → Prop} {P : β → Prop} {x : Except ε α}
    {f : α → Except ε β} (hx : Returns Q x) (hf : ∀ a, Q a → Returns P (f a)) :
    Returns P (x >>= f) := by
  intro b h
  obtain ⟨a, ha, hb⟩ := bind_eq_ok.1 h
  exact hf a (hx a ha) b hb

/-- `Returns.bind` where nothing is known of the first part. -/
theorem Returns.andThen {ε α β : Type} {P : β → Prop} {x : Except ε α} {f : α → Except ε β}
    (hf : ∀ a, Returns P (f a)) : Returns P (x >>= f) :=
  Returns.bind (Q := fun _ => True) (fun _ _ => trivial) fun a _ => hf a

/-- The run does not end with the fault `e`. -/
def Avoids {ε α : Type} (e : ε) (x : Except ε α) : Prop := x ≠ .error e

theorem Avoids.ok {ε α : Type} {e : ε} (a : α) : Avoids e (.ok a) := fun h => nomatch h

theorem Avoids.bind {ε α β : Type} {e : ε} {x : Except ε α} {f : α → Except ε β} (hx : Avoids e x)
    (hf : ∀ a, x = .ok a → Avoids e (f a)) : Avoids e (x >>= f) := by
  cases x with
  | error e' =>
    intro h
    cases h
    exact hx rfl
  | ok a => exact hf a rfl

/-! ## Machine integers -/

/-- Conversion to `uint32_t`. -/
def toUInt32 (n : Nat) : Nat := n % 2 ^ 32

/-- Conversion to a 32-bit `int` (two's complement). -/
def toInt32 (x : Int) : Int := Int.bmod x (2 ^ 32)

theorem toUInt32_of_lt {n : Nat} (h : n < 2 ^ 32) : toUInt32 n = n := Nat.mod_eq_of_lt h

theorem toInt32_of_lt {n : Nat} (h : n < 2 ^ 31) : toInt32 n = n := by
  unfold toInt32
  rw [Int.bmod_eq_of_le] <;> omega

theorem toInt32_of_ge {n : Nat} (h : 2 ^ 31 ≤ n) (h' : n < 2 ^ 32) :
    toInt32 n = (n : Int) - 2 ^ 32 := by
  unfold toInt32
  rw [Int.bmod_def]
  omega

/-- The magnitude of a converted `int` is at most the number converted. -/
theorem toInt32_natAbs_le (n : Nat) : (toInt32 n).natAbs ≤ n := by
  unfold toInt32
  rw [Int.bmod_def]
  omega

theorem toInt32_natAbs_le_two_pow (n : Nat) : (toInt32 n).natAbs ≤ 2 ^ 31 := by
  unfold toInt32
  rw [Int.bmod_def]
  omega

/-! ## Little-endian fields -/

/-- The `w` bytes of `n`, least significant first. -/
def toLE : Nat → Nat → Bytes
  | 0, _ => []
  | w + 1, n => (n % 256).toUInt8 :: toLE w (n / 256)

def ofLE : Bytes → Nat
  | [] => 0
  | b :: bs => b.toNat + 256 * ofLE bs

@[simp] theorem toLE_length (w n : Nat) : (toLE w n).length = w := by
  induction w generalizing n with
  | zero => rfl
  | succ w ih => simp [toLE, ih]

theorem ofLE_toLE (w n : Nat) : ofLE (toLE w n) = n % 256 ^ w := by
  induction w generalizing n with
  | zero => simp [toLE, ofLE, Nat.mod_one]
  | succ w ih =>
    have hb : ((n % 256).toUInt8).toNat = n % 256 := by simp
    rw [toLE, ofLE, ih, hb, Nat.pow_succ, Nat.mul_comm (256 ^ w) 256, Nat.mod_mul]

theorem ofLE_lt (bs : Bytes) : ofLE bs < 256 ^ bs.length := by
  induction bs with
  | nil => simp [ofLE]
  | cons b bs ih =>
    have := b.toNat_lt
    rw [ofLE, List.length_cons, Nat.pow_succ]
    omega

theorem toLE_ofLE (bs : Bytes) : toLE bs.length (ofLE bs) = bs := by
  induction bs with
  | nil => rfl
  | cons b bs ih =>
    have hb := b.toNat_lt
    have hmod : (b.toNat + 256 * ofLE bs) % 256 = b.toNat := by omega
    have hdiv : (b.toNat + 256 * ofLE bs) / 256 = ofLE bs := by omega
    rw [List.length_cons, ofLE, toLE, hmod, hdiv, ih]
    simp

theorem toLE_mod (w n : Nat) : toLE w (n % 256 ^ w) = toLE w n := by
  have h := toLE_ofLE (toLE w n)
  rwa [toLE_length, ofLE_toLE] at h

/-- A `uint32_t` field holds its value modulo `2 ^ 32`. -/
theorem toLE_toUInt32 (n : Nat) : toLE 4 (toUInt32 n) = toLE 4 n := toLE_mod 4 n

/-! ## Readers -/

/-- Takes a value off the front of what a pointer reaches; returns the advanced pointer. -/
abbrev Reader (α : Type) := Bytes → Except Fault (α × Bytes)

/-- The next `n` bytes. -/
def readN (n : Nat) : Reader Bytes := fun p =>
  if n ≤ p.length then .ok (p.take n, p.drop n) else .error .outOfBounds

/-- The next `w` bytes as a little-endian number. -/
def readLE (w : Nat) : Reader Nat := fun p => do
  let (bs, p) ← readN w p
  return (ofLE bs, p)

theorem readN_avoids_null (n : Nat) (p : Bytes) : Avoids .nullPointer (readN n p) := by
  unfold readN
  split
  · exact .ok _
  · exact fun h => nomatch h

theorem readLE_avoids_null (w : Nat) (p : Bytes) : Avoids .nullPointer (readLE w p) :=
  .bind (readN_avoids_null w p) fun _ _ => .ok _

theorem readN_eq_ok {n : Nat} {p bs rest : Bytes} :
    readN n p = .ok (bs, rest) ↔ bs.length = n ∧ p = bs ++ rest := by
  unfold readN
  constructor
  · intro h
    split at h
    · next hn =>
      obtain ⟨rfl, rfl⟩ : p.take n = bs ∧ p.drop n = rest := by simpa using h
      exact ⟨by simp; omega, by simp⟩
    · cases h
  · rintro ⟨rfl, rfl⟩
    simp

theorem readLE_eq_ok {w n : Nat} {p rest : Bytes} :
    readLE w p = .ok (n, rest) ↔ n < 256 ^ w ∧ p = toLE w n ++ rest := by
  unfold readLE
  rw [bind_eq_ok]
  constructor
  · rintro ⟨⟨bs, rest'⟩, h, hp⟩
    rw [readN_eq_ok] at h
    obtain ⟨rfl, rfl⟩ := h
    obtain ⟨rfl, rfl⟩ : ofLE bs = n ∧ rest' = rest := by simpa [pure, Except.pure] using hp
    exact ⟨ofLE_lt bs, by rw [toLE_ofLE]⟩
  · rintro ⟨hn, rfl⟩
    refine ⟨(toLE w n, rest), readN_eq_ok.2 ⟨toLE_length w n, rfl⟩, ?_⟩
    have hval : ofLE (toLE w n) = n := by rw [ofLE_toLE, Nat.mod_eq_of_lt hn]
    simp only [hval]
    rfl

/-! ## Codecs -/

/-- A reader together with the writer it inverts: it returns exactly on the
strings that begin with a written value, and then returns that value. -/
structure Codec (α : Type) where
  read : Reader α
  write : α → Bytes
  valid : α → Prop
  read_eq_ok : ∀ p a rest, read p = .ok (a, rest) ↔ valid a ∧ p = write a ++ rest

namespace Codec

variable {α : Type}

theorem read_write (c : Codec α) {a : α} (h : c.valid a) (rest : Bytes) :
    c.read (c.write a ++ rest) = .ok (a, rest) :=
  (c.read_eq_ok _ a rest).2 ⟨h, rfl⟩

/-- One byte. -/
def byte : Codec UInt8 where
  read p := match p with
    | [] => .error .outOfBounds
    | b :: p => .ok (b, p)
  write b := [b]
  valid _ := True
  read_eq_ok p b rest := by
    cases p with
    | nil => simp
    | cons c p => simp

/-- A byte string behind its length in `w` bytes. -/
def counted (w : Nat) : Codec Bytes where
  read p := do
    let (n, p) ← readLE w p
    readN n p
  write bs := toLE w bs.length ++ bs
  valid bs := bs.length < 256 ^ w
  read_eq_ok p bs rest := by
    rw [bind_eq_ok]
    constructor
    · rintro ⟨⟨n, q⟩, hn, hq⟩
      obtain ⟨hlt, rfl⟩ := readLE_eq_ok.1 hn
      obtain ⟨rfl, rfl⟩ := readN_eq_ok.1 hq
      exact ⟨hlt, by simp⟩
    · rintro ⟨hlt, rfl⟩
      exact ⟨(bs.length, bs ++ rest), readLE_eq_ok.2 ⟨hlt, by simp⟩, readN_eq_ok.2 ⟨rfl, rfl⟩⟩

/-- `n` values in a row. -/
def readMany (c : Codec α) : Nat → Reader (List α)
  | 0, p => .ok ([], p)
  | n + 1, p => do
    let (a, p) ← c.read p
    let (as, p) ← readMany c n p
    return (a :: as, p)

theorem readMany_eq_ok (c : Codec α) (n : Nat) (p : Bytes) (as : List α) (rest : Bytes) :
    c.readMany n p = .ok (as, rest) ↔
      as.length = n ∧ (∀ a ∈ as, c.valid a) ∧ p = as.flatMap c.write ++ rest := by
  induction n generalizing p as with
  | zero =>
    rw [readMany]
    constructor
    · intro h
      obtain ⟨rfl, rfl⟩ : [] = as ∧ p = rest := by simpa using h
      simp
    · rintro ⟨h, -, rfl⟩
      obtain rfl := List.length_eq_zero_iff.1 h
      rfl
  | succ n ih =>
    rw [readMany, bind_eq_ok]
    constructor
    · rintro ⟨⟨a, q⟩, ha, hq⟩
      obtain ⟨⟨as', r⟩, hr, hk⟩ := bind_eq_ok.1 hq
      obtain ⟨rfl, rfl⟩ : a :: as' = as ∧ r = rest := by simpa [pure, Except.pure] using hk
      obtain ⟨hva, rfl⟩ := (c.read_eq_ok _ _ _).1 ha
      obtain ⟨hlen, hvas, rfl⟩ := (ih _ _).1 hr
      refine ⟨by simp [hlen], ?_, by simp⟩
      simpa using ⟨hva, hvas⟩
    · rintro ⟨hlen, hv, rfl⟩
      obtain ⟨a, as', rfl⟩ := List.exists_cons_of_length_eq_add_one hlen
      refine ⟨(a, as'.flatMap c.write ++ rest),
        (c.read_eq_ok _ _ _).2 ⟨hv a List.mem_cons_self, by simp⟩, ?_⟩
      rw [bind_eq_ok]
      refine ⟨(as', rest), (ih _ _).2 ⟨by simpa using hlen, ?_, rfl⟩, rfl⟩
      exact fun b hb => hv b (List.mem_cons_of_mem _ hb)

/-- A list of values behind their number in `w` bytes. -/
def list (w : Nat) (c : Codec α) : Codec (List α) where
  read p := do
    let (n, p) ← readLE w p
    c.readMany n p
  write as := toLE w as.length ++ as.flatMap c.write
  valid as := as.length < 256 ^ w ∧ ∀ a ∈ as, c.valid a
  read_eq_ok p as rest := by
    rw [bind_eq_ok]
    constructor
    · rintro ⟨⟨n, q⟩, hn, hq⟩
      obtain ⟨hlt, rfl⟩ := readLE_eq_ok.1 hn
      obtain ⟨rfl, hv, rfl⟩ := (readMany_eq_ok _ _ _ _ _).1 hq
      exact ⟨⟨hlt, hv⟩, by simp⟩
    · rintro ⟨⟨hlt, hv⟩, rfl⟩
      exact ⟨(as.length, as.flatMap c.write ++ rest), readLE_eq_ok.2 ⟨hlt, by simp⟩,
        (readMany_eq_ok _ _ _ _ _).2 ⟨rfl, hv, rfl⟩⟩

end Codec

end Wire
