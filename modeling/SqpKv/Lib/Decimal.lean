import SqpKv.Lib.Bytes
import Mathlib.Data.List.TakeWhile

/-!
# Decimal numbers

`decimal n` writes a number, `stoul` and `stoi` are the conversions of the C++
library (base 10, to 64 bits and to an `int`): blanks, a sign, digits, and
whatever follows is ignored.

    stoul (decimal n) = ok n        for n < 2 ^ 64      (stoul_decimal)
    stoi (decimal n) = ok n         for n < 2 ^ 31      (stoi_decimal)

A `Numeral` is a string that begins with a number; `stoul` returns on those
whose digits fit (`stoul_eq_ok`).
-/

namespace Wire

def digit (d : Nat) : UInt8 := (48 + d).toUInt8

def decimal (n : Nat) : Bytes :=
  if n < 10 then [digit n] else decimal (n / 10) ++ [digit (n % 10)]

def isDigit (b : UInt8) : Bool := 48 ≤ b.toNat && b.toNat ≤ 57

/-- `isspace` in the "C" locale. -/
def isSpace (b : UInt8) : Bool := b.toNat = 32 || (9 ≤ b.toNat && b.toNat ≤ 13)

def digitsValue (ds : Bytes) : Nat := ds.foldl (fun v d => 10 * v + (d.toNat - 48)) 0

/-- An optional sign: whether it is a minus, and what follows. -/
def takeSign : Bytes → Bool × Bytes
  | b :: bs => if b = 45 then (true, bs) else if b = 43 then (false, bs) else (false, b :: bs)
  | [] => (false, [])

/-- `std::stoul`: a negative number wraps around, one beyond 64 bits is an exception. -/
def stoul (s : Bytes) : Except Fault Nat :=
  let (negative, s) := takeSign (s.dropWhile isSpace)
  let ds := s.takeWhile isDigit
  if ds = [] then .error .invalidArgument
  else
    let v := digitsValue ds
    if 2 ^ 64 ≤ v then .error .outOfRange
    else .ok (if negative then (2 ^ 64 - v) % 2 ^ 64 else v)

/-- `std::stoi` of base 10, for a 32-bit `int`. -/
def stoi (s : Bytes) : Except Fault Int :=
  let (negative, s) := takeSign (s.dropWhile isSpace)
  let ds := s.takeWhile isDigit
  if ds = [] then .error .invalidArgument
  else
    let v : Int := if negative then -digitsValue ds else digitsValue ds
    if v < -2 ^ 31 ∨ 2 ^ 31 ≤ v then .error .outOfRange else .ok v

theorem digit_toNat {d : Nat} (h : d < 10) : (digit d).toNat = 48 + d := by
  simp only [digit, Nat.toUInt8, UInt8.toNat_ofNat']
  omega

theorem isDigit_digit {d : Nat} (h : d < 10) : isDigit (digit d) = true := by
  simp only [isDigit, digit_toNat h, Bool.and_eq_true, decide_eq_true_eq]
  omega

/-- Induction along the digits of a number. -/
theorem decimal_induction {P : Nat → Prop} (small : ∀ n, n < 10 → P n)
    (step : ∀ n, ¬ n < 10 → P (n / 10) → P n) (n : Nat) : P n := by
  induction n using Nat.strongRecOn with
  | _ n ih =>
    by_cases h : n < 10
    · exact small n h
    · exact step n h (ih (n / 10) (by omega))

theorem decimal_ne_nil (n : Nat) : decimal n ≠ [] := by
  rw [decimal]
  split <;> simp

theorem isDigit_of_mem_decimal {n : Nat} {b : UInt8} (h : b ∈ decimal n) : isDigit b = true := by
  induction n using decimal_induction with
  | small n hn =>
    rw [decimal, if_pos hn, List.mem_singleton] at h
    rw [h]
    exact isDigit_digit hn
  | step n hn ih =>
    rw [decimal, if_neg hn, List.mem_append, List.mem_singleton] at h
    rcases h with h | rfl
    · exact ih h
    · exact isDigit_digit (Nat.mod_lt _ (by omega))

theorem digitsValue_decimal (n : Nat) : digitsValue (decimal n) = n := by
  induction n using decimal_induction with
  | small n hn =>
    rw [decimal, if_pos hn]
    simp only [digitsValue, List.foldl_cons, List.foldl_nil, digit_toNat hn]
    omega
  | step n hn ih =>
    rw [decimal, if_neg hn, digitsValue, List.foldl_append, ← digitsValue, ih]
    simp only [List.foldl_cons, List.foldl_nil, digit_toNat (Nat.mod_lt n (by omega : 0 < 10))]
    omega

/-- A digit is neither a blank nor a sign. -/
theorem isDigit_ne {b : UInt8} (h : isDigit b = true) : isSpace b = false ∧ b ≠ 45 ∧ b ≠ 43 := by
  simp only [isDigit, Bool.and_eq_true, decide_eq_true_eq] at h
  refine ⟨?_, ?_, ?_⟩
  · simp only [isSpace, Bool.or_eq_false_iff, Bool.and_eq_false_iff, decide_eq_false_iff_not]
    omega
  · rintro rfl
    exact absurd h.1 (by decide)
  · rintro rfl
    exact absurd h.1 (by decide)

theorem takeWhile_decimal (n : Nat) : (decimal n).takeWhile isDigit = decimal n :=
  List.takeWhile_eq_self_iff.2 fun _ hb => isDigit_of_mem_decimal hb

/-- In front of the digits there is nothing to skip. -/
theorem takeSign_decimal (n : Nat) :
    takeSign ((decimal n).dropWhile isSpace) = (false, decimal n) := by
  rcases hd : decimal n with _ | ⟨b, bs⟩
  · exact absurd hd (decimal_ne_nil n)
  · have hb : b ∈ decimal n := by
      rw [hd]
      exact List.mem_cons_self
    obtain ⟨hspace, hminus, hplus⟩ := isDigit_ne (isDigit_of_mem_decimal hb)
    rw [List.dropWhile_cons_of_neg (by simp [hspace]), takeSign, if_neg hminus, if_neg hplus]

theorem stoul_decimal {n : Nat} (h : n < 2 ^ 64) : stoul (decimal n) = .ok n := by
  unfold stoul
  rw [takeSign_decimal]
  simp only [takeWhile_decimal, if_neg (decimal_ne_nil n), digitsValue_decimal,
    if_neg (Nat.not_le.2 h)]
  rfl

theorem stoi_decimal {n : Nat} (h : n < 2 ^ 31) : stoi (decimal n) = .ok n := by
  have hrange : ¬((n : Int) < -2 ^ 31 ∨ 2 ^ 31 ≤ (n : Int)) := by omega
  unfold stoi
  rw [takeSign_decimal]
  simp only [takeWhile_decimal, if_neg (decimal_ne_nil n), digitsValue_decimal, Bool.false_eq_true,
    if_false, if_neg hrange]

/-! ## What is converted -/

/-- `s` begins with a number: blanks, a sign if any, the digits `ds` and no further digit. -/
def Numeral (s : Bytes) (negative : Bool) (ds : Bytes) : Prop :=
  ∃ blanks sign rest, s = blanks ++ (sign ++ (ds ++ rest)) ∧ (∀ b ∈ blanks, isSpace b = true) ∧
    (sign = [] ∧ negative = false ∨ sign = [43] ∧ negative = false ∨ sign = [45] ∧ negative = true) ∧
    ds ≠ [] ∧ (∀ d ∈ ds, isDigit d = true) ∧ ∀ b ∈ rest.head?, isDigit b = false

/-- The sign is found in front of a string that does not begin with one. -/
theorem takeSign_eq {s t : Bytes} {negative : Bool} (h : takeSign s = (negative, t)) :
    ∃ sign, s = sign ++ t ∧
      (sign = [] ∧ negative = false ∨ sign = [43] ∧ negative = false ∨ sign = [45] ∧ negative = true) := by
  cases s with
  | nil =>
    cases h
    exact ⟨[], rfl, .inl ⟨rfl, rfl⟩⟩
  | cons b bs =>
    rw [takeSign] at h
    by_cases hminus : b = 45
    · rw [if_pos hminus] at h
      cases h
      exact ⟨[45], by rw [hminus]; rfl, .inr (.inr ⟨rfl, rfl⟩)⟩
    · rw [if_neg hminus] at h
      by_cases hplus : b = 43
      · rw [if_pos hplus] at h
        cases h
        exact ⟨[43], by rw [hplus]; rfl, .inr (.inl ⟨rfl, rfl⟩)⟩
      · rw [if_neg hplus] at h
        cases h
        exact ⟨[], rfl, .inl ⟨rfl, rfl⟩⟩

theorem dropWhile_of_head {p : UInt8 → Bool} {b : UInt8} {bs : Bytes} (h : p b = false) :
    (b :: bs).dropWhile p = b :: bs := by
  rw [List.dropWhile_cons_of_neg (by simp [h])]

/-- What the conversions find is the number the string begins with. -/
theorem numeral_iff {s ds : Bytes} {negative : Bool} :
    Numeral s negative ds ↔ ds ≠ [] ∧
      ∃ t, takeSign (s.dropWhile isSpace) = (negative, t) ∧ t.takeWhile isDigit = ds := by
  constructor
  · rintro ⟨blanks, sign, rest, rfl, hblanks, hsign, hne, hdigits, hrest⟩
    obtain ⟨d, ds, rfl⟩ := List.exists_cons_of_ne_nil hne
    obtain ⟨hspace, hminus, hplus⟩ := isDigit_ne (hdigits d List.mem_cons_self)
    refine ⟨hne, d :: ds ++ rest, ?_, ?_⟩
    · rw [List.dropWhile_append_of_pos hblanks]
      rcases hsign with ⟨rfl, rfl⟩ | ⟨rfl, rfl⟩ | ⟨rfl, rfl⟩
      · rw [List.nil_append, List.cons_append, dropWhile_of_head hspace, takeSign, if_neg hminus,
          if_neg hplus]
      · rfl
      · rfl
    · rw [List.takeWhile_append_of_pos hdigits]
      cases rest with
      | nil => simp
      | cons b rest =>
        have hb : isDigit b = false := hrest b rfl
        rw [List.takeWhile_cons_of_neg (by simp [hb]), List.append_nil]
  · rintro ⟨hne, t, hsign, rfl⟩
    obtain ⟨sign, hsplit, hcases⟩ := takeSign_eq hsign
    refine ⟨s.takeWhile isSpace, sign, t.dropWhile isDigit, ?_, ?_, hcases, hne, ?_, ?_⟩
    · rw [List.takeWhile_append_dropWhile, ← hsplit, List.takeWhile_append_dropWhile]
    · exact fun b hb => List.mem_takeWhile_imp hb
    · exact fun b hb => List.mem_takeWhile_imp hb
    · intro b hb
      have hnot := List.head?_dropWhile_not isDigit t
      rwa [Option.mem_def.1 hb] at hnot

/-- **When `stoul` returns**, and what. -/
theorem stoul_eq_ok {s : Bytes} {v : Nat} :
    stoul s = .ok v ↔ ∃ negative ds, Numeral s negative ds ∧ digitsValue ds < 2 ^ 64 ∧
      v = if negative then (2 ^ 64 - digitsValue ds) % 2 ^ 64 else digitsValue ds := by
  unfold stoul
  rcases hsign : takeSign (s.dropWhile isSpace) with ⟨negative, t⟩
  dsimp only
  constructor
  · intro h
    by_cases hne : t.takeWhile isDigit = []
    · rw [if_pos hne] at h
      cases h
    · rw [if_neg hne] at h
      by_cases hlt : 2 ^ 64 ≤ digitsValue (t.takeWhile isDigit)
      · rw [if_pos hlt] at h
        cases h
      · rw [if_neg hlt] at h
        exact ⟨negative, _, numeral_iff.2 ⟨hne, t, hsign, rfl⟩, Nat.not_le.1 hlt,
          (Except.ok.inj h).symm⟩
  · rintro ⟨negative', ds, hnumeral, hlt, rfl⟩
    obtain ⟨hne, t', hsign', rfl⟩ := numeral_iff.1 hnumeral
    rw [hsign] at hsign'
    cases hsign'
    rw [if_neg hne, if_neg (Nat.not_le.2 hlt)]

end Wire
