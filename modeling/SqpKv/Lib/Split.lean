import Mathlib.Data.List.Basic
import Mathlib.Data.List.TakeWhile

/-!
# Tokens of a string

`split d s` are the tokens that `std::getline` takes off a string stream one by
one, with the delimiter `d`.  The last token may end the string without a
delimiter; behind a last delimiter there is none:

    split d (a ++ d :: b) = a :: split d b     for d ∉ a     (split_append)
    split d a = [a]                            for d ∉ a ≠ [] (split_single)

`find p s` is where `p` occurs in `s` first.
-/

namespace Wire

variable {α : Type} [DecidableEq α]

/-! ## Delimiters -/

/-- One `std::getline`: the token and what is left; `none` where the stream has nothing left. -/
def getline (d : α) (s : List α) : Option (List α × List α) :=
  if s = [] then none else some (s.takeWhile (· ≠ d), (s.dropWhile (· ≠ d)).tail)

theorem getline_length {d : α} {s tok rest : List α} (h : getline d s = some (tok, rest)) :
    rest.length < s.length := by
  unfold getline at h
  split at h
  · cases h
  · next hne =>
    cases h
    have hpos := List.length_pos_of_ne_nil hne
    have hdrop := (List.dropWhile_sublist (l := s) (· ≠ d)).length_le
    rw [List.length_tail]
    omega

/-- `while (std::getline(..)) { .. push_back(tok); }`. -/
def split (d : α) (s : List α) : List (List α) :=
  match _h : getline d s with
  | none => []
  | some (tok, rest) => tok :: split d rest
termination_by s.length
decreasing_by exact getline_length _h

theorem ne_of_mem {d : α} {a : List α} (h : d ∉ a) : ∀ x ∈ a, decide (x ≠ d) = true := by
  intro x hx
  apply decide_eq_true
  rintro rfl
  exact h hx

theorem getline_append {d : α} {a : List α} (h : d ∉ a) (b : List α) :
    getline d (a ++ d :: b) = some (a, b) := by
  rw [getline, if_neg (by simp), List.takeWhile_append_of_pos (ne_of_mem h),
    List.dropWhile_append_of_pos (ne_of_mem h),
    List.takeWhile_cons_of_neg (by simp), List.dropWhile_cons_of_neg (by simp), List.append_nil,
    List.tail_cons]

theorem getline_single {d : α} {a : List α} (h : d ∉ a) (hne : a ≠ []) :
    getline d a = some (a, []) := by
  rw [getline, if_neg hne, List.takeWhile_eq_self_iff.2 (ne_of_mem h), List.dropWhile_eq_nil_iff.2 (ne_of_mem h),
    List.tail_nil]

@[simp] theorem split_nil (d : α) : split d [] = [] := by
  rw [split]
  rfl

theorem split_of_getline {d : α} {s tok rest : List α} (h : getline d s = some (tok, rest)) :
    split d s = tok :: split d rest := by
  rw [split]
  split
  · next hnone =>
    rw [h] at hnone
    cases hnone
  · next hsome =>
    rw [h] at hsome
    cases hsome
    rfl

theorem split_append {d : α} {a : List α} (h : d ∉ a) (b : List α) :
    split d (a ++ d :: b) = a :: split d b :=
  split_of_getline (getline_append h b)

theorem split_single {d : α} {a : List α} (h : d ∉ a) (hne : a ≠ []) : split d a = [a] := by
  rw [split_of_getline (getline_single h hne), split_nil]

/-! ## How many tokens -/

theorem split_length_pos {d : α} {s : List α} : 0 < (split d s).length ↔ s ≠ [] := by
  constructor
  · rintro h rfl
    rw [split_nil] at h
    exact Nat.lt_irrefl 0 h
  · intro hne
    have hline : getline d s = some (s.takeWhile (· ≠ d), (s.dropWhile (· ≠ d)).tail) := if_neg hne
    rw [split_of_getline hline]
    exact Nat.succ_pos _

/-- A second token needs a delimiter with something behind it. -/
theorem one_lt_split_length {d : α} {s : List α} :
    1 < (split d s).length ↔ ∃ a b, d ∉ a ∧ s = a ++ d :: b ∧ b ≠ [] := by
  constructor
  · intro h
    by_cases hd : d ∈ s
    · obtain ⟨a, b, rfl, ha⟩ := List.eq_append_cons_of_mem hd
      rw [split_append ha, List.length_cons] at h
      exact ⟨a, b, ha, rfl, split_length_pos.1 (Nat.lt_of_succ_lt_succ h)⟩
    · have hne : s ≠ [] := split_length_pos.1 (Nat.lt_of_succ_lt h)
      rw [split_single hd hne] at h
      exact absurd h (Nat.lt_irrefl 1)
  · rintro ⟨a, b, ha, rfl, hb⟩
    rw [split_append ha, List.length_cons]
    exact Nat.succ_lt_succ (split_length_pos.2 hb)

/-! ## Searching -/

/-- `std::string::find`. -/
def find (p : List α) : List α → Option Nat
  | [] => if p = [] then some 0 else none
  | x :: s => if p <+: x :: s then some 0 else (find p s).map (· + 1)

theorem find_eq_zero {p s : List α} : find p s = some 0 ↔ p <+: s := by
  cases s with
  | nil => simp [find]
  | cons x s =>
    rw [find]
    split
    · next h => exact ⟨fun _ => h, fun _ => rfl⟩
    · next h =>
      refine ⟨fun hfind => ?_, fun hp => absurd hp h⟩
      obtain ⟨n, -, hn⟩ := Option.map_eq_some_iff.1 hfind
      omega

end Wire
