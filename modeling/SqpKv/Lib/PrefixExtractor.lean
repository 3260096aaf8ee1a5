import Mathlib.Data.List.Basic

/-!
# Prefix extractors

A partial function on lists that takes a prefix of every list in its domain and
is determined by that prefix:

    extract a = some p   →   p <+: a,  and  extract b = some p  for every b with p <+: b

The other laws an ordered store asks for follow.  It is idempotent (`fixed`),
and it keeps the lexicographic order (`mono`): two prefixes are equal, or they
differ inside both lists.  `upTo sep` cuts behind the first `sep`.
-/

namespace Wire

variable {α : Type}

/-- Lists that differ before one of them ends are ordered as what they begin. -/
theorem compare_append_append [Ord α] [Std.LawfulEqOrd α] {p q : List α} (hpq : ¬ p <+: q)
    (hqp : ¬ q <+: p) (a b : List α) : compare (p ++ a) (q ++ b) = compare p q := by
  induction p generalizing q with
  | nil => exact absurd List.nil_prefix hpq
  | cons x p ih =>
    cases q with
    | nil => exact absurd List.nil_prefix hqp
    | cons y q =>
      simp only [List.cons_append, List.compare_cons_cons]
      cases hxy : compare x y with
      | lt => rfl
      | gt => rfl
      | eq =>
        obtain rfl := Std.LawfulEqOrd.eq_of_compare hxy
        rw [List.cons_prefix_cons] at hpq hqp
        exact ih (fun h => hpq ⟨rfl, h⟩) fun h => hqp ⟨rfl, h⟩

structure PrefixExtractor (α : Type) where
  extract : List α → Option (List α)
  isPrefix : ∀ {a p}, extract a = some p → p <+: a
  same : ∀ {a b p}, extract a = some p → p <+: b → extract b = some p

namespace PrefixExtractor

variable (f : PrefixExtractor α) {a b p q : List α}

theorem fixed (h : f.extract a = some p) : f.extract p = some p := f.same h (List.prefix_refl p)

/-- Of two prefixes neither begins the other. -/
theorem eq_of_prefix (ha : f.extract a = some p) (hb : f.extract b = some q) (h : p <+: q) : p = q := by
  have hsame := f.same ha (h.trans (f.isPrefix hb))
  rw [hb] at hsame
  exact (Option.some.inj hsame).symm

theorem mono [Ord α] [Std.LawfulEqOrd α] (ha : f.extract a = some p) (hb : f.extract b = some q)
    (h : compare a b ≠ .gt) : compare p q ≠ .gt := by
  by_cases hne : p = q
  · rw [hne, Std.ReflOrd.compare_self]
    exact fun h => nomatch h
  · obtain ⟨a', rfl⟩ := f.isPrefix ha
    obtain ⟨b', rfl⟩ := f.isPrefix hb
    rwa [compare_append_append (fun hpq => hne (f.eq_of_prefix ha hb hpq))
      (fun hqp => hne (f.eq_of_prefix hb ha hqp).symm)] at h

end PrefixExtractor

/-! ## Up to a separator -/

section

variable [DecidableEq α] (sep : α)

def upToSep : List α → Option (List α)
  | [] => none
  | x :: xs => if x = sep then some [x] else (upToSep xs).map (x :: ·)

theorem upToSep_eq_some {a p : List α} :
    upToSep sep a = some p ↔ ∃ t rest, sep ∉ t ∧ p = t ++ [sep] ∧ a = t ++ sep :: rest := by
  induction a generalizing p with
  | nil =>
    refine iff_of_false (fun h => nomatch h) ?_
    rintro ⟨t, rest, -, -, h⟩
    cases t <;> cases h
  | cons x xs ih =>
    rw [upToSep]
    by_cases hx : x = sep
    · rw [if_pos hx, hx, Option.some.injEq]
      constructor
      · rintro rfl
        exact ⟨[], xs, List.not_mem_nil, rfl, rfl⟩
      · rintro ⟨_ | ⟨y, t⟩, rest, ht, rfl, h⟩
        · rfl
        · obtain ⟨rfl, -⟩ := List.cons.inj h
          exact absurd List.mem_cons_self ht
    · rw [if_neg hx, Option.map_eq_some_iff]
      constructor
      · rintro ⟨p, hp, rfl⟩
        obtain ⟨t, rest, ht, rfl, rfl⟩ := ih.1 hp
        exact ⟨x :: t, rest, by simp [ht, Ne.symm hx], rfl, rfl⟩
      · rintro ⟨_ | ⟨y, t⟩, rest, ht, rfl, h⟩
        · exact absurd (List.cons.inj h).1 hx
        · obtain ⟨rfl, rfl⟩ := List.cons.inj h
          rw [List.mem_cons, not_or] at ht
          exact ⟨t ++ [sep], ih.2 ⟨t, rest, ht.2, rfl, rfl⟩, rfl⟩

/-- It is defined where the separator occurs. -/
theorem upToSep_isSome {a : List α} : (upToSep sep a).isSome ↔ sep ∈ a := by
  induction a with
  | nil => simp [upToSep]
  | cons x xs ih =>
    rw [upToSep]
    by_cases hx : x = sep
    · simp [hx]
    · rw [if_neg hx, Option.isSome_map, ih]
      simp [Ne.symm hx]

def PrefixExtractor.upTo : PrefixExtractor α where
  extract := upToSep sep
  isPrefix := by
    intro a p h
    obtain ⟨t, rest, -, rfl, rfl⟩ := (upToSep_eq_some sep).1 h
    exact ⟨rest, by rw [List.append_assoc]; rfl⟩
  same := by
    intro a b p h hb
    obtain ⟨t, rest, ht, rfl, rfl⟩ := (upToSep_eq_some sep).1 h
    obtain ⟨rest', rfl⟩ := hb
    exact (upToSep_eq_some sep).2 ⟨t, rest', ht, rfl, by rw [List.append_assoc]; rfl⟩

end

end Wire
