import SqpKv.Lib.PrefixExtractor
import SqpKv.Server.KvWorker
import SqpKv.Server.ShardingPolicy

/-!
# Table prefixes (src/server/table_prefix_transform.h, table_prefix_transform.cc)

`TablePrefixTransform` cuts a key behind its first underscore: it is the prefix
extractor `upTo 95` on the contents of a slice (`transform_toStr`), so it has
the laws RocksDB asks for.  `ExtractKey` looks for the same underscore, with an
`int` instead of a `size_t`:

    the search of ExtractKey ends where Transform(a) ends
      ↔  the underscore of a is at an index below 2 ^ 31 - 1        (legal_idStart_iff)

A scan for the prefix of a key finds the keys of its table (`scan_transform`).
-/

namespace SqpKv

open Wire

/-- The data pointer reaches as many bytes as the size says. -/
def Slice.WellFormed (s : Slice) : Prop := ∃ data, s.data = some data ∧ s.size ≤ data.length

theorem Slice.wellFormed_of (s : Bytes) : (Slice.of s).WellFormed := ⟨s, rfl, Nat.le_refl _⟩

@[simp] theorem Slice.toStr_of (s : Bytes) : (Slice.of s).toStr = s := List.take_length

theorem Slice.toStr_length {s : Slice} (h : s.WellFormed) : s.toStr.length = s.size := by
  obtain ⟨data, hdata, hle⟩ := h
  rw [Slice.toStr, hdata, Option.getD_some, List.length_take, Nat.min_eq_left hle]

namespace TablePrefixTransform

/-- The loop of both functions: the index of the first underscore in the key. -/
def find : Bytes → Nat → Option Nat
  | [], _ => none
  | b :: bs, i => if b = 95 then some i else find bs (i + 1)

/-- `Transform`; `none` where it runs off its end, which has no `return`. -/
def transform (key : Slice) : Option Slice :=
  (find key.toStr 0).map fun i => ⟨key.data, i + 1⟩

/-- `InDomain`. -/
def inDomain (key : Slice) : Bool := (find key.toStr 0).isSome

theorem find_eq (bs : Bytes) (i : Nat) :
    (find bs i).map (· + 1) = (upToSep 95 bs).map fun p => i + p.length := by
  induction bs generalizing i with
  | nil => rfl
  | cons b bs ih =>
    rw [find, upToSep]
    by_cases hb : b = 95
    · rw [if_pos hb, if_pos hb]
      rfl
    · rw [if_neg hb, if_neg hb, ih, Option.map_map]
      congr 1
      funext p
      show i + 1 + p.length = i + (p.length + 1)
      omega

theorem find_isSome (bs : Bytes) (i : Nat) : (find bs i).isSome = (upToSep 95 bs).isSome := by
  have h := congrArg Option.isSome (find_eq bs i)
  rwa [Option.isSome_map, Option.isSome_map] at h

/-- `Transform` in terms of the prefix it takes. -/
theorem transform_eq (key : Slice) :
    transform key = (upToSep 95 key.toStr).map fun p => ⟨key.data, p.length⟩ := by
  have h := find_eq key.toStr 0
  have hmap : transform key = ((find key.toStr 0).map (· + 1)).map (Slice.mk key.data) := by
    rw [Option.map_map]
    rfl
  rw [hmap, h, Option.map_map]
  congr 1
  funext p
  show Slice.mk key.data (0 + p.length) = _
  rw [Nat.zero_add]

/-- A prefix of a well-formed key, in the same memory. -/
theorem toStr_cut {key : Slice} (hkey : key.WellFormed) {p : Bytes} (hp : p <+: key.toStr) :
    Slice.WellFormed ⟨key.data, p.length⟩ ∧ Slice.toStr ⟨key.data, p.length⟩ = p := by
  have hlen := hp.length_le
  rw [Slice.toStr_length hkey] at hlen
  obtain ⟨data, hdata, hle⟩ := hkey
  refine ⟨⟨data, hdata, Nat.le_trans hlen hle⟩, ?_⟩
  rw [Slice.toStr, hdata] at hp
  rw [Slice.toStr, hdata]
  exact (List.prefix_iff_eq_take.1 (hp.trans (List.take_prefix _ _))).symm

/-- **Which extractor it is.**  On contents `Transform` is `upTo 95`. -/
theorem transform_toStr {key : Slice} (hkey : key.WellFormed) :
    (transform key).map Slice.toStr = (PrefixExtractor.upTo 95).extract key.toStr := by
  show _ = upToSep 95 key.toStr
  rw [transform_eq, Option.map_map]
  cases hp : upToSep 95 key.toStr with
  | none => rfl
  | some p =>
    have hprefix := (PrefixExtractor.upTo 95).isPrefix hp
    exact congrArg some (toStr_cut hkey hprefix).2

theorem inDomain_iff (key : Slice) : inDomain key = true ↔ 95 ∈ key.toStr := by
  rw [inDomain, find_isSome, upToSep_isSome]

/-- What RocksDB asks of the prefixes `p` and `q` of two keys `a` and `b`. -/
structure Legal (a b p q : Slice) : Prop where
  isPrefix : p.toStr <+: a.toStr
  inDomain : inDomain p = true
  fixed : ∃ p', transform p = some p' ∧ p'.toStr = p.toStr
  mono : compare a.toStr b.toStr ≠ .gt → compare p.toStr q.toStr ≠ .gt
  same : ∀ c : Slice, c.WellFormed → p.toStr <+: c.toStr →
    ∃ r, transform c = some r ∧ r.toStr = p.toStr

/-- `ExtractKey` starts reading the id of `a` where `p` ends. -/
def IdStart (a p : Slice) : Prop :=
  ∃ data, a.data = some data ∧ findUnderscore data 0 = .ok p.size

/-- `Transform` on a key in its domain. -/
theorem transform_of_inDomain {a : Slice} (ha : a.WellFormed) (hdom : inDomain a = true) :
    ∃ p, transform a = some p ∧ p.WellFormed ∧ p.data = a.data ∧
      upToSep 95 a.toStr = some p.toStr := by
  obtain ⟨s, hs⟩ := Option.isSome_iff_exists.1 ((upToSep_isSome 95).2 ((inDomain_iff a).1 hdom))
  have hprefix := (PrefixExtractor.upTo 95).isPrefix hs
  obtain ⟨hwell, hstr⟩ := toStr_cut ha hprefix
  refine ⟨⟨a.data, s.length⟩, ?_, hwell, rfl, ?_⟩
  · rw [transform_eq, hs]
    rfl
  · rw [hs, hstr]

/-- The search of `ExtractKey` on a key in the domain. -/
theorem findUnderscore_of_inDomain {a p : Slice} (hp : p.WellFormed) (hdata : p.data = a.data)
    (h : upToSep 95 a.toStr = some p.toStr) :
    ∃ data, a.data = some data ∧ findUnderscore data 0 =
      if 2 ^ 31 ≤ p.size then .error .signedOverflow else .ok p.size := by
  obtain ⟨t, rest, ht, hpt, hat⟩ := (upToSep_eq_some 95).1 h
  have hlen := Slice.toStr_length hp
  rw [hpt, List.length_append, List.length_singleton] at hlen
  obtain ⟨data, hpd, -⟩ := hp
  have had : a.data = some data := by rw [← hdata, hpd]
  refine ⟨data, had, ?_⟩
  -- behind the key there is whatever its memory holds
  have hsplit : data = t ++ 95 :: (rest ++ data.drop a.size) := by
    rw [Slice.toStr, had, Option.getD_some] at hat
    rw [← List.cons_append, ← List.append_assoc, ← hat, List.take_append_drop]
  rw [hsplit, findUnderscore_append ht, Nat.zero_add, hlen]

theorem legal_of_upToSep {a b p q : Slice} (hp : p.WellFormed)
    (hpa : upToSep 95 a.toStr = some p.toStr) (hqb : upToSep 95 b.toStr = some q.toStr) :
    Legal a b p q := by
  let f := PrefixExtractor.upTo (95 : UInt8)
  have hfixed : f.extract p.toStr = some p.toStr := f.fixed hpa
  refine ⟨f.isPrefix hpa, ?_, ?_, f.mono hpa hqb, ?_⟩
  · rw [inDomain_iff, ← upToSep_isSome]
    exact Option.isSome_iff_exists.2 ⟨_, hfixed⟩
  · have h := transform_toStr hp
    rw [hfixed] at h
    exact Option.map_eq_some_iff.1 h
  · intro c hc hprefix
    have h := transform_toStr hc
    rw [f.same hpa hprefix] at h
    exact Option.map_eq_some_iff.1 h

/-- **When the transform is legal and agrees with `ExtractKey`.**  The laws hold for all keys in the
domain; `ExtractKey` ends its search where the prefix ends, unless its `int` overflows. -/
theorem legal_idStart_iff (a b : Slice) (ha : a.WellFormed) (hb : b.WellFormed)
    (hadom : inDomain a = true) (hbdom : inDomain b = true) :
    ∃ p q, transform a = some p ∧ transform b = some q ∧ Legal a b p q ∧
      (Legal a b p q ∧ IdStart a p ↔ a.toStr.idxOf 95 + 1 < 2 ^ 31) := by
  obtain ⟨p, hp, hpwell, hpdata, hpa⟩ := transform_of_inDomain ha hadom
  obtain ⟨q, hq, -, -, hqb⟩ := transform_of_inDomain hb hbdom
  have hlegal := legal_of_upToSep hpwell hpa hqb
  obtain ⟨data, hdata, hfind⟩ := findUnderscore_of_inDomain hpwell hpdata hpa
  have hsize : a.toStr.idxOf 95 + 1 = p.size := by
    obtain ⟨t, rest, ht, hpt, hat⟩ := (upToSep_eq_some 95).1 hpa
    rw [← Slice.toStr_length hpwell, hpt, hat, List.idxOf_append_of_notMem ht]
    simp
  refine ⟨p, q, hp, hq, hlegal, ?_⟩
  rw [hsize]
  constructor
  · rintro ⟨-, data', hdata', hstart⟩
    obtain rfl := Option.some.inj (hdata.symm.trans hdata')
    rw [hfind] at hstart
    by_contra hlt
    rw [if_pos (Nat.not_lt.1 hlt)] at hstart
    cases hstart
  · intro hlt
    rw [if_neg (Nat.not_le.2 hlt)] at hfind
    exact ⟨hlegal, data, hdata, hfind⟩

/-- The keys `t_1` and `u_2`. -/
theorem legal_idStart_short :
    ∃ p q, transform (.of [116, 95, 49]) = some p ∧ transform (.of [117, 95, 50]) = some q ∧
      Legal (.of [116, 95, 49]) (.of [117, 95, 50]) p q ∧
      (Legal (.of [116, 95, 49]) (.of [117, 95, 50]) p q ∧ IdStart (.of [116, 95, 49]) p ↔
        [116, 95, 49].idxOf (95 : UInt8) + 1 < 2 ^ 31) :=
  legal_idStart_iff (.of [116, 95, 49]) (.of [117, 95, 50]) (Slice.wellFormed_of _)
    (Slice.wellFormed_of _) rfl rfl

/-- A table name of `2 ^ 31` bytes: `Transform` gives it back with the underscore, `ExtractKey` does
not get there. -/
theorem idStart_long :
    ∃ p, transform (.of (List.replicate (2 ^ 31) 97 ++ [95])) = some p ∧
      ¬ IdStart (.of (List.replicate (2 ^ 31) 97 ++ [95])) p := by
  have hmem : (95 : UInt8) ∉ List.replicate (2 ^ 31) 97 := by
    intro h
    exact absurd (List.eq_of_mem_replicate h) (by decide)
  have hlen : (List.replicate (2 ^ 31) (97 : UInt8)).length = 2 ^ 31 := List.length_replicate
  generalize List.replicate (2 ^ 31) (97 : UInt8) = table at hmem hlen ⊢
  have hdom : inDomain (.of (table ++ [95])) = true := by
    rw [inDomain_iff, Slice.toStr_of]
    exact List.mem_append_right _ List.mem_cons_self
  obtain ⟨p, hp, -, -, -⟩ := transform_of_inDomain (Slice.wellFormed_of _) hdom
  refine ⟨p, hp, ?_⟩
  rintro ⟨data, hdata, hfind⟩
  obtain rfl := Option.some.inj hdata
  rw [findUnderscore_append hmem [] 0, if_pos (by omega)] at hfind
  cases hfind

/-! ## The keys of a table -/

/-- The keys with the prefix that `Transform` gives are those it gives this prefix to, so a scan of
a table finds its keys. -/
theorem scan_transform {key p : Slice} (hkey : key.WellFormed) (hp : transform key = some p)
    (db : Store) :
    collect p.toStr (seek db p.toStr) =
      db.keys.filter fun k => upToSep 95 k == some p.toStr := by
  let f := PrefixExtractor.upTo (95 : UInt8)
  have hextract : f.extract key.toStr = some p.toStr := by
    rw [← transform_toStr hkey, hp]
    rfl
  rw [collect_seek]
  refine List.filter_congr fun k _ => ?_
  rw [Bool.eq_iff_iff, List.isPrefixOf_iff_prefix, beq_iff_eq]
  exact ⟨f.same hextract, f.isPrefix⟩

end TablePrefixTransform

end SqpKv
