import Mathlib.Data.List.Nodup

/-!
# Linearizable histories

A history lists the invocations and the responses of operations on one object,
each operation under an id of its own.  It is linearizable when the completed
operations, and some of the pending ones, can be put in one order `L` that is a
run of the object used by one caller at a time and keeps the order of
operations that did not overlap.

`Tracks hist L` says so of one `L`.  It is kept by the three things that happen
to an operation: it is invoked, it takes effect (`L` grows at its end), and its
result is returned.
-/

namespace History

variable {Id σ ι ρ : Type}

/-- An object for one caller: what an operation does to it, and what it may return. -/
structure SeqSpec (σ ι ρ : Type) where
  next : σ → ι → σ
  returns : σ → ι → ρ → Prop

inductive Event (Id ι ρ : Type)
  | inv (id : Id) (op : ι)
  | res (id : Id) (ret : ρ)
deriving DecidableEq

/-- The operation an event invokes. -/
def Event.invoked? : Event Id ι ρ → Option Id
  | .inv id _ => some id
  | .res _ _ => none

/-- An operation of the sequential run. -/
structure Entry (Id ι ρ : Type) where
  id : Id
  op : ι
  ret : ρ

namespace SeqSpec

variable (spec : SeqSpec σ ι ρ)

/-- Each operation returns what the object allows after those before it. -/
def Legal : σ → List (Entry Id ι ρ) → Prop
  | _, [] => True
  | s, e :: L => spec.returns s e.op e.ret ∧ Legal (spec.next s e.op) L

/-- The object after a sequential run. -/
def after (s : σ) (L : List (Entry Id ι ρ)) : σ := L.foldl (fun s e => spec.next s e.op) s

@[simp] theorem after_append (s : σ) (L : List (Entry Id ι ρ)) (e : Entry Id ι ρ) :
    spec.after s (L ++ [e]) = spec.next (spec.after s L) e.op := by
  simp [after]

theorem legal_append {s : σ} {L : List (Entry Id ι ρ)} {e : Entry Id ι ρ} :
    spec.Legal s (L ++ [e]) ↔ spec.Legal s L ∧ spec.returns (spec.after s L) e.op e.ret := by
  induction L generalizing s with
  | nil => simp [Legal, after]
  | cons d L ih =>
    rw [List.cons_append, Legal, Legal, ih, and_assoc]
    rfl

/-- What an operation returns, the object allowed after those before it. -/
theorem exists_split {s : σ} {L : List (Entry Id ι ρ)} (h : spec.Legal s L) {e : Entry Id ι ρ}
    (he : e ∈ L) : ∃ L₁ L₂, L = L₁ ++ e :: L₂ ∧ spec.returns (spec.after s L₁) e.op e.ret := by
  induction L generalizing s with
  | nil => cases he
  | cons d L ih =>
    obtain ⟨hd, hL⟩ := h
    rcases List.mem_cons.1 he with rfl | he
    · exact ⟨[], L, rfl, hd⟩
    · obtain ⟨L₁, L₂, rfl, hret⟩ := ih hL he
      exact ⟨d :: L₁, L₂, rfl, hret⟩

end SeqSpec

/-- `x` stands before `y`. -/
def Before {α : Type} (x y : α) (l : List α) : Prop := [x, y].Sublist l

theorem Before.append_right {α : Type} {x y : α} {l : List α} (h : Before x y l) (z : α) :
    Before x y (l ++ [z]) :=
  h.trans (List.sublist_append_left l [z])

theorem before_append_singleton {α : Type} {x y z : α} {l : List α} :
    Before x y (l ++ [z]) ↔ Before x y l ∨ (x ∈ l ∧ y = z) := by
  constructor
  · intro h
    obtain ⟨l₁, l₂, heq, h₁, h₂⟩ := List.sublist_append_iff.1 h
    rcases l₂ with _ | ⟨b, l₂⟩
    · rw [List.append_nil] at heq
      subst heq
      exact .inl h₁
    · -- the last of the two is `z`
      have hlen := h₂.length_le
      have hnil : l₂ = [] := List.length_eq_zero_iff.1 (by simpa using hlen)
      subst hnil
      obtain rfl : b = z := List.mem_singleton.1 (h₂.subset List.mem_cons_self)
      have hsplit : [x] ++ [y] = l₁ ++ [b] := heq
      obtain ⟨rfl, hy⟩ := List.append_inj' hsplit rfl
      exact .inr ⟨List.singleton_sublist.1 h₁, (List.cons.inj hy).1⟩
  · rintro (h | ⟨hx, rfl⟩)
    · exact h.append_right z
    · exact (List.singleton_sublist.2 hx).append (List.Sublist.refl [y])

theorem Before.mem_left {α : Type} {x y : α} {l₁ l₂ : List α} (h : Before x y (l₁ ++ l₂))
    (hnodup : (l₁ ++ l₂).Nodup) (hy : y ∈ l₁) : x ∈ l₁ := by
  obtain ⟨m₁, m₂, heq, h₁, h₂⟩ := List.sublist_append_iff.1 h
  have hdisjoint := (List.nodup_append'.1 hnodup).2.2
  -- the last of the two is in `l₁`
  cases m₂ with
  | nil =>
    rw [List.append_nil] at heq
    subst heq
    exact h₁.subset List.mem_cons_self
  | cons b m₂ =>
    have hlast : y ∈ b :: m₂ := by
      have hmem : (m₁ ++ b :: m₂).getLast (by simp) ∈ b :: m₂ := by
        rw [List.getLast_append_of_ne_nil _ (List.cons_ne_nil b m₂)]
        exact List.getLast_mem _
      simp only [← heq] at hmem
      exact hmem
    exact absurd (h₂.subset hlast) (hdisjoint hy)

/-- `L` is a sequential run that explains the history. -/
structure Tracks (spec : SeqSpec σ ι ρ) (init : σ) (hist : List (Event Id ι ρ))
    (L : List (Entry Id ι ρ)) : Prop where
  once : (hist.filterMap Event.invoked?).Nodup
  legal : spec.Legal init L
  nodup : (L.map Entry.id).Nodup
  invoked : ∀ e ∈ L, Event.inv e.id e.op ∈ hist
  completed : ∀ id ret, Event.res id ret ∈ hist → ∃ e ∈ L, e.id = id ∧ e.ret = ret
  realtime : ∀ a ret b op, Before (.res a ret) (.inv b op) hist → b ∈ L.map Entry.id →
    Before a b (L.map Entry.id)

/-- **Linearizability** of a history. -/
def Linearizable (spec : SeqSpec σ ι ρ) (init : σ) (hist : List (Event Id ι ρ)) : Prop :=
  ∃ L, Tracks spec init hist L

namespace Tracks

variable {spec : SeqSpec σ ι ρ} {init : σ} {hist : List (Event Id ι ρ)} {L : List (Entry Id ι ρ)}

theorem nil : Tracks spec init ([] : List (Event Id ι ρ)) [] where
  once := List.nodup_nil
  legal := trivial
  nodup := List.nodup_nil
  invoked := by simp
  completed := by simp
  realtime := by
    intro a ret b op _ hb
    simp at hb

/-- A new operation is invoked. -/
theorem invoke (h : Tracks spec init hist L) {id : Id} (op : ι)
    (hfresh : ∀ op', Event.inv id op' ∉ hist) : Tracks spec init (hist ++ [.inv id op]) L where
  once := by
    rw [List.filterMap_append]
    refine List.nodup_append'.2 ⟨h.once, List.nodup_singleton id, ?_⟩
    intro a ha hid
    obtain ⟨e, he, hinv⟩ := List.mem_filterMap.1 ha
    obtain rfl : a = id := List.mem_singleton.1 hid
    cases e with
    | inv b op' =>
      cases hinv
      exact hfresh op' he
    | res b ret => cases hinv
  legal := h.legal
  nodup := h.nodup
  invoked e he := List.mem_append_left _ (h.invoked e he)
  completed a ret ha := by
    rcases List.mem_append.1 ha with ha | ha
    · exact h.completed a ret ha
    · cases List.mem_singleton.1 ha
  realtime a ret b op' hab hb := by
    rcases before_append_singleton.1 hab with hab | ⟨-, heq⟩
    · exact h.realtime a ret b op' hab hb
    · -- what has taken effect was invoked before
      cases heq
      obtain ⟨e, he, rfl⟩ := List.mem_map.1 hb
      exact absurd (h.invoked e he) (hfresh _)

/-- A pending operation takes effect. -/
theorem commit (h : Tracks spec init hist L) {id : Id} {op : ι} {ret : ρ}
    (hinv : Event.inv id op ∈ hist) (hnew : id ∉ L.map Entry.id)
    (hret : spec.returns (spec.after init L) op ret) :
    Tracks spec init hist (L ++ [⟨id, op, ret⟩]) where
  once := h.once
  legal := spec.legal_append.2 ⟨h.legal, hret⟩
  nodup := by
    rw [List.map_append, List.map_singleton]
    exact List.nodup_append'.2 ⟨h.nodup, List.nodup_singleton _, by simpa using hnew⟩
  invoked e he := by
    rcases List.mem_append.1 he with he | he
    · exact h.invoked e he
    · cases List.mem_singleton.1 he
      exact hinv
  completed a r ha := by
    obtain ⟨e, he, heq⟩ := h.completed a r ha
    exact ⟨e, List.mem_append_left _ he, heq⟩
  realtime a r b op' hab hb := by
    rw [List.map_append, List.map_singleton] at hb ⊢
    rcases List.mem_append.1 hb with hb | hb
    · exact (h.realtime a r b op' hab hb).append_right _
    · cases List.mem_singleton.1 hb
      -- `a` had returned, so it had taken effect
      obtain ⟨e, he, rfl, -⟩ := h.completed a r (hab.subset List.mem_cons_self)
      exact before_append_singleton.2 (.inr ⟨List.mem_map_of_mem he, rfl⟩)

/-- An operation that has taken effect returns its result. -/
theorem respond (h : Tracks spec init hist L) {e : Entry Id ι ρ} (he : e ∈ L) :
    Tracks spec init (hist ++ [.res e.id e.ret]) L where
  once := by
    rw [List.filterMap_append, List.filterMap_cons_none rfl, List.filterMap_nil, List.append_nil]
    exact h.once
  legal := h.legal
  nodup := h.nodup
  invoked d hd := List.mem_append_left _ (h.invoked d hd)
  completed a ret ha := by
    rcases List.mem_append.1 ha with ha | ha
    · exact h.completed a ret ha
    · cases List.mem_singleton.1 ha
      exact ⟨e, he, rfl, rfl⟩
  realtime a ret b op hab hb := by
    rcases before_append_singleton.1 hab with hab | ⟨-, heq⟩
    · exact h.realtime a ret b op hab hb
    · cases heq

end Tracks

end History
