import Mathlib.Logic.Function.Iterate
import Mathlib.Order.WellFounded
import SqpKv.Lib.Simulation

/-!
# Infinite runs

A component of a machine that loses rank with each of its own steps, while the
steps of the others leave its rank alone or take from it, makes finitely many
of them (`stops`).  When it can also make one whenever it is busy, and a run is
fair to it, it does not stay busy (`rests`).  There are infinite runs where one
can always go on (`exists_runs`), and runs to the end where each step takes from
what is left (`exists_done`).
-/

namespace Machine

variable {σ α τ : Type}

/-- `as` is an infinite run through `ss`. -/
def Runs (step : σ → α → Option σ) (ss : Nat → σ) (as : Nat → α) : Prop :=
  ∀ k, step (ss k) (as k) = some (ss (k + 1))

/-- A run is fair to a component: when from some time on it can always go, it goes. -/
def Fair (can : σ → Prop) (own : α → Prop) (ss : Nat → σ) (as : Nat → α) : Prop :=
  ∀ k, (∀ j, k ≤ j → can (ss j)) → ∃ j, k ≤ j ∧ own (as j)

/-- Where every good state has a step to a good state, there is an infinite run. -/
theorem exists_runs {step : σ → α → Option σ} {Good : σ → Prop} {ok : σ → α → Prop}
    (hgo : ∀ s, Good s → ∃ a s', ok s a ∧ step s a = some s' ∧ Good s') {s₀ : σ} (h₀ : Good s₀) :
    ∃ ss as, ss 0 = s₀ ∧ Runs step ss as ∧ ∀ k, ok (ss k) (as k) := by
  let next : {s // Good s} → {s // Good s} := fun s => ⟨_, (hgo s s.2).choose_spec.choose_spec.2.2⟩
  let ss : Nat → {s // Good s} := fun k => next^[k] ⟨s₀, h₀⟩
  refine ⟨fun k => ss k, fun k => (hgo (ss k) (ss k).2).choose, rfl, fun k => ?_, fun k => ?_⟩
  · show step (ss k) _ = some (next^[k + 1] ⟨s₀, h₀⟩).1
    rw [Function.iterate_succ_apply']
    exact (hgo (ss k) (ss k).2).choose_spec.choose_spec.2.1
  · exact (hgo (ss k) (ss k).2).choose_spec.choose_spec.1

/-- A step before an infinite run. -/
theorem Runs.cons {step : σ → α → Option σ} {s : σ} {a : α} {ss : Nat → σ} {as : Nat → α}
    (hs : step s a = some (ss 0)) (h : Runs step ss as) :
    Runs step (fun k => k.casesOn s ss) fun k => k.casesOn a as := by
  intro k
  cases k with
  | zero => exact hs
  | succ k => exact h k

/-- A run before an infinite one. -/
theorem Runs.after {step : σ → α → Option σ} {ok : σ → α → Prop} {as₀ : List α} {s : σ}
    {ss : Nat → σ} {as : Nat → α} (h₀ : run step s as₀ = some (ss 0))
    (hno : ¬ Meets step (fun s a => ¬ ok s a) s as₀) (h : Runs step ss as)
    (hok : ∀ k, ok (ss k) (as k)) :
    ∃ ss' as', ss' 0 = s ∧ Runs step ss' as' ∧ (∀ k, ok (ss' k) (as' k)) ∧
      (∀ k (hk : k < as₀.length), as' k = as₀[k]) ∧ ∀ k, as' (as₀.length + k) = as k := by
  induction as₀ generalizing s with
  | nil =>
    refine ⟨ss, as, (Option.some.inj h₀).symm, h, hok, ?_, ?_⟩
    · exact fun k hk => absurd hk (Nat.not_lt_zero k)
    · exact fun k => by rw [List.length_nil, Nat.zero_add]
  | cons a as₀ ih =>
    obtain ⟨s', hs', h₀⟩ := Option.bind_eq_some_iff.1 h₀
    obtain ⟨ss', as', hfirst, hruns, hok', hbefore, hbehind⟩ := ih h₀ fun hmeets => hno (.inr ⟨s', hs', hmeets⟩)
    refine ⟨_, _, rfl, Runs.cons (s := s) (a := a) (by rw [hs', hfirst]) hruns, ?_, ?_, ?_⟩
    · intro k
      cases k with
      | zero => exact not_not.1 fun hbad => hno (.inl hbad)
      | succ k => exact hok' k
    · intro k hk
      cases k with
      | zero => rfl
      | succ k => exact hbefore k (Nat.lt_of_succ_lt_succ hk)
    · intro k
      have hlen : (a :: as₀).length + k = as₀.length + k + 1 := by
        rw [List.length_cons]
        omega
      rw [hlen]
      exact hbehind k

/-- **To the end**: where a good state that is not done has a step to a good state of smaller rank, a
run gets done; `Good` knows what has been put out. -/
theorem exists_done {W ω : Type} [Preorder W] [WellFoundedLT W] {step : σ → α → Option σ}
    {out : σ → α → List ω} {ok : σ → α → Prop} {Good : σ → τ → List ω → Prop} {done : σ → Prop}
    {rank : σ → τ → W}
    (hgo : ∀ s t H, Good s t H → ¬ done s → ∃ a s' t', ok s a ∧ step s a = some s' ∧
      Good s' t' (H ++ out s a) ∧ rank s' t' < rank s t) {s : σ} {t : τ} {H : List ω} (h : Good s t H) :
    ∃ as s' t', run step s as = some s' ∧ ¬ Meets step (fun s a => ¬ ok s a) s as ∧
      Good s' t' (H ++ trace step out s as) ∧ done s' := by
  induction hw : rank s t using WellFoundedLT.induction generalizing s t H with
  | ind w ih =>
    subst hw
    by_cases hdone : done s
    · exact ⟨[], s, t, rfl, id, by rwa [trace, List.append_nil], hdone⟩
    · obtain ⟨a, s', t', hok, hs, hgood, hlt⟩ := hgo s t H h hdone
      obtain ⟨as, s'', t'', hrun, hno, hgood', hdone'⟩ := ih _ hlt hgood rfl
      refine ⟨a :: as, s'', t'', ?_, not_meets_cons (not_not.2 hok) hs hno, ?_, hdone'⟩
      · rw [run, hs]
        exact hrun
      · simp only [trace, hs]
        rwa [← List.append_assoc]

section

variable {W : Type} [Preorder W] {own : α → Prop} {R : σ → τ → Prop}
  {rank : σ → τ → W} {ss : Nat → σ} {as : Nat → α} {k₀ : Nat}
  (hstep : ∀ k t, k₀ ≤ k → R (ss k) t → ∃ t', R (ss (k + 1)) t' ∧ rank (ss (k + 1)) t' ≤ rank (ss k) t ∧
    (own (as k) → rank (ss (k + 1)) t' < rank (ss k) t))

include hstep

/-- Up to any later time the rank does not grow. -/
theorem exists_rank_le {k : Nat} (hk : k₀ ≤ k) {t : τ} (ht : R (ss k) t) (d : Nat) :
    ∃ t', R (ss (k + d)) t' ∧ rank (ss (k + d)) t' ≤ rank (ss k) t := by
  induction d with
  | zero => exact ⟨t, ht, le_refl _⟩
  | succ d ih =>
    obtain ⟨u, hu, hle⟩ := ih
    obtain ⟨t', ht', hle', -⟩ := hstep (k + d) u (Nat.le_trans hk (Nat.le_add_right k d)) hu
    exact ⟨t', ht', le_trans hle' hle⟩

/-- **Finitely many steps are its own.** -/
theorem stops [WellFoundedLT W] {t : τ} (ht : R (ss k₀) t) : ∃ K, ∀ k, K ≤ k → ¬ own (as k) := by
  suffices h : ∀ w k t, k₀ ≤ k → R (ss k) t → rank (ss k) t = w → ∃ K, ∀ k, K ≤ k → ¬ own (as k) from
    h _ k₀ t (Nat.le_refl _) ht rfl
  intro w
  induction w using WellFoundedLT.induction with
  | ind w ih =>
    rintro k t hk ht rfl
    by_cases hlater : ∃ d, own (as (k + d))
    · obtain ⟨d, hown⟩ := hlater
      have hd : k₀ ≤ k + d := Nat.le_trans hk (Nat.le_add_right k d)
      obtain ⟨u, hu, hle⟩ := exists_rank_le hstep hk ht d
      obtain ⟨t', ht', -, hlt⟩ := hstep (k + d) u hd hu
      exact ih _ (lt_of_lt_of_le (hlt hown) hle) (k + d + 1) t' (Nat.le_succ_of_le hd) ht' rfl
    · refine ⟨k, fun j hj hown => hlater ⟨j - k, ?_⟩⟩
      rwa [Nat.add_sub_cancel' hj]

omit hstep

/-- **It does not stay busy** from `k₀` on, if its rank behaves as long as it is busy. -/
theorem rests [WellFoundedLT W] {busy can : σ → Prop} (hfair : Fair can own ss as)
    (hcan : ∀ k, k₀ ≤ k → busy (ss k) → can (ss k))
    (hstep : ∀ k t, k₀ ≤ k → busy (ss k) → R (ss k) t →
      ∃ t', R (ss (k + 1)) t' ∧ rank (ss (k + 1)) t' ≤ rank (ss k) t ∧
        (own (as k) → rank (ss (k + 1)) t' < rank (ss k) t)) {t : τ} (ht : R (ss k₀) t) :
    ∃ k, k₀ ≤ k ∧ ¬ busy (ss k) := by
  by_contra hbusy
  push Not at hbusy
  obtain ⟨K, hK⟩ := stops (fun k t hk => hstep k t hk (hbusy k hk)) ht
  obtain ⟨j, hj, hown⟩ := hfair (max k₀ K) fun j hj =>
    hcan j (Nat.le_trans (Nat.le_max_left ..) hj) (hbusy j (Nat.le_trans (Nat.le_max_left ..) hj))
  exact hK j (Nat.le_trans (Nat.le_max_right ..) hj) hown

end

end Machine
