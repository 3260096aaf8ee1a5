import Mathlib.Data.List.Basic

/-!
# State machines

`step s a` is the state after the action `a`, or `none` when `a` cannot happen
in `s`.  An invariant is proved once for the first state and once for a step,
and then holds in every state that a run reaches.
-/

namespace Machine

variable {σ α : Type}

/-- The states that runs from `init` lead to. -/
inductive Reachable (step : σ → α → Option σ) (init : σ) : σ → Prop
  | init : Reachable step init init
  | step {s s' : σ} (a : α) : Reachable step init s → step s a = some s' → Reachable step init s'

theorem Reachable.invariant {step : σ → α → Option σ} {init : σ} {I : σ → Prop} (hinit : I init)
    (hstep : ∀ s a s', I s → step s a = some s' → I s') {s : σ} (h : Reachable step init s) :
    I s := by
  induction h with
  | init => exact hinit
  | step a _ hs ih => exact hstep _ a _ ih hs

/-- The state after a list of actions. -/
def run (step : σ → α → Option σ) : σ → List α → Option σ
  | s, [] => some s
  | s, a :: as => (step s a).bind fun s' => run step s' as

theorem Reachable.run {step : σ → α → Option σ} {init s s' : σ} {as : List α}
    (h : Reachable step init s) (hs : run step s as = some s') : Reachable step init s' := by
  induction as generalizing s with
  | nil =>
    cases hs
    exact h
  | cons a as ih =>
    obtain ⟨t, ht, hs⟩ := Option.bind_eq_some_iff.1 hs
    exact ih (h.step a ht) hs

theorem run_append {step : σ → α → Option σ} {s t u : σ} {as bs : List α}
    (h : run step s as = some t) (h' : run step t bs = some u) :
    run step s (as ++ bs) = some u := by
  induction as generalizing s with
  | nil =>
    cases h
    exact h'
  | cons a as ih =>
    obtain ⟨s', hs', h⟩ := Option.bind_eq_some_iff.1 h
    exact Option.bind_eq_some_iff.2 ⟨s', hs', ih h⟩

theorem run_split {step : σ → α → Option σ} {s u : σ} {as bs : List α}
    (h : run step s (as ++ bs) = some u) : ∃ t, run step s as = some t ∧ run step t bs = some u := by
  induction as generalizing s with
  | nil => exact ⟨s, rfl, h⟩
  | cons a as ih =>
    obtain ⟨s', hs', h⟩ := Option.bind_eq_some_iff.1 h
    obtain ⟨t, ht, h⟩ := ih h
    exact ⟨t, Option.bind_eq_some_iff.2 ⟨s', hs', ht⟩, h⟩

theorem Reachable.exists_run {step : σ → α → Option σ} {init s : σ} (h : Reachable step init s) :
    ∃ as, Machine.run step init as = some s := by
  induction h with
  | init => exact ⟨[], rfl⟩
  | step a _ hs ih =>
    obtain ⟨as, has⟩ := ih
    exact ⟨as ++ [a], run_append has (Option.bind_eq_some_iff.2 ⟨_, hs, rfl⟩)⟩

theorem Reachable.trans {step : σ → α → Option σ} {s t u : σ} (h : Reachable step s t)
    (h' : Reachable step t u) : Reachable step s u := by
  induction h' with
  | init => exact h
  | step a _ hs ih => exact ih.step a hs

/-! ## Stretches of a run -/

/-- A run from `s` in all of whose states `P` holds. -/
inductive During (step : σ → α → Option σ) (P : σ → Prop) (s : σ) : σ → Prop
  | refl : P s → During step P s s
  | step {t u : σ} (a : α) : During step P s t → step t a = some u → P u → During step P s u

namespace During

variable {step : σ → α → Option σ} {P : σ → Prop} {s t : σ}

theorem holds (h : During step P s t) : P t := by
  cases h with
  | refl h => exact h
  | step _ _ _ h => exact h

/-- An invariant of a stretch may use that `P` holds before every step. -/
theorem invariant {I : σ → Prop} (h : During step P s t) (hs : I s)
    (hstep : ∀ t a u, P t → I t → step t a = some u → I u) : I t := by
  induction h with
  | refl => exact hs
  | step a h ha _ ih => exact hstep _ a _ h.holds ih ha

end During

/-- `run` as long as `p` holds. -/
def runWhile (step : σ → α → Option σ) (p : σ → Bool) : σ → List α → Option σ
  | s, [] => if p s then some s else none
  | s, a :: as => if p s then (step s a).bind fun s' => runWhile step p s' as else none

theorem runWhile_holds {step : σ → α → Option σ} {p : σ → Bool} {s t : σ} {as : List α}
    (h : runWhile step p s as = some t) : p s = true := by
  by_contra hp
  cases as with
  | nil =>
    rw [runWhile, if_neg hp] at h
    cases h
  | cons a as =>
    rw [runWhile, if_neg hp] at h
    cases h

theorem During.of_runWhile {step : σ → α → Option σ} {P : σ → Prop} [DecidablePred P] {s t : σ}
    {as : List α} (h : runWhile step (fun s => decide (P s)) s as = some t) :
    During step P s t := by
  have holds : ∀ {s as}, runWhile step (fun s => decide (P s)) s as = some t → P s :=
    fun h => of_decide_eq_true (runWhile_holds (p := fun s => decide (P s)) h)
  suffices hcons : ∀ s₀, During step P s₀ s → During step P s₀ t from hcons s (.refl (holds h))
  intro s₀ hs
  induction as generalizing s with
  | nil =>
    rw [runWhile, if_pos (decide_eq_true hs.holds)] at h
    cases h
    exact hs
  | cons a as ih =>
    rw [runWhile, if_pos (decide_eq_true hs.holds)] at h
    obtain ⟨s', hs', h⟩ := Option.bind_eq_some_iff.1 h
    exact ih h (hs.step a hs' (holds h))

/-! ## Runs with a bad step -/

/-- Some step of the run of `as` from `s` is bad. -/
def Meets (step : σ → α → Option σ) (bad : σ → α → Prop) : σ → List α → Prop
  | _, [] => False
  | s, a :: as => bad s a ∨ ∃ t, step s a = some t ∧ Meets step bad t as

theorem run_invariant {step : σ → α → Option σ} {I : σ → Prop}
    (hstep : ∀ s a t, I s → step s a = some t → I t) {s t : σ} {as : List α} (hs : I s)
    (h : run step s as = some t) : I t := by
  induction as generalizing s with
  | nil =>
    cases h
    exact hs
  | cons a as ih =>
    obtain ⟨u, hu, h⟩ := Option.bind_eq_some_iff.1 h
    exact ih (hstep s a u hs hu) h

/-- The run up to a bad step. -/
theorem Meets.mono {step : σ → α → Option σ} {bad bad' : σ → α → Prop} {s : σ} {as : List α}
    (h : Meets step bad s as) (hbad : ∀ s a, bad s a → bad' s a) : Meets step bad' s as := by
  induction as generalizing s with
  | nil => exact h
  | cons a as ih =>
    rcases h with h | ⟨t, ht, h⟩
    · exact .inl (hbad s a h)
    · exact .inr ⟨t, ht, ih h⟩

theorem Meets.split {step : σ → α → Option σ} {bad : σ → α → Prop} {s : σ} {as : List α}
    (h : Meets step bad s as) : ∃ bs a cs t, as = bs ++ a :: cs ∧ run step s bs = some t ∧ bad t a := by
  induction as generalizing s with
  | nil => exact h.elim
  | cons a as ih =>
    rcases h with hbad | ⟨u, hu, h⟩
    · exact ⟨[], a, as, s, rfl, rfl, hbad⟩
    · obtain ⟨bs, b, cs, t, rfl, ht, hbad⟩ := ih h
      exact ⟨a :: bs, b, cs, t, rfl, Option.bind_eq_some_iff.2 ⟨u, hu, ht⟩, hbad⟩

/-- A run that comes to a bad step. -/
theorem Meets.of_run {step : σ → α → Option σ} {bad : σ → α → Prop} {s t : σ} {bs cs : List α} {a : α}
    (h : run step s bs = some t) (hbad : bad t a) : Meets step bad s (bs ++ a :: cs) := by
  induction bs generalizing s with
  | nil =>
    cases h
    exact .inl hbad
  | cons b bs ih =>
    obtain ⟨u, hu, h⟩ := Option.bind_eq_some_iff.1 h
    exact .inr ⟨u, hu, ih h⟩

/-- What the steps that are not bad keep holds behind a run without a bad step. -/
theorem run_of_not_meets {step : σ → α → Option σ} {bad : σ → α → Prop} {Good : σ → Prop}
    (keep : ∀ s a t, Good s → ¬ bad s a → step s a = some t → Good t) {s t : σ} {as : List α}
    (hs : Good s) (h : run step s as = some t) (hno : ¬ Meets step bad s as) : Good t := by
  induction as generalizing s with
  | nil =>
    cases h
    exact hs
  | cons a as ih =>
    obtain ⟨u, hu, h⟩ := Option.bind_eq_some_iff.1 h
    have hgood := keep s a u hs (fun hbad => hno (.inl hbad)) hu
    exact ih hgood h fun hmeets => hno (.inr ⟨u, hu, hmeets⟩)

/-- `Good` is kept by the steps that are not bad, `Lost` holds from the first bad one on. -/
theorem run_of_meets {step : σ → α → Option σ} {bad : σ → α → Prop} {Good Lost : σ → Prop}
    (keep : ∀ s a t, Good s → ¬ bad s a → step s a = some t → Good t)
    (lose : ∀ s a t, Good s → bad s a → step s a = some t → Lost t)
    (lost : ∀ s a t, Lost s → step s a = some t → Lost t) {s t : σ} {as : List α} (hs : Good s)
    (h : run step s as = some t) (hmeets : Meets step bad s as) : Lost t := by
  induction as generalizing s with
  | nil => exact hmeets.elim
  | cons a as ih =>
    obtain ⟨u, hu, h⟩ := Option.bind_eq_some_iff.1 h
    by_cases hbad : bad s a
    · exact run_invariant lost (lose s a u hs hbad hu) h
    · obtain ⟨u', hu', hmeets⟩ := hmeets.resolve_left hbad
      rw [hu] at hu'
      cases hu'
      exact ih (keep s a u hs hbad hu) h hmeets

/-- What `Good` implies and `Lost` excludes holds exactly behind the runs without a bad step. -/
theorem run_iff_not_meets {step : σ → α → Option σ} {bad : σ → α → Prop} (Good Lost : σ → Prop)
    (keep : ∀ s a t, Good s → ¬ bad s a → step s a = some t → Good t)
    (lose : ∀ s a t, Good s → bad s a → step s a = some t → Lost t)
    (lost : ∀ s a t, Lost s → step s a = some t → Lost t) {s t : σ} {as : List α} (hs : Good s)
    (h : run step s as = some t) {P : Prop} (hgood : Good t → P) (hlost : Lost t → ¬ P) :
    P ↔ ¬ Meets step bad s as := by
  constructor
  · intro hP hmeets
    exact hlost (run_of_meets keep lose lost hs h hmeets) hP
  · intro hno
    exact hgood (run_of_not_meets keep hs h hno)

end Machine
