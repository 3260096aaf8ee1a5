import SqpKv.Lib.Machine

/-!
# Machines whose steps commute

When two different steps that are both possible can be made in either order,
with one result, a run that ends in a halted state stands for all of them:

    run s as = some t,  t halted,  run s bs = some u   →   some run leads from u to t

so every run can be completed, and to the same end (`Commutes.completes`).
-/

namespace Machine

variable {σ α : Type} {step : σ → α → Option σ}

/-- Different steps from one state can be made in either order. -/
def Commutes (step : σ → α → Option σ) : Prop :=
  ∀ s a b t u, a ≠ b → step s a = some t → step s b = some u →
    ∃ v, step t b = some v ∧ step u a = some v

/-- No step is possible. -/
def Halted (step : σ → α → Option σ) (s : σ) : Prop := ∀ a, step s a = none

theorem run_cons {s t : σ} {a : α} {as : List α} :
    run step s (a :: as) = some t ↔ ∃ s', step s a = some s' ∧ run step s' as = some t :=
  Option.bind_eq_some_iff

/-- A step made first does not spoil a run to a halted state. -/
theorem Commutes.strip (h : Commutes step) {as : List α} {s s' t : σ} {a : α}
    (hrun : run step s as = some t) (ht : Halted step t) (ha : step s a = some s') :
    ∃ bs, run step s' bs = some t := by
  induction as generalizing s s' with
  | nil =>
    cases hrun
    rw [ht a] at ha
    cases ha
  | cons b as ih =>
    obtain ⟨u, hb, hrun⟩ := run_cons.1 hrun
    by_cases hab : a = b
    · subst hab
      rw [ha] at hb
      cases hb
      exact ⟨as, hrun⟩
    · obtain ⟨v, hv, hu⟩ := h s a b s' u hab ha hb
      obtain ⟨bs, hbs⟩ := ih hrun hu
      exact ⟨b :: bs, run_cons.2 ⟨v, hv, hbs⟩⟩

/-- **Every run can be completed**, to the halted state that one run leads to. -/
theorem Commutes.completes (h : Commutes step) {s t u : σ} (ht : Halted step t)
    (hst : Reachable step s t) (hsu : Reachable step s u) : Reachable step u t := by
  suffices hrun : ∃ bs, run step u bs = some t by
    obtain ⟨bs, hbs⟩ := hrun
    exact Reachable.init.run hbs
  obtain ⟨as, has⟩ := hst.exists_run
  induction hsu with
  | init => exact ⟨as, has⟩
  | step a _ ha ih =>
    obtain ⟨bs, hbs⟩ := ih
    exact h.strip hbs ht ha

/-- From a state that is not the end of all runs a step is possible. -/
theorem Commutes.progress (h : Commutes step) {s t u : σ} (ht : Halted step t)
    (hst : Reachable step s t) (hsu : Reachable step s u) : u = t ∨ ∃ a v, step u a = some v := by
  obtain ⟨as, has⟩ := (h.completes ht hst hsu).exists_run
  cases as with
  | nil =>
    cases has
    exact .inl rfl
  | cons a as =>
    obtain ⟨v, hv, -⟩ := run_cons.1 has
    exact .inr ⟨a, v, hv⟩

end Machine
