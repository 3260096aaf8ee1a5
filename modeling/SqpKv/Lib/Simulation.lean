import SqpKv.Lib.Machine

/-!
# Simulations

Two machines at different levels: the lower one works in smaller steps.  What a
step lets the outside see is what it puts out.  When every step of the lower
machine is matched by some steps of the upper one, or by none, that put out the
same, every run below has a run above that ends in a related state and cannot be
told from it (`Simulates.run`), and what is proved of the upper machine is known
of the lower one.  The steps that `bad` names need not be matched; then only
runs without them are.
-/

namespace Machine

variable {σ α τ β ω : Type}

/-! ## What a run puts out -/

/-- The output of the run of a list of actions. -/
def trace (step : σ → α → Option σ) (out : σ → α → List ω) : σ → List α → List ω
  | _, [] => []
  | s, a :: as =>
    match step s a with
    | some t => out s a ++ trace step out t as
    | none => []

theorem trace_append {step : σ → α → Option σ} {out : σ → α → List ω} {s t : σ} {as : List α}
    (h : run step s as = some t) (bs : List α) :
    trace step out s (as ++ bs) = trace step out s as ++ trace step out t bs := by
  induction as generalizing s with
  | nil =>
    cases h
    rfl
  | cons a as ih =>
    obtain ⟨s', hs', h⟩ := Option.bind_eq_some_iff.1 h
    simp only [List.cons_append, trace, hs', List.append_assoc]
    rw [ih h]

/-- A run leads from `s` to a state, and this is its output. -/
inductive Emits (step : σ → α → Option σ) (out : σ → α → List ω) (s : σ) : σ → List ω → Prop
  | init : Emits step out s s []
  | step {t u : σ} {H : List ω} (a : α) : Emits step out s t H → step t a = some u →
      Emits step out s u (H ++ out t a)

namespace Emits

variable {step : σ → α → Option σ} {out : σ → α → List ω} {s t u : σ} {H K : List ω}

theorem reachable (h : Emits step out s t H) : Reachable step s t := by
  induction h with
  | init => exact .init
  | step a _ hs ih => exact ih.step a hs

theorem trans (h : Emits step out s t H) (h' : Emits step out t u K) :
    Emits step out s u (H ++ K) := by
  induction h' with
  | init => rwa [List.append_nil]
  | step a _ hs ih =>
    rw [← List.append_assoc]
    exact ih.step a hs

/-- A step that puts out nothing. -/
theorem silent (h : Emits step out s t H) {a : α} (hs : step t a = some u) (hout : out t a = []) :
    Emits step out s u H := by
  have hstep := h.step a hs
  rwa [hout, List.append_nil] at hstep

/-- What holds of the first state and no output, and is kept by a step, holds of every run. -/
theorem invariant {I : σ → List ω → Prop} (hinit : I s [])
    (hstep : ∀ t H a u, Reachable step s t → I t H → step t a = some u → I u (H ++ out t a))
    (h : Emits step out s t H) : I t H := by
  induction h with
  | init => exact hinit
  | step a ht hs ih => exact hstep _ _ a _ ht.reachable ih hs

theorem of_run {as : List α} (h : run step s as = some t) :
    Emits step out s t (trace step out s as) := by
  induction as generalizing s with
  | nil =>
    cases h
    exact .init
  | cons a as ih =>
    obtain ⟨s', hs', h⟩ := Option.bind_eq_some_iff.1 h
    have hfirst : Emits step out s s' ([] ++ out s a) := .step a .init hs'
    simp only [trace, hs']
    exact hfirst.trans (ih h)

end Emits

/-! ### Part of the output -/

section

variable {ω' : Type} {step : σ → α → Option σ} {out : σ → α → List ω} {out' : σ → α → List ω'}
  {f : ω → Option ω'}

theorem Emits.filterMap (hout : ∀ s a, (out s a).filterMap f = out' s a) {s t : σ} {H : List ω}
    (h : Emits step out s t H) : Emits step out' s t (H.filterMap f) := by
  induction h with
  | init => exact .init
  | step a _ hs ih =>
    rw [List.filterMap_append, hout]
    exact ih.step a hs

theorem trace_filterMap (hout : ∀ s a, (out s a).filterMap f = out' s a) (s : σ) (as : List α) :
    (trace step out s as).filterMap f = trace step out' s as := by
  induction as generalizing s with
  | nil => rfl
  | cons a as ih =>
    unfold trace
    cases step s a with
    | none => rfl
    | some t =>
      simp only
      rw [List.filterMap_append, hout, ih]

end

/-! ## Two machines -/

/-- From related states, the steps of `step` that are not bad are matched by runs of `step'` with the
same output; of the upper machine only the states that it reaches from `t₀` matter. -/
def Simulates (step : σ → α → Option σ) (out : σ → α → List ω) (bad : σ → α → Prop)
    (step' : τ → β → Option τ) (out' : τ → β → List ω) (t₀ : τ) (R : σ → τ → Prop) : Prop :=
  ∀ s a s' t, R s t → Reachable step' t₀ t → ¬ bad s a → step s a = some s' →
    ∃ t', Emits step' out' t t' (out s a) ∧ R s' t'

/-- **A run below has one above.** -/
theorem Simulates.run {step : σ → α → Option σ} {out : σ → α → List ω} {bad : σ → α → Prop}
    {step' : τ → β → Option τ} {out' : τ → β → List ω} {t₀ : τ} {R : σ → τ → Prop}
    (h : Simulates step out bad step' out' t₀ R) {s₀ s : σ} (h₀ : R s₀ t₀) {as : List α}
    (hrun : Machine.run step s₀ as = some s) (hno : ¬ Meets step bad s₀ as) :
    ∃ t, Emits step' out' t₀ t (trace step out s₀ as) ∧ R s t := by
  suffices hbehind : ∀ (H : List ω) s₀ t, Emits step' out' t₀ t H → R s₀ t →
      Machine.run step s₀ as = some s → ¬ Meets step bad s₀ as →
      ∃ t', Emits step' out' t₀ t' (H ++ trace step out s₀ as) ∧ R s t' from
    hbehind [] s₀ t₀ .init h₀ hrun hno
  clear hrun hno h₀ s₀
  induction as with
  | nil =>
    intro H s₀ t ht hR hrun _
    cases hrun
    exact ⟨t, by rwa [trace, List.append_nil], hR⟩
  | cons a as ih =>
    intro H s₀ t ht hR hrun hno
    obtain ⟨s₁, hs₁, hrun⟩ := Option.bind_eq_some_iff.1 hrun
    obtain ⟨t₁, ht₁, hR₁⟩ := h s₀ a s₁ t hR ht.reachable (fun hbad => hno (.inl hbad)) hs₁
    obtain ⟨t', ht', hR'⟩ := ih _ s₁ t₁ (ht.trans ht₁) hR₁ hrun fun hmeets => hno (.inr ⟨s₁, hs₁, hmeets⟩)
    refine ⟨t', ?_, hR'⟩
    simp only [trace, hs₁]
    rwa [← List.append_assoc]

theorem not_meets_cons {step : σ → α → Option σ} {bad : σ → α → Prop} {s t : σ} {a : α} {as : List α}
    (hgood : ¬ bad s a) (hs : step s a = some t) (h : ¬ Meets step bad t as) :
    ¬ Meets step bad s (a :: as) := by
  rintro (hbad | ⟨t', ht', hmeets⟩)
  · exact hgood hbad
  · rw [hs] at ht'
    cases ht'
    exact h hmeets

theorem not_meets_append {step : σ → α → Option σ} {bad : σ → α → Prop} {s t : σ} {as bs : List α}
    (h : ¬ Meets step bad s as) (hs : run step s as = some t) (h' : ¬ Meets step bad t bs) :
    ¬ Meets step bad s (as ++ bs) := by
  induction as generalizing s with
  | nil =>
    cases hs
    exact h'
  | cons a as ih =>
    obtain ⟨s', hs', hs⟩ := Option.bind_eq_some_iff.1 hs
    exact not_meets_cons (fun hbad => h (.inl hbad)) hs' (ih (fun hmeets => h (.inr ⟨s', hs', hmeets⟩)) hs)

theorem not_meets_and {step : σ → α → Option σ} {ok : σ → α → Prop} {P : α → Prop} {s : σ} {as : List α}
    (h : ¬ Meets step (fun s a => ¬ ok s a) s as) (hP : ∀ a ∈ as, P a) :
    ¬ Meets step (fun s a => ¬ (ok s a ∧ P a)) s as := by
  induction as generalizing s with
  | nil => exact id
  | cons a as ih =>
    rintro (hbad | ⟨t, ht, hmeets⟩)
    · exact hbad ⟨not_not.1 fun hok => h (.inl hok), hP a (List.mem_cons_self ..)⟩
    · exact ih (fun hmeets => h (.inr ⟨t, ht, hmeets⟩)) (fun a ha => hP a (List.mem_cons_of_mem _ ha)) hmeets

end Machine
