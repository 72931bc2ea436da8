import Mathlib.Order.Basic

/-!
# Runs of labelled transition systems

A system is a step relation `step : σ → ℓ → σ → Prop`; a run is a finite sequence of its steps with
their labels. An invariant is proved by one step lemma and carried along every run by
`Run.invariant`; `Run.Always.invariant` does the same for the runs whose steps all meet a condition.
-/

namespace Foundations

variable {σ ℓ : Type*} {step : σ → ℓ → σ → Prop}

/-- A finite sequence of steps and the labels it passes. -/
inductive Run (step : σ → ℓ → σ → Prop) (s : σ) : List ℓ → σ → Prop where
  | nil : Run step s [] s
  | snoc {t u : σ} {ls : List ℓ} {l : ℓ} (before : Run step s ls t) (last : step t l u) :
      Run step s (ls ++ [l]) u

namespace Run

/-- What holds at the start and is kept by every step holds at the end of every run. -/
theorem invariant {P : σ → Prop} (hstep : ∀ s l t, P s → step s l t → P t)
    {s t : σ} {ls : List ℓ} (hr : Run step s ls t) (hs : P s) : P t := by
  induction hr with
  | nil => exact hs
  | snoc _ hl ih => exact hstep _ _ _ ih hl

/-- Every step of the run meets the condition. -/
def Always (step : σ → ℓ → σ → Prop) (Cond : σ → ℓ → Prop) (s : σ) (ls : List ℓ) (t : σ) : Prop :=
  Run (fun a l b => Cond a l ∧ step a l b) s ls t

/-- What holds at the start and is kept by every step that meets the condition holds at the end
of every run that meets it throughout. -/
theorem Always.invariant {Cond : σ → ℓ → Prop} {P : σ → Prop}
    (hstep : ∀ s l t, P s → Cond s l → step s l t → P t)
    {s t : σ} {ls : List ℓ} (hr : Always step Cond s ls t) (hs : P s) : P t :=
  Run.invariant (fun a l b ha hl => hstep a l b ha hl.1 hl.2) hr hs

/-- A run that meets a condition is a run. -/
theorem Always.run {Cond : σ → ℓ → Prop} {s t : σ} {ls : List ℓ} (hr : Always step Cond s ls t) :
    Run step s ls t := by
  induction hr with
  | nil => exact .nil
  | snoc _ hl ih => exact ih.snoc hl.2

/-- The last step of a run. -/
theorem snoc_inv {s u : σ} {ls : List ℓ} {l : ℓ} (h : Run step s (ls ++ [l]) u) :
    ∃ t, Run step s ls t ∧ step t l u := by
  generalize hms : ls ++ [l] = ms at h
  cases h with
  | nil => simp at hms
  | snoc before last =>
    obtain ⟨rfl,hl⟩ := List.append_inj' hms rfl
    cases hl
    exact ⟨_,before,last⟩

theorem nil_inv {s u : σ} (h : Run step s [] u) : u = s := by
  generalize hms : ([] : List ℓ) = ms at h
  cases h with
  | nil => rfl
  | snoc before last => simp at hms

/-- A run goes on where another has ended. -/
theorem append {s t u : σ} {ls ms : List ℓ} (h : Run step s ls t) (h' : Run step t ms u) :
    Run step s (ls ++ ms) u := by
  induction h' with
  | nil => simpa using h
  | snoc _ hl ih =>
    rw [← List.append_assoc]
    exact ih.snoc hl

/-- Forward simulation: where every step is matched by a step from the related state, runs are. -/
theorem simulate {τ μ : Type*} {step' : τ → μ → τ → Prop} {R : σ → τ → Prop} {f : ℓ → μ}
    (hstep : ∀ s l s' t, R s t → step s l s' → ∃ t', step' t (f l) t' ∧ R s' t')
    {s s' : σ} {t : τ} {ls : List ℓ} (hr : Run step s ls s') (hs : R s t) :
    ∃ t', Run step' t (ls.map f) t' ∧ R s' t' := by
  induction hr with
  | nil => exact ⟨t,.nil,hs⟩
  | snoc _ hl ih =>
    obtain ⟨u,hu,hR⟩ := ih
    obtain ⟨t',ht',hR'⟩ := hstep _ _ _ _ hR hl
    rw [List.map_append]
    exact ⟨t',hu.snoc ht',hR'⟩

/-- One step is a run. -/
theorem single {s t : σ} {l : ℓ} (h : step s l t) : Run step s [l] t := .snoc .nil h

end Run

end Foundations
