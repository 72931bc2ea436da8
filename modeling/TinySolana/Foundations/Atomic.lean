import TinySolana.Foundations.Exec

/-!
# Atomic failure

Code is atomic when a run that fails leaves the state as it was. Code that makes all its checks
before its first assignment is atomic: what comes in front only reads, and what comes behind never
fails. A panic is no failure; it may come between two assignments.
-/

namespace Foundations

namespace Exec

variable {σ ε α β : Type}

/-- No run fails. -/
def NeverFails (x : Exec σ ε α) : Prop := ∀ s e, (x s).1 ≠ .err e

/-- A run that fails leaves the state as it was. -/
def Atomic (x : Exec σ ε α) : Prop := ∀ s s' e, x s = (.err e,s') → s' = s

theorem NeverFails.modify (f : σ → σ) : NeverFails (Exec.modify f : Exec σ ε Unit) :=
  fun _ _ => nofun

theorem NeverFails.panicIf (c : Prop) [Decidable c] :
    NeverFails (Exec.panicIf c : Exec σ ε Unit) := by
  intro s e
  by_cases h : c
  · simp [h]
  · simp [h]

theorem NeverFails.bind {x : Exec σ ε α} {f : α → Exec σ ε β} (hx : NeverFails x)
    (hf : ∀ a, NeverFails (f a)) : NeverFails (x >>= f) := by
  intro s e
  have h := hx s e
  rw [bind_run]
  cases hxs : x s with
  | mk r t =>
    rw [hxs] at h
    cases r with
    | ok a => exact hf a t e
    | err e' =>
      intro he
      cases he
      exact h rfl
    | panic => exact nofun

theorem NeverFails.atomic {x : Exec σ ε α} (h : NeverFails x) : Atomic x := by
  intro s s' e hx
  have hn := h s e
  rw [hx] at hn
  exact absurd rfl hn

/-- Reading in front of atomic code keeps it atomic. -/
theorem Atomic.bind {x : Exec σ ε α} {f : α → Exec σ ε β} (hx : Keeps Eq x)
    (hf : ∀ a, Atomic (f a)) : Atomic (x >>= f) := by
  intro s s' e h
  rw [bind_run] at h
  cases hxs : x s with
  | mk r t =>
    obtain rfl : s = t := hx.of_run hxs
    rw [hxs] at h
    cases r with
    | ok a => exact hf a s s' e h
    | err e' => exact (Prod.mk.inj h).2.symm
    | panic => exact (Prod.mk.inj h).2.symm

theorem Atomic.throw (e : ε) : Atomic (Exec.throw e : Exec σ ε α) :=
  fun _ _ _ h => (Prod.mk.inj h).2.symm

end Exec

end Foundations
