import TinySolana.Foundations.Atomic

/-!
# Which errors a run fails with

`FailsIn E x` says that whatever error a run of `x` fails with satisfies `E`. A sequence fails with
the errors of its parts, so such a bound is read off the code operation by operation.
-/

namespace Foundations

namespace Exec

variable {σ ε α β : Type} {E : ε → Prop}

/-- Every error of a run satisfies the predicate. -/
def FailsIn (E : ε → Prop) (x : Exec σ ε α) : Prop := ∀ s e, (x s).1 = .err e → E e

theorem NeverFails.failsIn {x : Exec σ ε α} (h : NeverFails x) : FailsIn E x :=
  fun s e he => absurd he (h s e)

namespace FailsIn

theorem pure (a : α) : FailsIn E (Pure.pure a : Exec σ ε α) := by
  intro s e h
  cases h

theorem get : FailsIn E (Exec.get : Exec σ ε σ) := by
  intro s e h
  cases h

theorem throw {e : ε} (h : E e) : FailsIn E (Exec.throw e : Exec σ ε α) := by
  intro s e' he
  cases he
  exact h

theorem abort : FailsIn E (Exec.abort : Exec σ ε α) := by
  intro s e h
  cases h

theorem failIf (c : Prop) [Decidable c] {e : ε} (h : E e) :
    FailsIn E (Exec.failIf c e : Exec σ ε Unit) := by
  unfold Exec.failIf
  split
  · exact .throw h
  · exact .pure ()

theorem panicIf (c : Prop) [Decidable c] : FailsIn E (Exec.panicIf c : Exec σ ε Unit) :=
  (NeverFails.panicIf c).failsIn

theorem orFail {e : ε} (h : E e) (o : Option α) : FailsIn E (Exec.orFail e o : Exec σ ε α) := by
  cases o with
  | none => exact .throw h
  | some a => exact .pure a

theorem ofExcept {r : Except ε α} (h : ∀ e, r = .error e → E e) :
    FailsIn E (Exec.ofExcept r : Exec σ ε α) := by
  cases r with
  | ok a => exact .pure a
  | error e => exact .throw (h e rfl)

theorem bind {x : Exec σ ε α} {f : α → Exec σ ε β} (hx : FailsIn E x) (hf : ∀ a, FailsIn E (f a)) :
    FailsIn E (x >>= f) := by
  intro s e h
  have hs := hx s
  rw [bind_run] at h
  cases hxs : x s with
  | mk r t =>
    rw [hxs] at h hs
    cases r with
    | ok a => exact hf a t e h
    | err e' =>
      cases h
      exact hs e rfl
    | panic => cases h

theorem get_bind {f : σ → Exec σ ε α} (h : ∀ s, FailsIn E (f s)) : FailsIn E (Exec.get >>= f) :=
  bind get h

/-- Restated errors satisfy what the originals satisfy of their restatement. -/
theorem mapErr {ε' : Type} {g : ε → ε'} {E' : ε' → Prop} {x : Exec σ ε α}
    (h : FailsIn (fun e => E' (g e)) x) : FailsIn E' (Exec.mapErr g x) := by
  intro s e' he
  rw [mapErr_run] at he
  obtain ⟨e,hs,rfl⟩ := Outcome.mapErr_eq_err.mp he
  exact h s e hs

end FailsIn

end Exec

end Foundations
