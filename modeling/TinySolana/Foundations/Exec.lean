import Mathlib.Logic.Relation

/-!
# Fallible stateful code

`Exec σ ε α` is code over a state `σ` that returns, fails with an error or panics. The state
reached survives every outcome, so that what a failing run has already written can be stated.
`Exec.bind_ok` takes a successful sequence apart; `Exec.Keeps` is the frame rule of such code.
-/

namespace Foundations

/-- How a run of fallible code ends. -/
inductive Outcome (ε α : Type) where
  | ok (value : α)
  | err (error : ε)
  | panic
  deriving DecidableEq, Repr

namespace Outcome

variable {ε α β : Type}

def map (f : α → β) : Outcome ε α → Outcome ε β
  | ok a => ok (f a)
  | err e => err e
  | panic => panic

def mapErr {ε' : Type} (f : ε → ε') : Outcome ε α → Outcome ε' α
  | ok a => ok a
  | err e => err (f e)
  | panic => panic

/-- The outcome without the value it returns. -/
def verdict (r : Outcome ε α) : Outcome ε Unit := r.map fun _ => ()

theorem verdict_eq_ok {r : Outcome ε α} : r.verdict = .ok () ↔ ∃ a, r = .ok a := by
  cases r with
  | ok a => exact iff_of_true rfl ⟨a,rfl⟩
  | err e => exact iff_of_false nofun nofun
  | panic => exact iff_of_false nofun nofun

theorem map_eq_err {f : α → β} {r : Outcome ε α} {e : ε} : r.map f = .err e ↔ r = .err e := by
  cases r <;> simp [map]

theorem mapErr_eq_err {ε' : Type} {f : ε → ε'} {r : Outcome ε α} {e' : ε'} :
    r.mapErr f = .err e' ↔ ∃ e, r = .err e ∧ f e = e' := by
  cases r <;> simp [mapErr]

theorem mapErr_eq_ok {ε' : Type} {f : ε → ε'} {r : Outcome ε α} {a : α} :
    r.mapErr f = .ok a ↔ r = .ok a := by
  cases r <;> simp [mapErr]

theorem mapErr_eq_panic {ε' : Type} {f : ε → ε'} {r : Outcome ε α} :
    r.mapErr f = .panic ↔ r = .panic := by
  cases r <;> simp [mapErr]

theorem verdict_eq_err {r : Outcome ε α} {e : ε} : r.verdict = .err e ↔ r = .err e := map_eq_err

end Outcome

/-- Code over a state that returns, fails or panics. -/
def Exec (σ ε α : Type) := σ → Outcome ε α × σ

namespace Exec

variable {σ ε α β γ : Type}

protected def ret (a : α) : Exec σ ε α := fun s => (.ok a, s)

protected def andThen (x : Exec σ ε α) (f : α → Exec σ ε β) : Exec σ ε β := fun s =>
  match x s with
  | (.ok a, s') => f a s'
  | (.err e, s') => (.err e, s')
  | (.panic, s') => (.panic, s')

instance : Monad (Exec σ ε) where
  pure := Exec.ret
  bind := Exec.andThen

def throw (e : ε) : Exec σ ε α := fun s => (.err e, s)

def abort : Exec σ ε α := fun s => (.panic, s)

/-- Fail with `e` when the condition holds. -/
def failIf (c : Prop) [Decidable c] (e : ε) : Exec σ ε Unit := if c then throw e else pure ()

/-- Panic when the condition holds. -/
def panicIf (c : Prop) [Decidable c] : Exec σ ε Unit := if c then abort else pure ()

/-- Return the value of an option and fail with `e` when there is none. -/
def orFail (e : ε) : Option α → Exec σ ε α
  | some a => pure a
  | none => throw e

def get : Exec σ ε σ := fun s => (.ok s, s)

def modify (f : σ → σ) : Exec σ ε Unit := fun s => (.ok (), f s)

/-- Restate the error of a computation. -/
def mapErr {ε' : Type} (f : ε → ε') (x : Exec σ ε α) : Exec σ ε' α := fun s =>
  match x s with
  | (.ok a, s') => (.ok a, s')
  | (.err e, s') => (.err (f e), s')
  | (.panic, s') => (.panic, s')

def ofExcept : Except ε α → Exec σ ε α
  | .ok a => pure a
  | .error e => throw e

/-- Run code over a part of the state. -/
def zoom {τ : Type} (part : σ → τ) (put : σ → τ → σ) (x : Exec τ ε α) : Exec σ ε α := fun s =>
  ((x (part s)).1,put s (x (part s)).2)

/-- Turn failure into a value, so that the code behind can look at it. -/
def attempt {ε' : Type} (x : Exec σ ε α) : Exec σ ε' (Except ε α) := fun s =>
  match x s with
  | (.ok a, s') => (.ok (.ok a),s')
  | (.err e, s') => (.ok (.error e),s')
  | (.panic, s') => (.panic,s')

/-- Run the cleanup however the code ends. -/
def ensuring (x : Exec σ ε α) (cleanup : Exec σ ε Unit) : Exec σ ε α := fun s =>
  match cleanup (x s).2 with
  | (.ok _, t) => ((x s).1,t)
  | (.err e, t) => (.err e,t)
  | (.panic, t) => (.panic,t)

@[simp] theorem pure_run (a : α) (s : σ) : (pure a : Exec σ ε α) s = (.ok a, s) := rfl
@[simp] theorem throw_run (e : ε) (s : σ) : (throw e : Exec σ ε α) s = (.err e, s) := rfl
@[simp] theorem abort_run (s : σ) : (abort : Exec σ ε α) s = (.panic, s) := rfl
@[simp] theorem get_run (s : σ) : (get : Exec σ ε σ) s = (.ok s, s) := rfl
@[simp] theorem modify_run (f : σ → σ) (s : σ) : (modify f : Exec σ ε Unit) s = (.ok (), f s) := rfl

/-- Only the result of a run is in question: the state is whatever the run leaves. -/
theorem run_of_result {x : Exec σ ε α} {s : σ} {r : Outcome ε α} (h : (x s).1 = r) :
    x s = (r, (x s).2) := Prod.ext h rfl
@[simp] theorem ofExcept_ok (a : α) : (ofExcept (.ok a) : Exec σ ε α) = pure a := rfl
@[simp] theorem ofExcept_error (e : ε) : (ofExcept (.error e) : Exec σ ε α) = throw e := rfl
@[simp] theorem orFail_some (e : ε) (a : α) : (orFail e (some a) : Exec σ ε α) = pure a := rfl
@[simp] theorem orFail_none (e : ε) : (orFail e none : Exec σ ε α) = throw e := rfl

theorem bind_run (x : Exec σ ε α) (f : α → Exec σ ε β) (s : σ) :
    (x >>= f) s = match x s with
      | (.ok a, s') => f a s'
      | (.err e, s') => (.err e, s')
      | (.panic, s') => (.panic, s') := rfl

@[simp] theorem failIf_true {c : Prop} [Decidable c] (h : c) (e : ε) :
    (failIf c e : Exec σ ε Unit) = throw e := if_pos h

@[simp] theorem failIf_false {c : Prop} [Decidable c] (h : ¬c) (e : ε) :
    (failIf c e : Exec σ ε Unit) = pure () := if_neg h

@[simp] theorem panicIf_true {c : Prop} [Decidable c] (h : c) :
    (panicIf c : Exec σ ε Unit) = abort := if_pos h

@[simp] theorem panicIf_false {c : Prop} [Decidable c] (h : ¬c) :
    (panicIf c : Exec σ ε Unit) = pure () := if_neg h

@[simp] theorem pure_bind (a : α) (f : α → Exec σ ε β) : (pure a >>= f : Exec σ ε β) = f a := rfl

@[simp] theorem throw_bind (e : ε) (f : α → Exec σ ε β) : (throw e >>= f : Exec σ ε β) = throw e :=
  rfl

@[simp] theorem abort_bind (f : α → Exec σ ε β) : (abort >>= f : Exec σ ε β) = abort := rfl

theorem panicIf_congr {c d : Prop} [Decidable c] [Decidable d] (h : c ↔ d) :
    (panicIf c : Exec σ ε Unit) = panicIf d := by
  unfold panicIf
  simp only [h]

theorem bind_assoc (x : Exec σ ε α) (f : α → Exec σ ε β) (g : β → Exec σ ε γ) :
    (x >>= f) >>= g = x >>= fun a => f a >>= g := by
  funext s
  rw [bind_run,bind_run,bind_run]
  cases x s with
  | mk r t => cases r <;> rfl

/-- A sequence succeeds exactly when both of its parts do. -/
theorem bind_ok {x : Exec σ ε α} {f : α → Exec σ ε β} {s s' : σ} {b : β} :
    (x >>= f) s = (.ok b, s') ↔ ∃ a t, x s = (.ok a, t) ∧ f a t = (.ok b, s') := by
  rw [bind_run]
  constructor
  · intro h
    cases hx : x s with
    | mk r t =>
      rw [hx] at h
      cases r with
      | ok a => exact ⟨a,t,rfl,h⟩
      | err e => simp at h
      | panic => simp at h
  · rintro ⟨a,t,hx,hf⟩
    rw [hx]
    exact hf

theorem bind_of_ok {x : Exec σ ε α} {f : α → Exec σ ε β} {s t : σ} {a : α} (h : x s = (.ok a,t)) :
    (x >>= f) s = f a t := by
  rw [bind_run,h]

theorem bind_of_panic {x : Exec σ ε α} {f : α → Exec σ ε β} {s t : σ} (h : x s = (.panic,t)) :
    (x >>= f) s = (.panic,t) := by
  rw [bind_run,h]

/-! ### Taking runs apart one operation at a time -/

@[simp] theorem get_bind (f : σ → Exec σ ε β) (s : σ) : (get >>= f) s = f s s := rfl

@[simp] theorem modify_bind (g : σ → σ) (f : Unit → Exec σ ε β) (s : σ) :
    (modify g >>= f) s = f () (g s) := rfl

@[simp] theorem failIf_bind_ok {c : Prop} [Decidable c] {e : ε} {f : Unit → Exec σ ε β} {s s' : σ}
    {b : β} : (failIf c e >>= f) s = (.ok b,s') ↔ ¬c ∧ f () s = (.ok b,s') := by
  by_cases hc : c
  · simp [hc]
  · simp [hc]

@[simp] theorem panicIf_bind_ok {c : Prop} [Decidable c] {f : Unit → Exec σ ε β} {s s' : σ}
    {b : β} :
    (panicIf c >>= f) s = (.ok b,s') ↔ ¬c ∧ f () s = (.ok b,s') := by
  by_cases hc : c
  · simp [hc]
  · simp [hc]

@[simp] theorem orFail_bind_ok {e : ε} {o : Option α} {f : α → Exec σ ε β} {s s' : σ} {b : β} :
    (orFail e o >>= f) s = (.ok b,s') ↔ ∃ a, o = some a ∧ f a s = (.ok b,s') := by
  cases o <;> simp

/-! ### Running past a check -/

theorem failIf_bind_refused {c : Prop} [Decidable c] (h : c) (e : ε) (f : Unit → Exec σ ε β)
    (s : σ) :
    (failIf c e >>= f) s = (.err e,s) := by
  rw [failIf_true h]
  rfl

theorem failIf_bind_passed {c : Prop} [Decidable c] (h : ¬c) (e : ε) (f : Unit → Exec σ ε β)
    (s : σ) :
    (failIf c e >>= f) s = f () s := by
  rw [failIf_false h]
  rfl

/-! ### Where a run panics -/

/-- A sequence panics exactly when its first part does or its second part behind it. -/
theorem bind_panic {x : Exec σ ε α} {f : α → Exec σ ε β} {s : σ} :
    ((x >>= f) s).1 = .panic ↔
      (x s).1 = .panic ∨ ∃ a t, x s = (.ok a,t) ∧ (f a t).1 = .panic := by
  rw [bind_run]
  cases hx : x s with
  | mk r t =>
    cases r with
    | ok a =>
      constructor
      · exact fun h => .inr ⟨a,t,rfl,h⟩
      · rintro (h | ⟨b,u,⟨⟩,h⟩)
        · cases h
        · exact h
    | err e => simp
    | panic => simp

@[simp] theorem failIf_bind_panic {c : Prop} [Decidable c] {e : ε} {f : Unit → Exec σ ε β} {s : σ} :
    ((failIf c e >>= f) s).1 = .panic ↔ ¬c ∧ (f () s).1 = .panic := by
  by_cases hc : c
  · simp [hc]
  · simp [hc]

@[simp] theorem panicIf_bind_panic {c : Prop} [Decidable c] {f : Unit → Exec σ ε β} {s : σ} :
    ((panicIf c >>= f) s).1 = .panic ↔ c ∨ (f () s).1 = .panic := by
  by_cases hc : c
  · simp [hc]
  · simp [hc]

@[simp] theorem orFail_bind_panic {e : ε} {o : Option α} {f : α → Exec σ ε β} {s : σ} :
    ((orFail e o >>= f) s).1 = .panic ↔ ∃ a, o = some a ∧ (f a s).1 = .panic := by
  cases o <;> simp

/-- What the first part establishes and the second part keeps holds at the end. -/
theorem bind_invariant {P : σ → Prop} {x : Exec σ ε α} {f : α → Exec σ ε β} {s : σ} (hx : P (x s).2)
    (hf : ∀ a t, P t → P (f a t).2) : P ((x >>= f) s).2 := by
  rw [bind_run]
  cases hr : x s with
  | mk r t =>
    rw [hr] at hx
    cases r with
    | ok a => exact hf a t hx
    | err e => exact hx
    | panic => exact hx

theorem mapErr_run {ε' : Type} (f : ε → ε') (x : Exec σ ε α) (s : σ) :
    mapErr f x s = ((x s).1.mapErr f,(x s).2) := by
  unfold mapErr
  cases x s with
  | mk r t => cases r <;> rfl

/-- The cleanup is what happens last. -/
theorem ensuring_final (x : Exec σ ε α) (cleanup : Exec σ ε Unit) (s : σ) :
    (x.ensuring cleanup s).2 = (cleanup (x s).2).2 := by
  unfold ensuring
  cases cleanup (x s).2 with
  | mk r t => cases r <;> rfl

theorem ensuring_of_ok {x : Exec σ ε α} {cleanup : Exec σ ε Unit} {s t : σ}
    (h : cleanup (x s).2 = (.ok (),t)) : x.ensuring cleanup s = ((x s).1,t) := by
  unfold ensuring
  rw [h]

theorem ensuring_ok {x : Exec σ ε α} {cleanup : Exec σ ε Unit} {s s' : σ} {a : α}
    (h : x.ensuring cleanup s = (.ok a,s')) : ∃ t, x s = (.ok a,t) ∧ cleanup t = (.ok (),s') := by
  unfold ensuring at h
  cases hc : cleanup (x s).2 with
  | mk r t =>
    rw [hc] at h
    cases r with
    | ok u =>
      obtain ⟨h₁,rfl⟩ := Prod.mk.inj h
      exact ⟨(x s).2,Prod.ext h₁ rfl,hc⟩
    | err e => cases h
    | panic => cases h

/-- An attempt that returns has run the code to a value or to an error. -/
theorem attempt_ok {ε' : Type} {x : Exec σ ε α} {s s' : σ} {r : Except ε α}
    (h : (attempt x : Exec σ ε' (Except ε α)) s = (.ok r,s')) :
    match r with
    | .ok a => x s = (.ok a,s')
    | .error e => x s = (.err e,s') := by
  unfold attempt at h
  cases hx : x s with
  | mk o t =>
    rw [hx] at h
    cases o <;> cases h <;> rfl

/-! ## The frame rule -/

/-- Every run, however it ends, leaves the state `R`-related to the one it started from. -/
def Keeps (R : σ → σ → Prop) (x : Exec σ ε α) : Prop := ∀ s, R s (x s).2

section Keeps

variable {R : σ → σ → Prop}

theorem Keeps.of_run {x : Exec σ ε α} (h : Keeps R x) {s s' : σ} {r : Outcome ε α}
    (hx : x s = (r,s')) : R s s' := by
  have hs := h s
  rwa [hx] at hs

theorem Keeps.modify {f : σ → σ} (h : ∀ s, R s (f s)) : Keeps R (Exec.modify f : Exec σ ε Unit) := h

theorem Keeps.bind [IsTrans σ R] {x : Exec σ ε α} {f : α → Exec σ ε β} (hx : Keeps R x)
    (hf : ∀ a, Keeps R (f a)) : Keeps R (x >>= f) := by
  intro s
  have h := hx s
  rw [bind_run]
  cases hxs : x s with
  | mk r t =>
    rw [hxs] at h
    cases r with
    | ok a => exact IsTrans.trans _ _ _ h (hf a t)
    | err e => exact h
    | panic => exact h

/-- What holds wherever the first part may stop, or else behind the second part, holds at the
end. -/
theorem Keeps.bind_final {P : σ → Prop} {x : Exec σ ε α} {f : α → Exec σ ε β} {s : σ}
    (hx : Keeps R x) (hstop : ∀ t, R s t → P t)
    (hf : ∀ a t, x s = (.ok a,t) → R s t → P (f a t).2) :
    P ((x >>= f) s).2 := by
  have h := hx s
  rw [bind_run]
  cases hr : x s with
  | mk r t =>
    rw [hr] at h
    cases r with
    | ok a => exact hf a t hr h
    | err e => exact hstop t h
    | panic => exact hstop t h

theorem Keeps.mapErr {ε' : Type} {f : ε → ε'} {x : Exec σ ε α} (h : Keeps R x) :
    Keeps R (Exec.mapErr f x) := by
  intro s
  have hs := h s
  unfold Exec.mapErr
  cases hx : x s with
  | mk r t =>
    rw [hx] at hs
    cases r <;> exact hs

theorem Keeps.zoom {τ : Type} {part : σ → τ} {put : σ → τ → σ} (h : ∀ s t, R s (put s t))
    (x : Exec τ ε α) : Keeps R (x.zoom part put) := fun s => h s _

theorem Keeps.attempt {ε' : Type} {x : Exec σ ε α} (h : Keeps R x) :
    Keeps R (Exec.attempt x : Exec σ ε' (Except ε α)) := by
  intro s
  have hs := h s
  unfold Exec.attempt
  cases hx : x s with
  | mk r t =>
    rw [hx] at hs
    cases r <;> exact hs

theorem Keeps.ensuring [IsTrans σ R] {x : Exec σ ε α} {cleanup : Exec σ ε Unit} (hx : Keeps R x)
    (hc : Keeps R cleanup) : Keeps R (x.ensuring cleanup) := by
  intro s
  have h := IsTrans.trans _ _ _ (hx s) (hc (x s).2)
  unfold Exec.ensuring
  cases hr : cleanup (x s).2 with
  | mk r t =>
    rw [hr] at h
    cases r <;> exact h

variable [Std.Refl R]

theorem Keeps.pure (a : α) : Keeps R (Pure.pure a : Exec σ ε α) := fun s => Std.Refl.refl s

theorem Keeps.throw (e : ε) : Keeps R (Exec.throw e : Exec σ ε α) := fun s => Std.Refl.refl s

theorem Keeps.abort : Keeps R (Exec.abort : Exec σ ε α) := fun s => Std.Refl.refl s

theorem Keeps.get : Keeps R (Exec.get : Exec σ ε σ) := fun s => Std.Refl.refl s

theorem Keeps.failIf (c : Prop) [Decidable c] (e : ε) :
    Keeps R (Exec.failIf c e : Exec σ ε Unit) := by
  unfold Exec.failIf
  split
  · exact Keeps.throw e
  · exact Keeps.pure ()

theorem Keeps.panicIf (c : Prop) [Decidable c] : Keeps R (Exec.panicIf c : Exec σ ε Unit) := by
  unfold Exec.panicIf
  split
  · exact Keeps.abort
  · exact Keeps.pure ()

theorem Keeps.orFail (e : ε) (o : Option α) : Keeps R (Exec.orFail e o : Exec σ ε α) := by
  cases o with
  | none => exact Keeps.throw e
  | some a => exact Keeps.pure a

end Keeps

end Exec

end Foundations
