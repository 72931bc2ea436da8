import TinySolana.Foundations.Exec

/-!
# Simulation

Two runs over related states that end alike: `Simulates S g x y` says that from states related by
`S` the code `x` ends as `y` does, up to `g` on the value returned, in states related by `S`. There
is a rule for every operation of `Exec`.
-/

namespace Foundations

theorem Outcome.map_id {ε α : Type} (r : Outcome ε α) : r.map id = r := by cases r <;> rfl

namespace Exec

variable {σ τ ε α β γ δ : Type}

def Simulates (S : σ → τ → Prop) (g : β → α) (x : Exec σ ε α) (y : Exec τ ε β) : Prop :=
  ∀ s t, S s t → (x s).1 = (y t).1.map g ∧ S (x s).2 (y t).2

namespace Simulates

variable {S : σ → τ → Prop} {g : β → α} {h : δ → γ}

theorem pure (g : β → α) (b : β) :
    Simulates S g (Pure.pure (g b) : Exec σ ε α) (Pure.pure b : Exec τ ε β) :=
  fun _ _ hs => ⟨rfl,hs⟩

theorem abort : Simulates S g (Exec.abort : Exec σ ε α) (Exec.abort : Exec τ ε β) :=
  fun _ _ hs => ⟨rfl,hs⟩

theorem bind {x : Exec σ ε α} {y : Exec τ ε β} {f : α → Exec σ ε γ} {k : β → Exec τ ε δ}
    (hx : Simulates S g x y) (hf : ∀ b, Simulates S h (f (g b)) (k b)) :
    Simulates S h (x >>= f) (y >>= k) := by
  intro s t hs
  obtain ⟨hr,hst⟩ := hx s t hs
  rw [bind_run,bind_run]
  cases hxs : x s with
  | mk r s' =>
    cases hyt : y t with
    | mk q t' =>
      rw [hxs,hyt] at hr hst
      subst hr
      cases q with
      | ok b => exact hf b s' t' hst
      | err e => exact ⟨rfl,hst⟩
      | panic => exact ⟨rfl,hst⟩

/-- Code that looks at the state is run at related states. -/
theorem get_bind {f : σ → Exec σ ε α} {k : τ → Exec τ ε β}
    (hf : ∀ s t, S s t → Simulates S g (f s) (k t)) : Simulates S g (get >>= f) (get >>= k) :=
  fun s t hs => hf s t hs s t hs

theorem modify {f : σ → σ} {k : τ → τ} (hf : ∀ s t, S s t → S (f s) (k t)) :
    Simulates S id (Exec.modify f : Exec σ ε Unit) (Exec.modify k) :=
  fun s t hs => ⟨rfl,hf s t hs⟩

theorem mapErr {ε' : Type} {e : ε → ε'} {x : Exec σ ε α} {y : Exec τ ε β} (hx : Simulates S g x y) :
    Simulates S g (Exec.mapErr e x) (Exec.mapErr e y) := by
  intro s t hs
  obtain ⟨hr,hst⟩ := hx s t hs
  unfold Exec.mapErr
  cases hxs : x s with
  | mk r s' =>
    cases hyt : y t with
    | mk q t' =>
      rw [hxs,hyt] at hr hst
      subst hr
      cases q <;> exact ⟨rfl,hst⟩

theorem attempt {ε' : Type} {x : Exec σ ε α} {y : Exec τ ε β} (hx : Simulates S g x y) :
    Simulates S (Except.map g) (Exec.attempt x : Exec σ ε' (Except ε α)) (Exec.attempt y) := by
  intro s t hs
  obtain ⟨hr,hst⟩ := hx s t hs
  unfold Exec.attempt
  cases hxs : x s with
  | mk r s' =>
    cases hyt : y t with
    | mk q t' =>
      rw [hxs,hyt] at hr hst
      subst hr
      cases q <;> exact ⟨rfl,hst⟩

theorem ensuring {x : Exec σ ε α} {y : Exec τ ε β} {c : Exec σ ε Unit} {d : Exec τ ε Unit}
    (hx : Simulates S g x y) (hc : Simulates S id c d) :
    Simulates S g (x.ensuring c) (y.ensuring d) := by
  intro s t hs
  obtain ⟨hr,hst⟩ := hx s t hs
  obtain ⟨hu,hst'⟩ := hc _ _ hst
  rw [Outcome.map_id] at hu
  unfold Exec.ensuring
  cases hcs : c (x s).2 with
  | mk r s' =>
    cases hdt : d (y t).2 with
    | mk q t' =>
      rw [hcs,hdt] at hu hst'
      subst hu
      cases r with
      | ok u => exact ⟨hr,hst'⟩
      | err e => exact ⟨rfl,hst'⟩
      | panic => exact ⟨rfl,hst'⟩

/-- The same code over parts that are equal. -/
theorem zoom {π : Type} {part : σ → π} {put : σ → π → σ} {part' : τ → π} {put' : τ → π → τ}
    (hp : ∀ s t, S s t → part s = part' t) (hq : ∀ s t p, S s t → S (put s p) (put' t p))
    (x : Exec π ε α) : Simulates S id (x.zoom part put) (x.zoom part' put') := by
  intro s t hs
  unfold Exec.zoom
  rw [hp s t hs]
  exact ⟨(Outcome.map_id _).symm,hq _ _ _ hs⟩

end Simulates

end Exec

end Foundations
