import Mathlib.Logic.Function.Basic
import Mathlib.Order.Nat

/-!
# Transfers between accounts

A ledger says what every account holds. A transfer that its payer can afford takes an amount from
one account and gives it to another; any other transfer does nothing. Transfers are settled one
after another.
-/

namespace Foundations

open Function

structure Transfer (κ : Type*) where
  payer : κ
  receiver : κ
  amount : ℕ

namespace Transfer

variable {κ : Type*} [DecidableEq κ] {t : Transfer κ} {b : κ → ℕ}

/-- The payer has the amount, and the receiver is somebody else. -/
def Fits (t : Transfer κ) (b : κ → ℕ) : Prop := t.payer ≠ t.receiver ∧ t.amount ≤ b t.payer

instance (t : Transfer κ) (b : κ → ℕ) : Decidable (t.Fits b) := inferInstanceAs (Decidable (_ ∧ _))

/-- The ledger after a transfer that fits. -/
def moved (b : κ → ℕ) (t : Transfer κ) : κ → ℕ :=
  update (update b t.payer (b t.payer-t.amount)) t.receiver (b t.receiver+t.amount)

def apply (b : κ → ℕ) (t : Transfer κ) : κ → ℕ := if t.Fits b then moved b t else b

theorem moved_of_ne {k : κ} (hp : k ≠ t.payer) (hr : k ≠ t.receiver) : moved b t k = b k := by
  rw [moved,update_of_ne hr,update_of_ne hp]

theorem moved_payer (h : t.Fits b) : moved b t t.payer = b t.payer-t.amount := by
  rw [moved,update_of_ne h.1,update_self]

@[simp] theorem moved_receiver : moved b t t.receiver = b t.receiver+t.amount := by
  rw [moved,update_self]

/-! ### One after another -/

/-- The ledger after some transfers, in their order. -/
def settle (b : κ → ℕ) (ts : List (Transfer κ)) : κ → ℕ := ts.foldl apply b

@[simp] theorem settle_nil (b : κ → ℕ) : settle b [] = b := rfl

@[simp] theorem settle_cons (b : κ → ℕ) (t : Transfer κ) (ts : List (Transfer κ)) :
    settle b (t :: ts) = settle (apply b t) ts := rfl

theorem settle_append (b : κ → ℕ) (ts us : List (Transfer κ)) :
    settle b (ts ++ us) = settle (settle b ts) us := List.foldl_append

/-- Who has less in the end has paid something. -/
theorem exists_payer_of_settle_lt {k : κ} {ts : List (Transfer κ)} {b : κ → ℕ}
    (h : settle b ts k < b k) :
    ∃ t ∈ ts, t.payer = k ∧ 0 < t.amount := by
  induction ts generalizing b with
  | nil => exact absurd h (lt_irrefl _)
  | cons t ts ih =>
    by_cases hk : b k ≤ apply b t k
    · obtain ⟨u,hu,hpay⟩ := ih (h.trans_le hk)
      exact ⟨u,List.mem_cons_of_mem t hu,hpay⟩
    · refine ⟨t,List.mem_cons_self,?_⟩
      unfold apply at hk
      split at hk
      · next hf =>
        by_cases hr : k = t.receiver
        · subst hr
          rw [moved_receiver] at hk
          omega
        by_cases hp : k = t.payer
        · subst hp
          rw [moved_payer hf] at hk
          exact ⟨rfl,by omega⟩
        · rw [moved_of_ne hp hr] at hk
          exact absurd le_rfl hk
      · exact absurd le_rfl hk

end Transfer

end Foundations
