import TinySolana.BytecodeRuns
import TinySolana.WriteBack

/-!
# Overlays of any transaction

What a successful transaction stores, whatever programs it runs: an account under each of its keys
and under no other key. No program can change the key that an account names, so in a store where
every account is stored under the key it names, flushing keeps that.
-/

namespace TinySolana
open Foundations

variable {κ : Type} [DecidableEq κ] {m m' : Machine κ} {accounts : List (AccountInfo κ)}

/-- No instruction changes the key that an account names. -/
theorem execute_pubkey {host : Host} {instruction : Instruction} {ctx : InvokeContext}
    (h : ChainedProgramExecutor.execute host instruction ctx accounts m = (.ok (),m')) (c : κ) :
    (m'.cells c).pubkey = (m.cells c).pubkey :=
  (execute_within (ChainedProgramExecutor.native_of_ok h) h).pubkey c

namespace Bank

variable {host : Host} {accounts p : InMemoryAccountStore} {tx : Transaction}
  {computeBudget : UInt64} {o : OverlayStore} {cache cache' : ProgramCache}

theorem executeInstructions_pubkey {keys : List Pubkey} {instructions : List Instruction}
    {m m' : Machine (Fin keys.length)}
    (h : executeInstructions host keys computeBudget instructions m = (.ok (),m'))
    (c : Fin keys.length) :
    (m'.cells c).pubkey = (m.cells c).pubkey := by
  refine executeInstructions_invariant (P := fun m' => (m'.cells c).pubkey =
    (m.cells c).pubkey) ?_ h rfl
  intro instruction _ m₁ m₂ h₁ hx
  obtain ⟨infos,-,hx⟩ := executeInstruction_ok hx
  exact (execute_pubkey hx c).trans h₁

/-- The cells of a transaction that has run still name the keys they were loaded for. -/
theorem executeOnOverlay_named (hk : accounts.KeyedOn tx.message.accountKeys)
    (h : executeOnOverlay host accounts tx computeBudget cache = (.ok o,cache')) :
    ∃ cells : Cells tx.message.accountKeys, Named cells ∧ writeBack cells = o := by
  obtain ⟨m',hx,rfl,-⟩ := executeOnOverlay_ok.mp h
  exact ⟨m'.cells,fun c => (executeInstructions_pubkey hx c).trans (loaded_named hk c),rfl⟩

/-- A successful transaction stores an account under each of its keys, which names the key. -/
theorem overlay_entry (hk : accounts.KeyedOn tx.message.accountKeys)
    (h : executeOnOverlay host accounts tx computeBudget cache = (.ok o,cache')) {k : Pubkey}
    (hm : k ∈ tx.message.accountKeys) : ∃ a, o.dirty.lookup k = some a ∧ a.pubkey = k := by
  obtain ⟨cells,hc,rfl⟩ := executeOnOverlay_named hk h
  obtain ⟨c,rfl,hl⟩ := writeBack_lookup_of_mem hc hm
  exact ⟨cells c,hl,hc c⟩

/-- It stores nothing under any other key. -/
theorem overlay_other (hk : accounts.KeyedOn tx.message.accountKeys)
    (h : executeOnOverlay host accounts tx computeBudget cache = (.ok o,cache')) {k : Pubkey}
    (hm : k ∉ tx.message.accountKeys) : o.dirty.lookup k = none := by
  obtain ⟨cells,hc,rfl⟩ := executeOnOverlay_named hk h
  exact writeBack_lookup_of_notMem hc hm

theorem flush_keyed (hk : accounts.KeyedOn tx.message.accountKeys)
    (h : executeOnOverlay host accounts tx computeBudget cache = (.ok o,cache')) (hp : p.Keyed) :
    InMemoryAccountStore.Keyed (o.flush p) := by
  intro k a ha
  rw [OverlayStore.flush_load,OverlayStore.load] at ha
  by_cases hm : k ∈ tx.message.accountKeys
  · obtain ⟨b,hb,hbk⟩ := overlay_entry hk h hm
    rw [hb] at ha
    cases ha
    exact hbk
  · rw [overlay_other hk h hm] at ha
    exact hp k a ha

theorem processSingleTransaction_ok {bank : Bank}
    (h : bank.processSingleTransaction host tx computeBudget cache = (.ok o,cache')) :
    bank.checkPreflightRules tx = .ok () ∧
      executeOnOverlay host bank.accounts tx computeBudget cache = (.ok o,cache') := by
  unfold processSingleTransaction at h
  cases hc : bank.checkPreflightRules tx with
  | error e =>
    rw [hc] at h
    cases h
  | ok u =>
    rw [hc] at h
    exact ⟨rfl,h⟩

end Bank

end TinySolana
