import TinySolana.Blockhashes
import TinySolana.ExecutionErrors
import TinySolana.ProgramCache
import TinySolana.SerialEquivalence

/-!
# Simulated and processed transactions

Both load the same accounts and run the same instructions, so they end the same, also when the
programs are already cached from the simulation. But only processing asks the bank for its rules:
where they turn a transaction away, simulation tells something else.
-/

namespace TinySolana
open Foundations Exec

namespace Bank

/-- The bank is open, and its queue has the blockhash of the transaction from a slot that is recent
enough. -/
def TakesBlockhash (bank : Bank) (tx : Transaction) : Prop :=
  bank.isFrozen = false ∧
    ∃ info, bank.blockhashQueue.find? (fun info => info.hash = tx.message.recentBlockhash) =
      some info ∧
      bank.slot ≤ satAdd info.createdAtSlot (UInt64.ofNat maxBlockhashQueueDepth)

theorem passes_iff {bank : Bank} {tx : Transaction} : bank.Passes tx ↔ bank.TakesBlockhash tx := by
  unfold Passes TakesBlockhash checkPreflightRules
  cases hz : bank.isFrozen with
  | true => simp
  | false =>
    cases hf : bank.blockhashQueue.find? fun info => info.hash = tx.message.recentBlockhash with
    | none => simp
    | some info =>
      by_cases hs : satAdd info.createdAtSlot (UInt64.ofNat maxBlockhashQueueDepth) < bank.slot
      · simp [hs]
      · simp [hs,UInt64.not_lt.mp hs]

theorem simulateTransaction_run (host : Host) (bank : Bank) (tx : Transaction)
    (cache : ProgramCache) :
    simulateTransaction host bank tx cache =
      ((executeLoaded host tx 200000 (ExecutorUse.loaded bank tx) cache).1.verdict,
        (executeLoaded host tx 200000 (ExecutorUse.loaded bank tx) cache).2) := by
  rw [simulateTransaction,bind_run,ExecutorUse.loaded]
  cases executeLoaded host tx 200000 _ cache with
  | mk r cache' => cases r <;> rfl

/-- Writing back always succeeds. -/
theorem processSingleTransaction_verdict {host : Host} {bank : Bank} {tx : Transaction}
    (h : bank.Passes tx) (computeBudget : UInt64) (cache : ProgramCache) :
    (processSingleTransaction host bank tx computeBudget cache).1.verdict =
      (executeLoaded host tx computeBudget (ExecutorUse.loaded bank tx) cache).1.verdict := by
  rw [processSingleTransaction_of_passes h,executeOnOverlay,bind_run,ExecutorUse.loaded]
  cases executeLoaded host tx computeBudget _ cache with
  | mk r cache' => cases r <;> rfl

/-- Simulation ends as processing does, whether the transaction is processed instead or afterwards,
with the programs in the cache that simulation has left there. -/
structure PreflightAgrees (host : Host) (bank : Bank) (tx : Transaction) (cache : ProgramCache) :
    Prop where
  instead : (simulateTransaction host bank tx cache).1 =
    (processSingleTransaction host bank tx 200000 cache).1.verdict
  afterwards : (simulateTransaction host bank tx cache).1 =
    (processSingleTransaction host bank tx 200000
      (simulateTransaction host bank tx cache).2).1.verdict

/-- Simulation agrees with processing exactly when the bank takes the blockhash of the
transaction. -/
theorem preflight_agrees_iff (host : Host) (bank : Bank) (tx : Transaction) (cache : ProgramCache) :
    PreflightAgrees host bank tx cache ↔ bank.TakesBlockhash tx := by
  rw [← passes_iff]
  constructor
  · intro h
    cases hc : bank.checkPreflightRules tx with
    | ok u => exact hc
    | error e =>
      -- the error of a rule is none that simulation could have
      have he : (processSingleTransaction host bank tx 200000 cache).1 = .err e := by
        rw [processSingleTransaction,hc]
        rfl
      have hsim := h.instead
      rw [he,simulateTransaction_run] at hsim
      have hx := executeLoaded_fails host tx 200000 _ cache e (Outcome.verdict_eq_err.mp hsim)
      exact absurd hx (checkPreflightRules_error hc)
  · intro h
    refine ⟨?_,?_⟩
    · rw [simulateTransaction_run,processSingleTransaction_verdict h]
    · rw [simulateTransaction_run,processSingleTransaction_verdict h,executeLoaded_again]

/-- A payment over a store with both wallets, with a blockhash that the bank has never had. -/
theorem unknown_blockhash_simulated :
    let bank :=
      Bank.new (((∅ : InMemoryAccountStore).store (.ofByte 1) (wallet 1 10)).store (.ofByte 2)
      (wallet 2 0))
    let tx : Transaction := { payment [blankSignature] 5 with
      message := { (payment [blankSignature] 5).message with recentBlockhash := hashOfOnes } }
    (simulateTransaction default bank tx ∅).1 = .ok () ∧
      (processSingleTransaction default bank tx 200000 ∅).1.verdict = .err .blockhashNotFound ∧
      ¬PreflightAgrees default bank tx ∅ := by
  intro bank tx
  have hsim : (simulateTransaction default bank tx ∅).1 = .ok () := by decide +kernel
  have hproc : (processSingleTransaction default bank tx 200000 ∅).1.verdict =
      .err .blockhashNotFound := by decide +kernel
  refine ⟨hsim,hproc,fun h => ?_⟩
  have hi := h.instead
  rw [hsim,hproc] at hi
  cases hi

end Bank

end TinySolana
