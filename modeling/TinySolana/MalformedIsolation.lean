import TinySolana.ExecutionPanics
import TinySolana.RenamedBatches

/-!
# Isolation of malformed transactions

A transaction that does not pass verification leaves no trace on the rest of its batch: the others
are processed as in the batch without it. That fails where verification itself panics, which takes
the batch down, and where a transaction without signatures passes it, which cannot be recorded.
-/

namespace TinySolana
open Foundations Exec

/-- The position among all transactions of position `i` among those but the one at `p`. -/
def skip (p i : ℕ) : ℕ := if i < p then i else i+1

theorem skip_injective (p : ℕ) : (skip p).Injective := by
  intro i j h
  unfold skip at h
  split at h <;> split at h <;> omega

theorem getElem?_skip {α : Type} (l : List α) (p i : ℕ) : l[skip p i]? = (l.eraseIdx p)[i]? := by
  rw [List.getElem?_eraseIdx,skip]
  split <;> rfl

/-- Verification panics on more signatures than keys, and only then. -/
theorem Transaction.verifySignaturesSync_panic {valid : Ed25519} {tx : Transaction} :
    tx.verifySignaturesSync valid = .panic ↔
      tx.message.accountKeys.length < tx.signatures.length := by
  simp only [verifySignaturesSync]
  split
  · next h => exact iff_of_true rfl h
  · next h =>
    refine iff_of_false ?_ h
    split <;> simp

namespace BankingStage

/-- The transactions that pass verification among those from position `n` on. -/
def scheduledFrom (valid : Ed25519) (n : ℕ) (transactions : List Transaction) :
    List (ℕ × Transaction) :=
  (transactions.zipIdx n).filterMap fun p =>
    if p.1.verifySignaturesSync valid = .ok () then some (p.2,p.1) else none

theorem scheduledFrom_cons (valid : Ed25519) (n : ℕ) (tx : Transaction) (rest : List Transaction) :
    scheduledFrom valid n (tx :: rest) =
      if tx.verifySignaturesSync valid = .ok () then (n,tx) :: scheduledFrom valid (n+1) rest
      else scheduledFrom valid (n+1) rest := by
  unfold scheduledFrom
  rw [List.zipIdx_cons]
  by_cases h : tx.verifySignaturesSync valid = .ok () <;> simp [h]

/-- Behind the position that is left out everything moves up by one. -/
theorem scheduledFrom_succ {valid : Ed25519} {p n : ℕ} (h : p ≤ n)
    (transactions : List Transaction) :
    scheduledFrom valid (n+1) transactions =
      (scheduledFrom valid n transactions).map (renameTx (skip p)) := by
  induction transactions generalizing n with
  | nil => rfl
  | cons tx rest ih =>
    have hskip : skip p n = n+1 := if_neg (by omega)
    rw [scheduledFrom_cons,scheduledFrom_cons,ih (by omega)]
    split
    · rw [List.map_cons,renameTx,hskip]
    · rfl

theorem scheduledFrom_eraseIdx {valid : Ed25519} {transactions : List Transaction} {p : ℕ}
    {t : Transaction} (hp : transactions[p]? = some t) (ht : t.verifySignaturesSync valid ≠ .ok ())
    (n : ℕ) :
    scheduledFrom valid n transactions =
      (scheduledFrom valid n (transactions.eraseIdx p)).map (renameTx (skip (n+p))) := by
  induction transactions generalizing p n with
  | nil => simp at hp
  | cons tx rest ih =>
    cases p with
    | zero =>
      obtain rfl : tx = t := by simpa using hp
      rw [scheduledFrom_cons,if_neg ht]
      exact scheduledFrom_succ (by omega) rest
    | succ p =>
      have hskip : skip (n+(p+1)) n = n := if_pos (by omega)
      rw [List.eraseIdx_cons_succ,scheduledFrom_cons,scheduledFrom_cons,
        ih (by simpa using hp) (n+1),show n+1+p = n+(p+1) by omega]
      split
      · rw [List.map_cons,renameTx,hskip]
      · rfl

/-- What is scheduled without a transaction that did not pass is what is scheduled with it. -/
theorem txsToSchedule_eraseIdx {valid : Ed25519} {transactions : List Transaction} {p : ℕ}
    {t : Transaction} (hp : transactions[p]? = some t)
    (ht : t.verifySignaturesSync valid ≠ .ok ()) :
    txsToSchedule valid transactions =
      (txsToSchedule valid (transactions.eraseIdx p)).map (renameTx (skip p)) := by
  have h := scheduledFrom_eraseIdx hp ht 0
  rwa [Nat.zero_add] at h

variable {host : Host} {costModel : CostModel} {transactions : List Transaction} {p : ℕ}
  {t : Transaction} {s : BatchState}

theorem verified_renames (transactions : List Transaction) (p : ℕ) (s : BatchState) :
    Renames (skip p) (verified host.ed25519 transactions s)
      (verified host.ed25519 (transactions.eraseIdx p) s) := by
  refine ⟨rfl,rfl,rfl,fun i => ?_,rfl⟩
  change (verificationResults _ transactions)[_]? =
    (verificationResults _ (transactions.eraseIdx p))[_]?
  rw [verificationResults,verificationResults,List.getElem?_map,getElem?_skip,List.getElem?_map]

/-- The batch and the batch without a transaction that did not pass, where verification panics in
neither. -/
theorem processBatch_eraseIdx (hp : transactions[p]? = some t)
    (ht : t.verifySignaturesSync host.ed25519 ≠ .ok ())
    (hv : ¬∃ tx ∈ transactions, tx.verifySignaturesSync host.ed25519 = .panic) :
    (processBatch host costModel transactions s).1.map (fun results => results.eraseIdx p) =
        (processBatch host costModel (transactions.eraseIdx p) s).1 ∧
      Renames (skip p) (processBatch host costModel transactions s).2
        (processBatch host costModel (transactions.eraseIdx p) s).2 := by
  have hv' : ¬∃ tx ∈ transactions.eraseIdx p, tx.verifySignaturesSync host.ed25519 = .panic := by
    rintro ⟨tx,hm,htx⟩
    exact hv ⟨tx,List.mem_of_mem_eraseIdx hm,htx⟩
  rw [processBatch_eq hv,processBatch_eq hv',txsToSchedule_eraseIdx hp ht,
    TransactionScheduler.schedule_rename,Exec.bind_run,Exec.bind_run]
  obtain ⟨hout,hren⟩ := processGroups_simulates host costModel (skip_injective p)
    (txsToSchedule host.ed25519 (transactions.eraseIdx p))
    (TransactionScheduler.schedule (txsToSchedule host.ed25519 (transactions.eraseIdx p)))
    _ _ (verified_renames transactions p s)
  rw [Outcome.map_id] at hout
  cases h₁ : processGroups host costModel _ _ (verified host.ed25519 transactions s) with
  | mk r₁ t₁ =>
    cases h₂ :
      processGroups host costModel _ _ (verified host.ed25519 (transactions.eraseIdx p) s) with
    | mk r₂ t₂ =>
      rw [h₁,h₂] at hout hren
      subst hout
      cases r₁ with
      | ok u =>
        refine ⟨congrArg Outcome.ok ?_,?_⟩
        · -- The results stand at the same positions once that at `p` is gone.
          apply List.ext_getElem?
          intro i
          rw [← getElem?_skip]
          exact hren.results i
        · exact (onTracker_simulates (ε := BatchError) (Exec.modify CostTracker.reset) _ _ hren).2
      | err e => exact ⟨rfl,hren⟩
      | panic => exact ⟨rfl,hren⟩

/-! ## Stages that batches leave -/

/-- The stages that are new or that a batch has left, however it ended. -/
inductive Reached : BankingStage → Prop where
  | new (pohRecordSender : Channel PohRecord) (txSender : Channel Transaction) :
      Reached (.new pohRecordSender txSender)
  | processed (host : Host) (costModel : CostModel) (transactions : List Transaction)
      {s : BatchState} :
      Reached s.stage → Reached (processBatch host costModel transactions s).2.stage

theorem Reached.sound {stage : BankingStage} (h : Reached stage) :
    ∃ costs, StageSound stage costs := by
  induction h with
  | new pohRecordSender txSender =>
    have hlimit : maxBlockUnits < maxU64 := by decide
    exact ⟨0,CostTracker.new_tallies _ _,hlimit,_,FiniteMap.counts_zero.mpr rfl⟩
  | processed host costModel transactions _ ih =>
    obtain ⟨costs,hs⟩ := ih
    exact processBatch_sound transactions hs

/-- The transaction at `p` makes no difference to the others: the batch reaches no panic, in
verification or behind it, and ends as the batch without it, and what passes verification can be
recorded. -/
structure Isolated (host : Host) (costModel : CostModel) (transactions : List Transaction) (p : ℕ)
    (s : BatchState) : Prop where
  returns : (processBatch host costModel transactions s).1 ≠ .panic
  verifies : (processBatch host costModel transactions s).1 ≠ .err .joinError
  results : (processBatch host costModel transactions s).1.map (fun results => results.eraseIdx p) =
    (processBatch host costModel (transactions.eraseIdx p) s).1
  effect : Renames (skip p) (processBatch host costModel transactions s).2
    (processBatch host costModel (transactions.eraseIdx p) s).2
  recorded : ∀ tx ∈ transactions, tx.verifySignaturesSync host.ed25519 = .ok () → tx.signatures ≠ []

/-- A host for which one signature is valid, for every key. -/
def blankHost : Host := { (default : Host) with ed25519 := fun _ _ sig => sig = blankSignature }

/-- A payment whose signature is not valid. -/
def forgedPayment : Transaction := payment [⟨List.replicate 64 1,List.length_replicate⟩] 3

/-- A new stage and a bank on which the first wallet holds ten lamports. -/
def oneWallet : BatchState := .new ((∅ : InMemoryAccountStore).store (.ofByte 1) (wallet 1 10))

end BankingStage

end TinySolana
