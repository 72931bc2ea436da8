import TinySolana.AccountLocks
import TinySolana.Bank
import TinySolana.CostModel

/-!
# Banking stage

A batch is verified, sorted into groups and processed group by group: admission by cost, account
locks, execution of every member over the same store, recording, commit. The state of a batch holds
what it can reach: the stage, the bank, the cache of programs and its results. It also keeps a log
of what the batch sends and commits, which no code reads.
-/

namespace TinySolana
open Foundations

/-- The sending side of a channel: what was sent, and how many sends succeed before the receiver
disconnects, if it ever does. -/
structure Channel (α : Type) where
  sent : List α
  remaining : Option ℕ

/-- `Sender::send`; there is no result when the receiver is gone. -/
def Channel.send {α : Type} (c : Channel α) (a : α) : Option (Channel α) :=
  match c.remaining with
  | none => some ⟨c.sent ++ [a],none⟩
  | some 0 => none
  | some (n+1) => some ⟨c.sent ++ [a],some n⟩

theorem Channel.send_eq_none {α : Type} {c : Channel α} {a : α} :
    c.send a = none ↔ c.remaining = some 0 := by
  unfold send
  split <;> simp_all

theorem Channel.sent_of_send {α : Type} {c c' : Channel α} {a : α} (h : c.send a = some c') :
    c'.sent = c.sent ++ [a] := by
  unfold send at h
  split at h <;> cases h <;> rfl

/-! ## Recording -/

structure PohRecord where
  batchHash : Hash
  deriving DecidableEq

inductive RecorderError where
  | sendError
  deriving DecidableEq

/-- `TransactionRecorder::record_transactions`. Indexing the first signature panics without one. -/
def recordTransactions (sha256 : List UInt8 → Hash) (txs : List (ℕ × Transaction)) :
    Exec (Channel PohRecord) RecorderError Unit :=
  if txs = [] then pure ()
  else do
    Exec.panicIf (∃ tx ∈ txs, tx.2.signatures = [])
    let batchHash := sha256 (txs.flatMap fun tx => tx.2.signatures.head?.elim [] Signature.bytes)
    match (← Exec.get).send ⟨batchHash⟩ with
    | some c => Exec.modify fun _ => c
    | none => Exec.throw .sendError

/-! ## State of a batch -/

structure BankingStage where
  accountLocks : AccountLockState
  costTracker : CostTracker
  txSender : Channel Transaction
  pohRecordSender : Channel PohRecord

def BankingStage.new (pohRecordSender : Channel PohRecord) (txSender : Channel Transaction) :
    BankingStage where
  accountLocks := AccountLocks.new
  costTracker := .new maxBlockUnits maxWritableAccountUnits
  txSender := txSender
  pohRecordSender := pohRecordSender

inductive BatchEvent where
  | recorded (indices : List ℕ)
  | flushed (index : ℕ) (overlay : OverlayStore)
  | requeued (index : ℕ) (transaction : Transaction)

structure BatchState where
  stage : BankingStage
  bank : Bank
  programCache : ProgramCache
  finalResults : List (Option TransactionError)
  log : List BatchEvent

/-- A fresh stage and a fresh bank over a store, with both channels connected. -/
def BatchState.new (accounts : InMemoryAccountStore) : BatchState where
  stage := .new ⟨[],none⟩ ⟨[],none⟩
  bank := .new accounts
  programCache := ∅
  finalResults := []
  log := []

inductive BatchError where
  /-- A panic in the task that verifies signatures. -/
  | joinError
  | recorder (e : RecorderError)
  deriving DecidableEq

abbrev Batch := Exec BatchState BatchError

namespace BankingStage

/-- Run an operation on the lock table. -/
def onLocks {ε α : Type} (x : Exec AccountLockState ε α) : Exec BatchState ε α :=
  x.zoom (fun s => s.stage.accountLocks) fun s l =>
    { s with stage := { s.stage with accountLocks := l } }

/-- Run an operation on the cost tracker. -/
def onTracker {ε α : Type} (x : Exec CostTracker ε α) : Exec BatchState ε α :=
  x.zoom (fun s => s.stage.costTracker) fun s c =>
    { s with stage := { s.stage with costTracker := c } }

/-- Run an operation on the channel to the PoH service. -/
def onRecords {ε α : Type} (x : Exec (Channel PohRecord) ε α) : Exec BatchState ε α :=
  x.zoom (fun s => s.stage.pohRecordSender) fun s c =>
    { s with stage := { s.stage with pohRecordSender := c } }

/-- Run an operation on the cache of programs. -/
def onCache {ε α : Type} (x : Exec ProgramCache ε α) : Exec BatchState ε α :=
  x.zoom (fun s => s.programCache) fun s c => { s with programCache := c }

def logEvents (events : List BatchEvent) : Batch Unit :=
  Exec.modify fun s => { s with log := s.log ++ events }

def setResult (originalIndex : ℕ) (e : TransactionError) : Batch Unit :=
  Exec.modify fun s => { s with finalResults := s.finalResults.set originalIndex (some e) }

/-- `BankingStage::requeue_transaction`; a failed send is only logged. -/
def requeueTransaction (originalIndex : ℕ) (tx : Transaction) : Batch Unit :=
  Exec.modify fun s => match s.stage.txSender.send tx with
    | some c => { s with
        stage := { s.stage with txSender := c }, log := s.log ++ [.requeued originalIndex tx] }
    | none => s

/-- A member of a group with its position in the batch and its cost. -/
structure Admitted where
  originalIndex : ℕ
  transaction : Transaction
  cost : TransactionCost
  deriving DecidableEq

/-- Admit the members of a group by cost. -/
def admitGroup (costModel : CostModel) : List (ℕ × Transaction) → Batch (List Admitted)
  | [] => pure []
  | (originalIndex,tx) :: rest => do
    let cost := costModel.calculateCost tx
    if ((← Exec.get).stage.costTracker.wouldFit cost).isOk then do
      onTracker (CostTracker.addCost cost)
      let admitted ← admitGroup costModel rest
      return ⟨originalIndex,tx,cost⟩ :: admitted
    else do
      setResult originalIndex .wouldExceedMaxBlockCostLimit
      admitGroup costModel rest

/-- Give up a group whose accounts are in use. -/
def rollBackGroup (txsToSchedule : List (ℕ × Transaction)) : List Admitted → Batch Unit
  | [] => pure ()
  | member :: rest => do
    onTracker (CostTracker.subtractCost member.cost)
    setResult member.originalIndex .accountInUse
    match txsToSchedule.find? fun tx => tx.1 = member.originalIndex with
    | none => Exec.abort
    | some txToRequeue => requeueTransaction member.originalIndex txToRequeue.2
    rollBackGroup txsToSchedule rest

structure TransactionProcessResult where
  member : Admitted
  processingResult : Except TransactionError OverlayStore

/-- Process the members of a group, which all load from the same store. -/
def executeGroup (host : Host) : List Admitted → Batch (List TransactionProcessResult)
  | [] => pure []
  | member :: rest => do
    let bank := (← Exec.get).bank
    let processingResult ← Exec.attempt (onCache
      (bank.processSingleTransaction host member.transaction member.cost.sum))
    let results ← executeGroup host rest
    return ⟨member,processingResult⟩ :: results

def recordMetrics (ok : Bool) : Batch Unit :=
  Exec.modify fun s => { s with bank := s.bank.recordTransactionMetrics ok }

/-- Enter the results of a group and collect the overlays to commit. -/
def settleGroup : List TransactionProcessResult → Batch (List (ℕ × OverlayStore))
  | [] => pure []
  | result :: rest => do
    recordMetrics result.processingResult.isOk
    match result.processingResult with
    | .ok overlay => do
      let overlays ← settleGroup rest
      return (result.member.originalIndex,overlay) :: overlays
    | .error e => do
      onTracker (CostTracker.subtractCost result.member.cost)
      if e.isRetryable then requeueTransaction result.member.originalIndex result.member.transaction
      setResult result.member.originalIndex e
      settleGroup rest

/-- `Committer::commit_overlays` on the store of the bank. -/
def commitGroup (overlays : List (ℕ × OverlayStore)) : Batch Unit :=
  Exec.modify fun s => { s with
    bank := { s.bank with accounts := commitOverlays (overlays.map Prod.snd) s.bank.accounts }
    log := s.log ++ overlays.map fun o => .flushed o.1 o.2 }

/-- Execute, record, settle and commit a group whose accounts are locked. -/
def runGroup (host : Host) (admitted : List Admitted) : Batch Unit := do
  let results ← executeGroup host admitted
  let groupTxs := admitted.map fun m => (m.originalIndex,m.transaction)
  Exec.mapErr .recorder (onRecords (recordTransactions host.sha256 groupTxs))
  logEvents [.recorded (admitted.map Admitted.originalIndex)]
  let overlays ← settleGroup results
  commitGroup overlays

def acquireFreezeLock : Batch Unit :=
  Exec.modify fun s =>
    { s with bank := { s.bank with freezeLockCount := s.bank.freezeLockCount+1 } }

/-- `FreezeLockGuard::drop`. -/
def dropFreezeLock : Batch Unit :=
  Exec.modify fun s =>
    { s with bank := { s.bank with freezeLockCount := s.bank.freezeLockCount-1 } }

/-- The body of the loop over the scheduled groups. The guards are dropped however it is left. -/
def processGroup (host : Host) (costModel : CostModel)
    (txsToSchedule group : List (ℕ × Transaction)) :
    Batch Unit := do
  let admitted ← admitGroup costModel group
  if admitted = [] then pure ()
  else do
    let groupTxs := admitted.map fun m => (m.originalIndex,m.transaction)
    match ← Exec.attempt (onLocks (AccountLocks.tryLockAccountsForGroup groupTxs)) with
    | .error .accountInUse => rollBackGroup txsToSchedule admitted
    | .ok lockGuard =>
      Exec.ensuring (do
        acquireFreezeLock
        Exec.ensuring (runGroup host admitted) dropFreezeLock) (onLocks lockGuard.drop)

def processGroups (host : Host) (costModel : CostModel) (txsToSchedule : List (ℕ × Transaction)) :
    List (List (ℕ × Transaction)) → Batch Unit
  | [] => pure ()
  | group :: rest => do
    processGroup host costModel txsToSchedule group
    processGroups host costModel txsToSchedule rest

/-- The results after verification: the error of each transaction that is dropped. -/
def verificationResults (valid : Ed25519) (transactions : List Transaction) :
    List (Option TransactionError) :=
  transactions.map fun tx => match tx.verifySignaturesSync valid with
    | .err e => some e
    | _ => none

/-- The transactions that passed verification, with their positions in the batch. -/
def txsToSchedule (valid : Ed25519) (transactions : List Transaction) : List (ℕ × Transaction) :=
  transactions.zipIdx.filterMap fun p =>
    if p.1.verifySignaturesSync valid = .ok () then some (p.2,p.1) else none

/-- `BankingStage::process_batch`. -/
def processBatch (host : Host) (costModel : CostModel) (transactions : List Transaction) :
    Batch (List (Option TransactionError)) := do
  Exec.failIf (∃ tx ∈ transactions, tx.verifySignaturesSync host.ed25519 = .panic) .joinError
  Exec.modify fun s => { s with
    finalResults := verificationResults host.ed25519 transactions, log := [] }
  let txsToSchedule := txsToSchedule host.ed25519 transactions
  processGroups host costModel txsToSchedule (TransactionScheduler.schedule txsToSchedule)
  onTracker (Exec.modify CostTracker.reset)
  return (← Exec.get).finalResults

end BankingStage

end TinySolana
