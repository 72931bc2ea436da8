import TinySolana.Programs.Ids
import TinySolana.Scheduler
import TinySolana.Foundations.Exec
import TinySolana.Foundations.Saturating
import Mathlib.Data.UInt

/-!
# Cost model

The cost of a transaction is known before it runs; the tracker admits a transaction while the block
and the accounts it writes stay within their limits.
-/

namespace TinySolana
open Foundations

def computeUnitToUsRatio : UInt64 := 30

def signatureCost : UInt64 := computeUnitToUsRatio*24

def writeLockUnits : UInt64 := computeUnitToUsRatio*10

def instructionDataBytesCost : UInt64 := 140/computeUnitToUsRatio

def maxBlockUnits : UInt64 := 60000000

def maxWritableAccountUnits : UInt64 := 24000000

def builtinProgramCost : UInt64 := computeUnitToUsRatio*10

def bpfProgramCost : UInt64 := 200000

structure TransactionCost where
  signatureCost : UInt64
  writeLockCost : UInt64
  dataCost : UInt64
  executionCost : UInt64
  writableAccounts : BTreeSet Pubkey
  deriving DecidableEq

def TransactionCost.sum (cost : TransactionCost) : UInt64 :=
  satAdd (satAdd (satAdd cost.signatureCost cost.writeLockCost) cost.dataCost) cost.executionCost

theorem TransactionCost.signatureCost_le_sum (cost : TransactionCost) :
    cost.signatureCost ≤ cost.sum :=
  UInt64.le_trans (le_satAdd _ _) (UInt64.le_trans (le_satAdd _ _) (le_satAdd _ _))

/-- The table of programs that cost as builtins. -/
structure CostModel where
  builtinPrograms : List Pubkey

namespace CostModel

def new : CostModel := ⟨[systemProgramId,tokenProgramId]⟩

def programCost (model : CostModel) (instruction : Instruction) : UInt64 :=
  if instruction.programId ∈ model.builtinPrograms then builtinProgramCost else bpfProgramCost

/-- Sums of 64-bit integers; no transaction that fits in memory makes them overflow. -/
def calculateCost (model : CostModel) (tx : Transaction) : TransactionCost :=
  let writeSet : BTreeSet Pubkey := .ofList (metaKeys true tx.metas)
  let instructionDataLen : UInt64 :=
    (tx.message.instructions.map fun i => UInt64.ofNat i.data.length).sum
  { signatureCost := UInt64.ofNat tx.signatures.length*signatureCost
    writeLockCost := UInt64.ofNat writeSet.toList.length*writeLockUnits
    dataCost := instructionDataLen*instructionDataBytesCost
    executionCost := (tx.message.instructions.map model.programCost).sum
    writableAccounts := writeSet }

end CostModel

inductive CostModelError where
  | wouldExceedBlockMaxLimit
  | wouldExceedAccountMaxLimit
  deriving DecidableEq

structure CostTracker where
  blockCostLimit : UInt64
  accountCostLimit : UInt64
  blockCost : UInt64
  costByWritableAccounts : FiniteMap Pubkey UInt64

namespace CostTracker

def new (blockCostLimit accountCostLimit : UInt64) : CostTracker :=
  ⟨blockCostLimit,accountCostLimit,0,∅⟩

/-- The account has been written in this block and the cost would take it over its limit. -/
def AccountExceeded (tracker : CostTracker) (cost : UInt64) (accountKey : Pubkey) : Prop :=
  ∃ chainedCost ∈ tracker.costByWritableAccounts.lookup accountKey,
    tracker.accountCostLimit < satAdd chainedCost cost

instance (tracker : CostTracker) (cost : UInt64) (accountKey : Pubkey) :
    Decidable (tracker.AccountExceeded cost accountKey) :=
  inferInstanceAs (Decidable (∃ c ∈ tracker.costByWritableAccounts.lookup accountKey, _))

def wouldFit (tracker : CostTracker) (txCost : TransactionCost) : Except CostModelError Unit :=
  let cost := txCost.sum
  if tracker.blockCostLimit < satAdd tracker.blockCost cost then .error .wouldExceedBlockMaxLimit
  else if ∃ accountKey ∈ txCost.writableAccounts.toList,
    tracker.AccountExceeded cost accountKey then
    .error .wouldExceedAccountMaxLimit
  else .ok ()

/-- Add to the cost of each account, which panics on overflow. -/
def addToAccounts {ε : Type} (cost : UInt64) : List Pubkey → Exec CostTracker ε Unit
  | [] => pure ()
  | accountKey :: rest => do
    let accountCost := ((← Exec.get).costByWritableAccounts.lookup accountKey).getD 0
    Exec.panicIf (2^64 ≤ accountCost.toNat+cost.toNat)
    Exec.modify fun t => { t with
      costByWritableAccounts := t.costByWritableAccounts.insert accountKey (accountCost+cost) }
    addToAccounts cost rest

/-- The block cost is an atomic, which wraps around. -/
def addCost {ε : Type} (txCost : TransactionCost) : Exec CostTracker ε Unit := do
  let cost := txCost.sum
  Exec.modify fun t => { t with blockCost := t.blockCost+cost }
  addToAccounts cost txCost.writableAccounts.toList

/-- Subtract from the cost of each account that has one, which panics below zero. -/
def subtractFromAccounts {ε : Type} (cost : UInt64) : List Pubkey → Exec CostTracker ε Unit
  | [] => pure ()
  | accountKey :: rest => do
    match (← Exec.get).costByWritableAccounts.lookup accountKey with
    | none => pure ()
    | some entry => do
      Exec.panicIf (entry < cost)
      Exec.modify fun t => { t with
        costByWritableAccounts := t.costByWritableAccounts.insert accountKey (entry-cost) }
    subtractFromAccounts cost rest

def subtractCost {ε : Type} (txCost : TransactionCost) : Exec CostTracker ε Unit := do
  let cost := txCost.sum
  Exec.modify fun t => { t with blockCost := t.blockCost-cost }
  subtractFromAccounts cost txCost.writableAccounts.toList

def reset (tracker : CostTracker) : CostTracker :=
  { tracker with blockCost := 0, costByWritableAccounts := ∅ }

end CostTracker

end TinySolana
