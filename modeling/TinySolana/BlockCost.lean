import TinySolana.BatchPanics

/-!
# Cost of a block

The limit on the cost of a block is kept within one batch: a batch that ends well resets the
tracker, and with it what the bank has been committed so far. The limit holds over all batches of a
bank where what a batch could add is small enough for that to make no difference.
-/

namespace TinySolana
open Foundations

/-- A bank with the stage that works on it, and what the transactions cost that were committed to
it. -/
structure BlockState where
  batch : BatchState
  committed : ℕ

namespace BlockState

/-- A new stage begins a block. -/
def begin (pohRecordSender : Channel PohRecord) (txSender : Channel Transaction) (bank : Bank)
    (programCache : ProgramCache) : BlockState :=
  ⟨⟨.new pohRecordSender txSender,bank,programCache,[],[]⟩,0⟩

/-- One call of `process_batch`, however it ends. -/
def process (costModel : CostModel) (s : BlockState) (host : Host)
    (transactions : List Transaction) :
    BlockState :=
  let batch := (BankingStage.processBatch host costModel transactions { s.batch with log := [] }).2
  ⟨batch,s.committed+committedCost costModel transactions batch.log⟩

/-- Calls follow each other on the same stage and bank. -/
def Step (costModel : CostModel) (s : BlockState) (call : Host × List Transaction)
    (t : BlockState) : Prop :=
  t = s.process costModel call.1 call.2

/-- The tracker still holds what was committed, or the batch fits on top of it as a whole. -/
def NotForgotten (costModel : CostModel) (s : BlockState) (call : Host × List Transaction) : Prop :=
  s.committed ≤ s.batch.stage.costTracker.blockCost.toNat ∨
    s.committed+groupCost costModel (BankingStage.txsToSchedule call.1.ed25519 call.2) ≤
      maxBlockUnits.toNat

/-- What was committed is within the limit of the block. -/
structure Limited (s : BlockState) : Prop where
  sound : ∃ costs, StageSound s.batch.stage costs
  limit : s.batch.stage.costTracker.blockCostLimit = maxBlockUnits
  committed : s.committed ≤ maxBlockUnits.toNat

variable {costModel : CostModel} {s t : BlockState}

theorem begin_limited (pohRecordSender : Channel PohRecord) (txSender : Channel Transaction)
    (bank : Bank)
    (programCache : ProgramCache) : (begin pohRecordSender txSender bank programCache).Limited := by
  have hlimit : maxBlockUnits < maxU64 := by decide
  exact ⟨⟨0,CostTracker.new_tallies _ _,hlimit,_,FiniteMap.counts_zero.mpr rfl⟩,rfl,Nat.zero_le _⟩

theorem process_limited {call : Host × List Transaction} (h : s.Limited)
    (hc : s.NotForgotten costModel call) : (s.process costModel call.1 call.2).Limited := by
  obtain ⟨⟨costs,hs⟩,hlimit,hle⟩ := h
  let batch : BatchState := { s.batch with log := [] }
  have hs : StageSound batch.stage costs := hs
  by_cases hv : ∃ tx ∈ call.2, tx.verifySignaturesSync call.1.ed25519 = .panic
  · -- Nothing has been done when verification panics.
    have hrun : BankingStage.processBatch call.1 costModel call.2 batch =
        (.err .joinError,batch) := by
      unfold BankingStage.processBatch
      rw [Exec.failIf_true hv]
      rfl
    have heq : s.process costModel call.1 call.2 = ⟨batch,s.committed⟩ := by
      unfold process
      rw [hrun]
      rfl
    rw [heq]
    exact ⟨⟨costs,hs⟩,hlimit,hle⟩
  · obtain ⟨hsound,hkept,hcharged,hbounded⟩ := @BankingStage.processBatch_charges call.1 costModel
      batch costs call.2 hs hv
    have hblock := hs.tallied.block
    have hlimit' : batch.stage.costTracker.blockCostLimit = maxBlockUnits := hlimit
    rw [hlimit'] at hkept hcharged
    refine ⟨hsound,hkept,?_⟩
    rcases hc with hc | hc
    · calc s.committed+_ ≤ CostTracker.charged costs+_ :=
        Nat.add_le_add_right (hc.trans_eq hblock) _
        _ ≤ maxBlockUnits.toNat := hcharged
    · exact (Nat.add_le_add_left hbounded _).trans hc

/-- While no batch is admitted on a tracker that has forgotten too much, the transactions committed
to a bank cost no more than a block may. -/
theorem block_cost_limited {pohRecordSender : Channel PohRecord} {txSender : Channel Transaction}
    {bank : Bank} {programCache : ProgramCache} {calls : List (Host × List Transaction)}
    (hr : Run.Always (Step costModel) (NotForgotten costModel)
      (begin pohRecordSender txSender bank programCache) calls t) :
    t.committed ≤ maxBlockUnits.toNat := by
  have hstep : ∀ s call t, Limited s → NotForgotten costModel s call → Step costModel s call t →
      Limited t := by
    intro s call t hs hc ht
    rw [ht]
    exact process_limited hs hc
  exact (hr.invariant hstep (begin_limited pohRecordSender txSender bank programCache)).committed

/-- Two payments in batches of their own. -/
theorem two_payments_limited :
    let host : Host := default
    let start := begin ⟨[],none⟩ ⟨[],none⟩
      (.new ((∅ : InMemoryAccountStore).store (.ofByte 1) (wallet 1 10))) ∅
    let paid := start.process .new host [payment [blankSignature] 3]
    let paidTwice := paid.process .new host [payment [blankSignature] 4]
    paid.committed = 1668 ∧ paidTwice.committed = 3336 ∧
      paidTwice.committed ≤ maxBlockUnits.toNat := by
  intro host start paid paidTwice
  have h₁ : NotForgotten .new start (host,[payment [blankSignature] 3]) := .inl (Nat.zero_le _)
  have hruns : (paid.committed+groupCost .new (BankingStage.txsToSchedule host.ed25519
        [payment [blankSignature] 4]) ≤ maxBlockUnits.toNat) ∧
      paid.committed = 1668 ∧ paidTwice.committed = 3336 := by decide +kernel
  obtain ⟨hfits,honce,htwice⟩ := hruns
  have h₂ : NotForgotten .new paid (host,[payment [blankSignature] 4]) := .inr hfits
  have hr : Run.Always (Step .new) (NotForgotten .new) start
      [(host,[payment [blankSignature] 3]),(host,[payment [blankSignature] 4])] paidTwice :=
    (Run.single ⟨h₁,rfl⟩).snoc ⟨h₂,rfl⟩
  exact ⟨honce,htwice,block_cost_limited hr⟩

/-- Two batches of one transaction with many cheap instructions: each fits into a block, and both
are committed. -/
theorem two_batches_over_limit :
    let host : Host := default
    let closing : Instruction := ⟨bpfLoaderUpgradeableProgramId,
      List.replicate 3 ⟨.ofByte 1,true,false⟩,LoaderInstruction.codec.encode .close⟩
    let costly : Transaction := ⟨[blankSignature],[.ofByte 1],default,List.replicate 151 closing⟩
    let start := begin ⟨[],none⟩ ⟨[],none⟩ (.new ∅) ∅
    let first := start.process .new host [costly]
    let second := first.process .new host [costly]
    first.batch.finalResults = [none] ∧ second.batch.finalResults = [none] ∧
      first.committed = 30203136 ∧ second.committed = 60406272 ∧
      ¬∀ calls t, Run (Step .new) start calls t → t.committed ≤ maxBlockUnits.toNat := by
  intro host closing costly start first second
  -- evaluated together, so that the batches are run once
  have hruns : first.batch.finalResults = [none] ∧ second.batch.finalResults = [none] ∧
      first.committed = 30203136 ∧ second.committed = 60406272 := by decide +kernel
  obtain ⟨hfirst,hsecond,honce,hcommitted⟩ := hruns
  refine ⟨hfirst,hsecond,honce,hcommitted,fun h => ?_⟩
  have hr : Run (Step .new) start [(host,[costly]),(host,[costly])] second :=
    (Run.single rfl).snoc rfl
  have hle := h _ _ hr
  rw [hcommitted] at hle
  exact absurd hle (by decide)

end BlockState

end TinySolana
