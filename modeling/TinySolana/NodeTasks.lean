import TinySolana.NodeRuns

/-!
# Tasks without interruption

The steps of a node are those of its tasks. Where nobody comes in between, a batch is processed as
`process_batch` does it.
-/

namespace TinySolana
open Foundations

namespace Node

variable {host : Host} {rpc : RpcHost} {s : Node}

/-- The node behind a batch. Unless the batch has panicked, the loop begins again. -/
def afterBatch {α : Type} (s : Node) (r : Outcome BatchError α × BatchState) : Node :=
  match r.1 with
  | .panic => { s with state := r.2 }.stopBanking
  | _ => { s with state := r.2, banking := .collecting [] }

theorem afterBatch_processing {α : Type} (s : Node) (state : BatchState) (task : BankingTask)
    (r : Outcome BatchError α × BatchState) :
    ({ s with state, banking := task } : Node).afterBatch r = s.afterBatch r := by
  obtain ⟨o,t⟩ := r
  cases o <;> rfl

/-- The groups of a batch, one step each. -/
theorem groups_run {batch : List Transaction} {txs : List (ℕ × Transaction)}
    {groups : List (List (ℕ × Transaction))} (hb : s.banking = .processing batch txs groups) :
    ∃ ls t, Run (Step host rpc) s ls t ∧
      ((BankingStage.processGroups host .new txs groups s.state).1 = .ok () →
        t = { s with
          state := (BankingStage.processGroups host .new txs groups s.state).2
          banking := .processing batch txs [] }) ∧
      ((BankingStage.processGroups host .new txs groups s.state).1 ≠ .ok () →
        t = s.afterBatch (BankingStage.processGroups host .new txs groups s.state)) := by
  induction groups generalizing s with
  | nil => exact ⟨[],s,.nil,fun _ => by rw [← hb]; rfl,fun h => absurd rfl h⟩
  | cons group groups ih =>
    rw [BankingStage.processGroups,Exec.bind_run]
    cases hg : BankingStage.processGroup host .new txs group s.state with
    | mk r u =>
      cases r with
      | ok v =>
        have hstep : Step host rpc s (.group (BankingStage.admittedOf .new group s.state))
          { s with state := u, banking := .processing batch txs groups } := .group hb hg
        obtain ⟨ls,t,hr,hok,hother⟩ :=
          @ih { s with state := u, banking := .processing batch txs groups } rfl
        exact ⟨_,t,(Run.single hstep).append hr,hok,fun hn =>
          (hother hn).trans (afterBatch_processing s _ _ _)⟩
      | err e => exact ⟨_,_,.single (.groupError hb hg),(by simp),fun _ => rfl⟩
      | panic => exact ⟨_,_,.single (.panic hb hg),(by simp),fun _ => rfl⟩

/-- A complete batch, if nobody comes in between. Its results are those that it ends with. -/
theorem batch_without_interruption {batch : List Transaction} (hb : s.banking = .collecting batch)
    (hc : s.Complete batch) :
    ∃ ls, Run (Step host rpc) s ls
      (s.afterBatch (BankingStage.processBatch host .new batch s.state)) ∧
      ∀ results, (BankingStage.processBatch host .new batch s.state).1 = .ok results →
        ls.getLast? = some (.finish results) := by
  by_cases hv : ∃ tx ∈ batch, tx.verifySignaturesSync host.ed25519 = .panic
  · have hbatch : BankingStage.processBatch host .new batch s.state =
        (.err .joinError,s.state) := by
      unfold BankingStage.processBatch
      rw [Exec.failIf_true hv]
      rfl
    rw [hbatch]
    exact ⟨_,.single (.joinError hb hc hv),fun _ h => by cases h⟩
  have hnone : ∀ tx ∈ batch, tx.verifySignaturesSync host.ed25519 ≠ .panic :=
    fun tx ht hp => hv ⟨tx,ht,hp⟩
  have hfirst : Step host rpc s (.schedule batch) (s.schedule host batch) := .schedule hb hc hnone
  let txs := BankingStage.txsToSchedule host.ed25519 batch
  obtain ⟨ls,t,hr,hok,hother⟩ : ∃ ls t, Run (Step host rpc) (s.schedule host batch) ls t ∧ _ :=
    groups_run rfl
  have hstate : (s.schedule host batch).state = BankingStage.verified host.ed25519
    batch s.state := rfl
  rw [hstate] at hok hother
  rw [BankingStage.processBatch_eq hv,Exec.bind_run]
  cases hg : BankingStage.processGroups host .new txs (TransactionScheduler.schedule txs)
      (BankingStage.verified host.ed25519 batch s.state) with
  | mk r u =>
    rw [hg] at hok hother
    cases r with
    | ok v =>
      obtain rfl := hok rfl
      have hlast := (Run.single hfirst).append hr |>.snoc (.finish rfl)
      exact ⟨_,hlast,fun results hres => by cases hres; exact List.getLast?_concat⟩
    | err e =>
      obtain rfl := hother (by simp)
      exact ⟨_,(Run.single hfirst).append hr,fun _ h => by cases h⟩
    | panic =>
      obtain rfl := hother (by simp)
      exact ⟨_,(Run.single hfirst).append hr,fun _ h => by cases h⟩

theorem faucetPayment_without_interruption : ∃ ls,
    Run (Step default default) collectedNode ls
        (collectedNode.afterBatch
          (BankingStage.processBatch default .new [faucetPayment] collectedNode.state)) ∧
      ∀ results, (BankingStage.processBatch default .new [faucetPayment] collectedNode.state).1 =
        .ok results →
        ls.getLast? = some (.finish results) :=
  batch_without_interruption rfl ⟨by simp,.inl rfl⟩

end Node

end TinySolana
