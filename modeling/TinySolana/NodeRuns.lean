import TinySolana.Client
import TinySolana.Node

/-!
# Runs of the node

Between two steps no account is locked and the counters of the banking stage are in their ranges.
Where the banking task is left to itself it processes a batch as `process_batch` does, and a handler
that is left to itself sends a transaction as `handle_send_transaction` does.
-/

namespace TinySolana
open Foundations

/-- What is left of a batch is the end of its schedule. -/
def BankingTask.Scheduled (host : Host) : BankingTask → Prop
  | processing batch txs groups => txs = BankingStage.txsToSchedule host.ed25519 batch ∧
    groups <:+ TransactionScheduler.schedule txs
  | _ => True

/-- Nothing of the stage depends on who can still be reached through its channels. -/
theorem StageSound.channels {stage : BankingStage} {costs : Multiset TransactionCost}
    (h : StageSound stage costs) (txSender : Channel Transaction)
    (pohRecordSender : Channel PohRecord) :
    StageSound { stage with txSender, pohRecordSender } costs :=
  ⟨h.tallied,h.limited,h.counted⟩

namespace Node

variable {host : Host} {rpc : RpcHost} {faucetPubkey : Pubkey} {s t : Node} {l : Label}
  {ls : List Label}

structure Sound (host : Host) (s : Node) : Prop where
  accountLocks : s.state.stage.accountLocks = AccountLocks.new
  stage : ∃ costs, StageSound s.state.stage costs
  freezeLockCount : s.state.bank.freezeLockCount = 0
  scheduled : s.banking.Scheduled host

theorem sound_start (host : Host) (faucetPubkey : Pubkey) : (start faucetPubkey).Sound host where
  accountLocks := rfl
  stage := ⟨0,CostTracker.new_tallies _ _,(by decide : maxBlockUnits < maxU64),fun _ => 0,
    FiniteMap.counts_zero.mpr rfl⟩
  freezeLockCount := rfl
  scheduled := trivial

/-- Handlers of requests leave everything of the bank and the stage but the channel. -/
theorem Sound.setRpcState (h : s.Sound host) (r : RpcState) (accepted : Multiset Transaction) :
    ({ s.setRpcState r with accepted } : Node).Sound host where
  accountLocks := h.accountLocks
  stage := h.stage.imp fun _ hc => hc.channels _ _
  freezeLockCount := h.freezeLockCount
  scheduled := h.scheduled

theorem Sound.stopBanking (h : s.Sound host) : s.stopBanking.Sound host where
  accountLocks := h.accountLocks
  stage := h.stage.imp fun _ hc => hc.channels _ _
  freezeLockCount := h.freezeLockCount
  scheduled := trivial

theorem Sound.stopService (h : s.Sound host) : s.stopService.Sound host where
  accountLocks := h.accountLocks
  stage := h.stage.imp fun _ hc => hc.channels _ _
  freezeLockCount := h.freezeLockCount
  scheduled := h.scheduled

/-- The members of the next group stand in the batch. -/
theorem Sound.group (h : s.Sound host) {batch : List Transaction}
    {txs group : List (ℕ × Transaction)} {groups : List (List (ℕ × Transaction))}
    (hb : s.banking = .processing batch txs (group :: groups)) :
    group ∈ TransactionScheduler.schedule txs ∧ ∀ tx ∈ group, tx ∈ txs ∧
      batch[tx.1]? = some tx.2 := by
  have hsched := h.scheduled
  rw [hb] at hsched
  obtain ⟨rfl,hsuffix⟩ := hsched
  have hg := hsuffix.subset List.mem_cons_self
  refine ⟨hg,fun tx ht => ?_⟩
  have htxs := BankingStage.schedule_mem.mp (List.mem_flatten.mpr ⟨group,hg,ht⟩)
  exact ⟨htxs,(BankingStage.mem_txsToSchedule.mp htxs).1⟩

/-- What a group does, however it ends, from a state between two steps. -/
theorem Sound.alone (h : s.Sound host) {batch : List Transaction}
    {txs group : List (ℕ × Transaction)} {groups : List (List (ℕ × Transaction))}
    (hb : s.banking = .processing batch txs (group :: groups)) :
    BankingStage.RunsAlone host.sha256 (BankingStage.admittedOf .new group s.state) s.state
      (BankingStage.processGroup host .new txs group s.state).1
      (BankingStage.processGroup host .new txs group s.state).2 := by
  obtain ⟨costs,hstage⟩ := h.stage
  exact BankingStage.processGroup_alone h.accountLocks hstage fun tx ht => ((h.group hb).2 tx ht).2

/-- The banking task may go on anywhere behind a group. -/
theorem Sound.processed (h : s.Sound host) {batch : List Transaction}
    {txs group : List (ℕ × Transaction)} {groups : List (List (ℕ × Transaction))}
    {r : Outcome BatchError Unit} {t : BatchState}
    (hb : s.banking = .processing batch txs (group :: groups))
    (hr : BankingStage.processGroup host .new txs group s.state = (r,t)) {task : BankingTask}
    (ht : task.Scheduled host) : ({ s with state := t, banking := task } : Node).Sound host := by
  have halone := h.alone hb
  obtain ⟨costs,hstage⟩ := h.stage
  obtain ⟨⟨left,hleft⟩,-⟩ := BankingStage.processGroup_run host .new batch hstage
    (fun tx hg => List.mem_map_of_mem ((h.group hb).2 tx hg).1)
    (fun tx hg => ((h.group hb).2 tx hg).2)
  rw [hr] at halone hleft
  exact ⟨halone.accountLocks.trans h.accountLocks,⟨left,hleft.sound⟩,
    halone.freezeLockCount.trans h.freezeLockCount,ht⟩

theorem sound_step (h : s.Sound host) (hl : Step host rpc s l t) : t.Sound host := by
  cases hl with
  | answer hm hr => exact h.setRpcState _ s.accepted
  | accept hm hr => exact h.setRpcState _ _
  | refuse hm hr hn => exact h.setRpcState _ s.accepted
  | queue ha hr => exact h.setRpcState _ _
  | unsent ha hr => exact h.setRpcState _ _
  | take hb hn hp => exact ⟨h.accountLocks,h.stage,h.freezeLockCount,trivial⟩
  | schedule hb hc hv =>
    obtain ⟨costs,hstage⟩ := h.stage
    exact ⟨h.accountLocks,⟨costs,hstage.tallied,hstage.limited,hstage.counted⟩,
      h.freezeLockCount,rfl,List.suffix_rfl⟩
  | joinError hb hc hv => exact ⟨h.accountLocks,h.stage,h.freezeLockCount,trivial⟩
  | group hb hr =>
    refine h.processed hb hr ?_
    have hsched := h.scheduled
    rw [hb] at hsched
    exact ⟨hsched.1,(List.suffix_cons _ _).trans hsched.2⟩
  | groupError hb hr => exact h.processed hb hr trivial
  | panic hb hr =>
    have hs : ({ s with state := _, banking := .collecting [] } : Node).Sound host :=
      h.processed hb hr trivial
    exact hs.stopBanking
  | finish hb =>
    obtain ⟨costs,hstage⟩ := h.stage
    exact ⟨h.accountLocks,⟨0,CostTracker.reset_tallies _,hstage.limited,hstage.counted⟩,
      h.freezeLockCount,trivial⟩
  | leave he hb => exact h.stopBanking
  | turn hs hr => exact ⟨h.accountLocks,h.stage,h.freezeLockCount,h.scheduled⟩
  | endService hs hr hn => exact h.stopService
  | leaveService he hs => exact h.stopService
  | exit => exact ⟨h.accountLocks,h.stage,h.freezeLockCount,h.scheduled⟩

theorem sound_run (hr : Run (Step host rpc) (start faucetPubkey) ls s) : s.Sound host :=
  hr.invariant (fun _ _ _ h hl => sound_step h hl) (sound_start host faucetPubkey)

/-! ## Submitting a transaction -/

/-- The transaction comes to the end of the queue of the banking task. -/
def submitted (s : Node) (tx : Transaction) : Node :=
  { s with state := { s.state with stage := { s.state.stage with
      txSender := ⟨s.state.stage.txSender.sent ++ [tx],none⟩ } } }

/-- A request is accepted, and the transaction is sent right away. -/
theorem submit_run {tx : Transaction} {params : Json}
    (ha : Rpc.acceptTransaction host rpc params s.rpcState = (.ok tx,s.rpcState))
    (hc : Connected s.state) : Run (Step host rpc) s [.accept tx,.queue tx] (s.submitted tx) := by
  have hfirst : Step host rpc s (.accept tx) { s with accepted := tx ::ₘ s.accepted } :=
    @Step.accept host rpc s ⟨"2.0","sendTransaction",params,.ofU64 1⟩ s.state.bank.accounts
      s.state.programCache tx s.rpcState rfl ha
  have hsend : s.rpcState.txSender.send tx = some (s.submitted tx).rpcState.txSender :=
    BankingStage.send_connected hc tx
  have hqueue : Rpc.queueTransaction rpc tx s.rpcState =
      (.ok (.string (Rpc.signatureText rpc tx)),(s.submitted tx).rpcState) :=
    Rpc.queueTransaction_ok.mpr ⟨rfl,_,hsend,rfl⟩
  have hsecond : Step host rpc { s with accepted := tx ::ₘ s.accepted } (.queue tx)
    (s.submitted tx) :=
    @Step.queue host rpc { s with accepted := tx ::ₘ s.accepted } tx s.accepted _ _ rfl hqueue
  exact (Run.single hfirst).snoc hsecond

/-! ### A transfer of the faucet -/

/-- Signatures of zeros, which the default host takes. -/
def blankSigner : Signer := ⟨fun key => .ofByte (key.headD 0),fun _ _ => blankSignature⟩

def keypairOf (n : UInt8) : Keypair := ⟨List.replicate 32 n,List.length_replicate⟩

/-- Three lamports to the second wallet. -/
def faucetPayment : Transaction :=
  Client.createTransferTransaction blankSigner (keypairOf 1) (.ofByte 2) 3 default

/-- It is submitted and processed. -/
def paidLabels : List Label :=
  [.accept faucetPayment,.queue faucetPayment,.take faucetPayment,.schedule [faucetPayment],
    .group [faucetPayment]]

/-- The transfer is in the queue. -/
def queuedNode : Node := (start (.ofByte 1)).submitted faucetPayment

/-- The banking task has taken it. -/
def collectedNode : Node := { queuedNode with taken := 1, banking := .collecting [faucetPayment] }

/-- Its group was processed. -/
def processedNode : Node :=
  { collectedNode with
    state := (BankingStage.processGroup default .new [(0,faucetPayment)] [(0,faucetPayment)]
      (collectedNode.schedule default [faucetPayment]).state).2
    banking := .processing [faucetPayment] [(0,faucetPayment)] [] }

theorem faucetPayment_lengths : faucetPayment.UsizeLengths :=
  ⟨by decide,by decide,by decide,List.forall_mem_singleton.mpr ⟨by decide,by decide⟩⟩

theorem queued_run :
    Run (Step default default) (start (.ofByte 1)) [.accept faucetPayment,.queue faucetPayment]
      queuedNode :=
  submit_run (Rpc.acceptTransaction_unsimulated faucetPayment_lengths) rfl

theorem take_faucetPayment : Step default default queuedNode (.take faucetPayment) collectedNode :=
  @Step.take default default queuedNode [] faucetPayment [] rfl (by decide) rfl

/-- Its batch is scheduled. -/
def scheduledNode : Node := collectedNode.schedule default [faucetPayment]

theorem scheduled_run : Run (Step default default) (start (.ofByte 1))
    [.accept faucetPayment,.queue faucetPayment,.take faucetPayment,.schedule [faucetPayment]]
      scheduledNode := by
  have hschedule : Step default default collectedNode (.schedule [faucetPayment]) scheduledNode :=
    .schedule rfl ⟨by simp,.inl rfl⟩ (by decide)
  exact (queued_run.snoc take_faucetPayment).snoc hschedule

theorem group_faucetPayment : Step default default scheduledNode (.group [faucetPayment])
    processedNode := by
  have htxs : BankingStage.txsToSchedule (default : Host).ed25519 [faucetPayment] =
      [(0,faucetPayment)] := by
    decide +kernel
  have hgroups : TransactionScheduler.schedule [(0,faucetPayment)] = [[(0,faucetPayment)]] := by
    decide +kernel
  have hb : scheduledNode.banking = .processing [faucetPayment] [(0,faucetPayment)]
      [[(0,faucetPayment)]] := by
    rw [scheduledNode,schedule,htxs,hgroups]
  have hok : (BankingStage.processGroup default .new [(0,faucetPayment)] [(0,faucetPayment)]
      scheduledNode.state).1 = .ok () := by decide +kernel
  have hadmitted : BankingStage.admittedOf .new [(0,faucetPayment)] scheduledNode.state =
      [faucetPayment] := by decide +kernel
  have hgroup : Step default default scheduledNode
      (.group (BankingStage.admittedOf .new [(0,faucetPayment)] scheduledNode.state))
        processedNode :=
    .group hb (Exec.run_of_result hok)
  rwa [hadmitted] at hgroup

theorem processed_run : Run (Step default default) (start (.ofByte 1)) paidLabels processedNode :=
  scheduled_run.snoc group_faucetPayment

theorem finished_run :
    Run (Step default default) (start (.ofByte 1)) (paidLabels ++ [.finish [none]])
      processedNode.finish := by
  have hresults : processedNode.state.finalResults = [none] := by decide +kernel
  exact hresults ▸ processed_run.snoc (.finish rfl)

end Node

end TinySolana
