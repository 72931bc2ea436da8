import TinySolana.LoneBatches
import TinySolana.PohService
import TinySolana.Rpc

/-!
# The node

`main` connects its tasks by two channels. Handlers of requests send transactions to the banking
task, the banking task sends records to the service that keeps the clock. The tasks take turns in
any order: a request is accepted or queued, a transaction is taken, a group of the batch at hand is
processed, the loop of the service goes round.
-/

namespace TinySolana
open Foundations

/-- What was sent and not taken yet. -/
def Channel.pending {α : Type} (c : Channel α) (taken : ℕ) : List α := c.sent.drop taken

/-- The channel when its receiver is dropped. -/
def Channel.disconnect {α : Type} (c : Channel α) : Channel α := { c with remaining := some 0 }

def lamportsPerSol : UInt64 := 1000000000

def batchSizeLimit : ℕ := 128

/-- The configuration of the clock in `main`. -/
def mainPohConfig : PohConfig where
  hashesPerTick := 8
  ticksPerSlot := 16
  tickRate := 50000000

/-- `init_faucet`. -/
def initFaucet (bank : Bank) (faucetPubkey : Pubkey) : Bank :=
  { bank with accounts := bank.accounts.store faucetPubkey {
    pubkey := faucetPubkey
    lamports := 1000*lamportsPerSol
    data := []
    owner := systemProgramId
    executable := false
    rentEpoch := 0 } }

/-- Where the banking task stands in its loop. -/
inductive BankingTask where
  /-- It has taken this much of a batch. -/
  | collecting (batch : List Transaction)
  /-- It has scheduled a batch and some groups are still to come. -/
  | processing (batch : List Transaction) (txsToSchedule : List (ℕ × Transaction))
      (groups : List (List (ℕ × Transaction)))
  | stopped

/-- The tasks of `main` and what they share. -/
structure Node where
  state : BatchState
  /-- Accepted transactions whose handlers have not sent them yet. -/
  accepted : Multiset Transaction
  /-- How many transactions the banking task has taken. -/
  taken : ℕ
  banking : BankingTask
  /-- The recorder of the service, while it runs. -/
  service : Option PohRecorder
  /-- How many records the service has taken. -/
  takenRecords : ℕ
  exit : Bool

namespace Node

/-- `main` up to its `select`. -/
def start (faucetPubkey : Pubkey) : Node where
  state := { BatchState.new ∅ with bank := initFaucet (.new ∅) faucetPubkey }
  accepted := 0
  taken := 0
  banking := .collecting []
  service := some (.new default mainPohConfig.ticksPerSlot mainPohConfig.hashesPerTick)
  takenRecords := 0
  exit := false

/-- The transactions in the channel to the banking task. -/
def pending (s : Node) : List Transaction := s.state.stage.txSender.pending s.taken

/-- The records in the channel to the service. -/
def pendingRecords (s : Node) : List PohRecord :=
  s.state.stage.pohRecordSender.pending s.takenRecords

/-- What handlers of requests share with the banking task. -/
def rpcState (s : Node) : RpcState := ⟨s.state.bank,s.state.programCache,s.state.stage.txSender⟩

/-- What a handler may find. Overlays are flushed and programs cached while it runs, so that
accounts of different times come together, and nothing is said of the cache. -/
def found (s : Node) (accounts : InMemoryAccountStore) (programCache : ProgramCache) : RpcState :=
  ⟨{ s.state.bank with accounts },programCache,s.state.stage.txSender⟩

/-- A handler leaves the channel and the cache. It stores no account. -/
def setRpcState (s : Node) (r : RpcState) : Node :=
  { s with state := { s.state with
    stage := { s.state.stage with txSender := r.txSender }
    programCache := r.programCache } }

/-- The banking task goes on to another place in its loop. -/
def goTo (s : Node) (task : BankingTask) : Node := { s with banking := task }

/-- The banking task ends, and its receiver of transactions with it. -/
def stopBanking (s : Node) : Node :=
  { s with
    banking := .stopped
    state := { s.state with
      stage := { s.state.stage with txSender := s.state.stage.txSender.disconnect } } }

/-- The service ends, and its receiver of records with it. -/
def stopService (s : Node) : Node :=
  { s with
    service := none
    state := { s.state with
      stage := { s.state.stage with
        pohRecordSender := s.state.stage.pohRecordSender.disconnect } } }

/-- Verification of the batch has returned; it is scheduled. -/
def schedule (host : Host) (s : Node) (batch : List Transaction) : Node :=
  let txsToSchedule := BankingStage.txsToSchedule host.ed25519 batch
  { s with
    state := { s.state with
      finalResults := BankingStage.verificationResults host.ed25519 batch
      log := [] }
    banking := .processing batch txsToSchedule (TransactionScheduler.schedule txsToSchedule) }

/-- The batch is over. -/
def finish (s : Node) : Node :=
  { s with
    state := (BankingStage.onTracker (ε := BatchError) (Exec.modify CostTracker.reset) s.state).2
    banking := .collecting [] }

/-- The batch is complete: there is nothing more to take, or it may not grow. -/
def Complete (s : Node) (batch : List Transaction) : Prop :=
  batch ≠ [] ∧ (s.pending = [] ∨ batchSizeLimit ≤ batch.length)

/-- What `try_recv` answers the service. The sender is gone when the banking task has stopped. -/
def received (s : Node) : Except TryRecvError PohRecord :=
  match s.pendingRecords with
  | record :: _ => .ok record
  | [] => match s.banking with
    | .stopped => .error .disconnected
    | _ => .error .empty

end Node

/-- The entry that a turn of the service makes, which it drops. -/
def PohService.entry (sha256 : List UInt8 → Hash) (received : Except TryRecvError PohRecord)
    (p : PohRecorder) : Option PoHEntry :=
  match received with
  | .ok record => match (PohRecorder.record sha256 record.batchHash p).1 with
    | .ok entry => some entry
    | _ => none
  | .error _ => none

namespace Node

inductive Label where
  /-- A request that is answered without sending a transaction. -/
  | answer (request : JsonRpcRequest)
  /-- A request with a transaction that may be sent. -/
  | accept (tx : Transaction)
  | queue (tx : Transaction)
  /-- An accepted transaction that could not be sent. -/
  | unsent (tx : Transaction)
  | take (tx : Transaction)
  | schedule (batch : List Transaction)
  /-- A batch that is dropped since a verification has panicked. -/
  | joinError (batch : List Transaction)
  /-- A group that was processed, with the members that were admitted. -/
  | group (admitted : List Transaction)
  /-- A group that could not be recorded, which ends its batch. -/
  | groupError
  | finish (results : List (Option TransactionError))
  | panic
  | leave
  | turn (entry : Option PoHEntry)
  | endService
  | exit

/-- One step of one task. A group is processed in one step, with all its entries stored at its end:
what is to be seen in between is left to `FlushingNode`. A handler may have begun before such a
step. -/
inductive Step (host : Host) (rpc : RpcHost) : Node → Label → Node → Prop where
  | answer {s : Node} {request : JsonRpcRequest} {accounts : InMemoryAccountStore}
      {programCache : ProgramCache} {r : Outcome Empty JsonRpcResponse} {t : RpcState} :
      request.method ≠ "sendTransaction" →
      Rpc.handleRpcRequest host rpc request (s.found accounts programCache) = (r,t) →
      Step host rpc s (.answer request) (s.setRpcState t)
  | accept {s : Node} {request : JsonRpcRequest} {accounts : InMemoryAccountStore}
      {programCache : ProgramCache} {tx : Transaction} {t : RpcState} :
      request.method = "sendTransaction" →
      Rpc.acceptTransaction host rpc request.params (s.found accounts programCache) = (.ok tx,t) →
      Step host rpc s (.accept tx) { s.setRpcState t with accepted := tx ::ₘ s.accepted }
  | refuse {s : Node} {request : JsonRpcRequest} {accounts : InMemoryAccountStore}
      {programCache : ProgramCache} {r : Outcome RpcError Transaction} {t : RpcState} :
      request.method = "sendTransaction" →
      Rpc.acceptTransaction host rpc request.params (s.found accounts programCache) = (r,t) →
      (∀ tx, r ≠ .ok tx) → Step host rpc s (.answer request) (s.setRpcState t)
  | queue {s : Node} {tx : Transaction} {rest : Multiset Transaction} {v : Json} {t : RpcState} :
      s.accepted = tx ::ₘ rest → Rpc.queueTransaction rpc tx s.rpcState = (.ok v,t) →
      Step host rpc s (.queue tx) { s.setRpcState t with accepted := rest }
  | unsent {s : Node} {tx : Transaction} {rest : Multiset Transaction} {e : RpcError}
      {t : RpcState} :
      s.accepted = tx ::ₘ rest → Rpc.queueTransaction rpc tx s.rpcState = (.err e,t) →
      Step host rpc s (.unsent tx) { s.setRpcState t with accepted := rest }
  | take {s : Node} {batch : List Transaction} {tx : Transaction} {rest : List Transaction} :
      s.banking = .collecting batch → batch.length < batchSizeLimit → s.pending = tx :: rest →
      Step host rpc s (.take tx)
        { s with taken := s.taken+1, banking := .collecting (batch ++ [tx]) }
  | schedule {s : Node} {batch : List Transaction} :
      s.banking = .collecting batch → s.Complete batch →
      (∀ tx ∈ batch, tx.verifySignaturesSync host.ed25519 ≠ .panic) →
      Step host rpc s (.schedule batch) (s.schedule host batch)
  | joinError {s : Node} {batch : List Transaction} :
      s.banking = .collecting batch → s.Complete batch →
      (∃ tx ∈ batch, tx.verifySignaturesSync host.ed25519 = .panic) →
      Step host rpc s (.joinError batch) (s.goTo (.collecting []))
  | group {s : Node} {batch : List Transaction} {txs group : List (ℕ × Transaction)}
      {groups : List (List (ℕ × Transaction))} {t : BatchState} :
      s.banking = .processing batch txs (group :: groups) →
      BankingStage.processGroup host .new txs group s.state = (.ok (),t) →
      Step host rpc s (.group (BankingStage.admittedOf .new group s.state))
        { s with state := t, banking := .processing batch txs groups }
  | groupError {s : Node} {batch : List Transaction} {txs group : List (ℕ × Transaction)}
      {groups : List (List (ℕ × Transaction))} {e : BatchError} {t : BatchState} :
      s.banking = .processing batch txs (group :: groups) →
      BankingStage.processGroup host .new txs group s.state = (.err e,t) →
      Step host rpc s .groupError { s with state := t, banking := .collecting [] }
  | panic {s : Node} {batch : List Transaction} {txs group : List (ℕ × Transaction)}
      {groups : List (List (ℕ × Transaction))} {t : BatchState} :
      s.banking = .processing batch txs (group :: groups) →
      BankingStage.processGroup host .new txs group s.state = (.panic,t) →
      Step host rpc s .panic { s with state := t }.stopBanking
  | finish {s : Node} {batch : List Transaction} {txs : List (ℕ × Transaction)} :
      s.banking = .processing batch txs [] →
      Step host rpc s (.finish s.state.finalResults) s.finish
  | leave {s : Node} : s.exit = true → s.banking = .collecting [] →
      Step host rpc s .leave s.stopBanking
  | turn {s : Node} {p p' : PohRecorder} :
      s.service = some p → PohService.iterate host.sha256 s.received p = (.ok true,p') →
      Step host rpc s (.turn (PohService.entry host.sha256 s.received p)) { s with
        service := some p'
        takenRecords := s.takenRecords+s.received.toOption.toList.length }
  | endService {s : Node} {p p' : PohRecorder} {r : Outcome PohError Bool} :
      s.service = some p → PohService.iterate host.sha256 s.received p = (r,p') → r ≠ .ok true →
      Step host rpc s .endService s.stopService
  | leaveService {s : Node} {p : PohRecorder} : s.exit = true → s.service = some p →
      Step host rpc s .endService s.stopService
  | exit {s : Node} : Step host rpc s .exit { s with exit := true }

end Node

end TinySolana
