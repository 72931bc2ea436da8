import TinySolana.BatchSteps
import TinySolana.Foundations.Simulation
import TinySolana.ScheduleOrder

/-!
# Batches under renaming

The positions of the transactions of a batch are names: a batch whose transactions stand at other
positions is processed alike, with the same results, commits and queue up to these positions.
-/

namespace TinySolana
open Foundations Exec

/-- A transaction at another position. -/
def renameTx (f : ℕ → ℕ) (tx : ℕ × Transaction) : ℕ × Transaction := (f tx.1,tx.2)

def BatchEvent.rename (f : ℕ → ℕ) : BatchEvent → BatchEvent
  | recorded indices => recorded (indices.map f)
  | flushed index overlay => flushed (f index) overlay
  | requeued index transaction => requeued (f index) transaction

/-- The first state is the second one with its positions renamed. It may have results at other
positions. -/
structure Renames (f : ℕ → ℕ) (s t : BatchState) : Prop where
  stage : s.stage = t.stage
  bank : s.bank = t.bank
  programCache : s.programCache = t.programCache
  results : ∀ i, s.finalResults[f i]? = t.finalResults[i]?
  log : s.log = t.log.map (BatchEvent.rename f)

namespace BankingStage

variable {f : ℕ → ℕ} {s t : BatchState}

def Admitted.rename (f : ℕ → ℕ) (m : Admitted) : Admitted :=
  { m with originalIndex := f m.originalIndex }

def TransactionProcessResult.rename (f : ℕ → ℕ) (r : TransactionProcessResult) :
    TransactionProcessResult := { r with member := r.member.rename f }

theorem onTracker_simulates {ε : Type} {α : Type} (x : Exec CostTracker ε α) :
    Simulates (Renames f) id (onTracker x) (onTracker x) := by
  refine Simulates.zoom (fun s t h => by rw [h.stage]) (fun s t p h => ?_) x
  exact ⟨by rw [h.stage],h.bank,h.programCache,h.results,h.log⟩

theorem onLocks_simulates {ε : Type} {α : Type} (x : Exec AccountLockState ε α) :
    Simulates (Renames f) id (onLocks x) (onLocks x) := by
  refine Simulates.zoom (fun s t h => by rw [h.stage]) (fun s t p h => ?_) x
  exact ⟨by rw [h.stage],h.bank,h.programCache,h.results,h.log⟩

theorem onRecords_simulates {ε : Type} {α : Type} (x : Exec (Channel PohRecord) ε α) :
    Simulates (Renames f) id (onRecords x) (onRecords x) := by
  refine Simulates.zoom (fun s t h => by rw [h.stage]) (fun s t p h => ?_) x
  exact ⟨by rw [h.stage],h.bank,h.programCache,h.results,h.log⟩

theorem onCache_simulates {ε : Type} {α : Type} (x : Exec ProgramCache ε α) :
    Simulates (Renames f) id (onCache x) (onCache x) := by
  refine Simulates.zoom (fun s t h => h.programCache) (fun s t p h => ?_) x
  exact ⟨h.stage,h.bank,rfl,h.results,h.log⟩

theorem logRecorded_simulates (indices : List ℕ) : Simulates (Renames f) id
    (logEvents [.recorded (indices.map f)]) (logEvents [.recorded indices]) := by
  refine Simulates.modify fun s t h => ⟨h.stage,h.bank,h.programCache,h.results,?_⟩
  change s.log ++ _ = (t.log ++ _).map _
  rw [h.log,List.map_append]
  rfl

theorem setResult_simulates (hf : f.Injective) (i : ℕ) (e : TransactionError) :
    Simulates (Renames f) id (setResult (f i) e) (setResult i e) := by
  refine Simulates.modify fun s t h => ⟨h.stage,h.bank,h.programCache,fun j => ?_,h.log⟩
  by_cases hj : i = j
  · subst hj
    rw [List.getElem?_set_self',List.getElem?_set_self',h.results]
  · rw [List.getElem?_set_ne (fun he => hj (hf he)),List.getElem?_set_ne hj,h.results]

theorem requeue_simulates (i : ℕ) (tx : Transaction) :
    Simulates (Renames f) id (requeueTransaction (f i) tx) (requeueTransaction i tx) := by
  refine Simulates.modify fun s t h => ?_
  rw [h.stage]
  cases t.stage.txSender.send tx with
  | none => exact h
  | some c =>
    refine ⟨rfl,h.bank,h.programCache,h.results,?_⟩
    change s.log ++ _ = (t.log ++ _).map _
    rw [h.log,List.map_append]
    rfl

theorem recordMetrics_simulates (ok : Bool) :
    Simulates (Renames f) id (recordMetrics ok) (recordMetrics ok) :=
  Simulates.modify fun s t h => ⟨h.stage,by rw [h.bank],h.programCache,h.results,h.log⟩

theorem acquireFreezeLock_simulates :
    Simulates (Renames f) id acquireFreezeLock acquireFreezeLock :=
  Simulates.modify fun s t h => ⟨h.stage,by rw [h.bank],h.programCache,h.results,h.log⟩

theorem dropFreezeLock_simulates : Simulates (Renames f) id dropFreezeLock dropFreezeLock :=
  Simulates.modify fun s t h => ⟨h.stage,by rw [h.bank],h.programCache,h.results,h.log⟩

theorem commitGroup_simulates (overlays : List (ℕ × OverlayStore)) : Simulates (Renames f) id
    (commitGroup (overlays.map fun o => (f o.1,o.2))) (commitGroup overlays) := by
  refine Simulates.modify fun s t h => ⟨h.stage,?_,h.programCache,h.results,?_⟩
  · rw [h.bank,List.map_map]
    rfl
  · change s.log ++ _ = (t.log ++ _).map _
    rw [h.log,List.map_append,List.map_map,List.map_map]
    rfl

/-! ## Stages -/

variable {host : Host} {costModel : CostModel}

theorem admitGroup_simulates (hf : f.Injective) (group : List (ℕ × Transaction)) :
    Simulates (Renames f) (List.map (Admitted.rename f))
      (admitGroup costModel (group.map (renameTx f))) (admitGroup costModel group) := by
  induction group with
  | nil => exact .pure _ []
  | cons tx rest ih =>
    refine Simulates.get_bind fun s t h => ?_
    rw [h.stage]
    split
    · exact .bind (onTracker_simulates _) fun _ => .bind ih fun admitted =>
        .pure (List.map (Admitted.rename f)) (⟨tx.1,tx.2,costModel.calculateCost tx.2⟩ :: admitted)
    · exact .bind (setResult_simulates hf _ _) fun _ => ih

theorem find_renamed (hf : f.Injective) (txs : List (ℕ × Transaction)) (i : ℕ) :
    (txs.map (renameTx f)).find? (fun tx => tx.1 = f i) =
      (txs.find? fun tx => tx.1 = i).map (renameTx f) := by
  rw [List.find?_map]
  congr 2
  funext tx
  simp [renameTx,hf.eq_iff]

theorem rollBackGroup_simulates (hf : f.Injective) (txs : List (ℕ × Transaction))
    (admitted : List Admitted) : Simulates (Renames f) id
      (rollBackGroup (txs.map (renameTx f)) (admitted.map (Admitted.rename f)))
      (rollBackGroup txs admitted) := by
  induction admitted with
  | nil => exact .pure id ()
  | cons member rest ih =>
    have hfind : (txs.map (renameTx f)).find? (fun tx => tx.1 = (member.rename f).originalIndex) =
        (txs.find? fun tx => tx.1 = member.originalIndex).map (renameTx f) := find_renamed hf txs _
    rw [List.map_cons,rollBackGroup,rollBackGroup,hfind]
    refine .bind (onTracker_simulates _) fun _ => .bind (setResult_simulates hf _ _) fun _ => ?_
    cases txs.find? fun tx => tx.1 = member.originalIndex with
    | none => exact .bind (g := id) .abort fun _ => ih
    | some tx => exact .bind (requeue_simulates member.originalIndex tx.2) fun _ => ih

theorem executeGroup_simulates (admitted : List Admitted) :
    Simulates (Renames f) (List.map (TransactionProcessResult.rename f))
      (executeGroup host (admitted.map (Admitted.rename f))) (executeGroup host admitted) := by
  induction admitted with
  | nil => exact .pure _ []
  | cons member rest ih =>
    refine Simulates.get_bind fun s t h => ?_
    rw [h.bank]
    refine .bind (Simulates.attempt (onCache_simulates _)) fun r => .bind ih fun results => ?_
    have hr : Except.map id r = r := by cases r <;> rfl
    rw [hr]
    exact .pure (List.map (TransactionProcessResult.rename f)) (⟨member,r⟩ :: results)

theorem settleGroup_simulates (hf : f.Injective) (results : List TransactionProcessResult) :
    Simulates (Renames f) (List.map fun o => (f o.1,o.2))
      (settleGroup (results.map (TransactionProcessResult.rename f))) (settleGroup results) := by
  induction results with
  | nil => exact .pure _ []
  | cons result rest ih =>
    obtain ⟨member,r⟩ := result
    refine .bind (recordMetrics_simulates _) fun _ => ?_
    cases r with
    | ok overlay =>
      exact .bind ih fun overlays =>
        .pure (List.map fun o => (f o.1,o.2)) ((member.originalIndex,overlay) :: overlays)
    | error e =>
      refine .bind (onTracker_simulates _) fun _ => ?_
      change Simulates _ _ (if e.isRetryable = true then _ else _) _
      split
      · exact .bind (requeue_simulates _ _) fun _ => .bind (setResult_simulates hf _ _) fun _ => ih
      · exact .bind (setResult_simulates hf _ _) fun _ => ih

/-! ## Groups -/

/-- Names are not recorded. -/
theorem recordTransactions_rename (sha256 : List UInt8 → Hash) (txs : List (ℕ × Transaction)) :
    recordTransactions sha256 (txs.map (renameTx f)) = recordTransactions sha256 txs := by
  have hp : (∃ tx ∈ txs.map (renameTx f), tx.2.signatures = []) ↔ ∃ tx ∈ txs,
      tx.2.signatures = [] := by
    simp only [List.mem_map,exists_exists_and_eq_and]
    rfl
  unfold recordTransactions
  rw [panicIf_congr hp]
  simp only [List.map_eq_nil_iff,List.flatMap_map]
  rfl

/-- Names are not locked. -/
theorem tryLock_rename (txs : List (ℕ × Transaction)) :
    AccountLocks.tryLockAccountsForGroup (txs.map (renameTx f)) =
      AccountLocks.tryLockAccountsForGroup txs := by
  have hkeys : ∀ w, AccountLocks.keysToLock w (txs.map (renameTx f)) =
      AccountLocks.keysToLock w txs := by
    intro w
    rw [AccountLocks.keysToLock,List.flatMap_map]
    rfl
  unfold AccountLocks.tryLockAccountsForGroup
  rw [hkeys true,hkeys false]

theorem groupTxs_rename (admitted : List Admitted) :
    ((admitted.map (Admitted.rename f)).map fun m => (m.originalIndex,m.transaction)) =
      (admitted.map fun m => (m.originalIndex,m.transaction)).map (renameTx f) := by
  rw [List.map_map,List.map_map]
  rfl

theorem runGroup_simulates (hf : f.Injective) (admitted : List Admitted) : Simulates (Renames f) id
    (runGroup host (admitted.map (Admitted.rename f))) (runGroup host admitted) := by
  have hidx : (admitted.map (Admitted.rename f)).map Admitted.originalIndex =
      (admitted.map Admitted.originalIndex).map f := by
    rw [List.map_map,List.map_map]
    rfl
  unfold runGroup
  refine .bind (executeGroup_simulates admitted) fun results => ?_
  dsimp only
  rw [groupTxs_rename,recordTransactions_rename,hidx]
  exact .bind (Simulates.mapErr (onRecords_simulates _)) fun _ =>
    .bind (logRecorded_simulates _) fun _ => .bind (settleGroup_simulates hf results)
      fun overlays =>
    commitGroup_simulates overlays

theorem processGroup_simulates (hf : f.Injective) (txs group : List (ℕ × Transaction)) :
    Simulates (Renames f) id
      (processGroup host costModel (txs.map (renameTx f)) (group.map (renameTx f)))
      (processGroup host costModel txs group) := by
  refine .bind (admitGroup_simulates hf group) fun admitted => ?_
  by_cases hn : admitted = []
  · subst hn
    exact .pure id ()
  · rw [if_neg hn,if_neg (by simpa using hn)]
    dsimp only
    rw [groupTxs_rename,tryLock_rename]
    refine .bind (Simulates.attempt (onLocks_simulates _)) fun locked => ?_
    cases locked with
    | error e => exact rollBackGroup_simulates hf txs admitted
    | ok guard =>
      exact .ensuring (.bind acquireFreezeLock_simulates fun _ =>
        .ensuring (runGroup_simulates hf admitted) dropFreezeLock_simulates) (onLocks_simulates _)

theorem processGroups_simulates (host : Host) (costModel : CostModel) (hf : f.Injective)
    (txs : List (ℕ × Transaction)) (groups : List (List (ℕ × Transaction))) :
      Simulates (Renames f) id
      (processGroups host costModel (txs.map (renameTx f)) (groups.map (List.map (renameTx f))))
      (processGroups host costModel txs groups) := by
  induction groups with
  | nil => exact .pure id ()
  | cons group rest ih => exact .bind (processGroup_simulates hf txs group) fun _ => ih

end BankingStage

/-- The schedule does not depend on the positions. -/
theorem TransactionScheduler.schedule_rename (f : ℕ → ℕ) (txs : List (ℕ × Transaction)) :
    schedule (txs.map (renameTx f)) = (schedule txs).map (List.map (renameTx f)) := by
  rw [schedule_eq_groups,schedule_eq_groups,FirstFit.groups_map]
  rfl

end TinySolana
