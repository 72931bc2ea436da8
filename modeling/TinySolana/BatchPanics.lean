import TinySolana.BatchAccounting
import TinySolana.CostLedger
import TinySolana.Foundations.Runs
import TinySolana.LockAccounting

/-!
# Panics of a batch

While the tracker is a tally and every key in the lock table is counted, admission, settling and the
release of locks do not panic. What is left is the record of a group, which panics when a member has
no signature, and the processing of the members.
-/

namespace TinySolana
open Foundations Exec

/-- No counter of the stage can leave its range. -/
structure StageSound (stage : BankingStage) (costs : Multiset TransactionCost) : Prop where
  tallied : stage.costTracker.Tallies costs
  limited : stage.costTracker.blockCostLimit < maxU64
  counted : ∃ readers, stage.accountLocks.readLocks.Counts readers

/-! ## What is committed -/

/-- What the transaction costs whose overlay an event flushes. -/
def BatchEvent.cost (costModel : CostModel) (transactions : List Transaction) : BatchEvent → ℕ
  | flushed i _ => (transactions[i]?).elim 0 fun tx => (costModel.calculateCost tx).sum.toNat
  | _ => 0

/-- What the transactions cost that were committed by the log of their batch. -/
def committedCost (costModel : CostModel) (transactions : List Transaction)
    (log : List BatchEvent) : ℕ :=
  (log.map (BatchEvent.cost costModel transactions)).sum

/-- What some scheduled transactions cost. -/
def groupCost (costModel : CostModel) (group : List (ℕ × Transaction)) : ℕ :=
  (group.map fun tx => (costModel.calculateCost tx.2).sum.toNat).sum

theorem committedCost_append (costModel : CostModel) (transactions : List Transaction)
    (log log' : List BatchEvent) : committedCost costModel transactions (log ++ log') =
      committedCost costModel transactions log+committedCost costModel transactions log' := by
  rw [committedCost,List.map_append,List.sum_append]
  rfl

theorem groupCost_append (costModel : CostModel) (group rest : List (ℕ × Transaction)) :
    groupCost costModel (group ++ rest) = groupCost costModel group+groupCost costModel rest := by
  rw [groupCost,List.map_append,List.sum_append]
  rfl

/-- Nothing was committed in between and the block has the same limit. -/
structure Uncommitted (costModel : CostModel) (transactions : List Transaction)
    (s t : BatchState) : Prop where
  limit : t.stage.costTracker.blockCostLimit = s.stage.costTracker.blockCostLimit
  committed : committedCost costModel transactions t.log =
    committedCost costModel transactions s.log

theorem Uncommitted.trans {costModel : CostModel} {transactions : List Transaction}
    {s t u : BatchState} (h : Uncommitted costModel transactions s t)
    (h' : Uncommitted costModel transactions t u) :
    Uncommitted costModel transactions s u :=
  ⟨h'.limit.trans h.limit,h'.committed.trans h.committed⟩

/-- The stage has stayed sound. What was committed in between is charged on top of the costs before,
and it comes to no more than `bound`. -/
structure Charges (costModel : CostModel) (transactions : List Transaction)
    (costs : Multiset TransactionCost) (bound : ℕ) (s t : BatchState)
    (left : Multiset TransactionCost) : Prop where
  sound : StageSound t.stage left
  limit : t.stage.costTracker.blockCostLimit = s.stage.costTracker.blockCostLimit
  charged : CostTracker.charged costs+committedCost costModel transactions t.log ≤
    CostTracker.charged left+committedCost costModel transactions s.log
  bounded : committedCost costModel transactions t.log ≤
    committedCost costModel transactions s.log+bound

section charges

variable {costModel : CostModel} {transactions : List Transaction} {s t u : BatchState}
  {costs left left' : Multiset TransactionCost} {m n : ℕ}

theorem Uncommitted.charges (h : Uncommitted costModel transactions s t)
    (hs : StageSound t.stage left) (hle : CostTracker.charged costs ≤ CostTracker.charged left) :
    Charges costModel transactions costs n s t left := by
  refine ⟨hs,h.limit,?_,?_⟩ <;> rw [h.committed] <;> omega

theorem Charges.trans (h : Charges costModel transactions costs m s t left)
    (h' : Charges costModel transactions left n t u left') :
    Charges costModel transactions costs (m+n) s u left' := by
  have hc := h.charged
  have hc' := h'.charged
  have hb := h.bounded
  have hb' := h'.bounded
  exact ⟨h'.sound,h'.limit.trans h.limit,by omega,by omega⟩

theorem Uncommitted.trans_charges (h : Uncommitted costModel transactions s t)
    (h' : Charges costModel transactions costs n t u left) :
      Charges costModel transactions costs n s u left :=
  ⟨h'.sound,h'.limit.trans h.limit,h.committed ▸ h'.charged,h.committed ▸ h'.bounded⟩

theorem Charges.widen (h : Charges costModel transactions costs m s t left) (hmn : m ≤ n) :
    Charges costModel transactions costs n s t left :=
  ⟨h.sound,h.limit,h.charged,h.bounded.trans (Nat.add_le_add_left hmn _)⟩

end charges

/-! ## Locks -/

namespace AccountLocks

/-- No reader is released that is not counted. -/
theorem releaseReads_counted {ε : Type} {l : AccountLockState} {c : Pubkey → ℕ} (keys : List Pubkey)
    (hc : l.readLocks.Counts c) : ∃ l' c', (releaseReads keys : Exec _ ε Unit) l = (.ok (),l') ∧
      l'.readLocks.Counts c' := by
  induction keys generalizing l c with
  | nil => exact ⟨l,c,rfl,hc⟩
  | cons key rest ih =>
    by_cases hk : c key = 0
    · have hnone : l.readLocks.lookup key = none := by rw [hc key,if_pos hk]
      have hrun : (releaseRead key : Exec _ ε Unit) l = (.ok (),l) := by
        rw [releaseRead,Exec.get_bind,hnone]
        rfl
      rw [releaseReads,Exec.bind_of_ok hrun]
      exact ih hc
    · obtain ⟨t,hrun,-,ht⟩ := releaseRead_run (ε := ε) hc (Nat.pos_of_ne_zero hk)
      rw [releaseReads,Exec.bind_of_ok hrun]
      exact ih ht

theorem drop_counted {ε : Type} {l : AccountLockState} {c : Pubkey → ℕ} (guard : LockGuard)
    (hc : l.readLocks.Counts c) : ∃ l' c', (guard.drop : Exec _ ε Unit) l = (.ok (),l') ∧
      l'.readLocks.Counts c' := by
  unfold LockGuard.drop
  split
  · exact ⟨l,c,rfl,hc⟩
  · rw [Exec.modify_bind]
    exact releaseReads_counted _ (by rwa [releaseWrites_readLocks])

/-- A call that finds no account in use returns a guard. -/
theorem tryLock_counted {group : List (ℕ × Transaction)} {l : AccountLockState} {c : Pubkey → ℕ}
    (hc : l.readLocks.Counts c) (hu : ¬InUse group l) : ∃ guard l' c',
      tryLockAccountsForGroup group l = (.ok guard,l') ∧ l'.readLocks.Counts c' := by
  have hn : (guardFor group).readLocks.Nodup := BTreeSet.nodup _
  rw [tryLock_run,if_neg hu]
  exact ⟨_,_,_,rfl,acquireReads_counts (by rwa [acquireWrites_readLocks]) hn⟩

end AccountLocks

namespace BankingStage

variable (host : Host) (costModel : CostModel) (transactions : List Transaction) {s : BatchState}
  {costs : Multiset TransactionCost}

/-- The costs of admitted members. -/
def costsOf (admitted : List Admitted) : Multiset TransactionCost := admitted.map Admitted.cost

@[simp] theorem costsOf_nil : costsOf [] = 0 := rfl

@[simp] theorem costsOf_cons (m : Admitted) (admitted : List Admitted) :
    costsOf (m :: admitted) = m.cost ::ₘ costsOf admitted := rfl

/-! ## Charging and settling -/

theorem addCost_run {ε : Type} {cost : TransactionCost} (h : StageSound s.stage costs)
    (hf : (s.stage.costTracker.wouldFit cost).isOk) : ∃ tracker,
      (onTracker (CostTracker.addCost cost) : Exec BatchState ε Unit) s =
        (.ok (),{ s with stage := { s.stage with costTracker := tracker } }) ∧
      StageSound { s.stage with costTracker := tracker } (cost ::ₘ costs) ∧
      tracker.blockCostLimit = s.stage.costTracker.blockCostLimit := by
  obtain ⟨blockCost,entries,hrun,ht⟩ := CostTracker.addCost_tallies (ε := ε) h.tallied h.limited hf
  refine ⟨_,?_,⟨ht,h.limited,h.counted⟩,rfl⟩
  rw [onTracker,Exec.zoom,hrun]

theorem subtractCost_run {ε : Type} {cost : TransactionCost}
    (h : StageSound s.stage (cost ::ₘ costs)) :
    ∃ tracker, (onTracker (CostTracker.subtractCost cost) : Exec BatchState ε Unit) s =
        (.ok (),{ s with stage := { s.stage with costTracker := tracker } }) ∧
      StageSound { s.stage with costTracker := tracker } costs ∧
      tracker.blockCostLimit = s.stage.costTracker.blockCostLimit := by
  obtain ⟨blockCost,entries,hrun,ht⟩ := CostTracker.subtractCost_tallies (ε := ε) h.tallied
  refine ⟨_,?_,⟨ht,h.limited,h.counted⟩,rfl⟩
  rw [onTracker,Exec.zoom,hrun]

theorem requeue_sound (i : ℕ) (tx : Transaction) (h : StageSound s.stage costs) :
    StageSound (requeueTransaction i tx s).2.stage costs := by
  unfold requeueTransaction
  rw [Exec.modify_run]
  cases s.stage.txSender.send tx with
  | none => exact h
  | some c => exact ⟨h.tallied,h.limited,h.counted⟩

variable {transactions} in
theorem requeue_uncommitted (i : ℕ) (tx : Transaction) (s : BatchState) :
    Uncommitted costModel transactions s (requeueTransaction i tx s).2 := by
  unfold requeueTransaction
  rw [Exec.modify_run]
  cases s.stage.txSender.send tx with
  | none => exact ⟨rfl,rfl⟩
  | some c => exact ⟨rfl,by simp [committedCost,BatchEvent.cost]⟩

/-- Only the tracker and results have changed. -/
def OnlyCharged (s t : BatchState) : Prop :=
  t.bank = s.bank ∧ t.programCache = s.programCache ∧ t.stage.accountLocks = s.stage.accountLocks

theorem admitGroup_run (group : List (ℕ × Transaction)) (h : StageSound s.stage costs) :
    ∃ admitted t, admitGroup costModel group s = (.ok admitted,t) ∧
      StageSound t.stage (costsOf admitted+costs) ∧ OnlyCharged s t ∧
      Uncommitted costModel transactions s t ∧
      CostTracker.charged (costsOf admitted) ≤ groupCost costModel group := by
  induction group generalizing s costs with
  | nil => exact ⟨[],s,rfl,by simpa using h,⟨rfl,rfl,rfl⟩,⟨rfl,rfl⟩,le_rfl⟩
  | cons tx rest ih =>
    rw [admitGroup,Exec.get_bind]
    split
    · next hf =>
      obtain ⟨tracker,hrun,hs,hlimit⟩ := addCost_run (ε := BatchError) h hf
      obtain ⟨admitted,t,hrest,ht,hsame,hu,hle⟩ :=
        ih (s := { s with stage := { s.stage with costTracker := tracker } }) hs
      refine ⟨⟨tx.1,tx.2,costModel.calculateCost tx.2⟩ :: admitted,t,?_,?_,hsame,
        ⟨hu.limit.trans hlimit,hu.committed⟩,?_⟩
      · rw [Exec.bind_of_ok hrun,Exec.bind_of_ok hrest]
        rfl
      · rw [costsOf_cons,Multiset.cons_add,← Multiset.add_cons]
        exact ht
      · rw [costsOf_cons,CostTracker.charged_cons,groupCost,List.map_cons,List.sum_cons]
        exact Nat.add_le_add_left hle _
    · next hf =>
      obtain ⟨admitted,t,hrest,ht,hsame,hu,hle⟩ := ih (s := (setResult tx.1
        .wouldExceedMaxBlockCostLimit s).2) h
      refine ⟨admitted,t,hrest,ht,hsame,⟨hu.limit,hu.committed⟩,?_⟩
      rw [groupCost,List.map_cons,List.sum_cons]
      exact hle.trans (Nat.le_add_left _ _)

theorem rollBackGroup_run {txs : List (ℕ × Transaction)} {admitted : List Admitted}
    (hm : ∀ m ∈ admitted, m.originalIndex ∈ txs.map Prod.fst)
    (h : StageSound s.stage (costsOf admitted+costs)) :
    ∃ t, rollBackGroup txs admitted s = (.ok (),t) ∧ StageSound t.stage costs ∧
      Uncommitted costModel transactions s t := by
  induction admitted generalizing s with
  | nil => exact ⟨s,rfl,by simpa using h,rfl,rfl⟩
  | cons member rest ih =>
    obtain ⟨hmem,hm⟩ := List.forall_mem_cons.mp hm
    rw [costsOf_cons,Multiset.cons_add] at h
    obtain ⟨tracker,hrun,hs,hlimit⟩ := subtractCost_run (ε := BatchError) h
    rw [rollBackGroup,Exec.bind_of_ok hrun]
    cases ht : txs.find? fun tx => tx.1 = member.originalIndex with
    | none =>
      -- The lookup cannot fail.
      obtain ⟨tx,htx,he⟩ := List.mem_map.mp hmem
      have hn := List.find?_eq_none.mp ht tx htx
      simp [he] at hn
    | some tx =>
      let marked := (setResult member.originalIndex .accountInUse
        { s with stage := { s.stage with costTracker := tracker } }).2
      have hmarked : Uncommitted costModel transactions s marked := ⟨hlimit,rfl⟩
      obtain ⟨t,hrest,ht,hu⟩ := ih hm (requeue_sound member.originalIndex tx.2 (s := marked) hs)
      exact ⟨t,hrest,ht,(hmarked.trans (requeue_uncommitted costModel _ _ _)).trans hu⟩

/-- The member stands in the batch at its index, and costs what it costs there. -/
def Admitted.From (costModel : CostModel) (transactions : List Transaction) (m : Admitted) : Prop :=
  transactions[m.originalIndex]? = some m.transaction ∧
    m.cost = costModel.calculateCost m.transaction

/-- What stays charged for the members of a group is the costs of those whose overlays are
committed. -/
theorem settleGroup_run {results : List TransactionProcessResult}
    (hm : ∀ r ∈ results, r.member.From costModel transactions)
    (h : StageSound s.stage (costsOf (results.map TransactionProcessResult.member)+costs)) :
    ∃ overlays t left, settleGroup results s = (.ok overlays,t) ∧ StageSound t.stage left ∧
      Uncommitted costModel transactions s t ∧
      CostTracker.charged left = CostTracker.charged costs+
        committedCost costModel transactions (overlays.map fun o => .flushed o.1 o.2) ∧
      committedCost costModel transactions (overlays.map fun o => .flushed o.1 o.2) ≤
        CostTracker.charged (costsOf (results.map TransactionProcessResult.member)) := by
  induction results generalizing s costs with
  | nil => exact ⟨[],s,costs,rfl,by simpa using h,⟨rfl,rfl⟩,rfl,le_rfl⟩
  | cons result rest ih =>
    obtain ⟨member,r⟩ := result
    obtain ⟨hmem,hrest⟩ := List.forall_mem_cons.mp hm
    rw [List.map_cons,costsOf_cons,Multiset.cons_add] at h
    rw [List.map_cons,costsOf_cons,CostTracker.charged_cons]
    cases r with
    | ok overlay =>
      obtain ⟨overlays,t,left,hrun,ht,hu,hleft,hle⟩ := ih (s := (recordMetrics true s).2) hrest
        (by rwa [← Multiset.add_cons] at h)
      have hcost : committedCost costModel transactions
          (((member.originalIndex,overlay) :: overlays).map fun o => .flushed o.1 o.2) =
            member.cost.sum.toNat+
              committedCost costModel transactions (overlays.map fun o => .flushed o.1 o.2) := by
        rw [committedCost,List.map_cons,List.map_cons,List.sum_cons,BatchEvent.cost,hmem.1,hmem.2]
        rfl
      rw [CostTracker.charged_cons] at hleft
      dsimp only at hleft hle ⊢
      refine ⟨(member.originalIndex,overlay) :: overlays,t,left,(Exec.bind_of_ok hrun).trans rfl,ht,
        ⟨hu.limit,hu.committed⟩,?_,?_⟩
      · rw [hcost]
        omega
      · rw [hcost]
        exact Nat.add_le_add_left hle _
    | error e =>
      obtain ⟨tracker,hrun,hs,hlimit⟩ :=
        subtractCost_run (ε := BatchError) (s := (recordMetrics false s).2) h
      let charged : BatchState :=
        { (recordMetrics false s).2 with stage := { s.stage with costTracker := tracker } }
      have hcharged : Uncommitted costModel transactions s charged := ⟨hlimit,rfl⟩
      have hstep : settleGroup (⟨member,.error e⟩ :: rest) s = (do
          if e.isRetryable then requeueTransaction member.originalIndex member.transaction
          setResult member.originalIndex e
          settleGroup rest) charged := Exec.bind_of_ok hrun
      -- Nothing but the queue depends on whether the error is retryable.
      have hsettled :
        ∃ t, StageSound t.stage (costsOf (rest.map TransactionProcessResult.member)+costs) ∧
          Uncommitted costModel transactions s t ∧
          settleGroup (⟨member,.error e⟩ :: rest) s = settleGroup rest t := by
        rw [hstep]
        by_cases he : e.isRetryable
        · rw [if_pos he]
          have hu := hcharged.trans (requeue_uncommitted costModel member.originalIndex
            member.transaction charged)
          exact ⟨(setResult member.originalIndex e _).2,
            requeue_sound member.originalIndex member.transaction (s := charged) hs,
            ⟨hu.limit,hu.committed⟩,rfl⟩
        · rw [if_neg he]
          exact ⟨(setResult member.originalIndex e charged).2,hs,⟨hlimit,rfl⟩,rfl⟩
      obtain ⟨u,hsu,huncommitted,heq⟩ := hsettled
      obtain ⟨overlays,t,left,hrun,ht,hu,hleft,hle⟩ := ih hrest hsu
      rw [heq]
      exact ⟨overlays,t,left,hrun,ht,huncommitted.trans hu,hleft,hle.trans (Nat.le_add_left _ _)⟩

/-! ## Execution and recording -/

/-- No member of a group panics when it is processed, each over the programs that the members before
it left in the cache. -/
def MembersReturn (host : Host) (bank : Bank) : List Admitted → ProgramCache → Prop
  | [], _ => True
  | member :: rest, cache =>
    (bank.processSingleTransaction host member.transaction member.cost.sum cache).1 ≠ .panic ∧
      MembersReturn host bank rest
        (bank.processSingleTransaction host member.transaction member.cost.sum cache).2

/-- An attempt over the cache panics exactly when the code does. -/
theorem attempt_onCache_run {ε α : Type} (x : Exec ProgramCache ε α) (s : BatchState) :
    ((x s.programCache).1 = .panic ∧ (attempt (onCache x) : Batch (Except ε α)) s =
        (.panic,{ s with programCache := (x s.programCache).2 })) ∨
      ((x s.programCache).1 ≠ .panic ∧ ∃ r, (attempt (onCache x) : Batch (Except ε α)) s =
        (.ok r,{ s with programCache := (x s.programCache).2 })) := by
  unfold attempt onCache Exec.zoom
  cases (x s.programCache).1 with
  | ok a => exact .inr ⟨by simp,.ok a,rfl⟩
  | err e => exact .inr ⟨by simp,.error e,rfl⟩
  | panic => exact .inl ⟨rfl,rfl⟩

/-- Freeze locks make no difference to processing. -/
theorem membersReturn_freezeLock (n : ℕ) (bank : Bank) (admitted : List Admitted)
    (cache : ProgramCache) :
    MembersReturn host { bank with freezeLockCount := n } admitted cache ↔
      MembersReturn host bank admitted cache := by
  induction admitted generalizing cache with
  | nil => exact Iff.rfl
  | cons member rest ih => exact and_congr_right fun _ => ih _

/-- Execution leaves the stage and the log alone; it returns when all members do, and panics
otherwise. -/
theorem executeGroup_run (host : Host) (admitted : List Admitted) (s : BatchState) :
    ∃ t, t.stage = s.stage ∧ t.log = s.log ∧
      ((MembersReturn host s.bank admitted s.programCache ∧
          ∃ results, executeGroup host admitted s = (.ok results,t)) ∨
        ¬MembersReturn host s.bank admitted s.programCache ∧
          executeGroup host admitted s = (.panic,t)) := by
  induction admitted generalizing s with
  | nil => exact ⟨s,rfl,rfl,.inl ⟨trivial,[],rfl⟩⟩
  | cons member rest ih =>
    rw [executeGroup,Exec.get_bind,MembersReturn]
    rcases attempt_onCache_run (s.bank.processSingleTransaction host member.transaction
      member.cost.sum) s with ⟨hp,hrun⟩ | ⟨hp,r,hrun⟩
    · refine ⟨_,?_,?_,.inr ⟨fun hc => hc.1 hp,Exec.bind_of_panic hrun⟩⟩ <;> rfl
    · rw [Exec.bind_of_ok hrun]
      obtain ⟨t,ht,hlog,⟨hm,results,hrest⟩ | ⟨hm,hrest⟩⟩ :=
        ih { s with programCache := (s.bank.processSingleTransaction
        host member.transaction member.cost.sum s.programCache).2 }
      · exact ⟨t,ht,hlog,.inl ⟨⟨hp,hm⟩,_,Exec.bind_of_ok hrest⟩⟩
      · exact ⟨t,ht,hlog,.inr ⟨fun hc => hm hc.2,Exec.bind_of_panic hrest⟩⟩

theorem record_unsigned (sha256 : List UInt8 → Hash) {txs : List (ℕ × Transaction)} (hn : txs ≠ [])
    (hu : ∃ tx ∈ txs, tx.2.signatures = []) (s : BatchState) :
    Exec.mapErr BatchError.recorder (onRecords (recordTransactions sha256 txs)) s = (.panic,s) := by
  unfold Exec.mapErr onRecords Exec.zoom recordTransactions
  rw [if_neg hn,panicIf_true hu]
  rfl

/-- One record of signed transactions is sent, unless the receiver is gone. -/
theorem record_sends (sha256 : List UInt8 → Hash) {txs : List (ℕ × Transaction)} (hn : txs ≠ [])
    (hs : ¬∃ tx ∈ txs, tx.2.signatures = []) (s : BatchState) :
    (s.stage.pohRecordSender.remaining = some 0 ∧
        Exec.mapErr BatchError.recorder (onRecords (recordTransactions sha256 txs)) s =
          (.err (.recorder .sendError),s)) ∨
      s.stage.pohRecordSender.remaining ≠ some 0 ∧ ∃ channel,
        channel.sent = s.stage.pohRecordSender.sent ++
          [⟨sha256 (txs.flatMap fun tx => tx.2.signatures.head?.elim [] Signature.bytes)⟩] ∧
        Exec.mapErr BatchError.recorder (onRecords (recordTransactions sha256 txs)) s =
          (.ok (),{ s with stage := { s.stage with pohRecordSender := channel } }) := by
  unfold Exec.mapErr onRecords Exec.zoom recordTransactions
  rw [if_neg hn,panicIf_false hs,Exec.pure_bind,Exec.get_bind]
  dsimp only
  cases hc : s.stage.pohRecordSender.send
      ⟨sha256 (txs.flatMap fun tx => tx.2.signatures.head?.elim [] Signature.bytes)⟩ with
  | none => exact .inl ⟨Channel.send_eq_none.mp hc,rfl⟩
  | some channel =>
    have hremaining := mt Channel.send_eq_none.mpr (hc ▸ Option.some_ne_none channel)
    exact .inr ⟨hremaining,channel,Channel.sent_of_send hc,rfl⟩

/-- Recording panics exactly when a member has no signature, and only touches the channel. -/
theorem record_run (sha256 : List UInt8 → Hash) (txs : List (ℕ × Transaction)) (s : BatchState) :
    ∃ r channel, Exec.mapErr BatchError.recorder (onRecords (recordTransactions sha256 txs)) s =
        (r,{ s with stage := { s.stage with pohRecordSender := channel } }) ∧
      (r = .panic ↔ ∃ tx ∈ txs, tx.2.signatures = []) ∧ r ≠ .err .joinError := by
  by_cases hn : txs = []
  · subst hn
    exact ⟨.ok (),_,rfl,by simp,by simp⟩
  by_cases hu : ∃ tx ∈ txs, tx.2.signatures = []
  · exact ⟨.panic,_,record_unsigned sha256 hn hu s,iff_of_true rfl hu,by simp⟩
  obtain ⟨-,hrun⟩ | ⟨-,channel,-,hrun⟩ := record_sends sha256 hn hu s
  · exact ⟨.err _,_,hrun,iff_of_false (by simp) hu,by simp⟩
  · exact ⟨.ok (),_,hrun,iff_of_false (by simp) hu,by simp⟩

/-- A group whose accounts are locked panics exactly when the processing of a member does or a
member has no signature. -/
theorem runGroup_run {admitted : List Admitted} (hm : ∀ m ∈ admitted, m.From costModel transactions)
    (h : StageSound s.stage (costsOf admitted+costs)) :
    (∃ left, Charges costModel transactions costs (CostTracker.charged (costsOf admitted)) s
      (runGroup host admitted s).2 left) ∧
      ((runGroup host admitted s).1 = .panic ↔
        ¬(MembersReturn host s.bank admitted s.programCache ∧
          ∀ m ∈ admitted, m.transaction.signatures ≠ [])) ∧
      (runGroup host admitted s).1 ≠ .err .joinError := by
  unfold runGroup
  have hall : CostTracker.charged costs ≤ CostTracker.charged (costsOf admitted+costs) :=
    CostTracker.charged_le_add _ _
  obtain ⟨t,ht,hlog,hexec⟩ := executeGroup_run host admitted s
  have hst : StageSound t.stage (costsOf admitted+costs) := ht ▸ h
  have hut : Uncommitted costModel transactions s t := ⟨by rw [ht],by rw [hlog]⟩
  obtain ⟨hreturn,results,hrun⟩ | ⟨hreturn,hrun⟩ := hexec
  · rw [Exec.bind_of_ok hrun]
    obtain ⟨r,channel,hrec,hr,hj⟩ := record_run host.sha256
      (admitted.map fun m => (m.originalIndex,m.transaction)) t
    have hunsigned :
      (∃ tx ∈ admitted.map fun m => (m.originalIndex,m.transaction), tx.2.signatures = []) ↔
        ¬(MembersReturn host s.bank admitted s.programCache ∧
          ∀ m ∈ admitted, m.transaction.signatures ≠ []) := by
      simp [hreturn]
    rw [← hunsigned,← hr,Exec.bind_run,hrec]
    let sent : BatchState := { t with stage := { t.stage with pohRecordSender := channel } }
    have hs : StageSound sent.stage (costsOf admitted+costs) :=
      ⟨hst.tallied,hst.limited,hst.counted⟩
    have hsent : Uncommitted costModel transactions s sent := ⟨hut.limit,hut.committed⟩
    cases r with
    | ok u =>
      obtain ⟨hmembers,-⟩ := executeGroup_results hrun
      rw [← hmembers] at hs ⊢
      let recorded := (logEvents [.recorded (admitted.map Admitted.originalIndex)] sent).2
      have hrecorded : Uncommitted costModel transactions s recorded := by
        refine ⟨hsent.limit,?_⟩
        rw [← hsent.committed]
        exact committedCost_append costModel transactions _ _
      obtain ⟨overlays,t',left,hset,hleft,hu,hcharged,hle⟩ := settleGroup_run costModel transactions
        (s := recorded) (fun r hr => hm _ (hmembers ▸ List.mem_map_of_mem hr)) hs
      have hlast : (do
          logEvents [.recorded (admitted.map Admitted.originalIndex)]
          let overlays ← settleGroup results
          commitGroup overlays : Batch Unit) sent = commitGroup overlays t' := Exec.bind_of_ok hset
      have hcommit : Charges costModel transactions costs
          (CostTracker.charged (costsOf (results.map TransactionProcessResult.member))) t'
          (commitGroup overlays t').2 left := by
        have hcommitted :
          committedCost costModel transactions (commitGroup overlays t').2.log = _ :=
          committedCost_append costModel transactions t'.log _
        exact ⟨hleft,rfl,by omega,by omega⟩
      rw [hmembers] at hcommit ⊢
      dsimp only
      rw [hlast]
      exact ⟨⟨left,(hrecorded.trans hu).trans_charges
        hcommit⟩,by simp [commitGroup],by simp [commitGroup]⟩
    | err e =>
        exact ⟨⟨_,hsent.charges hs hall⟩,by simp,fun he => hj (congrArg _ (Outcome.err.inj he))⟩
    | panic => exact ⟨⟨_,hsent.charges hs hall⟩,by simp,by simp⟩
  · rw [Exec.bind_of_panic hrun]
    exact ⟨⟨_,hut.charges hst hall⟩,by simp [hreturn],by simp⟩

/-! ## Groups -/

/-- Unless some account of the group is in use, no admitted member panics when it is processed. -/
def GroupReturns (host : Host) (costModel : CostModel) (group : List (ℕ × Transaction))
    (s : BatchState) : Prop :=
  ∀ admitted t, admitGroup costModel group s = (.ok admitted,t) →
    ¬AccountLocks.InUse (admitted.map fun m => (m.originalIndex,m.transaction))
      s.stage.accountLocks →
      MembersReturn host s.bank admitted s.programCache

/-- The run of a group under its locks and a freeze lock. -/
def runLocked (host : Host) (admitted : List Admitted) (guard : LockGuard) : Batch Unit :=
  Exec.ensuring (do
    acquireFreezeLock
    Exec.ensuring (runGroup host admitted) dropFreezeLock) (onLocks guard.drop)

/-- What a group does once its members are admitted. -/
theorem processGroup_eq {txs group : List (ℕ × Transaction)} {admitted : List Admitted}
    {t : BatchState} (hrun : admitGroup costModel group s = (.ok admitted,t)) :
    processGroup host costModel txs group s =
      if admitted = [] then (.ok (),t)
      else if AccountLocks.InUse (admitted.map fun m => (m.originalIndex,m.transaction))
        t.stage.accountLocks then rollBackGroup txs admitted t
      else runLocked host admitted
        (AccountLocks.guardFor (admitted.map fun m => (m.originalIndex,m.transaction)))
        { t with stage := { t.stage with accountLocks := (AccountLocks.tryLockAccountsForGroup
          (admitted.map fun m => (m.originalIndex,m.transaction)) t.stage.accountLocks).2 } } := by
  rw [processGroup,Exec.bind_of_ok hrun]
  by_cases hn : admitted = []
  · rw [if_pos hn,if_pos hn]
    rfl
  rw [if_neg hn,if_neg hn]
  have hlock := AccountLocks.tryLock_run (admitted.map fun m => (m.originalIndex,m.transaction))
    t.stage.accountLocks
  by_cases hu : AccountLocks.InUse (admitted.map fun m => (m.originalIndex,m.transaction))
      t.stage.accountLocks
  · rw [if_pos hu] at hlock ⊢
    have hattempt : (attempt (onLocks (AccountLocks.tryLockAccountsForGroup
        (admitted.map fun m => (m.originalIndex,m.transaction)))) : Batch _) t =
          (.ok (.error .accountInUse),t) := by
      rw [attempt,onLocks,Exec.zoom,hlock]
    exact Exec.bind_of_ok hattempt
  · rw [if_neg hu] at hlock ⊢
    have hattempt : (attempt (onLocks (AccountLocks.tryLockAccountsForGroup
        (admitted.map fun m => (m.originalIndex,m.transaction)))) : Batch _) t =
          (.ok (.ok
              (AccountLocks.guardFor (admitted.map fun m => (m.originalIndex,m.transaction)))),
            { t with stage := { t.stage with accountLocks := (AccountLocks.tryLockAccountsForGroup
              (admitted.map fun m => (m.originalIndex,m.transaction))
                t.stage.accountLocks).2 } }) := by
      rw [attempt,onLocks,Exec.zoom,hlock]
    exact Exec.bind_of_ok hattempt

/-- The members of a group are run between the locks and their release. -/
theorem runLocked_of_drop {admitted : List Admitted} {guard : LockGuard} {l : AccountLockState}
    (h : (guard.drop : Exec _ BatchError Unit)
      (runGroup host admitted (acquireFreezeLock s).2).2.stage.accountLocks = (.ok (),l)) :
    runLocked host admitted guard s = ((runGroup host admitted (acquireFreezeLock s).2).1,
      { (dropFreezeLock (runGroup host admitted (acquireFreezeLock s).2).2).2 with
        stage := { (runGroup host admitted (acquireFreezeLock s).2).2.stage with
          accountLocks := l } }) := by
  let ran := (dropFreezeLock (runGroup host admitted (acquireFreezeLock s).2).2).2
  have hbody : (do
      acquireFreezeLock
      Exec.ensuring (runGroup host admitted) dropFreezeLock : Batch Unit) s =
        ((runGroup host admitted (acquireFreezeLock s).2).1,ran) := by
    change Exec.ensuring (runGroup host admitted) dropFreezeLock (acquireFreezeLock s).2 = _
    exact Exec.ensuring_of_ok rfl
  have hclean : onLocks guard.drop ran =
      ((.ok (),{ ran with stage := { ran.stage with accountLocks := l } }) :
        Outcome BatchError Unit × _) := by
    rw [onLocks,Exec.zoom]
    change ((guard.drop (runGroup host admitted (acquireFreezeLock s).2).2.stage.accountLocks).1,
      { ran with stage := { ran.stage with accountLocks := (guard.drop
        (runGroup host admitted (acquireFreezeLock s).2).2.stage.accountLocks).2 } }) = _
    rw [h]
  rw [runLocked,Exec.ensuring_of_ok (by rw [hbody]; exact hclean),hbody]
  rfl

/-- The guards are dropped without a panic, so nothing but the run of the group counts. -/
theorem runLocked_eq {admitted : List Admitted} (guard : LockGuard)
    (h : ∃ readers, (runGroup host admitted
      (acquireFreezeLock s).2).2.stage.accountLocks.readLocks.Counts readers) :
    ∃ l readers, l.readLocks.Counts readers ∧ runLocked host admitted guard s =
      ((runGroup host admitted (acquireFreezeLock s).2).1,
        { (dropFreezeLock (runGroup host admitted (acquireFreezeLock s).2).2).2 with
          stage := { (runGroup host admitted (acquireFreezeLock s).2).2.stage with
            accountLocks := l } }) := by
  obtain ⟨readers,hcounted⟩ := h
  obtain ⟨l,readers',hdrop,hcounted'⟩ := AccountLocks.drop_counted (ε := BatchError) guard hcounted
  exact ⟨l,readers',hcounted',runLocked_of_drop host hdrop⟩

theorem runLocked_run {admitted : List Admitted} (guard : LockGuard)
    (hm : ∀ m ∈ admitted, m.From costModel transactions)
    (h : StageSound s.stage (costsOf admitted+costs)) :
    (∃ left, Charges costModel transactions costs (CostTracker.charged (costsOf admitted)) s
      (runLocked host admitted guard s).2 left) ∧
    ((runLocked host admitted guard s).1 = .panic ↔
      ¬(MembersReturn host s.bank admitted s.programCache ∧
        ∀ m ∈ admitted, m.transaction.signatures ≠ [])) ∧
    (runLocked host admitted guard s).1 ≠ .err .joinError := by
  obtain ⟨⟨left,hleft⟩,hpanic,hj⟩ :=
    runGroup_run host costModel transactions (s := (acquireFreezeLock s).2) hm h
  obtain ⟨l,readers,hcounted,hrun⟩ := runLocked_eq host guard hleft.sound.counted
  rw [hrun]
  refine ⟨⟨left,⟨hleft.sound.tallied,hleft.sound.limited,readers,hcounted⟩,
    hleft.limit,hleft.charged,hleft.bounded⟩,?_,hj⟩
  rw [hpanic]
  exact not_congr (and_congr_left fun _ => membersReturn_freezeLock host _ s.bank admitted
    s.programCache)

/-- A group panics exactly when the processing of a member does. -/
theorem processGroup_run {txs group : List (ℕ × Transaction)} (h : StageSound s.stage costs)
    (hm : ∀ tx ∈ group, tx.1 ∈ txs.map Prod.fst)
    (hat : ∀ tx ∈ group, transactions[tx.1]? = some tx.2) :
    (∃ left, Charges costModel transactions costs (groupCost costModel group) s
      (processGroup host costModel txs group s).2 left) ∧
      ((∀ tx ∈ group, tx.2.signatures ≠ []) →
        ((processGroup host costModel txs group s).1 = .panic ↔
          ¬GroupReturns host costModel group s)) ∧
      (processGroup host costModel txs group s).1 ≠ .err .joinError := by
  obtain ⟨admitted,t,hrun,ht,⟨hbank,hcache,hlocks⟩,hadm,hle⟩ :=
    admitGroup_run costModel transactions group h
  have hsub := admitGroup_sublist hrun
  have hmem : ∀ m ∈ admitted, (m.originalIndex,m.transaction) ∈ group := fun m hm =>
    hsub.subset (List.mem_map.mpr ⟨m,hm,rfl⟩)
  have hfrom : ∀ m ∈ admitted, m.From costModel transactions := fun m hm =>
    ⟨hat _ (hmem m hm),admitGroup_cost hrun m hm⟩
  have hreturns : GroupReturns host costModel group s ↔ (¬AccountLocks.InUse
      (admitted.map fun m => (m.originalIndex,m.transaction)) s.stage.accountLocks →
        MembersReturn host s.bank admitted s.programCache) := by
    constructor
    · exact fun hg => hg admitted t hrun
    · intro hg admitted' t' hrun'
      cases hrun.symm.trans hrun'
      exact hg
  rw [hreturns,processGroup_eq host costModel hrun,← hlocks,← hbank,← hcache]
  by_cases hn : admitted = []
  · -- Every member was refused.
    subst hn
    rw [if_pos rfl]
    exact ⟨⟨_,hadm.charges ht (CostTracker.charged_le_add _ _)⟩,
      fun _ => iff_of_false (by simp) (not_not.mpr fun _ => trivial),by simp⟩
  rw [if_neg hn]
  by_cases hu : AccountLocks.InUse (admitted.map fun m => (m.originalIndex,m.transaction))
      t.stage.accountLocks
  · -- The costs are given back and the members requeued.
    rw [if_pos hu]
    obtain ⟨u,hback,hs,hback'⟩ := rollBackGroup_run costModel transactions
      (fun m hm' => hm _ (hmem m hm')) ht
    rw [hback]
    exact ⟨⟨_,(hadm.trans hback').charges hs le_rfl⟩,
      fun _ => iff_of_false (by simp) (not_not.mpr fun hc => absurd hu hc),by simp⟩
  · rw [if_neg hu]
    obtain ⟨readers,hcounted⟩ := ht.counted
    obtain ⟨guard,l,readers',hlocked,hcounted'⟩ := AccountLocks.tryLock_counted hcounted hu
    rw [hlocked]
    let locked : BatchState := { t with stage := { t.stage with accountLocks := l } }
    have hlocked : Uncommitted costModel transactions s locked := ⟨hadm.limit,hadm.committed⟩
    obtain ⟨⟨left,hleft⟩,hpanic,hj⟩ := runLocked_run host costModel transactions
      (AccountLocks.guardFor (admitted.map fun m => (m.originalIndex,m.transaction)))
      (s := locked) hfrom ⟨ht.tallied,ht.limited,readers',hcounted'⟩
    refine ⟨⟨left,(hlocked.trans_charges hleft).widen hle⟩,fun hsig => ?_,hj⟩
    have hall : ∀ m ∈ admitted, m.transaction.signatures ≠ [] := fun m hm' => hsig _ (hmem m hm')
    rw [hpanic,and_iff_left hall]
    exact not_congr ⟨fun hr _ => hr,fun hr => hr hu⟩

/-- No group that is come to panics when its members are processed. -/
def AllReturn (host : Host) (costModel : CostModel) (txs : List (ℕ × Transaction)) :
    List (List (ℕ × Transaction)) → BatchState → Prop
  | [], _ => True
  | group :: rest, s => GroupReturns host costModel group s ∧
      ∀ t, processGroup host costModel txs group s = (.ok (),t) →
        AllReturn host costModel txs rest t

theorem processGroups_run {txs : List (ℕ × Transaction)} {groups : List (List (ℕ × Transaction))}
    (h : StageSound s.stage costs) (hm : ∀ tx ∈ groups.flatten, tx.1 ∈ txs.map Prod.fst)
    (hat : ∀ tx ∈ groups.flatten, transactions[tx.1]? = some tx.2) :
    (∃ left, Charges costModel transactions costs (groupCost costModel groups.flatten) s
      (processGroups host costModel txs groups s).2 left) ∧
      ((∀ tx ∈ groups.flatten, tx.2.signatures ≠ []) →
        ((processGroups host costModel txs groups s).1 = .panic ↔
          ¬AllReturn host costModel txs groups s)) ∧
      (processGroups host costModel txs groups s).1 ≠ .err .joinError := by
  induction groups generalizing s costs with
  | nil =>
    have hsame : Uncommitted costModel transactions s s := ⟨rfl,rfl⟩
    exact ⟨⟨_,hsame.charges h le_rfl⟩,fun _ => iff_of_false (by simp [processGroups])
      (not_not.mpr trivial),by simp [processGroups]⟩
  | cons group rest ih =>
    rw [List.flatten_cons,List.forall_mem_append] at hm hat
    obtain ⟨⟨left,hleft⟩,hpanic,hj⟩ := processGroup_run host costModel transactions h hm.1 hat.1
    rw [processGroups,List.flatten_cons,groupCost_append,List.forall_mem_append,
      Exec.bind_run,AllReturn]
    cases hr : processGroup host costModel txs group s with
    | mk r t =>
      rw [hr] at hleft hpanic hj
      cases r with
      | ok u =>
        obtain ⟨⟨left',hleft'⟩,hrest,hj'⟩ := ih hleft.sound hm.2 hat.2
        refine ⟨⟨left',hleft.trans hleft'⟩,fun hsig => (hrest hsig.2).trans (not_congr ?_),hj'⟩
        have hret : GroupReturns host costModel group s := by simpa using (hpanic hsig.1).not
        rw [and_iff_right hret]
        constructor
        · intro ha t' ht'
          cases ht'
          exact ha
        · exact fun ha => ha t rfl
      | err e =>
        refine ⟨⟨left,hleft.widen (Nat.le_add_right _ _)⟩,
          fun hsig => iff_of_false (by simp) (not_not.mpr ⟨?_,?_⟩),hj⟩
        · simpa using (hpanic hsig.1).not
        · intro t' ht'
          cases ht'
      | panic =>
        refine ⟨⟨left,hleft.widen (Nat.le_add_right _ _)⟩,
          fun hsig => iff_of_true rfl fun hc => ?_,by simp⟩
        exact (hpanic hsig.1).mp rfl hc.1

/-! ## Batches -/

/-- No transaction of the batch panics when it is processed. -/
def BatchReturns (host : Host) (costModel : CostModel) (transactions : List Transaction)
    (s : BatchState) : Prop :=
  AllReturn host costModel (txsToSchedule host.ed25519 transactions)
    (TransactionScheduler.schedule (txsToSchedule host.ed25519 transactions))
      (verified host.ed25519 transactions s)

/-- A batch whose verification does not panic is processed group by group. -/
theorem processBatch_eq {host : Host} {costModel : CostModel} {transactions : List Transaction}
    (hv : ¬∃ tx ∈ transactions, tx.verifySignaturesSync host.ed25519 = .panic) :
    processBatch host costModel transactions s = (do
      processGroups host costModel (txsToSchedule host.ed25519 transactions)
        (TransactionScheduler.schedule (txsToSchedule host.ed25519 transactions))
      onTracker (Exec.modify CostTracker.reset)
      return (← Exec.get).finalResults : Batch (List (Option TransactionError)))
        (verified host.ed25519 transactions s) := by
  unfold processBatch
  rw [failIf_false hv,Exec.pure_bind]
  rfl

theorem schedule_mem {txs : List (ℕ × Transaction)} {tx : ℕ × Transaction} :
    tx ∈ (TransactionScheduler.schedule txs).flatten ↔ tx ∈ txs :=
  (TransactionScheduler.schedule_flatten_perm txs).mem_iff

/-- The groups of a batch, from where verification leaves off. -/
theorem batchGroups_run (h : StageSound s.stage costs) :
    (∃ left, Charges costModel transactions costs
      (groupCost costModel (txsToSchedule host.ed25519 transactions))
      (verified host.ed25519 transactions s)
      (processGroups host costModel (txsToSchedule host.ed25519 transactions)
        (TransactionScheduler.schedule (txsToSchedule host.ed25519 transactions))
        (verified host.ed25519 transactions s)).2 left) ∧
    ((∀ tx ∈ transactions, tx.verifySignaturesSync host.ed25519 = .ok () → tx.signatures ≠ []) →
      ((processGroups host costModel (txsToSchedule host.ed25519 transactions)
        (TransactionScheduler.schedule (txsToSchedule host.ed25519 transactions))
        (verified host.ed25519 transactions s)).1 = .panic ↔
          ¬BatchReturns host costModel transactions s)) ∧
    (processGroups host costModel (txsToSchedule host.ed25519 transactions)
      (TransactionScheduler.schedule (txsToSchedule host.ed25519 transactions))
      (verified host.ed25519 transactions s)).1 ≠ .err .joinError := by
  obtain ⟨⟨left,hleft⟩,hpanic,hj⟩ := processGroups_run host costModel transactions
    (s := verified host.ed25519 transactions s) h
    (fun tx ht => List.mem_map_of_mem (schedule_mem.mp ht))
    (fun tx ht => (mem_txsToSchedule.mp (schedule_mem.mp ht)).1)
  have hperm := TransactionScheduler.schedule_flatten_perm (txsToSchedule host.ed25519 transactions)
  have hcost : groupCost costModel (TransactionScheduler.schedule
      (txsToSchedule host.ed25519 transactions)).flatten =
        groupCost costModel (txsToSchedule host.ed25519 transactions) := (hperm.map _).sum_eq
  refine ⟨⟨left,hcost ▸ hleft⟩,fun hsig => hpanic fun tx ht => ?_,hj⟩
  obtain ⟨hget,hok⟩ := mem_txsToSchedule.mp (schedule_mem.mp ht)
  exact hsig tx.2 (List.mem_of_getElem? hget) hok

variable {host costModel}

/-- What a verified batch commits is charged on top of the costs before, within the limit of the
block, however it ends. -/
theorem processBatch_charges {transactions : List Transaction} (h : StageSound s.stage costs)
    (hv : ¬∃ tx ∈ transactions, tx.verifySignaturesSync host.ed25519 = .panic) :
    (∃ left, StageSound (processBatch host costModel transactions s).2.stage left) ∧
      (processBatch host costModel transactions s).2.stage.costTracker.blockCostLimit =
        s.stage.costTracker.blockCostLimit ∧
      CostTracker.charged costs+
          committedCost costModel transactions (processBatch host costModel transactions s).2.log ≤
        s.stage.costTracker.blockCostLimit.toNat ∧
      committedCost costModel transactions (processBatch host costModel transactions s).2.log ≤
        groupCost costModel (txsToSchedule host.ed25519 transactions) := by
  obtain ⟨⟨left,hleft⟩,-⟩ := batchGroups_run host costModel transactions h
  have hwithin := hleft.sound.tallied.limit
  have hcharged := hleft.charged
  have hbounded := hleft.bounded
  have hempty : committedCost costModel transactions (verified host.ed25519 transactions s).log =
    0 := rfl
  rw [hleft.limit] at hwithin
  rw [hempty] at hcharged hbounded
  rw [processBatch_eq hv,Exec.bind_run]
  cases hr : processGroups host costModel (txsToSchedule host.ed25519 transactions)
      (TransactionScheduler.schedule (txsToSchedule host.ed25519 transactions))
      (verified host.ed25519 transactions s) with
  | mk r t =>
    rw [hr] at hleft hcharged hbounded
    have hsum := hcharged.trans hwithin
    rw [Nat.zero_add] at hbounded
    cases r with
    | ok u =>
      -- Only a batch that ends well resets the tracker.
      exact ⟨⟨0,CostTracker.reset_tallies _,hleft.sound.limited,hleft.sound.counted⟩,
        hleft.limit,hsum,hbounded⟩
    | err e => exact ⟨⟨left,hleft.sound⟩,hleft.limit,hsum,hbounded⟩
    | panic => exact ⟨⟨left,hleft.sound⟩,hleft.limit,hsum,hbounded⟩

/-- Whatever becomes of a batch, it leaves a sound stage. -/
theorem processBatch_sound (transactions : List Transaction) (h : StageSound s.stage costs) :
    ∃ left, StageSound (processBatch host costModel transactions s).2.stage left := by
  by_cases hv : ∃ tx ∈ transactions, tx.verifySignaturesSync host.ed25519 = .panic
  · unfold processBatch
    rw [failIf_true hv]
    exact ⟨_,h⟩
  exact (processBatch_charges h hv).1

/-- A batch reaches no panic exactly when the processing of no transaction does, once verification
does not and every scheduled transaction has a signature. -/
theorem processBatch_no_panic {transactions : List Transaction} (h : StageSound s.stage costs)
    (hv : ¬∃ tx ∈ transactions, tx.verifySignaturesSync host.ed25519 = .panic)
    (hsig : ∀ tx ∈ transactions, tx.verifySignaturesSync host.ed25519 = .ok () →
      tx.signatures ≠ []) :
    ((processBatch host costModel transactions s).1 ≠ .panic ↔
      BatchReturns host costModel transactions s) ∧
    (processBatch host costModel transactions s).1 ≠ .err .joinError := by
  obtain ⟨-,hpanic,hj⟩ := batchGroups_run host costModel transactions h
  rw [← not_iff_not,← hpanic hsig,processBatch_eq hv,Exec.bind_run]
  cases hr : processGroups host costModel (txsToSchedule host.ed25519 transactions)
      (TransactionScheduler.schedule (txsToSchedule host.ed25519 transactions))
      (verified host.ed25519 transactions s) with
  | mk r t =>
    rw [hr] at hj
    cases r with
    | ok u => simp [onTracker,Exec.zoom,Exec.bind_run]
    | err e => exact ⟨by simp,fun he => hj (congrArg _ (Outcome.err.inj he))⟩
    | panic => simp

end BankingStage

end TinySolana
