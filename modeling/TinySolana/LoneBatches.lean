import TinySolana.BatchPanics
import TinySolana.ExecutionErrors

/-!
# Batches without company

Where nobody else holds a lock, no account of a group is in use, and a group leaves the lock table
as it found it. Nothing that goes wrong in the execution of a transaction is worth another try. So
nothing is queued again, and a group sends one record if it returns and none otherwise.
-/

namespace TinySolana
open Foundations Exec

/-! ## Errors of execution -/

namespace Bank

variable {host : Host} {bank : Bank} {tx : Transaction} {computeBudget : UInt64}

theorem OfInstruction.not_retryable {e : TransactionError} (h : OfInstruction e) :
    e.isRetryable = false := by
  obtain ⟨p,-,rfl⟩ := h
  rfl

theorem checkPreflightRules_not_retryable {e : TransactionError}
    (h : bank.checkPreflightRules tx = .error e) : e.isRetryable = false := by
  unfold checkPreflightRules at h
  split at h
  · cases h
    rfl
  · split at h
    · dsimp only at h
      split at h <;> cases h
      rfl
    · cases h
      rfl

/-- No error of a transaction is one of those that are tried again. -/
theorem processSingleTransaction_not_retryable :
    FailsIn (fun e => e.isRetryable = false)
      (processSingleTransaction host bank tx computeBudget) := by
  refine .bind (.ofExcept fun e he => checkPreflightRules_not_retryable he) fun _ => ?_
  refine .bind (fun cache e he => ?_) fun _ => .pure _
  exact (executeLoaded_fails host tx computeBudget _ cache e he).not_retryable

end Bank

namespace BankingStage

variable {host : Host} {costModel : CostModel}

theorem executeGroup_errors {admitted : List Admitted} {s t : BatchState}
    {results : List TransactionProcessResult} (h : executeGroup host admitted s = (.ok results,t)) :
    ∀ r ∈ results, ∀ e, r.processingResult = .error e → e.isRetryable = false := by
  induction admitted generalizing s results with
  | nil =>
    cases h
    exact fun r hr => absurd hr List.not_mem_nil
  | cons member rest ih =>
    simp only [executeGroup,Exec.get_bind] at h
    obtain ⟨r,s₁,hx,h⟩ := Exec.bind_ok.mp h
    obtain ⟨results',s₂,hrest,h⟩ := Exec.bind_ok.mp h
    cases h
    refine List.forall_mem_cons.mpr ⟨fun e he => ?_,ih hrest⟩
    dsimp only at he
    subst he
    have herr := congrArg Prod.fst (attempt_ok hx)
    exact Bank.processSingleTransaction_not_retryable _ e herr

/-! ## What the stages leave alone -/

/-- The lock table, both channels, the store and the count of freeze locks have not changed. -/
structure Quiet (s t : BatchState) : Prop where
  accountLocks : t.stage.accountLocks = s.stage.accountLocks
  txSender : t.stage.txSender = s.stage.txSender
  pohRecordSender : t.stage.pohRecordSender = s.stage.pohRecordSender
  accounts : t.bank.accounts = s.bank.accounts
  freezeLockCount : t.bank.freezeLockCount = s.bank.freezeLockCount

instance : Std.Refl Quiet := ⟨fun _ => ⟨rfl,rfl,rfl,rfl,rfl⟩⟩

instance : IsTrans BatchState Quiet := ⟨fun _ _ _ h h' => ⟨h'.accountLocks.trans h.accountLocks,
  h'.txSender.trans h.txSender,h'.pohRecordSender.trans h.pohRecordSender,
  h'.accounts.trans h.accounts,h'.freezeLockCount.trans h.freezeLockCount⟩⟩

theorem tracker_quiet {ε : Type} (x : Exec CostTracker ε Unit) : Keeps Quiet (onTracker x) :=
  .zoom (fun _ _ => ⟨rfl,rfl,rfl,rfl,rfl⟩) x

theorem setResult_quiet (i : ℕ) (e : TransactionError) : Keeps Quiet (setResult i e) :=
  .modify fun _ => ⟨rfl,rfl,rfl,rfl,rfl⟩

theorem admitGroup_quiet (group : List (ℕ × Transaction)) :
    Keeps Quiet (admitGroup costModel group) := by
  induction group with
  | nil => exact .pure []
  | cons tx rest ih =>
    refine .bind .get fun s => ?_
    split
    · exact .bind (tracker_quiet _) fun _ => .bind ih fun _ => .pure _
    · exact .bind (setResult_quiet _ _) fun _ => ih

theorem executeGroup_quiet (admitted : List Admitted) :
    Keeps Quiet (executeGroup host admitted) := by
  induction admitted with
  | nil => exact .pure []
  | cons member rest ih =>
    refine .bind .get fun _ =>
      .bind (.attempt (.zoom (fun _ _ => ⟨rfl,rfl,rfl,rfl,rfl⟩) _)) fun _ => ?_
    exact .bind ih fun _ => .pure _

theorem settleGroup_quiet {results : List TransactionProcessResult}
    (hr : ∀ r ∈ results, ∀ e, r.processingResult = .error e → e.isRetryable = false) :
    Keeps Quiet (settleGroup results) := by
  induction results with
  | nil => exact .pure []
  | cons result rest ih =>
    obtain ⟨hfirst,hrest⟩ := List.forall_mem_cons.mp hr
    refine .bind (.modify fun _ => ⟨rfl,rfl,rfl,?_,?_⟩) fun _ => ?_
    · unfold Bank.recordTransactionMetrics
      split <;> rfl
    · unfold Bank.recordTransactionMetrics
      split <;> rfl
    split
    · exact .bind (ih hrest) fun _ => .pure _
    · next e he =>
      refine .bind (tracker_quiet _) fun _ => ?_
      rw [hfirst e he]
      exact .bind (setResult_quiet _ _) fun _ => ih hrest

/-! ## Records -/

/-- The record of some members. -/
def recordOf (sha256 : List UInt8 → Hash) (txs : List Transaction) : PohRecord :=
  ⟨sha256 (txs.flatMap fun tx => tx.signatures.head?.elim [] Signature.bytes)⟩

/-- Recording sends one record and returns, or it changes nothing. It only fails without a
receiver. -/
theorem record_cases (sha256 : List UInt8 → Hash) {admitted : List Admitted} (hn : admitted ≠ [])
    {s t : BatchState} {r : Outcome BatchError Unit}
    (h : Exec.mapErr BatchError.recorder (onRecords (recordTransactions sha256
      (admitted.map fun m => (m.originalIndex,m.transaction)))) s = (r,t)) :
    (r = .ok () ∧ ∃ c, s.stage.pohRecordSender.send
        (recordOf sha256 (admitted.map Admitted.transaction)) = some c ∧
        t = { s with stage := { s.stage with pohRecordSender := c } }) ∨
      r ≠ .ok () ∧ t = s ∧ ((∃ e, r = .err e) → s.stage.pohRecordSender.remaining = some 0) := by
  have hflat : (admitted.map fun m => (m.originalIndex,m.transaction)).flatMap
      (fun tx => tx.2.signatures.head?.elim [] Signature.bytes) =
        (admitted.map Admitted.transaction).flatMap
          fun tx => tx.signatures.head?.elim [] Signature.bytes := by
    rw [List.flatMap_map,List.flatMap_map]
  have hn' : (admitted.map fun m => (m.originalIndex,m.transaction)) ≠ [] :=
    mt List.map_eq_nil_iff.mp hn
  by_cases hu : ∃ tx ∈ admitted.map fun m => (m.originalIndex,m.transaction), tx.2.signatures = []
  · rw [record_unsigned sha256 hn' hu] at h
    cases h
    exact .inr ⟨by simp,rfl,by simp⟩
  unfold Exec.mapErr onRecords Exec.zoom recordTransactions at h
  rw [if_neg hn',panicIf_false hu,Exec.pure_bind,Exec.get_bind,hflat] at h
  dsimp only at h
  cases hc : s.stage.pohRecordSender.send (recordOf sha256 (admitted.map Admitted.transaction)) with
  | none =>
    have hgone := Channel.send_eq_none.mp hc
    rw [recordOf] at hc
    rw [hc] at h
    cases h
    exact .inr ⟨by simp,rfl,fun _ => hgone⟩
  | some c =>
    rw [recordOf] at hc
    rw [hc] at h
    cases h
    exact .inl ⟨rfl,c,rfl,rfl⟩

/-- The records of a group with the given members. -/
def recordsOf (sha256 : List UInt8 → Hash) (members : List Transaction) : List PohRecord :=
  if members = [] then [] else [recordOf sha256 members]

/-- What a group does to the stage when its locks are out of the question. -/
structure RunsAlone (sha256 : List UInt8 → Hash) (members : List Transaction) (s : BatchState)
    (r : Outcome BatchError Unit) (t : BatchState) : Prop where
  accountLocks : t.stage.accountLocks = s.stage.accountLocks
  txSender : t.stage.txSender = s.stage.txSender
  freezeLockCount : t.bank.freezeLockCount = s.bank.freezeLockCount
  /-- Only a group that returns has changed the store. -/
  store : r ≠ .ok () → t.bank.accounts = s.bank.accounts
  sent : t.stage.pohRecordSender.sent =
    s.stage.pohRecordSender.sent ++ if r = .ok () then recordsOf sha256 members else []
  connected : s.stage.pohRecordSender.remaining = none →
    t.stage.pohRecordSender.remaining = none ∧ ∀ e, r ≠ .err e

theorem Quiet.runsAlone {sha256 : List UInt8 → Hash} {members : List Transaction} {s t : BatchState}
    {r : Outcome BatchError Unit} (h : Quiet s t) (hr : r ≠ .ok () ∨ members = [])
    (he : s.stage.pohRecordSender.remaining = none → ∀ e, r ≠ .err e) :
    RunsAlone sha256 members s r t where
  accountLocks := h.accountLocks
  txSender := h.txSender
  freezeLockCount := h.freezeLockCount
  store _ := h.accounts
  sent := by
    rw [h.pohRecordSender]
    obtain hr | rfl := hr
    · rw [if_neg hr,List.append_nil]
    · rw [recordsOf,if_pos rfl,ite_self,List.append_nil]
  connected hc := ⟨by rw [h.pohRecordSender,hc],he hc⟩

theorem RunsAlone.from_quiet {sha256 : List UInt8 → Hash} {members : List Transaction}
    {s t u : BatchState} {r : Outcome BatchError Unit} (h : Quiet s t)
    (h' : RunsAlone sha256 members t r u) : RunsAlone sha256 members s r u where
  accountLocks := h'.accountLocks.trans h.accountLocks
  txSender := h'.txSender.trans h.txSender
  freezeLockCount := h'.freezeLockCount.trans h.freezeLockCount
  store hr := (h'.store hr).trans h.accounts
  sent := by rw [h'.sent,h.pohRecordSender]
  connected hc := h'.connected (by rw [h.pohRecordSender,hc])

theorem RunsAlone.to_quiet {sha256 : List UInt8 → Hash} {members : List Transaction}
    {s t u : BatchState} {r : Outcome BatchError Unit} (h : RunsAlone sha256 members s r t)
    (h' : Quiet t u) : RunsAlone sha256 members s r u where
  accountLocks := h'.accountLocks.trans h.accountLocks
  txSender := h'.txSender.trans h.txSender
  freezeLockCount := h'.freezeLockCount.trans h.freezeLockCount
  store hr := h'.accounts.trans (h.store hr)
  sent := by rw [h'.pohRecordSender,h.sent]
  connected hc := by
    rw [h'.pohRecordSender]
    exact h.connected hc

variable {transactions : List Transaction} {s : BatchState} {costs : Multiset TransactionCost}

/-- The members are executed without a trace on the stage; what stops a group behind them is its
record. -/
theorem runGroup_alone {admitted : List Admitted} (hn : admitted ≠ [])
    (hm : ∀ m ∈ admitted, m.From costModel transactions)
    (h : StageSound s.stage (costsOf admitted+costs)) :
    RunsAlone host.sha256 (admitted.map Admitted.transaction) s (runGroup host admitted s).1
      (runGroup host admitted s).2 := by
  have hmembers : admitted.map Admitted.transaction ≠ [] := mt List.map_eq_nil_iff.mp hn
  obtain ⟨s₁,hstage,-,⟨-,results,hrun⟩ | ⟨-,hrun⟩⟩ := executeGroup_run host admitted s
  · have hq₁ : Quiet s s₁ := (executeGroup_quiet admitted).of_run hrun
    have hs₁ : StageSound s₁.stage (costsOf admitted+costs) := hstage ▸ h
    refine .from_quiet hq₁ ?_
    unfold runGroup
    rw [Exec.bind_of_ok hrun]
    cases hrec : Exec.mapErr BatchError.recorder (onRecords (recordTransactions host.sha256
        (admitted.map fun m => (m.originalIndex,m.transaction)))) s₁ with
    | mk r s₂ =>
      obtain ⟨rfl,c,hc,rfl⟩ | ⟨hr,rfl,hgone⟩ := record_cases host.sha256 hn hrec
      · -- behind the record nothing fails
        rw [Exec.bind_of_ok hrec]
        let sent : BatchState := { s₁ with stage := { s₁.stage with pohRecordSender := c } }
        have hsent : RunsAlone host.sha256 (admitted.map Admitted.transaction) s₁
            (.ok ()) sent := by
          refine ⟨rfl,rfl,rfl,fun _ => rfl,?_,fun hnone => ⟨?_,by simp⟩⟩
          · rw [if_pos rfl,recordsOf,if_neg hmembers]
            exact Channel.sent_of_send hc
          · rw [Channel.send,hnone] at hc
            cases hc
            rfl
        let logged := (logEvents [.recorded (admitted.map Admitted.originalIndex)] sent).2
        obtain ⟨hres,-⟩ := executeGroup_results hrun
        have hsound : StageSound logged.stage
            (costsOf (results.map TransactionProcessResult.member)+costs) := by
          rw [hres]
          exact ⟨hs₁.tallied,hs₁.limited,hs₁.counted⟩
        obtain ⟨overlays,t,left,hset,-⟩ := settleGroup_run costModel transactions
          (fun r hr => hm _ (hres ▸ List.mem_map_of_mem hr)) hsound
        have hq : Quiet logged t := (settleGroup_quiet (executeGroup_errors hrun)).of_run hset
        have hlast : (do
            logEvents [.recorded (admitted.map Admitted.originalIndex)]
            let overlays ← settleGroup results
            commitGroup overlays : Batch Unit) sent = (.ok (),(commitGroup overlays t).2) :=
          (Exec.bind_of_ok (f := fun overlays => commitGroup overlays) hset).trans rfl
        rw [hlast]
        have hlogged : RunsAlone host.sha256 (admitted.map Admitted.transaction) s₁
          (.ok ()) logged :=
          hsent.to_quiet ⟨rfl,rfl,rfl,rfl,rfl⟩
        have hset := hlogged.to_quiet hq
        exact ⟨hset.accountLocks,hset.txSender,hset.freezeLockCount,fun hr =>
          absurd rfl hr,hset.sent,
          hset.connected⟩
      · -- without a record nothing more happens
        have hstop : (Exec.mapErr BatchError.recorder (onRecords (recordTransactions host.sha256
            (admitted.map fun m => (m.originalIndex,m.transaction)))) >>= fun _ => do
              logEvents [.recorded (admitted.map Admitted.originalIndex)]
              let overlays ← settleGroup results
              commitGroup overlays) s₂ = (r,s₂) := by
          rw [Exec.bind_run,hrec]
          cases r with
          | ok u => exact absurd rfl hr
          | err e => rfl
          | panic => rfl
        rw [hstop]
        refine Quiet.runsAlone (Std.Refl.refl s₂) (.inl hr) fun hnone e he => ?_
        rw [hgone ⟨e,he⟩] at hnone
        cases hnone
  · have hq : Quiet s s₁ := (executeGroup_quiet admitted).of_run hrun
    unfold runGroup
    rw [Exec.bind_of_panic hrun]
    exact hq.runsAlone (.inl (by simp)) fun _ e => by simp

/-! ## Locks that nobody else holds -/

theorem not_inUse_new (group : List (ℕ × Transaction)) :
    ¬AccountLocks.InUse group AccountLocks.new := by
  rintro (⟨key,-,hw | hr⟩ | ⟨key,-,hw⟩)
  · exact absurd hw (Finset.notMem_empty key)
  · exact absurd hr (Finmap.notMem_empty)
  · exact absurd hw (Finset.notMem_empty key)

/-- The locks of a group on an empty table are all that is on it, and dropping them empties it
again. -/
theorem locked_and_dropped {ε : Type} (group : List (ℕ × Transaction)) :
    ((AccountLocks.guardFor group).drop : Exec _ ε Unit)
      (AccountLocks.tryLockAccountsForGroup group AccountLocks.new).2 =
      (.ok (),AccountLocks.new) := by
  rw [AccountLocks.tryLock_run,if_neg (not_inUse_new group)]
  have hlocked := LockSystem.accounted_init.lock (not_inUse_new group)
  obtain ⟨l,hdrop,hl⟩ := hlocked.drop (ε := ε)
  obtain rfl : l = AccountLocks.new := hl.eq_new rfl
  exact hdrop

/-- The members of a group that are admitted, in its order. -/
def admittedOf (costModel : CostModel) (group : List (ℕ × Transaction)) (s : BatchState) :
    List Transaction :=
  match admitGroup costModel group s with
  | (.ok admitted,_) => admitted.map Admitted.transaction
  | _ => []

/-- The state in which the members of a group are run. -/
def lockedFor (admitted : List Admitted) (t : BatchState) : BatchState :=
  (acquireFreezeLock
    { t with stage := { t.stage with accountLocks := (AccountLocks.tryLockAccountsForGroup
    (admitted.map fun m => (m.originalIndex,m.transaction)) t.stage.accountLocks).2 } }).2

/-- The state behind the members of a group, on a lock table that has become empty again. -/
def released (t : BatchState) : BatchState :=
  { (dropFreezeLock t).2 with stage := { t.stage with accountLocks := AccountLocks.new } }

theorem reaches_lockedFor (admitted : List Admitted) (t : BatchState) :
    Reaches t (lockedFor admitted t) :=
  fun _ _ _ _ hR => IsTrans.trans _ _ _ (hR.locks t _) (hR.freezeLock _ _)

section unlocked

variable {group : List (ℕ × Transaction)} {admitted : List Admitted} {t : BatchState}

theorem lockedFor_sound (admitted : List Admitted) (h : StageSound t.stage costs)
    (hlocks : t.stage.accountLocks = AccountLocks.new) :
      StageSound (lockedFor admitted t).stage costs := by
  have hcounts : (AccountLocks.new).readLocks.Counts fun _ => 0 := FiniteMap.counts_zero.mpr rfl
  obtain ⟨guard,l,readers,hlock,hreaders⟩ := AccountLocks.tryLock_counted hcounts
    (not_inUse_new (admitted.map fun m => (m.originalIndex,m.transaction)))
  refine ⟨h.tallied,h.limited,readers,?_⟩
  change (AccountLocks.tryLockAccountsForGroup _ t.stage.accountLocks).2.readLocks.Counts readers
  rw [hlocks,hlock]
  exact hreaders

/-- The members of a group that was admitted run without a trace on the lock table. -/
theorem runGroup_lockedFor (host : Host) (h : StageSound s.stage costs)
    (hat : ∀ tx ∈ group, transactions[tx.1]? = some tx.2)
    (hrun : admitGroup costModel group s = (.ok admitted,t)) (hn : admitted ≠ [])
    (hlocks : t.stage.accountLocks = AccountLocks.new) :
    RunsAlone host.sha256 (admitted.map Admitted.transaction) (lockedFor admitted t)
      (runGroup host admitted (lockedFor admitted t)).1
      (runGroup host admitted (lockedFor admitted t)).2 := by
  obtain ⟨admitted',t',hrun',ht,-⟩ := admitGroup_run costModel transactions group h
  cases hrun.symm.trans hrun'
  have hfrom : ∀ m ∈ admitted, m.From costModel transactions := fun m hm =>
    ⟨hat _ ((admitGroup_sublist hrun).subset (List.mem_map.mpr ⟨m,hm,rfl⟩)),
      admitGroup_cost hrun m hm⟩
  exact runGroup_alone hn hfrom (lockedFor_sound admitted ht hlocks)

/-- A group on an empty lock table is run between its locks and their release. -/
theorem processGroup_unlocked {txs : List (ℕ × Transaction)} (h : StageSound s.stage costs)
    (hat : ∀ tx ∈ group, transactions[tx.1]? = some tx.2)
    (hrun : admitGroup costModel group s = (.ok admitted,t)) (hn : admitted ≠ [])
    (hlocks : t.stage.accountLocks = AccountLocks.new) : processGroup host costModel txs group s =
      ((runGroup host admitted (lockedFor admitted t)).1,
        released (runGroup host admitted (lockedFor admitted t)).2) := by
  have halone := runGroup_lockedFor host h hat hrun hn hlocks
  rw [processGroup_eq host costModel hrun,if_neg hn,hlocks,if_neg (not_inUse_new _)]
  have hdrop :
    ((AccountLocks.guardFor (admitted.map fun m => (m.originalIndex,m.transaction))).drop :
      Exec _ BatchError Unit) (runGroup host admitted (lockedFor admitted t)).2.stage.accountLocks =
        (.ok (),AccountLocks.new) := by
    rw [halone.accountLocks]
    have hempty := locked_and_dropped (ε := BatchError)
      (admitted.map fun m => (m.originalIndex,m.transaction))
    rw [← hlocks] at hempty ⊢
    exact hempty
  rw [← hlocks]
  exact (runLocked_of_drop host hdrop).trans rfl

end unlocked

/-- A group on an empty lock table leaves it empty, however the group ends. -/
theorem processGroup_alone {txs group : List (ℕ × Transaction)}
    (hl : s.stage.accountLocks = AccountLocks.new) (h : StageSound s.stage costs)
    (hat : ∀ tx ∈ group, transactions[tx.1]? = some tx.2) :
    RunsAlone host.sha256 (admittedOf costModel group s) s
      (processGroup host costModel txs group s).1 (processGroup host costModel txs group s).2 := by
  obtain ⟨admitted,t,hrun,-⟩ := admitGroup_run costModel transactions group h
  have hq : Quiet s t := (admitGroup_quiet group).of_run hrun
  have hlocks := hq.accountLocks.trans hl
  rw [admittedOf,hrun]
  by_cases hn : admitted = []
  · rw [processGroup_eq host costModel hrun,if_pos hn]
    subst hn
    exact hq.runsAlone (.inr rfl) fun _ e => by simp
  have halone := runGroup_lockedFor host h hat hrun hn hlocks
  rw [processGroup_unlocked h hat hrun hn hlocks]
  refine .from_quiet hq ⟨hlocks.symm,halone.txSender,?_,halone.store,halone.sent,halone.connected⟩
  -- the lock that is dropped is the one that was taken
  have hcount := halone.freezeLockCount
  exact congrArg (· - 1) hcount

end BankingStage

end TinySolana
