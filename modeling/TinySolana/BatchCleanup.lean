import TinySolana.BatchRecords

/-!
# The cost tracker after a batch

A batch that returns has reset the tracker, or has left its loop early. Leaving it early leaves the
costs of the group whose record could not be sent, and what the groups before it have committed.
-/

namespace TinySolana
open Foundations Exec

/-- The signatures of a transaction cost something, as long as they fit into memory. -/
theorem calculateCost_pos (costModel : CostModel) {tx : Transaction} (hs : tx.signatures ≠ [])
    (hl : tx.signatures.length < 2^57) : 0 < (costModel.calculateCost tx).sum.toNat := by
  have hpos := List.length_pos_iff.mpr hs
  have hmod : tx.signatures.length % 2^64 = tx.signatures.length := Nat.mod_eq_of_lt (by omega)
  have hsig : 0 < (costModel.calculateCost tx).signatureCost.toNat := by
    change 0 < (UInt64.ofNat tx.signatures.length*signatureCost).toNat
    rw [UInt64.toNat_mul,UInt64.toNat_ofNat',show signatureCost.toNat = 2^4*45 by decide,
      hmod,Nat.pos_iff_ne_zero]
    -- The product may wrap around, but not to zero.
    intro hzero
    have hdvd : 2^4*2^60 ∣ 2^4*(tx.signatures.length*45) := by
      rw [Nat.mul_left_comm]
      exact Nat.dvd_of_mod_eq_zero hzero
    have hlen : 2^60 ∣ tx.signatures.length :=
      Nat.Coprime.dvd_of_dvd_mul_right (by decide) (Nat.dvd_of_mul_dvd_mul_left (by decide) hdvd)
    exact absurd ((Nat.le_of_dvd hpos hlen).trans_lt hl) (by decide)
  exact hsig.trans_le (UInt64.le_iff_toNat_le.mp (costModel.calculateCost tx).signatureCost_le_sum)

namespace BankingStage

variable {host : Host} {costModel : CostModel} {transactions : List Transaction} {s : BatchState}
  {costs : Multiset TransactionCost}

/-! ## Sending the record of a group -/

section Group

variable {admitted : List Admitted}

theorem groupTxs_signed (hs : ∀ m ∈ admitted, m.transaction.signatures ≠ []) :
    ¬∃ tx ∈ admitted.map fun m => (m.originalIndex,m.transaction), tx.2.signatures = [] := by
  rintro ⟨tx,ht,hnil⟩
  obtain ⟨m,hm,rfl⟩ := List.mem_map.mp ht
  exact hs m hm hnil

/-- A group whose record cannot be sent is left with its costs. -/
theorem runGroup_unsent (hn : admitted ≠ [])
    (hr : MembersReturn host s.bank admitted s.programCache)
    (hs : ∀ m ∈ admitted, m.transaction.signatures ≠ [])
    (h : s.stage.pohRecordSender.remaining = some 0) :
    ∃ t, runGroup host admitted s = (.err (.recorder .sendError),t) ∧ t.stage = s.stage := by
  obtain ⟨t,ht,-,⟨-,results,hrun⟩ | ⟨hpanic,-⟩⟩ := executeGroup_run host admitted s
  · obtain ⟨-,hrecord⟩ | ⟨hremaining,-⟩ := record_sends host.sha256
      (mt List.map_eq_nil_iff.mp hn) (groupTxs_signed hs) t
    · refine ⟨t,?_,ht⟩
      rw [runGroup,Exec.bind_of_ok hrun,Exec.bind_run,hrecord]
    · rw [ht] at hremaining
      exact absurd h hremaining
  · exact absurd hr hpanic

/-- A group whose record can be sent does not end in an error. -/
theorem runGroup_sent (hm : ∀ m ∈ admitted, m.From costModel transactions)
    (hsound : StageSound s.stage (costsOf admitted+costs)) (hn : admitted ≠ [])
    (hs : ∀ m ∈ admitted, m.transaction.signatures ≠ [])
    (h : s.stage.pohRecordSender.remaining ≠ some 0) (e : BatchError) :
    (runGroup host admitted s).1 ≠ .err e := by
  obtain ⟨t,ht,-,⟨-,results,hrun⟩ | ⟨-,hrun⟩⟩ := executeGroup_run host admitted s
  · obtain ⟨hremaining,-⟩ | ⟨-,channel,-,hrecord⟩ := record_sends host.sha256
      (mt List.map_eq_nil_iff.mp hn) (groupTxs_signed hs) t
    · rw [ht] at hremaining
      exact absurd hremaining h
    obtain ⟨hmembers,-⟩ := executeGroup_results hrun
    rw [← ht,← hmembers] at hsound
    let recorded := (logEvents [.recorded (admitted.map Admitted.originalIndex)]
      { t with stage := { t.stage with pohRecordSender := channel } }).2
    obtain ⟨overlays,u,left,hsettle,-⟩ := settleGroup_run costModel transactions (s := recorded)
      (fun r hr => hm _ (hmembers ▸ List.mem_map_of_mem hr))
      ⟨hsound.tallied,hsound.limited,hsound.counted⟩
    have hok : runGroup host admitted s = commitGroup overlays u := by
      rw [runGroup,Exec.bind_of_ok hrun,Exec.bind_of_ok hrecord]
      exact Exec.bind_of_ok hsettle
    rw [hok]
    simp [commitGroup]
  · rw [runGroup,Exec.bind_of_panic hrun]
    simp

/-- The costs of admitted members that are signed come to something. -/
theorem charged_costsOf_pos (hm : ∀ m ∈ admitted, m.From costModel transactions)
    (hn : admitted ≠ []) (hs : ∀ m ∈ admitted, m.transaction.signatures ≠ [])
    (hlen : ∀ m ∈ admitted, m.transaction.signatures.length < 2^57) :
    0 < CostTracker.charged (costsOf admitted) := by
  obtain ⟨first,rest,rfl⟩ := List.exists_cons_of_ne_nil hn
  have hpos := calculateCost_pos costModel (hs first List.mem_cons_self)
    (hlen first List.mem_cons_self)
  rw [costsOf_cons,CostTracker.charged_cons,(hm first List.mem_cons_self).2]
  exact Nat.add_pos_left hpos _

variable (host) in
/-- The locks make no difference to the outcome and to the tracker. -/
theorem runLocked_outcome (guard : LockGuard) (hm : ∀ m ∈ admitted, m.From costModel transactions)
    (h : StageSound s.stage (costsOf admitted+costs)) :
    (runLocked host admitted guard s).1 = (runGroup host admitted (acquireFreezeLock s).2).1 ∧
      (runLocked host admitted guard s).2.stage.costTracker =
        (runGroup host admitted (acquireFreezeLock s).2).2.stage.costTracker := by
  obtain ⟨⟨left,hleft⟩,-⟩ :=
    runGroup_run host costModel transactions (s := (acquireFreezeLock s).2) hm h
  obtain ⟨l,readers,-,hrun⟩ := runLocked_eq host guard hleft.sound.counted
  rw [hrun]
  exact ⟨rfl,rfl⟩

variable (host) in
/-- A group whose accounts are locked ends in an error exactly when its record cannot be sent, and
then its costs are left. -/
theorem runLocked_sends (guard : LockGuard) (hm : ∀ m ∈ admitted, m.From costModel transactions)
    (h : StageSound s.stage (costsOf admitted+costs)) (hn : admitted ≠ [])
    (hlen : ∀ m ∈ admitted, m.transaction.signatures.length < 2^57) :
    ((MembersReturn host s.bank admitted s.programCache →
        (∀ m ∈ admitted, m.transaction.signatures ≠ []) →
          s.stage.pohRecordSender.remaining ≠ some 0) →
          ∀ e, (runLocked host admitted guard s).1 ≠ .err e) ∧
      (¬(MembersReturn host s.bank admitted s.programCache →
        (∀ m ∈ admitted, m.transaction.signatures ≠ []) →
          s.stage.pohRecordSender.remaining ≠ some 0) →
          (runLocked host admitted guard s).1 = .err (.recorder .sendError) ∧
          (runLocked host admitted guard s).2.stage.costTracker.blockCost ≠ 0) := by
  obtain ⟨houtcome,htracker⟩ := runLocked_outcome host guard hm h
  have hreturn : MembersReturn host (acquireFreezeLock s).2.bank admitted
      (acquireFreezeLock s).2.programCache ↔ MembersReturn host s.bank admitted s.programCache :=
    membersReturn_freezeLock host _ s.bank admitted s.programCache
  rw [houtcome,htracker]
  constructor
  · intro hsend e
    by_cases hmembers : MembersReturn host s.bank admitted s.programCache ∧
        ∀ m ∈ admitted, m.transaction.signatures ≠ []
    · exact runGroup_sent (s := (acquireFreezeLock s).2) hm h hn hmembers.2
        (hsend hmembers.1 hmembers.2) e
    · have hpanic :=
        (runGroup_run host costModel transactions (s := (acquireFreezeLock s).2) hm h).2.1
      rw [hreturn] at hpanic
      rw [hpanic.mpr hmembers]
      simp
  · intro hs
    simp only [not_forall,not_not] at hs
    obtain ⟨hmembers,hsigned,hremaining⟩ := hs
    obtain ⟨u,hunsent,hstage⟩ := runGroup_unsent (s := (acquireFreezeLock s).2) hn
      (hreturn.mpr hmembers) hsigned hremaining
    rw [hunsent,hstage]
    refine ⟨rfl,fun hzero => ?_⟩
    have hblock := h.tallied.block
    have hcharged := charged_costsOf_pos hm hn hsigned hlen
    have hle := CostTracker.charged_le_add costs (costsOf admitted)
    change s.stage.costTracker.blockCost = 0 at hzero
    rw [hzero,UInt64.toNat_zero,add_comm] at hblock
    exact (hcharged.trans_le hle).ne hblock

end Group

/-- The receiver is still there when the group comes to send its record. -/
def GroupSends (host : Host) (costModel : CostModel) (group : List (ℕ × Transaction))
    (s : BatchState) : Prop :=
  ∀ admitted t, admitGroup costModel group s = (.ok admitted,t) → admitted ≠ [] →
    ¬AccountLocks.InUse (admitted.map fun m => (m.originalIndex,m.transaction))
      s.stage.accountLocks →
      MembersReturn host s.bank admitted s.programCache →
        (∀ m ∈ admitted, m.transaction.signatures ≠ []) → s.stage.pohRecordSender.remaining ≠ some 0

theorem groupSends_iff {group : List (ℕ × Transaction)} {admitted : List Admitted} {t : BatchState}
    (ha : admitGroup costModel group s = (.ok admitted,t)) :
    GroupSends host costModel group s ↔ (admitted ≠ [] → ¬AccountLocks.InUse
      (admitted.map fun m => (m.originalIndex,m.transaction)) s.stage.accountLocks →
        MembersReturn host s.bank admitted s.programCache →
          (∀ m ∈ admitted, m.transaction.signatures ≠ []) →
            s.stage.pohRecordSender.remaining ≠ some 0) := by
  constructor
  · exact fun hs => hs admitted t ha
  · intro hs admitted' t' ha'
    cases ha.symm.trans ha'
    exact hs

section Groups

variable {txs : List (ℕ × Transaction)}

variable (host costModel) in
/-- A group ends in an error exactly when its record cannot be sent, and then its costs are left. -/
theorem processGroup_sends {group : List (ℕ × Transaction)} (h : StageSound s.stage costs)
    (hm : ∀ tx ∈ group, tx.1 ∈ txs.map Prod.fst)
    (hat : ∀ tx ∈ group, transactions[tx.1]? = some tx.2)
    (hlen : ∀ tx ∈ group, tx.2.signatures.length < 2^57) :
    (GroupSends host costModel group s →
      ∀ e, (processGroup host costModel txs group s).1 ≠ .err e) ∧
      (¬GroupSends host costModel group s →
        (processGroup host costModel txs group s).1 = .err (.recorder .sendError) ∧
        (processGroup host costModel txs group s).2.stage.costTracker.blockCost ≠ 0) := by
  obtain ⟨admitted,t,hrun,ht,⟨hbank,hcache,hlocks⟩,-⟩ :=
    admitGroup_run costModel transactions group h
  have hmem : ∀ m ∈ admitted, (m.originalIndex,m.transaction) ∈ group := fun m hm =>
    (admitGroup_sublist hrun).subset (List.mem_map.mpr ⟨m,hm,rfl⟩)
  have hfrom : ∀ m ∈ admitted, m.From costModel transactions := fun m hm =>
    ⟨hat _ (hmem m hm),admitGroup_cost hrun m hm⟩
  have hrecords := ((admitGroup_queues group).of_run hrun).1
  rw [processGroup_eq host costModel hrun,groupSends_iff hrun]
  by_cases hn : admitted = []
  · rw [if_pos hn]
    exact ⟨fun _ e => by simp,fun hs => (hs fun hn' => absurd hn hn').elim⟩
  rw [if_neg hn,imp_iff_right hn,← hlocks]
  by_cases hu : AccountLocks.InUse (admitted.map fun m => (m.originalIndex,m.transaction))
      t.stage.accountLocks
  · rw [if_pos hu]
    obtain ⟨u,hback,-⟩ := rollBackGroup_run costModel transactions
      (fun m hm' => hm _ (hmem m hm')) ht
    rw [hback]
    exact ⟨fun _ e => by simp,fun hs => (hs fun hu' => absurd hu hu').elim⟩
  rw [if_neg hu,imp_iff_right hu,← hbank,← hcache,← hrecords]
  obtain ⟨readers,hcounted⟩ := ht.counted
  obtain ⟨guard,l,readers',hlocked,hcounted'⟩ := AccountLocks.tryLock_counted hcounted hu
  rw [hlocked]
  have hsound : StageSound { t.stage with accountLocks := l } (costsOf admitted+costs) :=
    ⟨ht.tallied,ht.limited,readers',hcounted'⟩
  have hsends := runLocked_sends host (s := { t with stage := { t.stage with accountLocks := l } })
    (AccountLocks.guardFor (admitted.map fun m => (m.originalIndex,m.transaction))) hfrom hsound hn
    fun m hm' => hlen _ (hmem m hm')
  exact hsends

/-- The receiver is still there whenever a group comes to send its record. -/
def AllSend (host : Host) (costModel : CostModel) (txs : List (ℕ × Transaction)) :
    List (List (ℕ × Transaction)) → BatchState → Prop
  | [], _ => True
  | group :: rest, s => GroupSends host costModel group s ∧
      ∀ t, processGroup host costModel txs group s = (.ok (),t) → AllSend host costModel txs rest t

variable (host costModel) in
theorem processGroups_sends {groups : List (List (ℕ × Transaction))} (h : StageSound s.stage costs)
    (hm : ∀ tx ∈ groups.flatten, tx.1 ∈ txs.map Prod.fst)
    (hat : ∀ tx ∈ groups.flatten, transactions[tx.1]? = some tx.2)
    (hlen : ∀ tx ∈ groups.flatten, tx.2.signatures.length < 2^57) :
    (AllSend host costModel txs groups s →
      ∀ e, (processGroups host costModel txs groups s).1 ≠ .err e) ∧
      (¬AllSend host costModel txs groups s →
        (processGroups host costModel txs groups s).1 = .err (.recorder .sendError) ∧
        (processGroups host costModel txs groups s).2.stage.costTracker.blockCost ≠ 0) := by
  induction groups generalizing s costs with
  | nil => exact ⟨fun _ e => by simp [processGroups],fun hs => (hs trivial).elim⟩
  | cons group rest ih =>
    rw [List.flatten_cons,List.forall_mem_append] at hm hat hlen
    obtain ⟨hsent,hunsent⟩ := processGroup_sends host costModel h hm.1 hat.1 hlen.1
    obtain ⟨⟨left,hleft⟩,-⟩ := processGroup_run host costModel transactions h hm.1 hat.1
    rw [processGroups,Exec.bind_run,AllSend]
    by_cases hg : GroupSends host costModel group s
    · rw [and_iff_right hg]
      have hnoerr := hsent hg
      cases hr : processGroup host costModel txs group s with
      | mk r t =>
        rw [hr] at hleft hnoerr
        cases r with
        | ok u =>
          obtain ⟨hrest,hrest'⟩ := ih hleft.sound hm.2 hat.2 hlen.2
          refine ⟨fun hs => hrest (hs t rfl),fun hs => hrest' fun hall => hs fun t' ht' => ?_⟩
          cases ht'
          exact hall
        | err e => exact absurd rfl (hnoerr e)
        | panic => exact ⟨fun _ e => by simp,fun hs => (hs fun t' ht' => by cases ht').elim⟩
    · obtain ⟨herr,hcost⟩ := hunsent hg
      refine ⟨fun hs => absurd hs.1 hg,fun _ => ?_⟩
      cases hr : processGroup host costModel txs group s with
      | mk r t =>
        rw [hr] at herr hcost
        cases herr
        exact ⟨rfl,hcost⟩

end Groups

/-! ## The tracker when the batch is done -/

/-- Whenever the batch returns, whether with results or with an error, no costs are left. -/
def CleanWhenDone (host : Host) (costModel : CostModel) (transactions : List Transaction)
    (s : BatchState) : Prop :=
  ∀ r t, processBatch host costModel transactions s = (r,t) → r ≠ .panic →
    t.stage.costTracker.blockCost = 0 ∧ t.stage.costTracker.costByWritableAccounts = ∅

/-- Unless a verification panics, the receiver is still there whenever a group comes to send its
record. -/
def BatchSends (host : Host) (costModel : CostModel) (transactions : List Transaction)
    (s : BatchState) : Prop :=
  (¬∃ tx ∈ transactions, tx.verifySignaturesSync host.ed25519 = .panic) →
    AllSend host costModel (txsToSchedule host.ed25519 transactions)
      (TransactionScheduler.schedule (txsToSchedule host.ed25519 transactions))
      (verified host.ed25519 transactions s)

theorem cleanWhenDone_iff (hs : StageSound s.stage costs)
    (hnew : s.stage.costTracker.blockCost = 0 ∧ s.stage.costTracker.costByWritableAccounts = ∅)
    (hlen : ∀ tx ∈ transactions, tx.signatures.length < 2^57) :
    CleanWhenDone host costModel transactions s ↔ BatchSends host costModel transactions s := by
  by_cases hv : ∃ tx ∈ transactions, tx.verifySignaturesSync host.ed25519 = .panic
  · -- The tracker has not been touched.
    refine iff_of_true (fun r t hrun _ => ?_) fun hn => absurd hv hn
    rw [processBatch,failIf_true hv] at hrun
    cases hrun
    exact hnew
  obtain ⟨hsent,hunsent⟩ := processGroups_sends host costModel
    (s := verified host.ed25519 transactions s) hs
    (fun tx ht => List.mem_map_of_mem (schedule_mem.mp ht))
    (fun tx ht => (mem_txsToSchedule.mp (schedule_mem.mp ht)).1)
    (fun tx ht => hlen tx.2 (List.mem_of_getElem? (mem_txsToSchedule.mp (schedule_mem.mp ht)).1))
  rw [CleanWhenDone,BatchSends,processBatch_eq hv,Exec.bind_run]
  constructor
  · intro hclean _
    by_contra hall
    obtain ⟨herr,hcost⟩ := hunsent hall
    cases hr : processGroups host costModel (txsToSchedule host.ed25519 transactions)
        (TransactionScheduler.schedule (txsToSchedule host.ed25519 transactions))
        (verified host.ed25519 transactions s) with
    | mk r t =>
      rw [hr] at herr hcost hclean
      cases herr
      exact hcost (hclean _ _ rfl (by simp)).1
  · intro hsends r t hrun hr
    have hnoerr := hsent (hsends hv)
    cases hg : processGroups host costModel (txsToSchedule host.ed25519 transactions)
        (TransactionScheduler.schedule (txsToSchedule host.ed25519 transactions))
        (verified host.ed25519 transactions s) with
    | mk r' t' =>
      rw [hg] at hrun hnoerr
      cases r' with
      | ok u =>
        cases hrun
        exact ⟨rfl,rfl⟩
      | err e => exact absurd rfl (hnoerr e)
      | panic =>
        cases hrun
        exact absurd rfl hr

end BankingStage

/-- A stage over one wallet, with a receiver that takes so many records. -/
def stageSending (remaining : Option ℕ) : BatchState :=
  { BatchState.new ((∅ : InMemoryAccountStore).store (.ofByte 1) (wallet 1 10)) with
    stage := .new ⟨[],remaining⟩ ⟨[],none⟩ }

end TinySolana
