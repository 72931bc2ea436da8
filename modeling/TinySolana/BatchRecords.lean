import TinySolana.BatchFrame
import TinySolana.BatchPanics
import TinySolana.Foundations.Trace

/-!
# Records and commits of a batch

The record of a group holds the first signatures of all members that were run, and it is sent before
any overlay of the group is flushed. Members that fail have entered it already, so what is recorded
is what is committed only where no member that is run fails.
-/

namespace TinySolana
open Foundations Exec

/-! ## Records in the log -/

/-- The record that an event sends, made from the first signatures of the transactions it names. -/
def BatchEvent.record? (sha256 : List UInt8 → Hash) (transactions : List Transaction) :
    BatchEvent → Option PohRecord
  | recorded indices => some ⟨sha256 (indices.flatMap fun i =>
      (transactions[i]?.bind fun tx => tx.signatures.head?).elim [] Signature.bytes)⟩
  | _ => none

def BatchEvent.records (i : ℕ) : BatchEvent → Bool
  | recorded indices => i ∈ indices
  | _ => false

/-- The first signature of transaction `i` has entered a record. -/
def Recorded (log : List BatchEvent) (i : ℕ) : Prop := ∃ e ∈ log, e.records i = true

/-- The overlay of transaction `i` was flushed. -/
def Flushed (log : List BatchEvent) (i : ℕ) : Prop := ∃ e ∈ log, e.flushes i = true

/-- An event that queues a transaction does nothing else. -/
theorem BatchEvent.of_queued {e : BatchEvent} (h : e.transaction?.isSome = true)
    (sha256 : List UInt8 → Hash) (transactions : List Transaction) :
    e.record? sha256 transactions = none ∧ ∀ i, ¬e.records i = true ∧ ¬e.flushes i = true := by
  cases e with
  | recorded indices => cases h
  | flushed i o => cases h
  | requeued i tx => exact ⟨rfl,fun _ => ⟨nofun,nofun⟩⟩

theorem recorded_append {log log' : List BatchEvent} {i : ℕ} :
    Recorded (log ++ log') i ↔ Recorded log i ∨ Recorded log' i := by
  simp only [Recorded,List.mem_append,or_and_right,exists_or]

theorem flushed_append {log log' : List BatchEvent} {i : ℕ} :
    Flushed (log ++ log') i ↔ Flushed log i ∨ Flushed log' i := by
  simp only [Flushed,List.mem_append,or_and_right,exists_or]

theorem flushed_overlays {overlays : List (ℕ × OverlayStore)} {i : ℕ} :
    Flushed (overlays.map fun o => .flushed o.1 o.2) i ↔ i ∈ overlays.map Prod.fst := by
  simp [Flushed,BatchEvent.flushes]

namespace BankingStage

variable {host : Host} {costModel : CostModel} {transactions : List Transaction}
  {s s' t : BatchState}

/-- What a part of the run has logged: what was sent is what it records, only transactions with
these indices are recorded, those of them that succeed are flushed, and each was recorded before. -/
structure RecordsFor (host : Host) (transactions : List Transaction) (indices : List ℕ)
    (s s' : BatchState) (events : List BatchEvent) : Prop where
  log : s'.log = s.log ++ events
  sent : s'.stage.pohRecordSender.sent = s.stage.pohRecordSender.sent ++
    events.filterMap (BatchEvent.record? host.sha256 transactions)
  recorded : ∀ i, Recorded events i → i ∈ indices
  flushed : ∀ i, Flushed events i ↔ i ∈ indices ∧ Succeeded s' i
  order : ∀ i, Precedes (fun e => e.records i = true) (fun e => e.flushes i = true) events

namespace RecordsFor

variable {indices indices' : List ℕ} {events events' : List BatchEvent}

theorem nothing (s : BatchState) : RecordsFor host transactions [] s s [] where
  log := (List.append_nil _).symm
  sent := (List.append_nil _).symm
  recorded := by simp [Recorded]
  flushed := by simp [Flushed]
  order _ := .of_none nofun

theorem succeeded_recorded (h : RecordsFor host transactions indices s s' events) {i : ℕ}
    (hi : i ∈ indices) (hs : Succeeded s' i) : Recorded events i :=
  (h.order i).announced ((h.flushed i).mpr ⟨hi,hs⟩)

theorem trans (h : RecordsFor host transactions indices s t events)
    (h' : RecordsFor host transactions indices' t s' events')
    (hlater : ∀ i ∈ indices, Succeeded s' i ↔ Succeeded t i) :
    RecordsFor host transactions (indices ++ indices') s s' (events ++ events') where
  log := by rw [h'.log,h.log,List.append_assoc]
  sent := by rw [h'.sent,h.sent,List.filterMap_append,List.append_assoc]
  recorded i hi := by
    rw [List.mem_append]
    exact (recorded_append.mp hi).imp (h.recorded i) (h'.recorded i)
  flushed i := by
    rw [flushed_append,h.flushed,h'.flushed,List.mem_append,or_and_right]
    exact or_congr_left (and_congr_right fun hi => (hlater i hi).symm)
  order i := (h.order i).append (h'.order i)

end RecordsFor

/-! ## Stages that do not record -/

/-- Nothing is recorded or flushed; transactions may be queued again. -/
def OnlyQueues (s s' : BatchState) : Prop :=
  s'.stage.pohRecordSender = s.stage.pohRecordSender ∧
    ∃ events, s'.log = s.log ++ events ∧ ∀ e ∈ events, e.transaction?.isSome

theorem OnlyQueues.of_eq (hsent : s'.stage.pohRecordSender = s.stage.pohRecordSender)
    (hlog : s'.log = s.log) : OnlyQueues s s' := ⟨hsent,[],by simp [hlog],by simp⟩

instance : Std.Refl OnlyQueues := ⟨fun _ => .of_eq rfl rfl⟩

instance : IsTrans BatchState OnlyQueues where
  trans s t u := by
    rintro ⟨hsent,events,hlog,hqueued⟩ ⟨hsent',events',hlog',hqueued'⟩
    refine ⟨hsent'.trans hsent,
      events ++ events',by rw [hlog',hlog,List.append_assoc],fun e he => ?_⟩
    exact (List.mem_append.mp he).elim (hqueued e) (hqueued' e)

theorem OnlyQueues.requeue (s : BatchState) (i : ℕ) (tx : Transaction) :
    OnlyQueues s (requeueTransaction i tx s).2 := by
  unfold requeueTransaction
  rw [Exec.modify_run]
  cases s.stage.txSender.send tx with
  | none => exact .of_eq rfl rfl
  | some c => exact ⟨rfl,[.requeued i tx],rfl,by simp [BatchEvent.transaction?]⟩

theorem onTracker_queues {ε α : Type} (x : Exec CostTracker ε α) : Keeps OnlyQueues (onTracker x) :=
  .zoom (fun _ _ => .of_eq rfl rfl) x

theorem setResult_queues (i : ℕ) (e : TransactionError) : Keeps OnlyQueues (setResult i e) :=
  .modify fun _ => .of_eq rfl rfl

theorem admitGroup_queues (group : List (ℕ × Transaction)) :
    Keeps OnlyQueues (admitGroup costModel group) := by
  induction group with
  | nil => exact .pure []
  | cons tx rest ih =>
    refine .bind .get fun s => ?_
    split
    · exact .bind (onTracker_queues _) fun _ => .bind ih fun _ => .pure _
    · exact .bind (setResult_queues _ _) fun _ => ih

theorem rollBackGroup_queues (txs : List (ℕ × Transaction)) (admitted : List Admitted) :
    Keeps OnlyQueues (rollBackGroup txs admitted) := by
  induction admitted with
  | nil => exact .pure ()
  | cons member rest ih =>
    refine .bind (onTracker_queues _) fun _ => .bind (setResult_queues _ _) fun _ => ?_
    split
    · exact .bind .abort fun _ => ih
    · exact .bind (fun s => .requeue s _ _) fun _ => ih

theorem settleGroup_queues (results : List TransactionProcessResult) :
    Keeps OnlyQueues (settleGroup results) := by
  induction results with
  | nil => exact .pure []
  | cons result rest ih =>
    refine .bind (.modify fun _ => .of_eq rfl rfl) fun _ => ?_
    split
    · exact .bind ih fun _ => .pure _
    · refine .bind (onTracker_queues _) fun _ => ?_
      split
      · exact .bind (fun s => .requeue s _ _) fun _ => .bind (setResult_queues _ _) fun _ => ih
      · exact .bind (setResult_queues _ _) fun _ => ih

variable (host transactions) in
/-- A group that is not run records nothing. -/
theorem OnlyQueues.records {indices : List ℕ} (h : OnlyQueues s s')
    (hfail : ∀ i ∈ indices, ¬Succeeded s' i) :
    ∃ events, RecordsFor host transactions indices s s' events ∧ ∀ i, ¬Recorded events i := by
  obtain ⟨hsent,events,hlog,hqueued⟩ := h
  have hnone := fun e he => BatchEvent.of_queued (hqueued e he) host.sha256 transactions
  have hrecorded : ∀ i, ¬Recorded events i := fun i ⟨e,he,hr⟩ => ((hnone e he).2 i).1 hr
  refine ⟨events,⟨hlog,?_,fun i hi => absurd hi (hrecorded i),fun i => ?_,fun i => ?_⟩,hrecorded⟩
  · rw [hsent,List.filterMap_eq_nil_iff.mpr fun e he => (hnone e he).1,List.append_nil]
  · exact iff_of_false (fun ⟨e,he,hf⟩ => ((hnone e he).2 i).2 hf) fun hi => hfail i hi.1 hi.2
  · exact .of_none fun e he => ((hnone e he).2 i).2

/-! ## A group that is run -/

/-- Recording that returns has sent one record. -/
theorem record_ok {sha256 : List UInt8 → Hash} {txs : List (ℕ × Transaction)} (hn : txs ≠ [])
    (h : Exec.mapErr BatchError.recorder (onRecords (recordTransactions sha256 txs)) s =
      (.ok (),s')) :
    ∃ channel, s' = { s with stage := { s.stage with pohRecordSender := channel } } ∧
      channel.sent = s.stage.pohRecordSender.sent ++
        [⟨sha256 (txs.flatMap fun tx => tx.2.signatures.head?.elim [] Signature.bytes)⟩] := by
  by_cases hu : ∃ tx ∈ txs, tx.2.signatures = []
  · cases h.symm.trans (record_unsigned sha256 hn hu s)
  obtain ⟨-,hrun⟩ | ⟨-,channel,hsent,hrun⟩ := record_sends sha256 hn hu s
  · cases h.symm.trans hrun
  · cases h.symm.trans hrun
    exact ⟨channel,rfl,hsent⟩

/-- Every member of a group is processed successfully, each over the programs that the members
before it left in the cache. -/
def MembersSucceed (host : Host) (bank : Bank) : List Admitted → ProgramCache → Prop
  | [], _ => True
  | member :: rest, cache =>
    (∃ overlay, (bank.processSingleTransaction host member.transaction member.cost.sum cache).1 =
      .ok overlay) ∧ MembersSucceed host bank rest
        (bank.processSingleTransaction host member.transaction member.cost.sum cache).2

instance MembersSucceed.decidable (host : Host) (bank : Bank) :
    (admitted : List Admitted) → (cache : ProgramCache) → Decidable
    (MembersSucceed host bank admitted cache)
  | [], _ => .isTrue trivial
  | _ :: rest, _ => @instDecidableAnd _ _ (decidable_of_iff _ Outcome.verdict_eq_ok)
    (decidable host bank rest _)

theorem membersSucceed_freezeLock (n : ℕ) (bank : Bank) (admitted : List Admitted)
    (cache : ProgramCache) :
    MembersSucceed host { bank with freezeLockCount := n } admitted cache ↔
      MembersSucceed host bank admitted cache := by
  induction admitted generalizing cache with
  | nil => exact Iff.rfl
  | cons member rest ih => exact and_congr_right fun _ => ih _

/-- An attempt over the cache is successful exactly when the code is. -/
theorem attempt_onCache_ok {ε α : Type} {x : Exec ProgramCache ε α} {r : Except ε α}
    (h : (attempt (onCache x) : Batch (Except ε α)) s = (.ok r,t)) :
    (r.isOk = true ↔ ∃ a, (x s.programCache).1 = .ok a) ∧
      t = { s with programCache := (x s.programCache).2 } := by
  unfold attempt onCache Exec.zoom at h
  cases hx : (x s.programCache).1 with
  | ok a =>
    simp only [hx] at h
    cases h
    exact ⟨iff_of_true rfl ⟨a,rfl⟩,rfl⟩
  | err e =>
    simp only [hx] at h
    cases h
    exact ⟨iff_of_false nofun nofun,rfl⟩
  | panic =>
    simp only [hx] at h
    cases h

theorem executeGroup_succeeds {admitted : List Admitted} {results : List TransactionProcessResult}
    (h : executeGroup host admitted s = (.ok results,t)) :
    (∀ r ∈ results, r.processingResult.isOk = true) ↔
      MembersSucceed host s.bank admitted s.programCache := by
  induction admitted generalizing s results with
  | nil =>
    cases h
    exact iff_of_true nofun trivial
  | cons member rest ih =>
    simp only [executeGroup,Exec.get_bind] at h
    obtain ⟨r,s₁,hx,h⟩ := Exec.bind_ok.mp h
    obtain ⟨results',s₂,hrest,h⟩ := Exec.bind_ok.mp h
    cases h
    obtain ⟨hok,rfl⟩ := attempt_onCache_ok hx
    rw [MembersSucceed,List.forall_mem_cons,hok]
    exact and_congr_right fun _ => ih hrest

/-- A group that returns has been recorded before its results are settled. -/
theorem runGroup_recorded {admitted : List Admitted} (hn : admitted ≠ [])
    (h : runGroup host admitted s = (.ok (),s')) : ∃ results overlays s₁ t u,
      executeGroup host admitted s = (.ok results,s₁) ∧
      t.log = s.log ++ [.recorded (admitted.map Admitted.originalIndex)] ∧
      t.stage.pohRecordSender.sent = s.stage.pohRecordSender.sent ++
        [⟨host.sha256 (admitted.flatMap fun m => m.transaction.signatures.head?.elim []
          Signature.bytes)⟩] ∧
      (∀ i, standing t i = standing s i) ∧
      settleGroup results t = (.ok overlays,u) ∧ s' = (commitGroup overlays u).2 := by
  obtain ⟨results,overlays,s₁,s₂,u,hx,hrec,hreach,hset,rfl⟩ := runGroup_ok h
  have hs₁ : s₁.stage = s.stage ∧ s₁.log = s.log := by
    obtain ⟨t,hstage,hlog,⟨-,_,hrun⟩ | ⟨-,hrun⟩⟩ := executeGroup_run host admitted s
    · cases hx.symm.trans hrun
      exact ⟨hstage,hlog⟩
    · cases hx.symm.trans hrun
  obtain ⟨channel,rfl,hchannel⟩ := record_ok (mt List.map_eq_nil_iff.mp hn) hrec
  rw [hs₁.1,List.flatMap_map] at hchannel
  exact ⟨results,overlays,s₁,_,u,hx,congrArg (· ++ _) hs₁.2,hchannel,
    fun i => hreach _ _ (sameStanding_across i),hset,rfl⟩

/-- What a group that is run logs: its record, then what is queued again, then what is flushed. -/
def groupEvents (indices : List ℕ) (queued : List BatchEvent) (overlays : List (ℕ × OverlayStore)) :
    List BatchEvent :=
  .recorded indices :: (queued ++ overlays.map fun o => .flushed o.1 o.2)

section groupEvents

variable {indices : List ℕ} {queued : List BatchEvent} {overlays : List (ℕ × OverlayStore)}

theorem recorded_groupEvents (hq : ∀ e ∈ queued, e.transaction?.isSome) (i : ℕ) :
    Recorded (groupEvents indices queued overlays) i ↔ i ∈ indices := by
  constructor
  · rintro ⟨e,he,hr⟩
    rcases List.mem_cons.mp he with rfl | he
    · exact of_decide_eq_true hr
    rcases List.mem_append.mp he with he | he
    · exact absurd hr ((BatchEvent.of_queued (hq e he) default []).2 i).1
    · obtain ⟨o,-,rfl⟩ := List.mem_map.mp he
      cases hr
  · exact fun hi => ⟨_,List.mem_cons_self,decide_eq_true hi⟩

theorem flushed_groupEvents (hq : ∀ e ∈ queued, e.transaction?.isSome) (i : ℕ) :
    Flushed (groupEvents indices queued overlays) i ↔ i ∈ overlays.map Prod.fst := by
  constructor
  · rintro ⟨e,he,hf⟩
    rcases List.mem_cons.mp he with rfl | he
    · cases hf
    rcases List.mem_append.mp he with he | he
    · exact absurd hf ((BatchEvent.of_queued (hq e he) default []).2 i).2
    · exact flushed_overlays.mp ⟨e,he,hf⟩
  · intro hi
    obtain ⟨e,he,hf⟩ := flushed_overlays.mpr hi
    exact ⟨e,List.mem_cons_of_mem _ (List.mem_append_right _ he),hf⟩

theorem sent_groupEvents (hq : ∀ e ∈ queued, e.transaction?.isSome) (sha256 : List UInt8 → Hash)
    (transactions : List Transaction) :
    (groupEvents indices queued overlays).filterMap (BatchEvent.record? sha256 transactions) =
      [⟨sha256 (indices.flatMap fun i =>
        (transactions[i]?.bind fun tx => tx.signatures.head?).elim [] Signature.bytes)⟩] := by
  have hqueue : queued.filterMap (BatchEvent.record? sha256 transactions) = [] :=
    List.filterMap_eq_nil_iff.mpr fun e he => (BatchEvent.of_queued (hq e he) sha256 transactions).1
  have hflush : (overlays.map fun o => .flushed o.1 o.2).filterMap
      (BatchEvent.record? sha256 transactions) = [] := by
    rw [List.filterMap_map]
    exact List.filterMap_eq_nil_iff.mpr fun _ _ => rfl
  rw [groupEvents,List.filterMap_cons,List.filterMap_append,hqueue,hflush]
  rfl

/-- What the record of a group names may be flushed behind it. -/
theorem order_groupEvents (hq : ∀ e ∈ queued, e.transaction?.isSome)
    (hsub : overlays.map Prod.fst ⊆ indices) (i : ℕ) :
    Precedes (fun e => e.records i = true) (fun e => e.flushes i = true)
      (groupEvents indices queued overlays) := by
  by_cases hi : i ∈ indices
  · have hfirst : Precedes (fun e : BatchEvent => e.records i = true) (fun e => e.flushes i = true)
        [.recorded indices] := .of_none (by simp [BatchEvent.flushes])
    exact hfirst.append_of_announced ⟨_,List.mem_singleton_self _,decide_eq_true hi⟩ _
  · exact .of_none fun e he hf => hi (hsub ((flushed_groupEvents hq i).mp ⟨e,he,hf⟩))

end groupEvents

/-- A group that is run records all its members. They all succeed exactly when each is processed
successfully. -/
theorem runGroup_records {admitted : List Admitted} (hn : admitted ≠ [])
    (hat : ∀ m ∈ admitted, transactions[m.originalIndex]? = some m.transaction)
    (hnd : (admitted.map Admitted.originalIndex).Nodup)
    (hfresh : ∀ i ∈ admitted.map Admitted.originalIndex, Succeeded s i)
    (h : runGroup host admitted s = (.ok (),s')) : ∃ events,
      RecordsFor host transactions (admitted.map Admitted.originalIndex) s s' events ∧
      ((∀ i, Recorded events i → Succeeded s' i) ↔ MembersSucceed host s.bank admitted
        s.programCache) := by
  obtain ⟨results,overlays,s₁,t,u,hx,hlog,hsent,hst,hset,rfl⟩ := runGroup_recorded hn h
  obtain ⟨hsent',queued,hlog',hq⟩ := (settleGroup_queues results).of_run hset
  have hmembers : (results.map fun r => r.member.originalIndex) =
      admitted.map Admitted.originalIndex := by
    rw [← (executeGroup_results hx).1,List.map_map]
    rfl
  have hfresh' : ∀ r ∈ results, Succeeded t r.member.originalIndex := by
    intro r hr
    rw [succeeded_iff,hst]
    exact hfresh _ (hmembers ▸ List.mem_map_of_mem hr)
  have hsucceeds := fun r (hr : r ∈ results) => settled_succeeds (hmembers ▸ hnd) hfresh' hset hr
  have hindices := settled_indices (hmembers ▸ hnd) hfresh' hset
  rw [hmembers] at hindices
  have hflushed : ∀ i, i ∈ overlays.map Prod.fst ↔
      i ∈ admitted.map Admitted.originalIndex ∧ Succeeded (commitGroup overlays u).2 i :=
        fun i => by
    rw [hindices,List.mem_filter,decide_eq_true_iff]
  refine ⟨groupEvents (admitted.map Admitted.originalIndex) queued overlays,⟨?_,?_,fun i hi =>
    (recorded_groupEvents hq i).mp hi,fun i => (flushed_groupEvents hq i).trans (hflushed i),
    order_groupEvents hq fun i hi => ((hflushed i).mp hi).1⟩,?_⟩
  · change u.log ++ _ = _
    rw [hlog',hlog,List.append_assoc,List.append_assoc]
    rfl
  · have hown : (admitted.flatMap fun m => m.transaction.signatures.head?.elim [] Signature.bytes) =
        (admitted.map Admitted.originalIndex).flatMap fun i =>
          (transactions[i]?.bind fun tx => tx.signatures.head?).elim [] Signature.bytes := by
      rw [List.flatMap_map]
      refine List.flatMap_congr fun m hm => ?_
      rw [hat m hm]
      rfl
    rw [sent_groupEvents hq,← hown]
    exact (congrArg Channel.sent hsent').trans hsent
  · rw [← executeGroup_succeeds hx]
    simp only [recorded_groupEvents hq,← hmembers]
    constructor
    · exact fun hall r hr => (hsucceeds r hr).mp (hall _ (List.mem_map_of_mem hr))
    · intro hall i hi
      obtain ⟨r,hr,rfl⟩ := List.mem_map.mp hi
      exact (hsucceeds r hr).mpr (hall r hr)

/-! ## Groups -/

/-- Unless some account of the group is in use, every admitted member is processed successfully. -/
def GroupSucceeds (host : Host) (costModel : CostModel) (group : List (ℕ × Transaction))
    (s : BatchState) : Prop :=
  ∀ admitted t, admitGroup costModel group s = (.ok admitted,t) →
    ¬AccountLocks.InUse (admitted.map fun m => (m.originalIndex,m.transaction))
      t.stage.accountLocks →
      MembersSucceed host t.bank admitted t.programCache

theorem groupSucceeds_iff {group : List (ℕ × Transaction)} {admitted : List Admitted}
    (ha : admitGroup costModel group s = (.ok admitted,t)) :
    GroupSucceeds host costModel group s ↔ (¬AccountLocks.InUse
      (admitted.map fun m => (m.originalIndex,m.transaction)) t.stage.accountLocks →
        MembersSucceed host t.bank admitted t.programCache) := by
  constructor
  · exact fun hg => hg admitted t ha
  · intro hg admitted' t' ha'
    cases ha.symm.trans ha'
    exact hg

instance (host : Host) (costModel : CostModel) (group : List (ℕ × Transaction)) (s : BatchState) :
    Decidable (GroupSucceeds host costModel group s) :=
  match ha : admitGroup costModel group s with
  | (.ok _,_) => decidable_of_iff _ (groupSucceeds_iff ha).symm
  | (.err _,_) => .isTrue fun _ _ ha' => nomatch ha.symm.trans ha'
  | (.panic,_) => .isTrue fun _ _ ha' => nomatch ha.symm.trans ha'

/-- The locks of a group leave the results and what is recorded to its run. -/
theorem runLocked_ok {admitted : List Admitted} {guard : LockGuard}
    (h : runLocked host admitted guard s = (.ok (),s')) :
    ∃ t, runGroup host admitted (acquireFreezeLock s).2 = (.ok (),t) ∧ s'.log = t.log ∧
      s'.stage.pohRecordSender = t.stage.pohRecordSender ∧ s'.finalResults = t.finalResults := by
  obtain ⟨s₅,h,hdrop⟩ := Exec.ensuring_ok h
  obtain ⟨_,s₃,hfl,h⟩ := Exec.bind_ok.mp h
  obtain rfl : (acquireFreezeLock s).2 = s₃ := congrArg Prod.snd hfl
  obtain ⟨t,hrun,hdf⟩ := Exec.ensuring_ok h
  obtain rfl : (dropFreezeLock t).2 = s₅ := congrArg Prod.snd hdf
  obtain rfl := congrArg Prod.snd hdrop
  exact ⟨t,hrun,rfl,rfl,rfl⟩

/-- A group whose accounts are locked records its members, and leaves the others as they are. -/
theorem runLocked_records {admitted : List Admitted} {guard : LockGuard} (hn : admitted ≠ [])
    (hat : ∀ m ∈ admitted, transactions[m.originalIndex]? = some m.transaction)
    (hnd : (admitted.map Admitted.originalIndex).Nodup)
    (hfresh : ∀ i ∈ admitted.map Admitted.originalIndex, Succeeded s i)
    (h : runLocked host admitted guard s = (.ok (),s')) : ∃ events,
      RecordsFor host transactions (admitted.map Admitted.originalIndex) s s' events ∧
      ((∀ i, Recorded events i → Succeeded s' i) ↔ MembersSucceed host s.bank admitted
        s.programCache) ∧
      ∀ i ∉ admitted.map Admitted.originalIndex, Succeeded s' i ↔ Succeeded s i := by
  obtain ⟨u,hrun,hlog,hsent,hresults⟩ := runLocked_ok h
  obtain ⟨events,hrecords,hiff⟩ := runGroup_records (s := (acquireFreezeLock s).2) hn
    hat hnd hfresh hrun
  have hsame : ∀ i, Succeeded s' i ↔ Succeeded u i := fun i => by
    rw [Succeeded,Succeeded,hresults]
  refine ⟨events,⟨hlog.trans hrecords.log,(congrArg Channel.sent hsent).trans hrecords.sent,
    hrecords.recorded,fun i => ?_,hrecords.order⟩,?_,fun i him => ?_⟩
  · rw [hsame]
    exact hrecords.flushed i
  · simp only [hsame]
    rw [hiff]
    exact membersSucceed_freezeLock _ s.bank admitted s.programCache
  · have hk := (runGroup_keeps (sameStanding_across i) (sameStanding_commits host i)
      fun m hm he => him (List.mem_map.mpr ⟨m,hm,he⟩)).of_run hrun
    rw [hsame,succeeded_iff,hk]
    exact Iff.rfl

namespace RecordsFor

variable {indices indices' : List ℕ} {events : List BatchEvent}

/-- More indices make no difference where none of them succeeds. -/
theorem widen (h : RecordsFor host transactions indices s s' events) (hsub : indices ⊆ indices')
    (hfail : ∀ i ∈ indices', Succeeded s' i → i ∈ indices) :
    RecordsFor host transactions indices' s s' events where
  log := h.log
  sent := h.sent
  recorded i hi := hsub (h.recorded i hi)
  flushed i := (h.flushed i).trans
    ⟨fun hi => ⟨hsub hi.1,hi.2⟩,fun hi => ⟨hfail i hi.1 hi.2,hi.2⟩⟩
  order := h.order

end RecordsFor

/-- A group that is run records its admitted members and no others. -/
theorem processGroup_records {txs group : List (ℕ × Transaction)} (hnd : (group.map Prod.fst).Nodup)
    (hat : ∀ tx ∈ group, transactions[tx.1]? = some tx.2)
    (hfresh : ∀ i ∈ group.map Prod.fst, Succeeded s i)
    (h : processGroup host costModel txs group s = (.ok (),s')) : ∃ events,
      RecordsFor host transactions (group.map Prod.fst) s s' events ∧
      ((∀ i, Recorded events i → Succeeded s' i) ↔ GroupSucceeds host costModel group s) := by
  have hadmitted := h
  simp only [processGroup] at hadmitted
  obtain ⟨admitted,t,ha,-⟩ := Exec.bind_ok.mp hadmitted
  have hqueues : OnlyQueues s t := (admitGroup_queues group).of_run ha
  obtain ⟨hsub,hnd'⟩ := admitted_nodup hnd ha
  have hst := fun i hi => succeeded_admitted hnd hfresh ha (i := i) hi
  rw [processGroup_eq host costModel ha] at h
  rw [groupSucceeds_iff ha]
  split at h
  · next hnil =>
    cases h
    subst hnil
    obtain ⟨events,hrecords,hnone⟩ := hqueues.records host transactions
      fun i hi hs => List.not_mem_nil ((hst i hi).mp hs)
    exact ⟨events,hrecords,iff_of_true (fun i hi => absurd hi (hnone i)) fun _ => trivial⟩
  split at h
  · next hu =>
    have hback : OnlyQueues s s' :=
      IsTrans.trans _ _ _ hqueues ((rollBackGroup_queues txs admitted).of_run h)
    obtain ⟨events,hrecords,hnone⟩ := hback.records host transactions
      fun i hi => rolledBack_fails hnd' h (hst i hi)
    exact ⟨events,hrecords,iff_of_true (fun i hi => absurd hi (hnone i)) fun hn => absurd hu hn⟩
  · next hn hu =>
    obtain ⟨events₀,hown,hnone⟩ := OnlyQueues.records host transactions hqueues
      (List.forall_mem_nil fun i => ¬Succeeded t i)
    let locked : BatchState := { t with stage := { t.stage with accountLocks :=
      (AccountLocks.tryLockAccountsForGroup (admitted.map fun m => (m.originalIndex,m.transaction))
        t.stage.accountLocks).2 } }
    obtain ⟨events,hrecords,hiff,hothers⟩ := runLocked_records (s := locked) hn
      (fun m hm => hat _ ((admitGroup_sublist ha).subset (List.mem_map.mpr ⟨m,hm,rfl⟩))) hnd'
      (fun i hi => (hst i (hsub.subset hi)).mpr hi) h
    have hlocked : RecordsFor host transactions (admitted.map Admitted.originalIndex) t s' events :=
      ⟨hrecords.log,hrecords.sent,hrecords.recorded,hrecords.flushed,hrecords.order⟩
    refine ⟨events₀ ++ events,(hown.trans hlocked (List.forall_mem_nil _)).widen hsub.subset
      fun i hi hs => ?_,?_⟩
    · by_contra him
      exact him ((hst i hi).mp ((hothers i him).mp hs))
    · have hrecorded : ∀ i, Recorded (events₀ ++ events) i ↔ Recorded events i := fun i =>
        recorded_append.trans (or_iff_right (hnone i))
      simp only [hrecorded]
      exact hiff.trans ⟨fun hm _ => hm,fun hm => hm hu⟩

/-- In every group that is run, every member is processed successfully. -/
def AllSucceed (host : Host) (costModel : CostModel) (txs : List (ℕ × Transaction)) :
    List (List (ℕ × Transaction)) → BatchState → Prop
  | [], _ => True
  | group :: rest, s => GroupSucceeds host costModel group s ∧
      ∀ t, processGroup host costModel txs group s = (.ok (),t) →
        AllSucceed host costModel txs rest t

theorem allSucceed_cons {txs : List (ℕ × Transaction)} {group : List (ℕ × Transaction)}
    {rest : List (List (ℕ × Transaction))}
    (h : processGroup host costModel txs group s = (.ok (),t)) :
    AllSucceed host costModel txs (group :: rest) s ↔
      GroupSucceeds host costModel group s ∧ AllSucceed host costModel txs rest t := by
  refine and_congr_right fun _ => ⟨fun hall => hall t h,fun hall t' ht' => ?_⟩
  cases h.symm.trans ht'
  exact hall

instance AllSucceed.decidable (host : Host) (costModel : CostModel) (txs : List (ℕ × Transaction)) :
    (groups : List (List (ℕ × Transaction))) → (s : BatchState) →
      Decidable (AllSucceed host costModel txs groups s)
  | [], _ => .isTrue trivial
  | group :: rest, s =>
    match h : processGroup host costModel txs group s with
    | (.ok (),t) =>
      have := decidable host costModel txs rest t
      decidable_of_iff _ (allSucceed_cons h).symm
    | (.err _,_) => decidable_of_iff (GroupSucceeds host costModel group s)
      ⟨fun hg => ⟨hg,fun _ h' => nomatch h.symm.trans h'⟩,And.left⟩
    | (.panic,_) => decidable_of_iff (GroupSucceeds host costModel group s)
      ⟨fun hg => ⟨hg,fun _ h' => nomatch h.symm.trans h'⟩,And.left⟩

theorem processGroups_records {txs : List (ℕ × Transaction)}
    {groups : List (List (ℕ × Transaction))} (hnd : (groups.flatten.map Prod.fst).Nodup)
    (hat : ∀ tx ∈ groups.flatten, transactions[tx.1]? = some tx.2)
    (hfresh : ∀ i ∈ groups.flatten.map Prod.fst, Succeeded s i)
    (h : processGroups host costModel txs groups s = (.ok (),s')) : ∃ events,
      RecordsFor host transactions (groups.flatten.map Prod.fst) s s' events ∧
      ((∀ i, Recorded events i → Succeeded s' i) ↔ AllSucceed host costModel txs groups s) := by
  induction groups generalizing s with
  | nil =>
    cases h
    exact ⟨[],.nothing _,iff_of_true (fun i ⟨e,he,_⟩ => absurd he List.not_mem_nil) trivial⟩
  | cons group rest ih =>
    simp only [processGroups] at h
    obtain ⟨_,t,hg,hr⟩ := Exec.bind_ok.mp h
    rw [List.flatten_cons,List.map_append] at hnd hfresh
    rw [List.flatten_cons,List.forall_mem_append] at hat
    obtain ⟨hndg,hndr,hdisj⟩ := List.nodup_append.mp hnd
    obtain ⟨events,hown,hiff⟩ := processGroup_records hndg hat.1
      (fun i hi => hfresh i (List.mem_append_left _ hi)) hg
    obtain ⟨events',hrest,hiff'⟩ := ih hndr hat.2 (fun i hi => by
      rw [succeeded_iff,processGroup_standing (fun hi' => hdisj i hi' i hi rfl) hg]
      exact hfresh i (List.mem_append_right _ hi)) hr
    -- The groups behind leave the results of this one alone.
    have hlater : ∀ i ∈ group.map Prod.fst, Succeeded s' i ↔ Succeeded t i := fun i hi => by
      rw [succeeded_iff,succeeded_iff,processGroups_standing (fun hi' => hdisj i hi i hi' rfl) hr]
    rw [List.flatten_cons,List.map_append]
    refine ⟨events ++ events',hown.trans hrest hlater,?_⟩
    have hsplit : (∀ i, Recorded (events ++ events') i → Succeeded s' i) ↔
        (∀ i, Recorded events i → Succeeded t i) ∧ ∀ i, Recorded events' i → Succeeded s' i := by
      simp only [recorded_append,or_imp,forall_and]
      exact and_congr_left fun _ => forall_congr' fun i =>
        imp_congr_right fun hi => hlater i (hown.recorded i hi)
    rw [hsplit,hiff,hiff',allSucceed_cons hg]

/-! ## The batch -/

/-- What the batch sends is what its log records. A first signature is recorded exactly when the
result of its transaction is empty, which is when its overlay is flushed, and it is recorded
before. -/
structure RecordedIsCommitted (host : Host) (transactions : List Transaction) (before : BatchState)
    (results : List (Option TransactionError)) (after : BatchState) : Prop where
  sent : after.stage.pohRecordSender.sent = before.stage.pohRecordSender.sent ++
    after.log.filterMap (BatchEvent.record? host.sha256 transactions)
  recorded : ∀ i < transactions.length, Recorded after.log i ↔ results[i]? = some none
  committed : ∀ i < transactions.length, Flushed after.log i ↔ results[i]? = some none
  order : ∀ i, Precedes (fun e => e.records i = true) (fun e => e.flushes i = true) after.log

/-- In every group that the batch runs, every member is processed successfully. -/
def BatchSucceeds (host : Host) (costModel : CostModel) (transactions : List Transaction)
    (s : BatchState) : Prop :=
  AllSucceed host costModel (txsToSchedule host.ed25519 transactions)
    (TransactionScheduler.schedule (txsToSchedule host.ed25519 transactions))
    (verified host.ed25519 transactions s)

instance (host : Host) (costModel : CostModel) (transactions : List Transaction) (s : BatchState) :
    Decidable (BatchSucceeds host costModel transactions s) :=
  inferInstanceAs (Decidable (AllSucceed _ _ _ _ _))

end BankingStage

/-- What a batch records is what it commits exactly when no member of a group that is run fails. -/
theorem recorded_committed_iff {host : Host} {costModel : CostModel}
    {transactions : List Transaction} {s s' : BatchState} {results : List (Option TransactionError)}
    (h : BankingStage.processBatch host costModel transactions s = (.ok results,s')) :
    BankingStage.RecordedIsCommitted host transactions s results s' ↔
      BankingStage.BatchSucceeds host costModel transactions s := by
  have hscheduled := fun i => BankingStage.succeeded_scheduled h (i := i)
  obtain ⟨hp,s₁,hg,rfl,rfl⟩ := BankingStage.processBatch_ok h
  have hperm := TransactionScheduler.schedule_flatten_perm
    (BankingStage.txsToSchedule host.ed25519 transactions)
  have hmem : ∀ tx ∈ (TransactionScheduler.schedule
      (BankingStage.txsToSchedule host.ed25519 transactions)).flatten, transactions[tx.1]? =
        some tx.2 :=
    fun tx ht => (BankingStage.mem_txsToSchedule.mp (hperm.mem_iff.mp ht)).1
  obtain ⟨events,hrecords,hiff⟩ := BankingStage.processGroups_records
    ((hperm.map Prod.fst).nodup_iff.mpr (BankingStage.txsToSchedule_nodup _ _)) hmem (fun i hi => by
      obtain ⟨tx,ht,rfl⟩ := List.mem_map.mp hi
      rw [BankingStage.succeeded_iff,BankingStage.verified_scheduled (hperm.mem_iff.mp ht)]
      rfl) hg
  obtain rfl : s₁.log = events := hrecords.log
  rw [BankingStage.BatchSucceeds,← hiff]
  constructor
  · intro hr i hi
    obtain ⟨tx,ht,rfl⟩ := List.mem_map.mp (hrecords.recorded i hi)
    exact (hr.recorded tx.1 (List.getElem?_eq_some_iff.mp (hmem tx ht)).1).mp hi
  · intro hall
    refine ⟨hrecords.sent,fun i _ => ⟨hall i,fun hs => ?_⟩,fun i _ => ?_,hrecords.order⟩
    · exact hrecords.succeeded_recorded (hscheduled i hs) hs
    · exact (hrecords.flushed i).trans (and_iff_right_of_imp (hscheduled i))

/-- A payment that is processed successfully is recorded and committed. -/
theorem payment_recorded :
    let s := BatchState.new ((∅ : InMemoryAccountStore).store (.ofByte 1) (wallet 1 10))
    let run := BankingStage.processBatch default .new [payment [blankSignature] 3] s
    run.1 = .ok [none] ∧
      BankingStage.RecordedIsCommitted default [payment [blankSignature] 3] s [none] run.2 := by
  intro s run
  have hok : run.1 = .ok [none] := by decide +kernel
  have hrun : run = (.ok [none],run.2) := by rw [← hok]
  have hsucceeds : BankingStage.BatchSucceeds default .new [payment [blankSignature] 3] s := by
    decide +kernel
  exact ⟨hok,(recorded_committed_iff hrun).mpr hsucceeds⟩

/-- The second payment overdraws the wallet and is recorded all the same. -/
theorem failed_payment_recorded :
    let s := BatchState.new ((∅ : InMemoryAccountStore).store (.ofByte 1) (wallet 1 10))
    let batch := [payment [blankSignature] 3,payment [blankSignature] 30]
    let results := [none,some (.programError .insufficientFunds)]
    let run := BankingStage.processBatch default .new batch s
    run.1 = .ok results ∧ ¬BankingStage.RecordedIsCommitted default batch s results run.2 := by
  intro s batch results run
  have hok : run.1 = .ok results := by decide +kernel
  have hrecorded : ∃ e ∈ run.2.log, e.records 1 = true := by decide +kernel
  refine ⟨hok,fun h => ?_⟩
  have hcommitted := (h.recorded 1 (by decide)).mp hrecorded
  cases hcommitted

end TinySolana
