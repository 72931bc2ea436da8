import TinySolana.BankingStage

/-!
# Stages of a batch

The frame of the stages of a group: a relation that holds across the assignments of a stage holds
across its runs. The assignments that enter results or queue transactions are those for members; a
relation about one index need not hold across those of other members. What the stages return.
-/

namespace TinySolana
open Foundations Exec

/-- The relation holds across every assignment of the stages before the commit, where results are
entered for members in `P` and members in `P` are queued. -/
structure AcrossStages (P : ℕ × Transaction → Prop)
    (R : BatchState → BatchState → Prop) : Prop where
  locks : ∀ s l, R s { s with stage := { s.stage with accountLocks := l } }
  tracker : ∀ s c, R s { s with stage := { s.stage with costTracker := c } }
  records : ∀ s c, R s { s with stage := { s.stage with pohRecordSender := c } }
  cache : ∀ s c, R s { s with programCache := c }
  metrics : ∀ s ok, R s { s with bank := s.bank.recordTransactionMetrics ok }
  freezeLock : ∀ s n, R s { s with bank := { s.bank with freezeLockCount := n } }
  recorded : ∀ s indices, R s { s with log := s.log ++ [.recorded indices] }
  result : ∀ s tx e, P tx → R s { s with finalResults := s.finalResults.set tx.1 (some e) }
  requeued : ∀ s tx, P tx → R s (BankingStage.requeueTransaction tx.1 tx.2 s).2

/-- The overlay comes from processing the transaction on some bank. -/
def Produced (host : Host) (tx : Transaction) (overlay : OverlayStore) : Prop :=
  ∃ (bank : Bank) (computeBudget : UInt64) (cache cache' : ProgramCache),
    bank.processSingleTransaction host tx computeBudget cache = (.ok overlay,cache')

/-- The relation holds across commits of overlays that processing members in `P` has produced. -/
def AcrossCommits (host : Host) (P : ℕ × Transaction → Prop) (R : BatchState → BatchState → Prop) :
    Prop :=
  ∀ s overlays, (∀ o ∈ overlays, ∃ tx, P (o.1,tx) ∧ Produced host tx o.2) →
    R s (BankingStage.commitGroup overlays s).2

/-- What is looked up for a member in `P` is in `P`. -/
def LookupClosed (txsToSchedule : List (ℕ × Transaction)) (P : ℕ × Transaction → Prop) : Prop :=
  ∀ t ∈ txsToSchedule, ∀ tx, P (t.1,tx) → P t

namespace BankingStage

variable {host : Host} {costModel : CostModel} {P : ℕ × Transaction → Prop}
  {R : BatchState → BatchState → Prop}

theorem setResult_keeps (hR : AcrossStages P R) {i : ℕ} {tx : Transaction} (hi : P (i,tx))
    (e : TransactionError) : Keeps R (setResult i e) := fun s => hR.result s (i,tx) e hi

theorem record_keeps (hR : AcrossStages P R) (x : Exec (Channel PohRecord) RecorderError Unit) :
    Keeps R (Exec.mapErr BatchError.recorder (onRecords x)) := .mapErr (.zoom hR.records x)

theorem locks_keeps {ε α : Type} (hR : AcrossStages P R) (x : Exec AccountLockState ε α) :
    Keeps R (onLocks x) := .zoom hR.locks x

theorem logRecorded_keeps (hR : AcrossStages P R) (indices : List ℕ) :
    Keeps R (logEvents [.recorded indices]) := fun s => hR.recorded s indices

variable [Std.Refl R] [IsTrans BatchState R]

theorem admitGroup_keeps (hR : AcrossStages P R) {group : List (ℕ × Transaction)}
    (hg : ∀ tx ∈ group, P tx) : Keeps R (admitGroup costModel group) := by
  induction group with
  | nil => exact .pure []
  | cons tx rest ih =>
    have ih := ih fun t ht => hg t (List.mem_cons_of_mem _ ht)
    refine .bind .get fun s => ?_
    split
    · exact .bind (.zoom hR.tracker _) fun _ => .bind ih fun _ => .pure _
    · exact .bind (setResult_keeps hR (hg tx List.mem_cons_self) _) fun _ => ih

theorem rollBackGroup_keeps (hR : AcrossStages P R) {txsToSchedule : List (ℕ × Transaction)}
    (hP : LookupClosed txsToSchedule P) {admitted : List Admitted}
    (hg : ∀ m ∈ admitted, P (m.originalIndex,m.transaction)) :
    Keeps R (rollBackGroup txsToSchedule admitted) := by
  induction admitted with
  | nil => exact .pure ()
  | cons member rest ih =>
    have ih := ih fun m hm => hg m (List.mem_cons_of_mem _ hm)
    have hi := hg member List.mem_cons_self
    refine .bind (.zoom hR.tracker _) fun _ => .bind (setResult_keeps hR hi _) fun _ => ?_
    split
    · exact .bind .abort fun _ => ih
    · next t ht =>
      have hti : t.1 = member.originalIndex := by simpa using List.find?_some ht
      rw [← hti] at hi ⊢
      exact .bind (fun s => hR.requeued s t (hP t (List.mem_of_find?_eq_some ht) _ hi)) fun _ => ih

theorem executeGroup_keeps (hR : AcrossStages P R) (admitted : List Admitted) :
    Keeps R (executeGroup host admitted) := by
  induction admitted with
  | nil => exact .pure []
  | cons member rest ih =>
    exact .bind .get fun _ => .bind (.attempt (.zoom hR.cache _)) fun _ => .bind ih fun _ => .pure _

theorem settleGroup_keeps (hR : AcrossStages P R) {results : List TransactionProcessResult}
    (hg : ∀ r ∈ results, P (r.member.originalIndex,r.member.transaction)) :
    Keeps R (settleGroup results) := by
  induction results with
  | nil => exact .pure []
  | cons result rest ih =>
    have ih := ih fun r hr => hg r (List.mem_cons_of_mem _ hr)
    have hi := hg result List.mem_cons_self
    refine .bind (fun s => hR.metrics s _) fun _ => ?_
    split
    · exact .bind ih fun _ => .pure _
    · refine .bind (.zoom hR.tracker _) fun _ => ?_
      split
      · exact .bind (fun s => hR.requeued s _ hi) fun _ =>
          .bind (setResult_keeps hR hi _) fun _ => ih
      · exact .bind (setResult_keeps hR hi _) fun _ => ih

/-! ## What the stages return -/

/-- The admitted members are members of the group, in its order. -/
theorem admitGroup_sublist {group : List (ℕ × Transaction)} {s s' : BatchState}
    {admitted : List Admitted} (h : admitGroup costModel group s = (.ok admitted,s')) :
    (admitted.map fun m => (m.originalIndex,m.transaction)).Sublist group := by
  induction group generalizing s admitted with
  | nil =>
    cases h
    exact .slnil
  | cons tx rest ih =>
    simp only [admitGroup,Exec.get_bind] at h
    split at h
    · obtain ⟨_,_,-,h⟩ := Exec.bind_ok.mp h
      obtain ⟨admitted',_,hr,h⟩ := Exec.bind_ok.mp h
      cases h
      exact (ih hr).cons_cons tx
    · obtain ⟨_,_,-,h⟩ := Exec.bind_ok.mp h
      exact (ih h).cons tx

/-- A member is admitted at the cost of its transaction. -/
theorem admitGroup_cost {group : List (ℕ × Transaction)} {s s' : BatchState}
    {admitted : List Admitted} (h : admitGroup costModel group s = (.ok admitted,s')) :
    ∀ m ∈ admitted, m.cost = costModel.calculateCost m.transaction := by
  induction group generalizing s admitted with
  | nil =>
    cases h
    exact fun m hm => absurd hm List.not_mem_nil
  | cons tx rest ih =>
    simp only [admitGroup,Exec.get_bind] at h
    split at h
    · obtain ⟨_,_,-,h⟩ := Exec.bind_ok.mp h
      obtain ⟨admitted',_,hr,h⟩ := Exec.bind_ok.mp h
      cases h
      exact List.forall_mem_cons.mpr ⟨rfl,ih hr⟩
    · obtain ⟨_,_,-,h⟩ := Exec.bind_ok.mp h
      exact ih h

/-- An attempt over the cache changes nothing else. -/
theorem attempt_onCache {ε ε' α : Type} {x : Exec ProgramCache ε α} {s s' : BatchState}
    {r : Except ε α} (h : (attempt (onCache x) : Exec BatchState ε' (Except ε α)) s = (.ok r,s')) :
    ∃ cache', s' = { s with programCache := cache' } ∧
      ∀ a, r = .ok a → x s.programCache = (.ok a,cache') := by
  have hx := attempt_ok h
  cases r with
  | ok a =>
    obtain ⟨h₁,h₂⟩ := Prod.mk.inj hx
    exact ⟨_,h₂.symm,fun b hb => by cases hb; exact Prod.ext h₁ rfl⟩
  | error e =>
    obtain ⟨-,h₂⟩ := Prod.mk.inj hx
    exact ⟨_,h₂.symm,fun b hb => by cases hb⟩

/-- Every member has a result of its own, from a run over the store as it was before the group. -/
theorem executeGroup_results {admitted : List Admitted} {s s' : BatchState}
    {results : List TransactionProcessResult}
    (h : executeGroup host admitted s = (.ok results,s')) :
    results.map TransactionProcessResult.member = admitted ∧ ∀ r ∈ results, ∀ o,
      r.processingResult = .ok o → ∃ cache cache', s.bank.processSingleTransaction host
        r.member.transaction r.member.cost.sum cache = (.ok o,cache') := by
  induction admitted generalizing s results with
  | nil =>
    cases h
    exact ⟨rfl,fun _ hr => absurd hr List.not_mem_nil⟩
  | cons member rest ih =>
    simp only [executeGroup,Exec.get_bind] at h
    obtain ⟨r,s₁,hx,h⟩ := Exec.bind_ok.mp h
    obtain ⟨results',s₂,hr,h⟩ := Exec.bind_ok.mp h
    cases h
    obtain ⟨hm,ho⟩ := ih hr
    obtain ⟨cache',rfl,hrun⟩ := attempt_onCache hx
    refine ⟨by rw [List.map_cons,hm],?_⟩
    intro r' hr' o hro
    rcases List.mem_cons.mp hr' with rfl | hr'
    · exact ⟨_,cache',hrun o hro⟩
    · exact ho r' hr' o hro

/-- The overlays of the successful members, in the order of the group. -/
theorem settleGroup_overlays {results : List TransactionProcessResult} {s s' : BatchState}
    {overlays : List (ℕ × OverlayStore)} (h : settleGroup results s = (.ok overlays,s')) :
    overlays = results.filterMap fun r => r.processingResult.toOption.map
      fun o => (r.member.originalIndex,o) := by
  induction results generalizing s overlays with
  | nil =>
    cases h
    rfl
  | cons result rest ih =>
    simp only [settleGroup] at h
    obtain ⟨_,_,-,h⟩ := Exec.bind_ok.mp h
    cases hr : result.processingResult with
    | ok o =>
      simp only [hr] at h
      obtain ⟨overlays',_,hrest,h⟩ := Exec.bind_ok.mp h
      cases h
      rw [ih hrest,List.filterMap_cons_some (b := (result.member.originalIndex,o))
        (by rw [hr]; rfl)]
    | error e =>
      simp only [hr] at h
      obtain ⟨_,_,-,h⟩ := Exec.bind_ok.mp h
      rw [List.filterMap_cons_none (by rw [hr]; rfl)]
      split at h
      · obtain ⟨_,_,-,h⟩ := Exec.bind_ok.mp h
        obtain ⟨_,_,-,h⟩ := Exec.bind_ok.mp h
        exact ih h
      · obtain ⟨_,_,-,h⟩ := Exec.bind_ok.mp h
        exact ih h

/-- Every overlay to commit was returned by the processing of its member. -/
theorem settleGroup_made {results : List TransactionProcessResult} {s s' : BatchState}
    {overlays : List (ℕ × OverlayStore)} (h : settleGroup results s = (.ok overlays,s'))
    {o : ℕ × OverlayStore} (ho : o ∈ overlays) :
    ∃ r ∈ results, r.member.originalIndex = o.1 ∧ r.processingResult = .ok o.2 := by
  rw [settleGroup_overlays h] at ho
  obtain ⟨r,hr,hro⟩ := List.mem_filterMap.mp ho
  obtain ⟨o',hok,rfl⟩ := Option.map_eq_some_iff.mp hro
  refine ⟨r,hr,rfl,?_⟩
  cases hres : r.processingResult with
  | ok a =>
    rw [hres] at hok
    cases hok
    rfl
  | error e =>
    rw [hres] at hok
    cases hok

/-! ## Whole groups -/

/-- A group whose stages and commit stay within the relation stays within it, however it ends. -/
theorem runGroup_keeps (hR : AcrossStages P R) (hc : AcrossCommits host P R)
    {admitted : List Admitted} (hg : ∀ m ∈ admitted, P (m.originalIndex,m.transaction)) :
    Keeps R (runGroup host admitted) := by
  intro s
  unfold runGroup
  refine (executeGroup_keeps hR admitted).bind_final (fun _ h => h) fun results s₁ hx h₁ => ?_
  obtain ⟨hm,hrun⟩ := executeGroup_results hx
  have hr : ∀ r ∈ results, P (r.member.originalIndex,r.member.transaction) :=
    fun r hr => hg _ (hm ▸ List.mem_map_of_mem hr)
  refine IsTrans.trans _ _ _ h₁ ?_
  refine (record_keeps hR _).bind_final (fun _ h => h) fun _ s₂ _ h₂ => IsTrans.trans _ _ _ h₂ ?_
  refine (logRecorded_keeps hR _).bind_final (fun _ h => h) fun _ s₃ _ h₃ =>
    IsTrans.trans _ _ _ h₃ ?_
  refine (settleGroup_keeps hR hr).bind_final (fun _ h => h) fun overlays s₄ hs h₄ =>
    IsTrans.trans _ _ _ h₄ (hc s₄ overlays ?_)
  intro o ho
  obtain ⟨r,hrm,hi,hok⟩ := settleGroup_made hs ho
  obtain ⟨cache,cache',hproc⟩ := hrun r hrm o.2 hok
  exact ⟨_,hi ▸ hr r hrm,_,_,cache,cache',hproc⟩

theorem processGroup_keeps (hR : AcrossStages P R) (hc : AcrossCommits host P R)
    {txsToSchedule group : List (ℕ × Transaction)} (hP : LookupClosed txsToSchedule P)
    (hg : ∀ tx ∈ group, P tx) : Keeps R (processGroup host costModel txsToSchedule group) := by
  intro s
  unfold processGroup
  refine (admitGroup_keeps hR hg).bind_final (fun _ h => h) fun admitted s₁ ha h₁ => ?_
  have hm : ∀ m ∈ admitted, P (m.originalIndex,m.transaction) := fun m hm =>
    hg _ ((admitGroup_sublist ha).subset (List.mem_map.mpr ⟨m,hm,rfl⟩))
  refine IsTrans.trans _ _ _ h₁ ?_
  split
  · exact Std.Refl.refl s₁
  refine Keeps.bind_final (.attempt (locks_keeps hR _)) (fun _ h => h) fun locked s₂ _ h₂ =>
    IsTrans.trans _ _ _ h₂ ?_
  cases locked with
  | error e => exact rollBackGroup_keeps hR hP hm s₂
  | ok lockGuard =>
    exact Keeps.ensuring (.bind (fun s => hR.freezeLock s _) fun _ =>
      .ensuring (runGroup_keeps hR hc hm) fun s => hR.freezeLock s _) (locks_keeps hR _) s₂

theorem processGroups_keeps (hR : AcrossStages P R) (hc : AcrossCommits host P R)
    {txsToSchedule : List (ℕ × Transaction)} (hP : LookupClosed txsToSchedule P)
    {groups : List (List (ℕ × Transaction))} (hg : ∀ group ∈ groups, ∀ tx ∈ group, P tx) :
    Keeps R (processGroups host costModel txsToSchedule groups) := by
  induction groups with
  | nil => exact .pure ()
  | cons group rest ih =>
    exact .bind (processGroup_keeps hR hc hP (hg group List.mem_cons_self)) fun _ =>
      ih fun g hgm => hg g (List.mem_cons_of_mem _ hgm)

/-! ## Groups that return -/

/-- The stages came from one state to the other without entering a result or queueing a transaction:
whatever relation holds across their assignments holds between the two. -/
def Reaches (s s' : BatchState) : Prop :=
  ∀ (P : ℕ × Transaction → Prop) (R : BatchState → BatchState → Prop) [Std.Refl R]
    [IsTrans BatchState R], AcrossStages P R → R s s'

/-- A group that returns has settled the results of its members, once they were recorded, and
committed what is left of them. -/
theorem runGroup_ok {admitted : List Admitted} {s s' : BatchState}
    (h : runGroup host admitted s = (.ok (),s')) : ∃ results overlays s₁ s₂ u,
      executeGroup host admitted s = (.ok results,s₁) ∧
      Exec.mapErr BatchError.recorder (onRecords (recordTransactions host.sha256
        (admitted.map fun m => (m.originalIndex,m.transaction)))) s₁ = (.ok (),s₂) ∧
      Reaches s (logEvents [.recorded (admitted.map Admitted.originalIndex)] s₂).2 ∧
      settleGroup results (logEvents [.recorded (admitted.map Admitted.originalIndex)] s₂).2 =
        (.ok overlays,u) ∧
      s' = (commitGroup overlays u).2 := by
  simp only [runGroup] at h
  obtain ⟨results,s₁,hx,h⟩ := Exec.bind_ok.mp h
  obtain ⟨_,s₂,hrec,h⟩ := Exec.bind_ok.mp h
  obtain ⟨_,s₃,hlog,h⟩ := Exec.bind_ok.mp h
  obtain rfl : (logEvents [.recorded (admitted.map Admitted.originalIndex)] s₂).2 = s₃ :=
    congrArg Prod.snd hlog
  obtain ⟨overlays,u,hset,h⟩ := Exec.bind_ok.mp h
  obtain rfl : (commitGroup overlays u).2 = s' := congrArg Prod.snd h
  refine ⟨results,overlays,s₁,s₂,u,hx,hrec,fun P R _ _ hR => ?_,hset,rfl⟩
  exact IsTrans.trans _ _ _ ((executeGroup_keeps hR admitted).of_run hx)
    (IsTrans.trans _ _ _ ((record_keeps hR _).of_run hrec) ((logRecorded_keeps hR _).of_run hlog))

/-- A group that returns had no member admitted, was rolled back, or was run. -/
theorem processGroup_ok {txs group : List (ℕ × Transaction)} {s s' : BatchState}
    (h : processGroup host costModel txs group s = (.ok (),s')) : ∃ admitted t,
      admitGroup costModel group s = (.ok admitted,t) ∧
      (admitted = [] ∧ s' = t ∨
        (∃ u, Reaches t u ∧ rollBackGroup txs admitted u = (.ok (),s')) ∨
        ∃ u v, Reaches t u ∧ runGroup host admitted u = (.ok (),v) ∧ Reaches v s') := by
  simp only [processGroup] at h
  obtain ⟨admitted,t,ha,h⟩ := Exec.bind_ok.mp h
  refine ⟨admitted,t,ha,?_⟩
  split at h
  · next hnil =>
    cases h
    exact .inl ⟨hnil,rfl⟩
  obtain ⟨locked,u,hl,h⟩ := Exec.bind_ok.mp h
  have hu : Reaches t u := fun P R _ _ hR => (Keeps.attempt (locks_keeps hR _)).of_run hl
  cases locked with
  | error e => exact .inr (.inl ⟨u,hu,h⟩)
  | ok lockGuard =>
    obtain ⟨w,h,hdrop⟩ := Exec.ensuring_ok h
    obtain ⟨_,u',hfl,h⟩ := Exec.bind_ok.mp h
    obtain rfl : (acquireFreezeLock u).2 = u' := congrArg Prod.snd hfl
    obtain ⟨v,hrun,hdf⟩ := Exec.ensuring_ok h
    obtain rfl : (dropFreezeLock v).2 = w := congrArg Prod.snd hdf
    refine .inr (.inr ⟨_,v,fun P R _ _ hR => ?_,hrun,fun P R _ _ hR => ?_⟩)
    · exact IsTrans.trans _ _ _ (hu P R hR) (hR.freezeLock u _)
    · exact IsTrans.trans _ _ _ (hR.freezeLock v _) ((locks_keeps hR _).of_run hdrop)

/-! ## Scheduled transactions -/

theorem mem_txsToSchedule {valid : Ed25519} {transactions : List Transaction} {i : ℕ}
    {tx : Transaction} : (i,tx) ∈ txsToSchedule valid transactions ↔
      transactions[i]? = some tx ∧ tx.verifySignaturesSync valid = .ok () := by
  unfold txsToSchedule
  rw [List.mem_filterMap]
  constructor
  · rintro ⟨p,hp,hv⟩
    split at hv
    · next hok =>
      cases hv
      exact ⟨List.mem_zipIdx_iff_getElem?.mp hp,hok⟩
    · cases hv
  · rintro ⟨hget,hok⟩
    exact ⟨(tx,i),List.mem_zipIdx_iff_getElem?.mpr hget,if_pos hok⟩

/-- Scheduled transactions have different positions. -/
theorem txsToSchedule_nodup (valid : Ed25519) (transactions : List Transaction) :
    ((txsToSchedule valid transactions).map Prod.fst).Nodup := by
  have hpos : transactions.zipIdx.Pairwise fun p q => p.2 ≠ q.2 := by
    rw [← List.pairwise_map (f := Prod.snd),List.zipIdx_map_snd]
    exact List.nodup_range'
  refine List.pairwise_map.mpr (hpos.filterMap _ ?_)
  intro p q hpq a ha b hb
  split at ha <;> cases ha
  split at hb <;> cases hb
  exact hpq

end BankingStage

end TinySolana
