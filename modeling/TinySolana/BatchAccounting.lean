import TinySolana.BatchOutcomes

/-!
# Accounts of a batch

The log of a batch accounts for the queue and for the store, and every index of the batch stands
settled exactly when no transaction is refused for its cost.
-/

namespace TinySolana
open Foundations Exec

/-! ## The log -/

/-- What the new part of the log says is what has happened to the queue and to the store, to
transactions of the batch only. -/
def Logs (host : Host) (txs : List (ℕ × Transaction)) (s s' : BatchState) : Prop :=
  ∃ events, s'.log = s.log ++ events ∧
    s'.stage.txSender.sent = s.stage.txSender.sent ++ events.filterMap BatchEvent.transaction? ∧
    s'.bank.accounts = commitOverlays (events.filterMap BatchEvent.overlay?) s.bank.accounts ∧
    (∀ i tx, .requeued i tx ∈ events → (i,tx) ∈ txs) ∧
    (∀ i overlay, .flushed i overlay ∈ events → ∃ tx, (i,tx) ∈ txs ∧ Produced host tx overlay) ∧
    s'.finalResults.length = s.finalResults.length

variable {host : Host} {costModel : CostModel} {txs : List (ℕ × Transaction)}

/-- Nothing to log. -/
theorem Logs.unlogged {s s' : BatchState} (hlog : s'.log = s.log)
    (hsent : s'.stage.txSender.sent = s.stage.txSender.sent)
    (hstore : s'.bank.accounts = s.bank.accounts)
    (hlen : s'.finalResults.length = s.finalResults.length) : Logs host txs s s' :=
  ⟨[],by simp [hlog],by simp [hsent],hstore,by simp,by simp,hlen⟩

theorem Logs.trans {s t u : BatchState} (h : Logs host txs s t) (h' : Logs host txs t u) :
    Logs host txs s u := by
  obtain ⟨es,hlog,hsent,hstore,hreq,hflush,hlen⟩ := h
  obtain ⟨fs,hlog',hsent',hstore',hreq',hflush',hlen'⟩ := h'
  refine ⟨es ++ fs,?_,?_,?_,fun i tx hm => ?_,fun i o hm => ?_,hlen'.trans hlen⟩
  · rw [hlog',hlog,List.append_assoc]
  · rw [hsent',hsent,List.filterMap_append,List.append_assoc]
  · rw [hstore',hstore,List.filterMap_append,commitOverlays_append]
  · exact (List.mem_append.mp hm).elim (hreq i tx) (hreq' i tx)
  · exact (List.mem_append.mp hm).elim (hflush i o) (hflush' i o)

instance : Std.Refl (Logs host txs) := ⟨fun _ => .unlogged rfl rfl rfl rfl⟩

instance : IsTrans BatchState (Logs host txs) := ⟨fun _ _ _ => .trans⟩

namespace BankingStage

theorem logs_across : AcrossStages (· ∈ txs) (Logs host txs) where
  locks _ _ := .unlogged rfl rfl rfl rfl
  tracker _ _ := .unlogged rfl rfl rfl rfl
  records _ _ := .unlogged rfl rfl rfl rfl
  cache _ _ := .unlogged rfl rfl rfl rfl
  metrics _ ok := .unlogged rfl rfl (by cases ok <;> rfl) rfl
  freezeLock _ _ := .unlogged rfl rfl rfl rfl
  recorded s indices :=
    ⟨[.recorded indices],rfl,by simp [BatchEvent.transaction?],rfl,by simp,by simp,rfl⟩
  result _ _ _ _ := .unlogged rfl rfl rfl List.length_set
  requeued s tx h := by
    unfold requeueTransaction
    rw [Exec.modify_run]
    cases hc : s.stage.txSender.send tx.2 with
    | none => exact .unlogged rfl rfl rfl rfl
    | some c =>
      exact ⟨[.requeued tx.1 tx.2],rfl,Channel.sent_of_send hc,rfl,by simpa using h,by simp,rfl⟩

theorem logs_commits : AcrossCommits host (· ∈ txs) (Logs host txs) := by
  intro s overlays h
  have hs : (overlays.map fun o => BatchEvent.flushed o.1 o.2).filterMap BatchEvent.transaction? =
      [] := by
    rw [List.filterMap_map]
    exact List.filterMap_eq_nil_iff.mpr fun _ _ => rfl
  have ho : (overlays.map fun o => BatchEvent.flushed o.1 o.2).filterMap BatchEvent.overlay? =
      overlays.map Prod.snd := by
    rw [List.filterMap_map,← List.filterMap_eq_map]
    rfl
  refine ⟨overlays.map fun o => .flushed o.1 o.2,rfl,?_,?_,by simp,?_,rfl⟩
  · rw [hs,List.append_nil]
    rfl
  · rw [ho]
    rfl
  · intro i overlay hm
    obtain ⟨o,hom,heq⟩ := List.mem_map.mp hm
    cases heq
    exact h o hom

/-! ## Groups -/

/-- Every group fits when its turn comes. -/
def AllFit (host : Host) (costModel : CostModel) (txsToSchedule : List (ℕ × Transaction)) :
    List (List (ℕ × Transaction)) → BatchState → Prop
  | [], _ => True
  | group :: rest, s => GroupFits costModel group s ∧ AllFit host costModel txsToSchedule rest
      (processGroup host costModel txsToSchedule group s).2

instance AllFit.decidable (host : Host) (costModel : CostModel)
    (txsToSchedule : List (ℕ × Transaction)) :
    (groups : List (List (ℕ × Transaction))) → (s : BatchState) →
      Decidable (AllFit host costModel txsToSchedule groups s)
  | [], _ => .isTrue trivial
  | _ :: rest, _ => @instDecidableAnd _ _ _ (decidable host costModel txsToSchedule rest _)

/-- The members of a fresh group all meet a fate exactly when the group fits. -/
theorem processGroup_fates {group : List (ℕ × Transaction)} {s s' : BatchState}
    (hnd : (group.map Prod.fst).Nodup) (hc : Connected s)
    (hfresh : ∀ i ∈ group.map Prod.fst, standing s i = .fresh)
    (h : processGroup host costModel txs group s = (.ok (),s')) :
    (∀ i ∈ group.map Prod.fst, ∃ fate, (standing s' i).Meets fate) ↔
      GroupFits costModel group s := by
  obtain ⟨admitted,s₁,ha,hm⟩ := processGroup_member hnd hc h
  have hsub := admitGroup_sublist ha
  rw [groupFits_iff ha]
  constructor
  · intro hfates
    -- A member that was not admitted would be refused.
    have hall : group.map Prod.fst ⊆ admitted.map Admitted.originalIndex := by
      intro i hi
      by_contra hn
      have hst := hm i hi (hfresh i hi)
      rw [if_neg hn] at hst
      obtain ⟨fate,hf⟩ := hfates i hi
      exact Standing.not_meets_refused fate (hst ▸ hf)
    have hle := (hnd.subperm hall).length_le
    have hge := hsub.length_le
    simp only [List.length_map] at hle hge
    omega
  · intro hlen i hi
    have heq := hsub.eq_of_length (by rw [List.length_map,hlen])
    have him : i ∈ admitted.map Admitted.originalIndex := by
      rw [← heq,List.map_map] at hi
      exact hi
    have hst := hm i hi (hfresh i hi)
    rwa [if_pos him] at hst

theorem processGroup_standing {group : List (ℕ × Transaction)} {s s' : BatchState} {i : ℕ}
    (hi : i ∉ group.map Prod.fst) (h : processGroup host costModel txs group s = (.ok (),s')) :
    standing s' i = standing s i :=
  (processGroup_keeps (sameStanding_across i) (sameStanding_commits host i) (lookupClosed_ne txs i)
    fun _ ht he => hi (he ▸ List.mem_map_of_mem ht)).of_run h

theorem processGroups_standing {groups : List (List (ℕ × Transaction))} {s s' : BatchState} {i : ℕ}
    (hi : i ∉ groups.flatten.map Prod.fst)
    (h : processGroups host costModel txs groups s = (.ok (),s')) :
    standing s' i = standing s i :=
  (processGroups_keeps (sameStanding_across i) (sameStanding_commits host i) (lookupClosed_ne txs i)
    fun _ hg _ ht he => hi (he ▸ List.mem_map_of_mem (List.mem_flatten.mpr ⟨_,hg,ht⟩))).of_run h

/-- The scheduled transactions all meet a fate exactly when every group fits. -/
theorem processGroups_fates {groups : List (List (ℕ × Transaction))} {s s' : BatchState}
    (hnd : (groups.flatten.map Prod.fst).Nodup) (hc : Connected s)
    (hfresh : ∀ i ∈ groups.flatten.map Prod.fst, standing s i = .fresh)
    (h : processGroups host costModel txs groups s = (.ok (),s')) :
    (∀ i ∈ groups.flatten.map Prod.fst, ∃ fate, (standing s' i).Meets fate) ↔
      AllFit host costModel txs groups s := by
  induction groups generalizing s with
  | nil => simp [AllFit]
  | cons group rest ih =>
    simp only [processGroups] at h
    obtain ⟨_,s₁,hg,hr⟩ := Exec.bind_ok.mp h
    rw [List.flatten_cons,List.map_append] at hnd hfresh
    obtain ⟨hndg,hndr,hdisj⟩ := List.nodup_append.mp hnd
    have hgroup := processGroup_fates hndg hc (fun i hi => hfresh i (List.mem_append_left _ hi)) hg
    have hc₁ : Connected s₁ := (processGroup_keeps connected_across (connected_commits host)
      (fun _ _ _ _ => trivial) fun _ _ => trivial).of_run hg hc
    have hrest := ih hndr hc₁ (fun i hi => by
      rw [processGroup_standing (fun hi' => hdisj i hi' i hi rfl) hg]
      exact hfresh i (List.mem_append_right _ hi)) hr
    -- The rest of the groups does not touch the members of the first one.
    have hlater : ∀ i ∈ group.map Prod.fst, standing s' i = standing s₁ i := fun i hi =>
      processGroups_standing (fun hi' => hdisj i hi i hi' rfl) hr
    rw [AllFit,hg,← hgroup,← hrest,List.flatten_cons,List.map_append]
    constructor
    · intro hf
      exact ⟨fun i hi => hlater i hi ▸ hf i (List.mem_append_left _ hi),
        fun i hi => hf i (List.mem_append_right _ hi)⟩
    · rintro ⟨hfg,hfr⟩ i hi
      rcases List.mem_append.mp hi with hi | hi
      · exact (hlater i hi).symm ▸ hfg i hi
      · exact hfr i hi

/-! ## The batch -/

/-- The state from which the first group is processed. -/
def verified (valid : Ed25519) (transactions : List Transaction) (s : BatchState) : BatchState :=
  { s with finalResults := verificationResults valid transactions, log := [] }

/-- No transaction is refused for its cost when its turn comes. -/
def NoneRefused (host : Host) (costModel : CostModel) (transactions : List Transaction)
    (s : BatchState) : Prop :=
  AllFit host costModel (txsToSchedule host.ed25519 transactions)
    (TransactionScheduler.schedule (txsToSchedule host.ed25519 transactions))
      (verified host.ed25519 transactions s)

instance (host : Host) (costModel : CostModel) (transactions : List Transaction) (s : BatchState) :
    Decidable (NoneRefused host costModel transactions s) :=
  inferInstanceAs (Decidable (AllFit _ _ _ _ _))

/-- Every transaction of the batch has one entry in the results and exactly one fate, and what was
queued and committed is what the log says. -/
structure Accounted (host : Host) (transactions : List Transaction) (before : BatchState)
    (results : List (Option TransactionError)) (after : BatchState) : Prop where
  length : results.length = transactions.length
  fates : ∀ i < transactions.length, ∃! fate, (Standing.of results after.log i).Meets fate
  queue : after.stage.txSender.sent =
    before.stage.txSender.sent ++ after.log.filterMap BatchEvent.transaction?
  requeued : ∀ i tx, .requeued i tx ∈ after.log → transactions[i]? = some tx
  store : after.bank.accounts =
    commitOverlays (after.log.filterMap BatchEvent.overlay?) before.bank.accounts
  flushed : ∀ i overlay, .flushed i overlay ∈ after.log →
    ∃ tx, transactions[i]? = some tx ∧ Produced host tx overlay

theorem verified_scheduled {transactions : List Transaction} {valid : Ed25519} {s : BatchState}
    {i : ℕ} {tx : Transaction} (h : (i,tx) ∈ txsToSchedule valid transactions) :
    standing (verified valid transactions s) i = .fresh := by
  obtain ⟨hget,hok⟩ := mem_txsToSchedule.mp h
  simp [standing,Standing.of,verified,verificationResults,hget,hok,Standing.fresh]

/-- A transaction whose signatures were found invalid is dropped. -/
theorem verified_dropped {transactions : List Transaction} {valid : Ed25519} {s : BatchState}
    {i : ℕ} {tx : Transaction} (hget : transactions[i]? = some tx) {e : TransactionError}
    (he : tx.verifySignaturesSync valid = .err e) :
    (standing (verified valid transactions s) i).Meets .dropped := by
  have hinv : e = .invalidSignature := by
    simp only [Transaction.verifySignaturesSync] at he
    split at he
    · cases he
    · split at he <;> cases he
      rfl
  subst hinv
  refine ⟨.invalidSignature,?_,rfl,rfl,rfl⟩
  simp [standing,Standing.of,verified,verificationResults,hget,he]

/-- A batch that returns has verified, processed all its groups and reset the tracker. -/
theorem processBatch_ok {transactions : List Transaction} {s s' : BatchState}
    {results : List (Option TransactionError)}
    (h : processBatch host costModel transactions s = (.ok results,s')) :
    (∀ tx ∈ transactions, tx.verifySignaturesSync host.ed25519 ≠ .panic) ∧ ∃ s₁,
      processGroups host costModel (txsToSchedule host.ed25519 transactions)
        (TransactionScheduler.schedule (txsToSchedule host.ed25519 transactions))
        (verified host.ed25519 transactions s) = (.ok (),s₁) ∧
      s' = (onTracker (ε := BatchError) (Exec.modify CostTracker.reset) s₁).2 ∧
      results = s'.finalResults := by
  unfold processBatch at h
  obtain ⟨hp,h⟩ := Exec.failIf_bind_ok.mp h
  rw [Exec.modify_bind] at h
  obtain ⟨_,s₁,hg,h⟩ := Exec.bind_ok.mp h
  obtain ⟨_,s₂,ht,h⟩ := Exec.bind_ok.mp h
  obtain rfl := congrArg Prod.snd ht
  cases h
  exact ⟨fun tx hm he => hp ⟨tx,hm,he⟩,s₁,hg,rfl,rfl⟩

theorem processBatch_logs {transactions : List Transaction} {s s' : BatchState}
    {results : List (Option TransactionError)}
    (h : processBatch host costModel transactions s = (.ok results,s')) :
    Logs host (txsToSchedule host.ed25519 transactions)
      (verified host.ed25519 transactions s) s' := by
  obtain ⟨-,s₁,hg,rfl,-⟩ := processBatch_ok h
  have hmem : ∀ group ∈ TransactionScheduler.schedule (txsToSchedule host.ed25519 transactions),
      ∀ tx ∈ group, tx ∈ txsToSchedule host.ed25519 transactions := fun group hgr tx ht =>
    (TransactionScheduler.schedule_flatten_perm _).mem_iff.mp (List.mem_flatten.mpr ⟨group,hgr,ht⟩)
  have hk := (processGroups_keeps logs_across logs_commits (fun t ht _ _ => ht) hmem).of_run hg
  exact hk.trans (logs_across.tracker s₁ _)

/-- The transactions of a batch all meet a fate exactly when none is refused. -/
theorem processBatch_fates {transactions : List Transaction} {s s' : BatchState}
    {results : List (Option TransactionError)} (hc : Connected s)
    (h : processBatch host costModel transactions s = (.ok results,s')) :
    (∀ i < transactions.length, ∃ fate, (standing s' i).Meets fate) ↔
      NoneRefused host costModel transactions s := by
  obtain ⟨hp,s₁,hg,rfl,-⟩ := processBatch_ok h
  have hperm := (TransactionScheduler.schedule_flatten_perm
    (txsToSchedule host.ed25519 transactions)).map Prod.fst
  have hscheduled : ∀ i ∈ (TransactionScheduler.schedule
      (txsToSchedule host.ed25519 transactions)).flatten.map Prod.fst,
      ∃ tx, (i,tx) ∈ txsToSchedule host.ed25519 transactions := by
    intro i hi
    obtain ⟨tx,ht,rfl⟩ := List.mem_map.mp (hperm.mem_iff.mp hi)
    exact ⟨tx.2,ht⟩
  have hfresh : ∀ i ∈ (TransactionScheduler.schedule
      (txsToSchedule host.ed25519 transactions)).flatten.map Prod.fst,
      standing (verified host.ed25519 transactions s) i = .fresh := fun i hi =>
    verified_scheduled (hscheduled i hi).choose_spec
  have hc₁ : Connected (verified host.ed25519 transactions s) := hc
  have hgroups := processGroups_fates (hperm.nodup_iff.mpr (txsToSchedule_nodup _ _)) hc₁ hfresh hg
  rw [NoneRefused,← hgroups]
  constructor
  · intro hf i hi
    obtain ⟨tx,ht⟩ := hscheduled i hi
    exact hf i (List.getElem?_eq_some_iff.mp (mem_txsToSchedule.mp ht).1).1
  · intro hf i hi
    by_cases hsch : i ∈ (TransactionScheduler.schedule
        (txsToSchedule host.ed25519 transactions)).flatten.map Prod.fst
    · exact hf i hsch
    · -- It did not pass verification.
      have hst : standing s₁ i = standing (verified host.ed25519 transactions s) i :=
        processGroups_standing hsch hg
      have hget := List.getElem?_eq_getElem hi
      cases hv : transactions[i].verifySignaturesSync host.ed25519 with
      | ok u => exact absurd (hperm.mem_iff.mpr
          (List.mem_map_of_mem (mem_txsToSchedule.mpr ⟨hget,hv⟩))) hsch
      | err e =>
        refine ⟨.dropped,?_⟩
        have hd := verified_dropped (s := s) hget hv
        rw [← hst] at hd
        exact hd
      | panic => exact absurd hv (hp _ (List.getElem_mem hi))

end BankingStage

/-- Every transaction of a batch that returns has exactly one fate, which its result shows and the
queue and the store bear out, exactly when none of them is refused for its cost. -/
theorem batch_accounted_iff {host : Host} {costModel : CostModel} {transactions : List Transaction}
    {s s' : BatchState} {results : List (Option TransactionError)} (hc : Connected s)
    (h : BankingStage.processBatch host costModel transactions s = (.ok results,s')) :
    BankingStage.Accounted host transactions s results s' ↔
      BankingStage.NoneRefused host costModel transactions s := by
  rw [← BankingStage.processBatch_fates hc h]
  obtain ⟨-,-,-,-,rfl⟩ := BankingStage.processBatch_ok h
  constructor
  · intro ha i hi
    exact (ha.fates i hi).exists
  · intro hf
    obtain ⟨events,hlog,hsent,hstore,hreq,hflush,hlen⟩ := BankingStage.processBatch_logs h
    obtain rfl : events = s'.log := hlog.symm
    exact {
      length := by rw [hlen]; simp [BankingStage.verified,BankingStage.verificationResults]
      fates := fun i hi => by
        obtain ⟨fate,hfate⟩ := hf i hi
        exact ⟨fate,hfate,fun _ h => Standing.Meets.unique h hfate⟩
      queue := hsent
      requeued := fun i tx hm => (BankingStage.mem_txsToSchedule.mp (hreq i tx hm)).1
      store := hstore
      flushed := fun i overlay hm => by
        obtain ⟨tx,htx,hp⟩ := hflush i overlay hm
        exact ⟨tx,(BankingStage.mem_txsToSchedule.mp htx).1,hp⟩ }

/-- A transaction with so many instructions that no block takes it. -/
def oversizedTransaction : Transaction :=
  ⟨[],⟨[],default,List.replicate 301 ⟨bpfLoaderUpgradeableProgramId,[],[]⟩⟩⟩

/-- The result is retryable and the queue stays empty. -/
theorem refused_not_requeued :
    let run := BankingStage.processBatch default .new [oversizedTransaction] (.new ∅)
    Connected (.new ∅) ∧ run.1 = .ok [some .wouldExceedMaxBlockCostLimit] ∧
      ¬BankingStage.Accounted default [oversizedTransaction] (.new ∅)
        [some .wouldExceedMaxBlockCostLimit] run.2 := by
  intro run
  have hlog : run.2.log.length = 0 := by decide +kernel
  refine ⟨rfl,by decide +kernel,fun ha => ?_⟩
  obtain ⟨fate,hf,-⟩ := ha.fates 0 (by decide)
  rw [List.length_eq_zero_iff.mp hlog] at hf
  exact Standing.not_meets_refused fate hf

theorem payment_accounted :
    let s := BatchState.new ((∅ : InMemoryAccountStore).store (.ofByte 1) (wallet 1 10))
    let run := BankingStage.processBatch default .new [payment [blankSignature] 3] s
    run.1 = .ok [none] ∧
      BankingStage.Accounted default [payment [blankSignature] 3] s [none] run.2 := by
  intro s run
  have hok : run.1 = .ok [none] := by decide +kernel
  have hfits : BankingStage.NoneRefused default .new [payment [blankSignature] 3] s := by
    decide +kernel
  have hrun : run = (.ok [none],run.2) := by rw [← hok]
  have hc : Connected s := by
    unfold Connected
    rfl
  exact ⟨hok,(batch_accounted_iff hc hrun).mpr hfits⟩

end TinySolana
