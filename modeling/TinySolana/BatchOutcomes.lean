import TinySolana.BatchSteps

/-!
# Outcomes of a batch

Where every transaction of a batch stands: its entry in the results, and how often its overlay was
flushed and it was queued again. A transaction leaves the batch in one of three ways, unless it is
refused for its cost: then the result is retryable but the transaction is not queued.
-/

namespace TinySolana
open Foundations Exec

/-! ## Standings -/

def BatchEvent.flushes (i : ℕ) : BatchEvent → Bool
  | flushed j _ => j = i
  | _ => false

def BatchEvent.requeues (i : ℕ) : BatchEvent → Bool
  | requeued j _ => j = i
  | _ => false

/-- The overlay that an event flushes. -/
def BatchEvent.overlay? : BatchEvent → Option OverlayStore
  | flushed _ overlay => some overlay
  | _ => none

/-- The transaction that an event sends. -/
def BatchEvent.transaction? : BatchEvent → Option Transaction
  | requeued _ tx => some tx
  | _ => none

structure Standing where
  result : Option (Option TransactionError)
  flushes : ℕ
  requeues : ℕ

namespace Standing

/-- Where index `i` stands by the results and the log. -/
def of (results : List (Option TransactionError)) (log : List BatchEvent) (i : ℕ) : Standing :=
  ⟨results[i]?,log.countP (BatchEvent.flushes i),log.countP (BatchEvent.requeues i)⟩

/-- Not handled yet. -/
def fresh : Standing := ⟨some none,0,0⟩

def fail (e : TransactionError) (st : Standing) : Standing :=
  { st with result := st.result.map fun _ => some e }

def requeue (st : Standing) : Standing := { st with requeues := st.requeues+1 }

/-- After the result of a run was entered. -/
def settle (st : Standing) : Except TransactionError OverlayStore → Standing
  | .ok _ => st
  | .error e => (if e.isRetryable then st.requeue else st).fail e

/-- Refused for its cost. -/
def refused : Standing := fresh.fail .wouldExceedMaxBlockCostLimit

end Standing

/-- The ways a transaction leaves a batch. -/
inductive Fate where
  | committed
  | dropped
  | queuedAgain

/-- What each way leaves behind. -/
def Standing.Meets (st : Standing) : Fate → Prop
  | .committed => st.result = some none ∧ st.flushes = 1 ∧ st.requeues = 0
  | .dropped => ∃ e, st.result = some (some e) ∧ e.isRetryable = false ∧ st.flushes = 0 ∧
    st.requeues = 0
  | .queuedAgain =>
    ∃ e, st.result = some (some e) ∧ e.isRetryable = true ∧ st.flushes = 0 ∧ st.requeues = 1

/-- No standing meets two fates. -/
theorem Standing.Meets.unique {st : Standing} {f g : Fate} (hf : st.Meets f) (hg : st.Meets g) :
    f = g := by
  cases f <;> cases g <;> simp only [Standing.Meets] at hf hg <;> grind

theorem Standing.not_meets_refused (f : Fate) : ¬Standing.refused.Meets f := by
  cases f <;> simp [Standing.Meets,refused,fresh,fail,TransactionError.isRetryable]

/-- A member that failed was queued again exactly if its error is retryable. -/
theorem Standing.meets_failed (e : TransactionError) :
    ∃ f, (Standing.fresh.settle (.error e)).Meets f := by
  cases he : e.isRetryable with
  | true => exact ⟨.queuedAgain,e,by simp [settle,fresh,fail,requeue,he]⟩
  | false => exact ⟨.dropped,e,by simp [settle,fresh,fail,he]⟩

def standing (s : BatchState) (i : ℕ) : Standing := .of s.finalResults s.log i

/-- The queue has a receiver. -/
def Connected (s : BatchState) : Prop := s.stage.txSender.remaining = none

namespace BankingStage

variable {host : Host} {costModel : CostModel} {s s' : BatchState}

theorem standing_setResult (s : BatchState) (i : ℕ) (e : TransactionError) :
    standing { s with finalResults := s.finalResults.set i (some e) } i =
      (standing s i).fail e := by
  simp [standing,Standing.of,Standing.fail,List.getElem?_set_self']
  rfl

theorem send_connected {s : BatchState} (h : Connected s) (tx : Transaction) :
    s.stage.txSender.send tx = some ⟨s.stage.txSender.sent ++ [tx],none⟩ := by
  unfold Channel.send
  rw [h]

theorem standing_requeue (h : Connected s) (i : ℕ) (tx : Transaction) :
    standing (requeueTransaction i tx s).2 i = (standing s i).requeue := by
  unfold requeueTransaction
  rw [Exec.modify_run]
  simp [send_connected h,standing,Standing.of,Standing.requeue,BatchEvent.flushes,
    BatchEvent.requeues]

theorem standing_requeue_result (s : BatchState) (i : ℕ) (tx : Transaction) (j : ℕ) :
    (standing (requeueTransaction i tx s).2 j).result = (standing s j).result := by
  unfold requeueTransaction
  rw [Exec.modify_run]
  cases s.stage.txSender.send tx <;> rfl

theorem standing_commit (s : BatchState) (overlays : List (ℕ × OverlayStore)) (i : ℕ) :
    standing (commitGroup overlays s).2 i =
      { standing s i with flushes := (standing s i).flushes+(overlays.map Prod.fst).count i } := by
  have hf : (overlays.map fun o => BatchEvent.flushed o.1 o.2).countP (BatchEvent.flushes i) =
      (overlays.map Prod.fst).count i := by
    rw [List.countP_map,List.count,List.countP_map]
    rfl
  have hr : (overlays.map fun o => BatchEvent.flushed o.1 o.2).countP (BatchEvent.requeues i) =
      0 := by
    rw [List.countP_map]
    exact List.countP_eq_zero.mpr fun _ _ => by simp [BatchEvent.requeues]
  simp only [commitGroup,Exec.modify_run,standing,Standing.of,List.countP_append,hf,hr,Nat.add_zero]

/-- Members with other indices do not touch a standing. -/
theorem sameStanding_across (i : ℕ) : AcrossStages (fun tx => tx.1 ≠ i)
    (fun s s' => standing s' i = standing s i) where
  locks _ _ := rfl
  tracker _ _ := rfl
  records _ _ := rfl
  cache _ _ := rfl
  metrics _ _ := rfl
  freezeLock _ _ := rfl
  recorded _ _ := by simp [standing,Standing.of,BatchEvent.flushes,BatchEvent.requeues]
  result s tx e h := by simp [standing,Standing.of,List.getElem?_set_ne h]
  requeued s tx h := by
    unfold requeueTransaction
    rw [Exec.modify_run]
    cases s.stage.txSender.send tx.2 <;>
      simp [standing,Standing.of,BatchEvent.flushes,BatchEvent.requeues,h]

theorem sameStanding_commits (host : Host) (i : ℕ) : AcrossCommits host (fun tx => tx.1 ≠ i)
    (fun s s' => standing s' i = standing s i) := by
  intro s overlays h
  have hc : (overlays.map Prod.fst).count i = 0 := by
    rw [List.count_eq_zero]
    intro hm
    obtain ⟨o,ho,hi⟩ := List.mem_map.mp hm
    obtain ⟨tx,hne,-⟩ := h o ho
    exact hne hi
  simp only [standing_commit,hc,Nat.add_zero]

instance (i : ℕ) : Std.Refl fun s s' : BatchState => standing s' i = standing s i := ⟨fun _ => rfl⟩

instance (i : ℕ) : IsTrans BatchState fun s s' => standing s' i = standing s i :=
  ⟨fun _ _ _ h h' => h'.trans h⟩

theorem lookupClosed_ne (txs : List (ℕ × Transaction)) (i : ℕ) :
    LookupClosed txs fun tx => tx.1 ≠ i :=
  fun _ _ _ h => h

/-- No stage disconnects the queue. -/
theorem connected_across :
    AcrossStages (fun _ => True) (fun s s' => Connected s → Connected s') where
  locks _ _ h := h
  tracker _ _ h := h
  records _ _ h := h
  cache _ _ h := h
  metrics _ _ h := h
  freezeLock _ _ h := h
  recorded _ _ h := h
  result _ _ _ _ h := h
  requeued s tx _ h := by
    unfold requeueTransaction
    rw [Exec.modify_run]
    simp [send_connected h,Connected]

instance : Std.Refl fun s s' => Connected s → Connected s' := ⟨fun _ h => h⟩

instance : IsTrans BatchState fun s s' => Connected s → Connected s' := ⟨fun _ _ _ h h' => h' ∘ h⟩

theorem connected_commits (host : Host) : AcrossCommits host (fun _ => True)
    (fun s s' => Connected s → Connected s') := fun _ _ _ h => h

/-! ## Members of a group -/

/-- Every scheduled transaction of the group fits when its turn comes. -/
def GroupFits (costModel : CostModel) : List (ℕ × Transaction) → BatchState → Prop
  | [], _ => True
  | tx :: rest, s =>
    (s.stage.costTracker.wouldFit (costModel.calculateCost tx.2)).isOk = true ∧
      GroupFits costModel rest
        (onTracker (ε := BatchError) (CostTracker.addCost (costModel.calculateCost tx.2)) s).2

instance GroupFits.decidable (costModel : CostModel) :
    (group : List (ℕ × Transaction)) → (s : BatchState) → Decidable (GroupFits costModel group s)
  | [], _ => .isTrue trivial
  | _ :: rest, _ => @instDecidableAnd _ _ _ (decidable costModel rest _)

/-- A group fits exactly when all of it is admitted. -/
theorem groupFits_iff {group : List (ℕ × Transaction)} {admitted : List Admitted}
    (h : admitGroup costModel group s = (.ok admitted,s')) :
    GroupFits costModel group s ↔ admitted.length = group.length := by
  induction group generalizing s admitted with
  | nil =>
    cases h
    simp [GroupFits]
  | cons tx rest ih =>
    simp only [admitGroup,Exec.get_bind] at h
    split at h
    · next hf =>
      obtain ⟨_,s₁,ht,h⟩ := Exec.bind_ok.mp h
      obtain ⟨admitted',_,hr,h⟩ := Exec.bind_ok.mp h
      cases h
      rw [GroupFits,ht,ih hr]
      simp [hf]
    · next hf =>
      obtain ⟨_,_,-,h⟩ := Exec.bind_ok.mp h
      have hl := (admitGroup_sublist h).length_le
      rw [List.length_map] at hl
      simp only [GroupFits,hf,Bool.false_eq_true,false_and,List.length_cons,false_iff]
      omega

theorem admitGroup_member {group : List (ℕ × Transaction)} (hnd : (group.map Prod.fst).Nodup)
    {admitted : List Admitted} (h : admitGroup costModel group s = (.ok admitted,s')) {i : ℕ}
    (hi : i ∈ group.map Prod.fst) : standing s' i =
      if i ∈ admitted.map Admitted.originalIndex then standing s i
      else (standing s i).fail .wouldExceedMaxBlockCostLimit := by
  induction group generalizing s admitted with
  | nil => simp at hi
  | cons tx rest ih =>
    obtain ⟨hn,hnd⟩ := List.nodup_cons.mp hnd
    simp only [admitGroup,Exec.get_bind] at h
    -- The rest of the group does not touch the first member.
    have hfirst : ∀ {t t' : BatchState} {admitted' : List Admitted},
        admitGroup costModel rest t = (.ok admitted',t') → standing t' tx.1 = standing t tx.1 := by
      intro t t' admitted' h
      exact (admitGroup_keeps (sameStanding_across tx.1)
        fun r hr he => hn (he ▸ List.mem_map_of_mem hr)).of_run h
    split at h
    · obtain ⟨_,s₁,ht,h⟩ := Exec.bind_ok.mp h
      obtain ⟨admitted',s₂,hr,h⟩ := Exec.bind_ok.mp h
      cases h
      have hs₁ : ∀ j, standing s₁ j = standing s j := fun j => by rw [← (Prod.mk.inj ht).2]; rfl
      rcases List.mem_cons.mp hi with rfl | hi
      · rw [List.map_cons,if_pos List.mem_cons_self,hfirst hr,hs₁]
      · have hne : i ≠ tx.1 := fun he => hn (he ▸ hi)
        rw [ih hnd hr hi,hs₁]
        simp [hne]
    · obtain ⟨_,s₁,ht,h⟩ := Exec.bind_ok.mp h
      cases ht
      rcases List.mem_cons.mp hi with rfl | hi
      · have hnot : tx.1 ∉ admitted.map Admitted.originalIndex := by
          intro hm
          obtain ⟨m,hm,hme⟩ := List.mem_map.mp hm
          have := (admitGroup_sublist h).subset (List.mem_map.mpr ⟨m,hm,rfl⟩)
          exact hn (hme ▸ List.mem_map_of_mem this)
        rw [if_neg hnot,hfirst h]
        exact standing_setResult s tx.1 _
      · have hne : tx.1 ≠ i := fun he => hn (he ▸ hi)
        rw [ih hnd h hi]
        have hs₁ := (sameStanding_across i).result s tx .wouldExceedMaxBlockCostLimit hne
        rw [hs₁]

/-- Giving up the first member, and then the others. -/
theorem rollBackGroup_cons {txsToSchedule : List (ℕ × Transaction)} {member : Admitted}
    {rest : List Admitted} (h : rollBackGroup txsToSchedule (member :: rest) s = (.ok (),s')) :
    ∃ s₁, rollBackGroup txsToSchedule rest s₁ = (.ok (),s') ∧
      (standing s₁ member.originalIndex).result =
        ((standing s member.originalIndex).fail .accountInUse).result ∧
      (∀ j, member.originalIndex ≠ j → standing s₁ j = standing s j) ∧
      (Connected s → Connected s₁ ∧ standing s₁ member.originalIndex =
        ((standing s member.originalIndex).fail .accountInUse).requeue) := by
  simp only [rollBackGroup] at h
  obtain ⟨_,s₁,h₁,h⟩ := Exec.bind_ok.mp h
  obtain ⟨_,s₂,h₂,h⟩ := Exec.bind_ok.mp h
  have hs₁ : ∀ j, standing s₁ j = standing s j := fun j => by rw [← (Prod.mk.inj h₁).2]; rfl
  have hc₁ : Connected s → Connected s₁ := by
    rw [← (Prod.mk.inj h₁).2]
    exact id
  cases h₂
  cases ht : txsToSchedule.find? fun tx => tx.1 = member.originalIndex with
  | none =>
    simp only [ht] at h
    obtain ⟨_,_,hab,-⟩ := Exec.bind_ok.mp h
    cases hab
  | some t =>
    simp only [ht] at h
    obtain ⟨_,s₃,h₃,h⟩ := Exec.bind_ok.mp h
    obtain rfl : (requeueTransaction member.originalIndex t.2 { s₁ with
        finalResults := s₁.finalResults.set member.originalIndex (some .accountInUse) }).2 = s₃ :=
      congrArg Prod.snd h₃
    refine ⟨_,h,?_,fun j hne => ?_,fun hc => ?_⟩
    · rw [standing_requeue_result,standing_setResult,hs₁]
    · have hr := (sameStanding_across j).requeued
        { s₁ with finalResults := s₁.finalResults.set member.originalIndex (some .accountInUse) }
        (member.originalIndex,t.2) hne
      have hf := (sameStanding_across j).result s₁ (member.originalIndex,member.transaction)
        .accountInUse hne
      rw [hr,hf,hs₁]
    · have hc₂ := connected_across.result s₁ (member.originalIndex,member.transaction) .accountInUse
        trivial (hc₁ hc)
      refine ⟨connected_across.requeued _ (member.originalIndex,t.2) trivial hc₂,?_⟩
      rw [standing_requeue hc₂,standing_setResult,hs₁]

theorem rollBackGroup_result {txsToSchedule : List (ℕ × Transaction)} {admitted : List Admitted}
    (hnd : (admitted.map Admitted.originalIndex).Nodup)
    (h : rollBackGroup txsToSchedule admitted s = (.ok (),s')) {i : ℕ}
    (hi : i ∈ admitted.map Admitted.originalIndex) :
    (standing s' i).result = ((standing s i).fail .accountInUse).result := by
  induction admitted generalizing s with
  | nil => simp at hi
  | cons member rest ih =>
    obtain ⟨hn,hnd⟩ := List.nodup_cons.mp hnd
    obtain ⟨s₁,hrest,hself,hother,-⟩ := rollBackGroup_cons h
    rcases List.mem_cons.mp hi with rfl | hi
    · have hk := (rollBackGroup_keeps (sameStanding_across member.originalIndex)
        (lookupClosed_ne txsToSchedule _)
        (fun m hm he => hn (he ▸ List.mem_map_of_mem hm))).of_run hrest
      rw [hk,hself]
    · rw [ih hnd hrest hi,hother i fun he => hn (he ▸ hi)]

/-- Every member of a group that is given up is in use and queued again. -/
theorem rollBackGroup_member {txsToSchedule : List (ℕ × Transaction)} {admitted : List Admitted}
    (hnd : (admitted.map Admitted.originalIndex).Nodup) (hc : Connected s)
    (h : rollBackGroup txsToSchedule admitted s = (.ok (),s')) {i : ℕ}
    (hi : i ∈ admitted.map Admitted.originalIndex) :
    standing s' i = ((standing s i).fail .accountInUse).requeue := by
  induction admitted generalizing s with
  | nil => simp at hi
  | cons member rest ih =>
    obtain ⟨hn,hnd⟩ := List.nodup_cons.mp hnd
    obtain ⟨s₁,hrest,-,hother,hconn⟩ := rollBackGroup_cons h
    obtain ⟨hc₁,hself⟩ := hconn hc
    rcases List.mem_cons.mp hi with rfl | hi
    · -- The members behind have other indices.
      have hk := (rollBackGroup_keeps (sameStanding_across member.originalIndex)
        (lookupClosed_ne txsToSchedule _)
        (fun m hm he => hn (he ▸ List.mem_map_of_mem hm))).of_run hrest
      rw [hk,hself]
    · rw [ih hnd hc₁ hrest hi,hother i fun he => hn (he ▸ hi)]

/-- Settling the first result, and then the others. -/
theorem settleGroup_cons {result : TransactionProcessResult} {rest : List TransactionProcessResult}
    {overlays : List (ℕ × OverlayStore)} (h : settleGroup (result :: rest) s = (.ok overlays,s')) :
    ∃ s₁ overlays', settleGroup rest s₁ = (.ok overlays',s') ∧
      (standing s₁ result.member.originalIndex).result =
        ((standing s result.member.originalIndex).settle result.processingResult).result ∧
      (∀ j, result.member.originalIndex ≠ j → standing s₁ j = standing s j) ∧
      (Connected s → Connected s₁ ∧ standing s₁ result.member.originalIndex =
        (standing s result.member.originalIndex).settle result.processingResult) := by
  simp only [settleGroup] at h
  obtain ⟨_,s₁,h₁,h⟩ := Exec.bind_ok.mp h
  cases h₁
  have hs₁ : ∀ j, standing { s with
    bank := s.bank.recordTransactionMetrics result.processingResult.isOk } j =
      standing s j := fun _ => rfl
  cases hr : result.processingResult with
  | ok o =>
    simp only [hr] at h
    obtain ⟨overlays',_,hrest,h⟩ := Exec.bind_ok.mp h
    cases h
    exact ⟨_,overlays',hrest,rfl,fun j _ => hs₁ j,fun hc => ⟨hc,hs₁ _⟩⟩
  | error e =>
    simp only [hr] at h
    obtain ⟨_,s₂,h₂,h⟩ := Exec.bind_ok.mp h
    have hs₂ : ∀ j, standing s₂ j = standing s j := fun j => by rw [← (Prod.mk.inj h₂).2]; rfl
    have hc₂ : Connected s → Connected s₂ := by
      rw [← (Prod.mk.inj h₂).2]
      exact id
    have hfail := fun (t : BatchState) (j : ℕ) (hne : result.member.originalIndex ≠ j) =>
      (sameStanding_across j).result t (result.member.originalIndex,result.member.transaction) e hne
    split at h
    · next he =>
      obtain ⟨_,s₃,h₃,h⟩ := Exec.bind_ok.mp h
      obtain rfl :
          (requeueTransaction result.member.originalIndex result.member.transaction s₂).2 = s₃ :=
        congrArg Prod.snd h₃
      obtain ⟨_,s₄,h₄,h⟩ := Exec.bind_ok.mp h
      cases h₄
      refine ⟨_,overlays,h,?_,fun j hne => ?_,fun hc => ⟨?_,?_⟩⟩
      · rw [standing_setResult,Standing.fail,standing_requeue_result,hs₂,Standing.settle,if_pos he]
        rfl
      · rw [hfail _ j hne,(sameStanding_across j).requeued s₂
          (result.member.originalIndex,result.member.transaction) hne,hs₂]
      · exact connected_across.requeued s₂ (result.member.originalIndex,result.member.transaction)
          trivial (hc₂ hc)
      · rw [standing_setResult,standing_requeue (hc₂ hc),hs₂,Standing.settle,if_pos he]
    · next he =>
      obtain ⟨_,s₃,h₃,h⟩ := Exec.bind_ok.mp h
      cases h₃
      have hself : standing { s₂ with
          finalResults := s₂.finalResults.set result.member.originalIndex (some e) }
          result.member.originalIndex = (standing s result.member.originalIndex).settle
              (.error e) := by
        rw [standing_setResult,hs₂,Standing.settle,if_neg he]
      refine ⟨_,overlays,h,congrArg Standing.result hself,fun j hne => ?_,fun hc => ⟨hc₂ hc,hself⟩⟩
      rw [hfail _ j hne,hs₂]

/-- Settling enters the error of a member that has failed, and nothing for the others. -/
theorem settleGroup_result {results : List TransactionProcessResult}
    (hnd : (results.map fun r => r.member.originalIndex).Nodup)
    {overlays : List (ℕ × OverlayStore)} (h : settleGroup results s = (.ok overlays,s'))
    {r : TransactionProcessResult} (hr : r ∈ results) :
    (standing s' r.member.originalIndex).result =
      ((standing s r.member.originalIndex).settle r.processingResult).result := by
  induction results generalizing s overlays with
  | nil => simp at hr
  | cons result rest ih =>
    obtain ⟨hn,hnd⟩ := List.nodup_cons.mp hnd
    obtain ⟨s₁,overlays',hrest,hself,hother,-⟩ := settleGroup_cons h
    rcases List.mem_cons.mp hr with rfl | hr
    · have hk := (settleGroup_keeps (sameStanding_across r.member.originalIndex)
        fun r' hr' he => hn (List.mem_map.mpr ⟨r',hr',he⟩)).of_run hrest
      rw [hk,hself]
    · have hne : result.member.originalIndex ≠ r.member.originalIndex :=
        fun he => hn (List.mem_map.mpr ⟨r,hr,he.symm⟩)
      rw [ih hnd hrest hr,hother _ hne]

theorem settleGroup_member {results : List TransactionProcessResult}
    (hnd : (results.map fun r => r.member.originalIndex).Nodup) (hc : Connected s)
    {overlays : List (ℕ × OverlayStore)} (h : settleGroup results s = (.ok overlays,s'))
    {r : TransactionProcessResult} (hr : r ∈ results) :
    standing s' r.member.originalIndex =
      (standing s r.member.originalIndex).settle r.processingResult := by
  induction results generalizing s overlays with
  | nil => simp at hr
  | cons result rest ih =>
    obtain ⟨hn,hnd⟩ := List.nodup_cons.mp hnd
    obtain ⟨s₁,overlays',hrest,-,hother,hconn⟩ := settleGroup_cons h
    obtain ⟨hc₁,hself⟩ := hconn hc
    rcases List.mem_cons.mp hr with rfl | hr
    · have hk := (settleGroup_keeps (sameStanding_across r.member.originalIndex)
        fun r' hr' he => hn (List.mem_map.mpr ⟨r',hr',he⟩)).of_run hrest
      rw [hk,hself]
    · have hne : result.member.originalIndex ≠ r.member.originalIndex :=
        fun he => hn (List.mem_map.mpr ⟨r,hr,he.symm⟩)
      rw [ih hnd hc₁ hrest hr,hother _ hne]

/-- The overlay of a member is committed once if it has one. -/
theorem count_overlays {results : List TransactionProcessResult}
    (hnd : (results.map fun r => r.member.originalIndex).Nodup) {r : TransactionProcessResult}
    (hr : r ∈ results) : ((results.filterMap fun r => r.processingResult.toOption.map
      fun o => (r.member.originalIndex,o)).map Prod.fst).count r.member.originalIndex =
        if r.processingResult.isOk then 1 else 0 := by
  induction results with
  | nil => simp at hr
  | cons result rest ih =>
    obtain ⟨hn,hnd⟩ := List.nodup_cons.mp hnd
    have hzero : ((rest.filterMap fun r => r.processingResult.toOption.map
        fun o => (r.member.originalIndex,o)).map Prod.fst).count result.member.originalIndex =
          0 := by
      rw [List.count_eq_zero]
      intro hm
      obtain ⟨o,ho,hi⟩ := List.mem_map.mp hm
      obtain ⟨r',hr',hro⟩ := List.mem_filterMap.mp ho
      obtain ⟨_,-,rfl⟩ := Option.map_eq_some_iff.mp hro
      exact hn (List.mem_map.mpr ⟨r',hr',hi⟩)
    rcases List.mem_cons.mp hr with rfl | hr
    · cases hp : r.processingResult with
      | ok o =>
        rw [List.filterMap_cons_some (b := (r.member.originalIndex,o)) (by rw [hp]; rfl)]
        simp [hzero,Except.isOk,Except.toBool]
      | error e =>
        rw [List.filterMap_cons_none (by rw [hp]; rfl),hzero]
        rfl
    · have hne : result.member.originalIndex ≠ r.member.originalIndex :=
        fun he => hn (List.mem_map.mpr ⟨r,hr,he.symm⟩)
      rw [← ih hnd hr]
      cases hp : result.processingResult with
      | ok o =>
        rw [List.filterMap_cons_some (b := (result.member.originalIndex,o)) (by rw [hp]; rfl),
          List.map_cons,List.count_cons_of_ne hne]
      | error e => rw [List.filterMap_cons_none (by rw [hp]; rfl)]

/-- Every member of a group that is run meets a fate. -/
theorem runGroup_member {admitted : List Admitted}
    (hnd : (admitted.map Admitted.originalIndex).Nodup) (hc : Connected s)
    (h : runGroup host admitted s = (.ok (),s')) {i : ℕ}
    (hi : i ∈ admitted.map Admitted.originalIndex) (hfresh : standing s i = .fresh) :
    ∃ fate, (standing s' i).Meets fate := by
  obtain ⟨results,overlays,s₁,s₂,u,hx,-,hreach,hset,rfl⟩ := runGroup_ok h
  -- Up to settling nothing happens to the standing and to the queue.
  have hs₂ := (hreach _ _ (sameStanding_across i)).trans hfresh
  have hc₂ := hreach _ _ connected_across hc
  obtain ⟨rfl,-⟩ := executeGroup_results hx
  rw [List.map_map] at hnd hi
  obtain ⟨r,hr,rfl⟩ := List.mem_map.mp hi
  have hst := settleGroup_member hnd hc₂ hset hr
  have hcount := count_overlays hnd hr
  rw [← settleGroup_overlays hset] at hcount
  rw [Function.comp_apply] at hs₂ ⊢
  rw [standing_commit,hst,hs₂,hcount]
  cases r.processingResult with
  | ok o => exact ⟨.committed,rfl,rfl,rfl⟩
  | error e => exact Standing.meets_failed e

/-- After a group its admitted members have met a fate and the others were refused. -/
theorem processGroup_member {txsToSchedule group : List (ℕ × Transaction)}
    (hnd : (group.map Prod.fst).Nodup) (hc : Connected s)
    (h : processGroup host costModel txsToSchedule group s = (.ok (),s')) :
    ∃ admitted s₁, admitGroup costModel group s = (.ok admitted,s₁) ∧
      ∀ i ∈ group.map Prod.fst, standing s i = .fresh →
        if i ∈ admitted.map Admitted.originalIndex then ∃ fate, (standing s' i).Meets fate
        else standing s' i = .refused := by
  obtain ⟨admitted,s₁,ha,h⟩ := processGroup_ok h
  refine ⟨admitted,s₁,ha,fun i hi hfresh => ?_⟩
  have hst := admitGroup_member hnd ha hi
  rw [hfresh] at hst
  have hc₁ : Connected s₁ := (admitGroup_keeps connected_across fun _ _ => trivial).of_run ha hc
  have hnd' : (admitted.map Admitted.originalIndex).Nodup := by
    have hsub := (admitGroup_sublist ha).map Prod.fst
    rw [List.map_map] at hsub
    exact hsub.nodup hnd
  have hother : i ∉ admitted.map Admitted.originalIndex →
      ∀ m ∈ admitted, (m.originalIndex,m.transaction).1 ≠ i :=
    fun hn m hm he => hn (List.mem_map.mpr ⟨m,hm,he⟩)
  obtain ⟨rfl,rfl⟩ | ⟨u,hu,h⟩ | ⟨u,v,hu,hrun,hv⟩ := h
  · exact hst
  · have hsu := hu _ _ (sameStanding_across i)
    split
    · next him =>
      rw [if_pos him] at hst
      rw [rollBackGroup_member hnd' (hu _ _ connected_across hc₁) h him,hsu,hst]
      exact ⟨.queuedAgain,.accountInUse,rfl,rfl,rfl,rfl⟩
    · next him =>
      rw [if_neg him] at hst
      rw [(rollBackGroup_keeps (sameStanding_across i) (lookupClosed_ne _ i) (hother him)).of_run h,
        hsu,hst]
      rfl
  · have hsu := hu _ _ (sameStanding_across i)
    rw [hv _ _ (sameStanding_across i)]
    split
    · next him =>
      rw [if_pos him] at hst
      exact runGroup_member hnd' (hu _ _ connected_across hc₁) hrun him (hsu.trans hst)
    · next him =>
      rw [if_neg him] at hst
      exact ((runGroup_keeps (sameStanding_across i) (sameStanding_commits host i)
        (hother him)).of_run hrun).trans (hsu.trans hst)

end BankingStage

end TinySolana
