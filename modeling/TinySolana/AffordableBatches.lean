import TinySolana.LoneBatches

/-!
# Batches within the limits

Where a tracker has room for all members of a group together, none of them is refused, and what
stays charged for the group is at most what its members cost. The limits are those that the tracker
began with.
-/

namespace TinySolana
open Foundations Exec

namespace CostTracker

/-- The tracker has the same limits. -/
structure SameLimits (tracker tracker' : CostTracker) : Prop where
  block : tracker'.blockCostLimit = tracker.blockCostLimit
  account : tracker'.accountCostLimit = tracker.accountCostLimit

instance : Std.Refl SameLimits := ⟨fun _ => ⟨rfl,rfl⟩⟩

instance : IsTrans CostTracker SameLimits :=
  ⟨fun _ _ _ h h' => ⟨h'.block.trans h.block,h'.account.trans h.account⟩⟩

/-- There is room for some more cost, in the block and in every account. -/
structure Room (tracker : CostTracker) (cost : ℕ) : Prop where
  block : cost ≤ tracker.blockCostLimit.toNat
  account : cost ≤ tracker.accountCostLimit.toNat

variable {tracker tracker' : CostTracker} {costs : Multiset TransactionCost}

theorem Room.congr {cost cost' : ℕ} (h : tracker.Room cost) (hs : tracker.SameLimits tracker')
    (hle : cost' ≤ cost) :
    tracker'.Room cost' where
  block := hs.block ▸ hle.trans h.block
  account := hs.account ▸ hle.trans h.account

/-- What there is room for fits. -/
theorem wouldFit_of_room (h : tracker.Tallies costs) {cost : TransactionCost}
    (hr : tracker.Room (charged costs+cost.sum.toNat)) : (tracker.wouldFit cost).isOk := by
  have hblock : ¬tracker.blockCostLimit < satAdd tracker.blockCost cost.sum := by
    rw [UInt64.not_lt,UInt64.le_iff_toNat_le,satAdd_toNat,h.block]
    exact (min_le_left _ _).trans hr.block
  have haccount : ¬∃ k ∈ cost.writableAccounts.toList, tracker.AccountExceeded cost.sum k := by
    rintro ⟨k,-,e,he,hlt⟩
    have hentry : (tracker.accountCost k).toNat = e.toNat := by
      rw [accountCost,Option.mem_def.mp he]
      rfl
    have hle := chargedTo_le costs k
    have hroom := hr.account
    rw [h.accounts] at hentry
    rw [UInt64.lt_iff_toNat_lt,satAdd_toNat] at hlt
    omega
  unfold wouldFit
  rw [if_neg hblock,if_neg haccount]
  rfl

theorem addToAccounts_limits {ε : Type} (cost : UInt64) (keys : List Pubkey) :
    Keeps SameLimits (addToAccounts cost keys : Exec CostTracker ε Unit) := by
  induction keys with
  | nil => exact .pure ()
  | cons k keys ih =>
    exact .bind .get fun _ => .bind (.panicIf _) fun _ =>
      .bind (.modify fun _ => ⟨rfl,rfl⟩) fun _ => ih

theorem subtractFromAccounts_limits {ε : Type} (cost : UInt64) (keys : List Pubkey) :
    Keeps SameLimits (subtractFromAccounts cost keys : Exec CostTracker ε Unit) := by
  induction keys with
  | nil => exact .pure ()
  | cons k keys ih =>
    refine .bind .get fun _ => ?_
    split
    · exact ih
    · exact .bind (.panicIf _) fun _ => .bind (.modify fun _ => ⟨rfl,rfl⟩) fun _ => ih

theorem addCost_limits {ε : Type} (cost : TransactionCost) :
    Keeps SameLimits (addCost cost : Exec CostTracker ε Unit) :=
  .bind (.modify fun _ => ⟨rfl,rfl⟩) fun _ => addToAccounts_limits _ _

theorem subtractCost_limits {ε : Type} (cost : TransactionCost) :
    Keeps SameLimits (subtractCost cost : Exec CostTracker ε Unit) :=
  .bind (.modify fun _ => ⟨rfl,rfl⟩) fun _ => subtractFromAccounts_limits _ _

end CostTracker

namespace BankingStage

variable {host : Host} {costModel : CostModel} {s t : BatchState} {costs : Multiset TransactionCost}

def SameLimits (s t : BatchState) : Prop := s.stage.costTracker.SameLimits t.stage.costTracker

instance : Std.Refl SameLimits := ⟨fun _ => ⟨rfl,rfl⟩⟩

instance : IsTrans BatchState SameLimits :=
  ⟨fun _ _ _ h h' => ⟨h'.block.trans h.block,h'.account.trans h.account⟩⟩

theorem onTracker_limits {ε α : Type} {x : Exec CostTracker ε α}
    (h : Keeps CostTracker.SameLimits x) :
    Keeps SameLimits (onTracker x) := fun s => h s.stage.costTracker

theorem admitGroup_limits (group : List (ℕ × Transaction)) :
    Keeps SameLimits (admitGroup costModel group) := by
  induction group with
  | nil => exact .pure []
  | cons tx rest ih =>
    refine .bind .get fun s => ?_
    split
    · exact .bind (onTracker_limits (CostTracker.addCost_limits _)) fun _ =>
        .bind ih fun _ => .pure _
    · exact .bind (.modify fun _ => ⟨rfl,rfl⟩) fun _ => ih

theorem requeueTransaction_limits (i : ℕ) (tx : Transaction) :
    Keeps SameLimits (requeueTransaction i tx) := by
  intro s
  unfold requeueTransaction
  rw [Exec.modify_run]
  cases s.stage.txSender.send tx <;> exact ⟨rfl,rfl⟩

theorem settleGroup_limits (results : List TransactionProcessResult) :
    Keeps SameLimits (settleGroup results) := by
  induction results with
  | nil => exact .pure []
  | cons result rest ih =>
    refine .bind (.modify fun _ => ⟨rfl,rfl⟩) fun _ => ?_
    split
    · exact .bind ih fun _ => .pure _
    · refine .bind (onTracker_limits (CostTracker.subtractCost_limits _)) fun _ => ?_
      split
      · exact .bind (requeueTransaction_limits _ _) fun _ =>
          .bind (.modify fun _ => ⟨rfl,rfl⟩) fun _ => ih
      · exact .bind (.modify fun _ => ⟨rfl,rfl⟩) fun _ => ih

/-- Every member of a group that there is room for is admitted. -/
theorem admitGroup_all {group : List (ℕ × Transaction)} (h : StageSound s.stage costs)
    (hroom : s.stage.costTracker.Room (CostTracker.charged costs+groupCost costModel group))
    {admitted : List Admitted} (hrun : admitGroup costModel group s = (.ok admitted,t)) :
    admitted.map (fun m => (m.originalIndex,m.transaction)) = group := by
  induction group generalizing s costs admitted with
  | nil =>
    cases hrun
    rfl
  | cons tx rest ih =>
    have hcost : groupCost costModel (tx :: rest) =
        (costModel.calculateCost tx.2).sum.toNat+groupCost costModel rest := by
      rw [groupCost,List.map_cons,List.sum_cons]
      rfl
    have hfit : (s.stage.costTracker.wouldFit (costModel.calculateCost tx.2)).isOk :=
      CostTracker.wouldFit_of_room h.tallied (hroom.congr (Std.Refl.refl _) (by omega))
    simp only [admitGroup,Exec.get_bind,hfit,if_true] at hrun
    obtain ⟨tracker,hadd,hs,-⟩ := addCost_run (ε := BatchError) h hfit
    have hlimits := onTracker_limits (CostTracker.addCost_limits (ε := BatchError)
      (costModel.calculateCost tx.2)) |>.of_run hadd
    rw [Exec.bind_of_ok hadd] at hrun
    obtain ⟨admitted',u,hrest,hrun⟩ := Exec.bind_ok.mp hrun
    cases hrun
    have ih := ih (s := { s with stage := { s.stage with costTracker := tracker } }) hs
      (hroom.congr hlimits (by rw [CostTracker.charged_cons]; omega)) hrest
    rw [List.map_cons,ih]

variable {transactions : List Transaction} {group : List (ℕ × Transaction)}

/-- A group on an empty lock table that there is room for is admitted as a whole, and if it returns,
what is charged for it is no more than what it costs. -/
theorem processGroup_affordable (host : Host) (costModel : CostModel) (txs : List (ℕ × Transaction))
    (hl : s.stage.accountLocks = AccountLocks.new) (h : StageSound s.stage costs)
    (hat : ∀ tx ∈ group, transactions[tx.1]? = some tx.2)
    (hroom : s.stage.costTracker.Room (CostTracker.charged costs+groupCost costModel group)) :
    admittedOf costModel group s = group.map Prod.snd ∧
      (processGroup host costModel txs group s = (.ok (),t) → SameLimits s t ∧ ∃ left,
        StageSound t.stage left ∧ CostTracker.charged left ≤ CostTracker.charged costs+groupCost
          costModel group) := by
  obtain ⟨admitted,t₁,hrun,hs₁,-,-,hle⟩ := admitGroup_run costModel transactions group h
  have hall := admitGroup_all h hroom hrun
  have hlimits₁ : SameLimits s t₁ := (admitGroup_limits group).of_run hrun
  have hsum : CostTracker.charged (costsOf admitted+costs) ≤
      CostTracker.charged costs+groupCost costModel group := by
    rw [CostTracker.charged,Multiset.map_add,Multiset.sum_add]
    exact (Nat.add_comm _ _).trans_le (Nat.add_le_add_left hle _)
  refine ⟨?_,fun hr => ?_⟩
  · rw [admittedOf,hrun,← hall,List.map_map]
    rfl
  by_cases hn : admitted = []
  · rw [processGroup_eq host costModel hrun,if_pos hn] at hr
    cases hr
    exact ⟨hlimits₁,_,hs₁,hsum⟩
  have hlocks := ((admitGroup_quiet group).of_run hrun).accountLocks.trans hl
  rw [processGroup_unlocked h hat hrun hn hlocks] at hr
  cases hran : runGroup host admitted (lockedFor admitted t₁) with
  | mk r v =>
  rw [hran] at hr
  obtain ⟨rfl,rfl⟩ := Prod.mk.inj hr
  obtain ⟨results,overlays,s₂,s₃,u,hx,hrec,-,hset,rfl⟩ := runGroup_ok hran
  -- neither execution nor recording touches the tracker
  obtain ⟨s₂',hstage₂,-,⟨-,results',hx'⟩ | ⟨-,hx'⟩⟩ :=
    executeGroup_run host admitted (lockedFor admitted t₁)
  swap
  · cases hx.symm.trans hx'
  cases hx.symm.trans hx'
  obtain ⟨r,channel,hrec',-⟩ := record_run host.sha256
    (admitted.map fun m => (m.originalIndex,m.transaction)) s₂
  cases hrec.symm.trans hrec'
  obtain ⟨hmembers,-⟩ := executeGroup_results hx
  let recorded := (logEvents [.recorded (admitted.map Admitted.originalIndex)] { s₂ with
    stage := { s₂.stage with pohRecordSender := channel } }).2
  have hs₂ : StageSound s₂.stage (costsOf admitted+costs) :=
    hstage₂ ▸ lockedFor_sound admitted hs₁ hlocks
  have hsound : StageSound recorded.stage
      (costsOf (results.map TransactionProcessResult.member)+costs) := by
    rw [hmembers]
    exact ⟨hs₂.tallied,hs₂.limited,hs₂.counted⟩
  have hfrom : ∀ r ∈ results, r.member.From costModel transactions := fun r hr =>
    have hm : r.member ∈ admitted := hmembers ▸ List.mem_map_of_mem hr
    ⟨hat _ (hall ▸ List.mem_map_of_mem hm),admitGroup_cost hrun _ hm⟩
  obtain ⟨overlays',u',left,hset',hleft,-,hcharged,hcommitted⟩ :=
    settleGroup_run costModel transactions hfrom hsound
  cases hset.symm.trans hset'
  have hlimits₂ : SameLimits t₁ s₂ := by
    have hsame : SameLimits t₁ (lockedFor admitted t₁) := ⟨rfl,rfl⟩
    rw [SameLimits,hstage₂]
    exact hsame
  have hlimits₃ : SameLimits recorded u := (settleGroup_limits results).of_run hset
  rw [hmembers] at hcommitted
  refine ⟨?_,left,?_,?_⟩
  · have hto : SameLimits s u :=
      IsTrans.trans _ _ _ hlimits₁ (IsTrans.trans _ _ _ hlimits₂ hlimits₃)
    exact hto
  · exact ⟨hleft.tallied,hleft.limited,fun _ => 0,FiniteMap.counts_zero.mpr rfl⟩
  · omega

end BankingStage

end TinySolana
