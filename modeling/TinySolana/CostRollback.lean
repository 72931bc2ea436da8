import TinySolana.CostHistory

/-!
# Rolling a cost back

A cost that was added and subtracted again leaves an entry for every account that it writes, with
nothing charged. Such an entry is not the same as none: only an account that has an entry is
compared with its limit, and only from an entry something can be subtracted.
-/

namespace TinySolana
open Foundations

/-- A call on the tracker that a user may make. -/
inductive CostCall where
  | wouldFit (txCost : TransactionCost)
  | addCost (txCost : TransactionCost)
  | subtractCost (txCost : TransactionCost)

inductive CostAnswer where
  | fits (result : Except CostModelError Unit)
  | returned
  | panicked

namespace CostTracker

/-- The answers to a sequence of calls, which ends where one panics. -/
def answers : CostTracker → List CostCall → List CostAnswer
  | _, [] => []
  | tracker, .wouldFit txCost :: rest => .fits (tracker.wouldFit txCost) :: answers tracker rest
  | tracker, .addCost txCost :: rest =>
    match (addCost txCost : Exec CostTracker Empty Unit) tracker with
    | (.ok _,tracker') => .returned :: answers tracker' rest
    | _ => [.panicked]
  | tracker, .subtractCost txCost :: rest =>
    match (subtractCost txCost : Exec CostTracker Empty Unit) tracker with
    | (.ok _,tracker') => .returned :: answers tracker' rest
    | _ => [.panicked]

/-- Adding the cost and subtracting it again returns, and the tracker behind it answers every
sequence of calls as if the cost had never been added. -/
def RolledBackUnseen (tracker : CostTracker) (cost : TransactionCost) : Prop :=
  ∃ added back, (addCost cost : Exec CostTracker Empty Unit) tracker = (.ok (),added) ∧
    (subtractCost cost : Exec CostTracker Empty Unit) added = (.ok (),back) ∧
    ∀ calls, back.answers calls = tracker.answers calls

variable {tracker : CostTracker} {cost : TransactionCost}

theorem answers_subtractCost : tracker.answers [.subtractCost cost] = [.returned] ↔
    ∀ k ∈ cost.writableAccounts, ∀ e ∈ tracker.costByWritableAccounts.lookup k, cost.sum ≤ e := by
  have hok : (subtractCost cost : Exec CostTracker Empty Unit) tracker =
      (.ok (),tracker.subtracted cost) ↔ _ := subtractCost_ok
  rw [and_iff_left rfl] at hok
  rw [← hok,answers]
  split
  · next u t ht =>
    obtain rfl := (subtractCost_ok.mp ht).2
    exact iff_of_true rfl ht
  · next hn => exact iff_of_false nofun fun h => hn _ _ h

theorem added_subtracted_lookup (tracker : CostTracker) (cost : TransactionCost) (k : Pubkey) :
    ((tracker.added cost).subtracted cost).costByWritableAccounts.lookup k =
      if k ∈ cost.writableAccounts then some (tracker.accountCost k)
      else tracker.costByWritableAccounts.lookup k := by
  rw [subtracted_lookup,added_lookup]
  split
  · rw [Option.map_some,UInt64.add_sub_cancel]
  · rfl

/-- Where the accounts have entries, nothing is left of the cost. -/
theorem added_subtracted_eq (h : ∀ k ∈ cost.writableAccounts,
    tracker.costByWritableAccounts.lookup k ≠ none) : (tracker.added cost).subtracted cost =
      tracker := by
  have hentries : ((tracker.added cost).subtracted cost).costByWritableAccounts =
      tracker.costByWritableAccounts := by
    apply Finmap.ext_lookup
    intro k
    rw [added_subtracted_lookup]
    split
    · next hk =>
      cases hl : tracker.costByWritableAccounts.lookup k with
      | none => exact absurd hl (h k hk)
      | some e => rw [accountCost,hl,Option.getD_some]
    · rfl
  have hblock : ((tracker.added cost).subtracted cost).blockCost = tracker.blockCost :=
    UInt64.add_sub_cancel _ _
  calc (tracker.added cost).subtracted cost
      = { tracker with
          blockCost := ((tracker.added cost).subtracted cost).blockCost
          costByWritableAccounts :=
            ((tracker.added cost).subtracted cost).costByWritableAccounts } := rfl
    _ = tracker := by rw [hblock,hentries]

/-- Where the cost can be added to the accounts, it is added and subtracted again. -/
theorem roll_back_run (h : ∀ k ∈ cost.writableAccounts,
    (tracker.accountCost k).toNat+cost.sum.toNat < 2^64) :
    (addCost cost : Exec CostTracker Empty Unit) tracker = (.ok (),tracker.added cost) ∧
      (subtractCost cost : Exec CostTracker Empty Unit) (tracker.added cost) =
        (.ok (),(tracker.added cost).subtracted cost) := by
  refine ⟨addCost_ok.mpr ⟨h,rfl⟩,subtractCost_ok.mpr ⟨fun k hk e he => ?_,rfl⟩⟩
  rw [Option.mem_def,added_lookup,if_pos hk,Option.some.injEq] at he
  rw [← he,UInt64.le_iff_toNat_le,UInt64.toNat_add,Nat.mod_eq_of_lt (h k hk)]
  exact Nat.le_add_left _ _

/-- In every state a cost is rolled back unseen exactly when each account that it writes has an
entry, and it can be added to the entries at all. -/
theorem rollback_unseen_iff (tracker : CostTracker) (cost : TransactionCost) :
    tracker.RolledBackUnseen cost ↔ ∀ k ∈ cost.writableAccounts,
      ∃ e, tracker.costByWritableAccounts.lookup k = some e ∧ e.toNat+cost.sum.toNat < 2^64 := by
  constructor
  · rintro ⟨added,back,hadd,hsub,hsame⟩ k hk
    obtain ⟨hfits,rfl⟩ := addCost_ok.mp hadd
    obtain ⟨-,rfl⟩ := subtractCost_ok.mp hsub
    have hlt := hfits k hk
    cases hl : tracker.costByWritableAccounts.lookup k with
    | some e =>
      rw [accountCost,hl,Option.getD_some] at hlt
      exact ⟨e,rfl,hlt⟩
    | none =>
      -- One unit can be taken from an account without an entry, but not from the entry that is
      -- left.
      have hleft : ((tracker.added cost).subtracted cost).costByWritableAccounts.lookup k =
          some 0 := by
        rw [added_subtracted_lookup,if_pos hk,accountCost,hl,Option.getD_none]
      have hbefore : tracker.answers [.subtractCost (CostHistory.costOf 1 [k])] = [.returned] := by
        refine answers_subtractCost.mpr fun j hj e he => ?_
        obtain rfl : j = k := by simpa using hj
        rw [hl] at he
        cases he
      have hafter := (hsame [.subtractCost (CostHistory.costOf 1 [k])]).trans hbefore
      have hle := answers_subtractCost.mp hafter k (by simp) 0 hleft
      rw [CostHistory.costOf_sum] at hle
      exact absurd hle (by decide)
  · intro h
    have hentry : ∀ k ∈ cost.writableAccounts, tracker.costByWritableAccounts.lookup k ≠ none := by
      intro k hk hn
      obtain ⟨e,he,-⟩ := h k hk
      rw [hn] at he
      cases he
    have hfits : ∀ k ∈ cost.writableAccounts,
        (tracker.accountCost k).toNat+cost.sum.toNat < 2^64 := by
      intro k hk
      obtain ⟨e,he,hlt⟩ := h k hk
      rwa [accountCost,he,Option.getD_some]
    obtain ⟨hadd,hsub⟩ := roll_back_run hfits
    exact ⟨_,_,hadd,hsub,fun calls => by rw [added_subtracted_eq hentry]⟩

/-- A cost that was rolled back on a new tracker makes it refuse a transaction that it would have
accepted. -/
theorem rollback_seen :
    let cost := CostHistory.costOf 720 [.ofByte 1]
    let start := new maxBlockUnits maxWritableAccountUnits
    (start.wouldFit cost).isOk ∧ ∃ added back,
      (addCost cost : Exec CostTracker Empty Unit) start = (.ok (),added) ∧
      (subtractCost cost : Exec CostTracker Empty Unit) added = (.ok (),back) ∧
      (start.wouldFit CostHistory.costlyCalls).isOk ∧
      back.wouldFit CostHistory.costlyCalls = .error .wouldExceedAccountMaxLimit ∧
      ¬start.RolledBackUnseen cost := by
  intro cost start
  have hfits : ∀ k ∈ cost.writableAccounts, (start.accountCost k).toNat+cost.sum.toNat < 2^64 := by
    intro k _
    simpa [accountCost,start,new] using cost.sum.toNat_lt
  obtain ⟨hadd,hsub⟩ := roll_back_run hfits
  have hbefore : (start.wouldFit CostHistory.costlyCalls).isOk := by decide +kernel
  have hafter : ((start.added cost).subtracted cost).wouldFit CostHistory.costlyCalls =
      .error .wouldExceedAccountMaxLimit := by decide +kernel
  refine ⟨by decide +kernel,_,_,hadd,hsub,hbefore,hafter,?_⟩
  rintro ⟨added,back,hadd',hsub',hsame⟩
  obtain rfl := (Prod.mk.inj (hadd.symm.trans hadd')).2
  obtain rfl := (Prod.mk.inj (hsub.symm.trans hsub')).2
  have hcall := hsame [.wouldFit CostHistory.costlyCalls]
  rw [answers,answers,hafter] at hcall
  injection hcall with hcall
  injection hcall with hcall
  rw [← hcall] at hbefore
  cases hbefore

end CostTracker

end TinySolana
