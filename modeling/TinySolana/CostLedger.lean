import TinySolana.CostModel
import Mathlib.Algebra.BigOperators.Group.Multiset.Defs

/-!
# Cost ledger

The tracker is a tally of the costs that were added to it and not yet subtracted. While a cost is
added only where it fits and subtracted only where it was added, no counter leaves its range.
-/

namespace TinySolana
open Foundations

namespace CostTracker

variable {ε : Type} {tracker : CostTracker} {cost : TransactionCost} {costs : List TransactionCost}

/-! ## The counters of the accounts -/

/-- What the tracker holds against an account. -/
def accountCost (tracker : CostTracker) (k : Pubkey) : UInt64 :=
  (tracker.costByWritableAccounts.lookup k).getD 0

/-- The tracker with `c` as what it holds against an account. -/
def withAccountCost (tracker : CostTracker) (k : Pubkey) (c : UInt64) : CostTracker :=
  { tracker with costByWritableAccounts := tracker.costByWritableAccounts.insert k c }

theorem accountCost_withAccountCost (tracker : CostTracker) (j : Pubkey) (c : UInt64) (k : Pubkey) :
    (tracker.withAccountCost j c).accountCost k = if k = j then c else tracker.accountCost k := by
  rw [accountCost,withAccountCost,FiniteMap.lookup_insert]
  split <;> rfl

variable {tracker' : CostTracker} {c : UInt64} {keys : List Pubkey}

/-- The tracker with some entries put in place. -/
def withEntries (tracker : CostTracker) (entries : List (Pubkey × UInt64)) : CostTracker :=
  { tracker with
    costByWritableAccounts := FiniteMap.insertAll tracker.costByWritableAccounts entries }

/-- Adding to accounts returns exactly where no sum overflows, and puts the sums in place. -/
theorem addToAccounts_ok (hnd : keys.Nodup) :
    (addToAccounts c keys : Exec CostTracker ε Unit) tracker = (.ok (),tracker') ↔
      (∀ k ∈ keys, (tracker.accountCost k).toNat+c.toNat < 2^64) ∧
        tracker' = tracker.withEntries (keys.map fun k => (k,tracker.accountCost k+c)) := by
  induction keys generalizing tracker with
  | nil => simp [addToAccounts,withEntries,eq_comm]
  | cons key rest ih =>
    obtain ⟨hn,hnd⟩ := List.nodup_cons.mp hnd
    -- The keys behind hold what they held.
    have hrest :
      ∀ k ∈ rest, (tracker.withAccountCost key (tracker.accountCost key+c)).accountCost k =
        tracker.accountCost k := fun k hk => by
      have hne : k ≠ key := fun he => hn (he ▸ hk)
      rw [accountCost_withAccountCost,if_neg hne]
    have hmap : rest.map (fun k =>
        (k,(tracker.withAccountCost key (tracker.accountCost key+c)).accountCost k+c)) =
        rest.map fun k => (k,tracker.accountCost k+c) :=
      List.map_congr_left fun k hk => by rw [hrest k hk]
    rw [addToAccounts,Exec.get_bind,Exec.panicIf_bind_ok,Exec.modify_bind,
      List.forall_mem_cons,and_assoc,Nat.not_le]
    refine and_congr_right fun _ =>
      (@ih (tracker.withAccountCost key (tracker.accountCost key+c)) hnd).trans ?_
    rw [hmap]
    exact and_congr_left fun _ => forall₂_congr fun k hk => by rw [hrest k hk]

/-- Subtracting from accounts returns exactly where no entry is too small, and puts the differences
in place. -/
theorem subtractFromAccounts_ok (hnd : keys.Nodup) :
    (subtractFromAccounts c keys : Exec CostTracker ε Unit) tracker = (.ok (),tracker') ↔
      (∀ k ∈ keys, ∀ e ∈ tracker.costByWritableAccounts.lookup k, c ≤ e) ∧
        tracker' = tracker.withEntries (keys.filterMap fun k =>
          (tracker.costByWritableAccounts.lookup k).map fun e => (k,e-c)) := by
  induction keys generalizing tracker with
  | nil => simp [subtractFromAccounts,withEntries,eq_comm]
  | cons key rest ih =>
    obtain ⟨hn,hnd⟩ := List.nodup_cons.mp hnd
    rw [subtractFromAccounts,Exec.get_bind,List.forall_mem_cons]
    cases hl : tracker.costByWritableAccounts.lookup key with
    | none =>
      rw [List.filterMap_cons_none (by rw [hl]; rfl)]
      simpa using ih hnd
    | some entry =>
      have hrest :
        ∀ k ∈ rest, (tracker.withAccountCost key (entry-c)).costByWritableAccounts.lookup k =
          tracker.costByWritableAccounts.lookup k := fun k hk => by
        have hne : k ≠ key := fun he => hn (he ▸ hk)
        rw [withAccountCost,FiniteMap.lookup_insert,if_neg hne]
      have hmap : (rest.filterMap fun k =>
          ((tracker.withAccountCost key (entry-c)).costByWritableAccounts.lookup k).map
            fun e => (k,e-c)) = rest.filterMap fun k =>
          (tracker.costByWritableAccounts.lookup k).map fun e => (k,e-c) :=
        List.filterMap_congr fun k hk => by rw [hrest k hk]
      rw [List.filterMap_cons_some (b := (key,entry-c)) (by rw [hl]; rfl)]
      dsimp only
      rw [Exec.panicIf_bind_ok,Exec.modify_bind,UInt64.not_lt,and_assoc]
      refine and_congr (by simp) ((@ih (tracker.withAccountCost key (entry-c)) hnd).trans ?_)
      rw [hmap]
      exact and_congr_left fun _ => forall₂_congr fun k hk => by rw [hrest k hk]

theorem lookup_added (tracker : CostTracker) (c : UInt64) (keys : List Pubkey) (k : Pubkey) :
    (tracker.withEntries (keys.map fun k =>
      (k,tracker.accountCost k+c))).costByWritableAccounts.lookup k =
        if k ∈ keys then some (tracker.accountCost k+c)
        else tracker.costByWritableAccounts.lookup k := by
  have hgraph := FiniteMap.lookup_insertAll_graph tracker.costByWritableAccounts
    (fun k => some (tracker.accountCost k+c)) keys k
  rw [withEntries]
  simpa using hgraph

theorem lookup_subtracted (tracker : CostTracker) (c : UInt64) (keys : List Pubkey) (k : Pubkey) :
    (tracker.withEntries (keys.filterMap fun k => (tracker.costByWritableAccounts.lookup k).map
      fun e => (k,e-c))).costByWritableAccounts.lookup k =
        if k ∈ keys then (tracker.costByWritableAccounts.lookup k).map (· - c)
        else tracker.costByWritableAccounts.lookup k := by
  have hgraph := FiniteMap.lookup_insertAll_graph tracker.costByWritableAccounts
    (fun k => (tracker.costByWritableAccounts.lookup k).map (· - c)) keys k
  simp only [Option.map_map,Function.comp_def] at hgraph
  rw [withEntries,hgraph]
  cases tracker.costByWritableAccounts.lookup k <;> rfl

/-- The tracker with a cost added to the block and to the accounts that it writes. -/
def added (tracker : CostTracker) (cost : TransactionCost) : CostTracker :=
  { tracker.withEntries (cost.writableAccounts.toList.map fun k =>
    (k,tracker.accountCost k+cost.sum)) with blockCost := tracker.blockCost+cost.sum }

/-- The tracker with a cost subtracted from the block and from the entries of the accounts it
writes. -/
def subtracted (tracker : CostTracker) (cost : TransactionCost) : CostTracker :=
  { tracker.withEntries (cost.writableAccounts.toList.filterMap fun k =>
      (tracker.costByWritableAccounts.lookup k).map fun e => (k,e-cost.sum))
    with blockCost := tracker.blockCost-cost.sum }

theorem addCost_ok : (addCost cost : Exec CostTracker ε Unit) tracker = (.ok (),tracker') ↔
    (∀ k ∈ cost.writableAccounts, (tracker.accountCost k).toNat+cost.sum.toNat < 2^64) ∧
      tracker' = tracker.added cost :=
  addToAccounts_ok cost.writableAccounts.nodup

theorem subtractCost_ok : (subtractCost cost : Exec CostTracker ε Unit) tracker =
    (.ok (),tracker') ↔
    (∀ k ∈ cost.writableAccounts, ∀ e ∈ tracker.costByWritableAccounts.lookup k, cost.sum ≤ e) ∧
      tracker' = tracker.subtracted cost :=
  subtractFromAccounts_ok cost.writableAccounts.nodup

theorem added_lookup (tracker : CostTracker) (cost : TransactionCost) (k : Pubkey) :
    (tracker.added cost).costByWritableAccounts.lookup k =
      if k ∈ cost.writableAccounts then some (tracker.accountCost k+cost.sum)
      else tracker.costByWritableAccounts.lookup k := lookup_added tracker _ _ k

theorem subtracted_lookup (tracker : CostTracker) (cost : TransactionCost) (k : Pubkey) :
    (tracker.subtracted cost).costByWritableAccounts.lookup k =
      if k ∈ cost.writableAccounts then
        (tracker.costByWritableAccounts.lookup k).map (· - cost.sum)
      else tracker.costByWritableAccounts.lookup k := lookup_subtracted tracker _ _ k

theorem addToAccounts_run (tracker : CostTracker) {c : UInt64} {keys : List Pubkey}
    (hnd : keys.Nodup) (h : ∀ k ∈ keys, (tracker.accountCost k).toNat+c.toNat < 2^64) :
    ∃ entries, (addToAccounts c keys : Exec CostTracker ε Unit) tracker =
        (.ok (),{ tracker with costByWritableAccounts := entries }) ∧
      ∀ k, ((entries.lookup k).getD 0).toNat =
        (tracker.accountCost k).toNat+if k ∈ keys then c.toNat else 0 := by
  refine ⟨_,(addToAccounts_ok hnd).mpr ⟨h,rfl⟩,fun k => ?_⟩
  have hlookup := lookup_added tracker c keys k
  rw [withEntries] at hlookup
  rw [hlookup]
  split
  · next hk => exact (UInt64.toNat_add ..).trans (Nat.mod_eq_of_lt (h k hk))
  · rfl

theorem subtractFromAccounts_run (tracker : CostTracker) {c : UInt64} {keys : List Pubkey}
    (hnd : keys.Nodup) (h : ∀ k ∈ keys, c ≤ tracker.accountCost k) :
    ∃ entries, (subtractFromAccounts c keys : Exec CostTracker ε Unit) tracker =
        (.ok (),{ tracker with costByWritableAccounts := entries }) ∧
      ∀ k, ((entries.lookup k).getD 0).toNat =
        (tracker.accountCost k).toNat-if k ∈ keys then c.toNat else 0 := by
  have hle : ∀ k ∈ keys, ∀ e ∈ tracker.costByWritableAccounts.lookup k, c ≤ e := by
    intro k hk e he
    have hc := h k hk
    rwa [accountCost,Option.mem_def.mp he] at hc
  refine ⟨_,(subtractFromAccounts_ok hnd).mpr ⟨hle,rfl⟩,fun k => ?_⟩
  have hlookup := lookup_subtracted tracker c keys k
  rw [withEntries] at hlookup
  rw [hlookup,accountCost]
  split
  · next hk =>
    cases he : tracker.costByWritableAccounts.lookup k with
    | none => simp
    | some e => exact UInt64.toNat_sub_of_le _ _ (hle k hk e he)
  · rfl

/-! ## The tally -/

/-- The sum of some costs. -/
def charged (costs : Multiset TransactionCost) : ℕ := (costs.map fun cost => cost.sum.toNat).sum

/-- The sum of the costs of transactions that write an account. -/
def chargedTo (costs : Multiset TransactionCost) (k : Pubkey) : ℕ :=
  charged (costs.filter fun cost => k ∈ cost.writableAccounts)

@[simp] theorem charged_zero : charged 0 = 0 := rfl

@[simp] theorem charged_cons (cost : TransactionCost) (costs : Multiset TransactionCost) :
    charged (cost ::ₘ costs) = cost.sum.toNat+charged costs := by simp [charged]

theorem charged_le_add (some costs : Multiset TransactionCost) :
    charged costs ≤ charged (some+costs) := by
  rw [charged,charged,Multiset.map_add,Multiset.sum_add]
  exact Nat.le_add_left _ _

@[simp] theorem chargedTo_zero (k : Pubkey) : chargedTo 0 k = 0 := rfl

@[simp] theorem chargedTo_cons (cost : TransactionCost) (costs : Multiset TransactionCost)
    (k : Pubkey) :
    chargedTo (cost ::ₘ costs) k =
      (if k ∈ cost.writableAccounts then cost.sum.toNat else 0)+chargedTo costs k := by
  unfold chargedTo
  by_cases h : k ∈ cost.writableAccounts <;> simp [h]

theorem chargedTo_le (costs : Multiset TransactionCost) (k : Pubkey) :
    chargedTo costs k ≤ charged costs := by
  induction costs using Multiset.induction with
  | empty => exact le_rfl
  | cons cost costs ih =>
    rw [chargedTo_cons,charged_cons]
    split <;> omega

/-- The tracker holds what is charged for some costs, which is within its limit. -/
structure Tallies (tracker : CostTracker) (costs : Multiset TransactionCost) : Prop where
  block : tracker.blockCost.toNat = charged costs
  accounts : ∀ k, (tracker.accountCost k).toNat = chargedTo costs k
  limit : charged costs ≤ tracker.blockCostLimit.toNat

theorem new_tallies (blockCostLimit accountCostLimit : UInt64) :
    (new blockCostLimit accountCostLimit).Tallies 0 := by
  refine ⟨rfl,fun k => ?_,Nat.zero_le _⟩
  simp [accountCost,new]

theorem reset_tallies (tracker : CostTracker) : tracker.reset.Tallies 0 := by
  refine ⟨rfl,fun k => ?_,Nat.zero_le _⟩
  simp [accountCost,reset]

variable {costs : Multiset TransactionCost}

/-- A cost that fits is within the limit of the block. -/
theorem wouldFit_le (hmax : tracker.blockCostLimit < maxU64) (h : (tracker.wouldFit cost).isOk) :
    tracker.blockCost.toNat+cost.sum.toNat ≤ tracker.blockCostLimit.toNat := by
  rw [UInt64.lt_iff_toNat_lt,maxU64_toNat] at hmax
  unfold wouldFit at h
  dsimp only at h
  split at h
  · cases h
  · next hn =>
    rw [UInt64.not_lt,UInt64.le_iff_toNat_le,satAdd_toNat] at hn
    omega

/-- A cost that fits stays within the limit of every account that has an entry. -/
theorem wouldFit_account (h : (tracker.wouldFit cost).isOk) {k : Pubkey}
    (hk : k ∈ cost.writableAccounts) {e : UInt64}
    (he : tracker.costByWritableAccounts.lookup k = some e) :
    satAdd e cost.sum ≤ tracker.accountCostLimit := by
  unfold wouldFit at h
  dsimp only at h
  split at h
  · cases h
  · split at h
    · cases h
    · next hn => exact UInt64.not_lt.mp fun hlt => hn ⟨k,hk,e,he,hlt⟩

theorem addCost_tallies (h : tracker.Tallies costs) (hmax : tracker.blockCostLimit < maxU64)
    (hf : (tracker.wouldFit cost).isOk) :
    ∃ blockCost entries, (addCost cost : Exec CostTracker ε Unit) tracker =
        (.ok (),{ tracker with blockCost, costByWritableAccounts := entries }) ∧
      Tallies { tracker with blockCost, costByWritableAccounts := entries } (cost ::ₘ costs) := by
  have hfit := wouldFit_le hmax hf
  have hlimit := tracker.blockCostLimit.toNat_lt
  rw [h.block] at hfit
  obtain ⟨entries,hrun,hentries⟩ := addToAccounts_run (ε := ε) (c := cost.sum)
    { tracker with blockCost := tracker.blockCost+cost.sum } cost.writableAccounts.nodup
    fun k _ => by
      have hk := h.accounts k
      have hle := chargedTo_le costs k
      change (tracker.accountCost k).toNat+cost.sum.toNat < 2^64
      omega
  refine ⟨tracker.blockCost+cost.sum,entries,hrun,?_,fun k => ?_,?_⟩
  · rw [charged_cons,UInt64.toNat_add,h.block,Nat.mod_eq_of_lt (by omega),Nat.add_comm]
  · rw [chargedTo_cons,Nat.add_comm,← h.accounts k]
    exact hentries k
  · rw [charged_cons,Nat.add_comm]
    exact hfit

theorem subtractCost_tallies (h : tracker.Tallies (cost ::ₘ costs)) :
    ∃ blockCost entries, (subtractCost cost : Exec CostTracker ε Unit) tracker =
        (.ok (),{ tracker with blockCost, costByWritableAccounts := entries }) ∧
      Tallies { tracker with blockCost, costByWritableAccounts := entries } costs := by
  have hblock := h.block
  have hlimit := h.limit
  rw [charged_cons] at hblock hlimit
  have hle : cost.sum ≤ tracker.blockCost := by
    rw [UInt64.le_iff_toNat_le]
    omega
  obtain ⟨entries,hrun,hentries⟩ := subtractFromAccounts_run (ε := ε) (c := cost.sum)
    { tracker with blockCost := tracker.blockCost-cost.sum } cost.writableAccounts.nodup
    fun k hk => by
      have hacc := h.accounts k
      rw [chargedTo_cons,if_pos (BTreeSet.mem_def.mpr hk)] at hacc
      change cost.sum ≤ tracker.accountCost k
      rw [UInt64.le_iff_toNat_le]
      omega
  refine ⟨tracker.blockCost-cost.sum,entries,hrun,?_,fun k => ?_,?_⟩
  · rw [UInt64.toNat_sub_of_le _ _ hle]
    omega
  · have hk := (hentries k).trans (congrArg (· - _) ((h.accounts k).trans (chargedTo_cons ..)))
    exact hk.trans (Nat.add_sub_cancel_left ..)
  · change charged costs ≤ tracker.blockCostLimit.toNat
    omega

end CostTracker

end TinySolana
