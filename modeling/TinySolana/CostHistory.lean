import TinySolana.CostLedger
import TinySolana.Foundations.Runs

/-!
# Histories of a cost tracker

A tracker is used in a discipline: a cost is added right after it was found to fit, only outstanding
costs are subtracted, and a reset forgets them all. What the discipline is worth depends on the
limits. The sum with the block cost saturates where it is compared with the limit, and wraps around
where it is stored; and an account is compared with its limit only once it has an entry.
-/

namespace TinySolana
open Foundations

inductive CostOperation where
  | addCost (txCost : TransactionCost)
  | subtractCost (txCost : TransactionCost)
  | reset

/-- The operation cannot leave the range of a counter: nothing wraps, overflows or underflows. -/
def CostTracker.InRange (tracker : CostTracker) : CostOperation → Prop
  | .addCost txCost => tracker.blockCost.toNat+txCost.sum.toNat < 2^64 ∧
      ∀ k ∈ txCost.writableAccounts, (tracker.accountCost k).toNat+txCost.sum.toNat < 2^64
  | .subtractCost txCost => txCost.sum ≤ tracker.blockCost ∧ ∀ k ∈ txCost.writableAccounts,
      ∀ e ∈ tracker.costByWritableAccounts.lookup k, txCost.sum ≤ e
  | .reset => True

/-- A tracker, and the costs that were added to it and are outstanding. -/
structure CostHistory where
  tracker : CostTracker
  outstanding : Multiset TransactionCost

namespace CostHistory
open CostTracker

def begin (blockCostLimit accountCostLimit : UInt64) : CostHistory :=
  ⟨.new blockCostLimit accountCostLimit,0⟩

/-- The operations that the discipline allows. -/
def Allowed (s : CostHistory) : CostOperation → Prop
  | .addCost txCost => (s.tracker.wouldFit txCost).isOk
  | .subtractCost txCost => txCost ∈ s.outstanding
  | .reset => True

/-- An allowed operation that returns. -/
inductive Step : CostHistory → CostOperation → CostHistory → Prop where
  | addCost {tracker tracker' : CostTracker} {outstanding : Multiset TransactionCost}
      {txCost : TransactionCost} : (tracker.wouldFit txCost).isOk →
      (CostTracker.addCost txCost : Exec CostTracker Empty Unit) tracker = (.ok (),tracker') →
      Step ⟨tracker,outstanding⟩ (.addCost txCost) ⟨tracker',txCost ::ₘ outstanding⟩
  | subtractCost {tracker tracker' : CostTracker} {outstanding : Multiset TransactionCost}
      {txCost : TransactionCost} :
      (CostTracker.subtractCost txCost : Exec CostTracker Empty Unit) tracker = (.ok (),tracker') →
      Step ⟨tracker,txCost ::ₘ outstanding⟩ (.subtractCost txCost) ⟨tracker',outstanding⟩
  | reset {tracker : CostTracker} {outstanding : Multiset TransactionCost} :
      Step ⟨tracker,outstanding⟩ .reset ⟨tracker.reset,0⟩

variable {s t : CostHistory} {op : CostOperation} {ops : List CostOperation}

/-- The limits are set once. -/
theorem Step.limits (h : Step s op t) : t.tracker.blockCostLimit = s.tracker.blockCostLimit ∧
    t.tracker.accountCostLimit = s.tracker.accountCostLimit := by
  cases h with
  | addCost _ hx =>
    rw [(addCost_ok.mp hx).2]
    exact ⟨rfl,rfl⟩
  | subtractCost hx =>
    rw [(subtractCost_ok.mp hx).2]
    exact ⟨rfl,rfl⟩
  | reset => exact ⟨rfl,rfl⟩

/-! ## The sums -/

/-- The block and every account are charged what is outstanding, within the limit of the block, and
the next operation returns without leaving the range of a counter. -/
structure Balanced (s : CostHistory) : Prop where
  block : s.tracker.blockCost.toNat = charged s.outstanding
  limit : s.tracker.blockCost ≤ s.tracker.blockCostLimit
  accounts : ∀ k, (s.tracker.accountCost k).toNat = chargedTo s.outstanding k
  inRange : ∀ op, s.Allowed op → s.tracker.InRange op
  returns : ∀ op, s.Allowed op → ∃ t, Step s op t

theorem Step.tallies (h : Step s op t) (hs : s.tracker.Tallies s.outstanding)
    (hmax : s.tracker.blockCostLimit < maxU64) : t.tracker.Tallies t.outstanding := by
  cases h with
  | addCost hf hx =>
    obtain ⟨blockCost,entries,hrun,ht⟩ := addCost_tallies (ε := Empty) hs hmax hf
    obtain rfl := (Prod.mk.inj (hx.symm.trans hrun)).2
    exact ht
  | subtractCost hx =>
    obtain ⟨blockCost,entries,hrun,ht⟩ := subtractCost_tallies (ε := Empty) hs
    obtain rfl := (Prod.mk.inj (hx.symm.trans hrun)).2
    exact ht
  | reset => exact reset_tallies _

theorem balanced_of_tallies (hs : s.tracker.Tallies s.outstanding)
    (hmax : s.tracker.blockCostLimit < maxU64) : s.Balanced := by
  obtain ⟨tracker,outstanding⟩ := s
  replace hmax : tracker.blockCostLimit < maxU64 := hmax
  have hblock : tracker.blockCost.toNat = charged outstanding := hs.block
  have haccounts : ∀ k, (tracker.accountCost k).toNat = chargedTo outstanding k := hs.accounts
  have hlimit := tracker.blockCostLimit.toNat_lt
  have hadd : ∀ txCost, (tracker.wouldFit txCost).isOk → tracker.InRange (.addCost txCost) := by
    intro txCost hf
    have hfit := wouldFit_le hmax hf
    refine ⟨by omega,fun k _ => ?_⟩
    have hle := chargedTo_le outstanding k
    rw [haccounts k]
    omega
  have hsubtract : ∀ txCost ∈ outstanding, tracker.InRange (.subtractCost txCost) := by
    intro txCost hm
    obtain ⟨rest,rfl⟩ := Multiset.exists_cons_of_mem hm
    rw [charged_cons] at hblock
    refine ⟨UInt64.le_iff_toNat_le.mpr (by omega),fun k hk e he => UInt64.le_iff_toNat_le.mpr ?_⟩
    have hk' := haccounts k
    rw [chargedTo_cons,if_pos hk,accountCost,Option.mem_def.mp he,Option.getD_some] at hk'
    omega
  refine ⟨hblock,UInt64.le_iff_toNat_le.mpr (hblock.trans_le hs.limit),haccounts,fun op h => ?_,
    fun op h => ?_⟩
  · cases op with
    | addCost txCost => exact hadd txCost h
    | subtractCost txCost => exact hsubtract txCost h
    | reset => trivial
  · cases op with
    | addCost txCost => exact ⟨_,.addCost h (addCost_ok.mpr ⟨(hadd txCost h).2,rfl⟩)⟩
    | subtractCost txCost =>
      have hr := (hsubtract txCost h).2
      obtain ⟨rest,rfl⟩ := Multiset.exists_cons_of_mem h
      exact ⟨_,.subtractCost (subtractCost_ok.mpr ⟨hr,rfl⟩)⟩
    | reset => exact ⟨_,.reset⟩

/-- A cost that is `n` in all and writes the given accounts. -/
def costOf (n : UInt64) (keys : List Pubkey) : TransactionCost := ⟨n,0,0,0,.ofList keys⟩

@[simp] theorem costOf_sum (n : UInt64) (keys : List Pubkey) : (costOf n keys).sum = n := by
  simp [TransactionCost.sum,costOf]

@[simp] theorem mem_costOf {n : UInt64} {keys : List Pubkey} {k : Pubkey} :
    k ∈ (costOf n keys).writableAccounts ↔ k ∈ keys := BTreeSet.mem_ofList

/-- Half of what a counter can hold. -/
def halfCost : TransactionCost := costOf 9223372036854775808 []

theorem halfCost_sum : halfCost.sum.toNat = 2^63 := by
  rw [halfCost,costOf_sum]
  rfl

theorem halfCost_writes (k : Pubkey) : k ∉ halfCost.writableAccounts := by simp [halfCost]

/-- In a block without a limit it always fits. -/
theorem halfCost_fits {tracker : CostTracker} (h : tracker.blockCostLimit = maxU64) :
    (tracker.wouldFit halfCost).isOk := by
  have haccounts : ¬∃ k ∈ halfCost.writableAccounts.toList,
      tracker.AccountExceeded halfCost.sum k := fun ⟨k,hk,_⟩ => halfCost_writes k hk
  rw [wouldFit,if_neg (UInt64.not_lt.mpr (h ▸ le_maxU64 _)),if_neg haccounts]
  rfl

theorem halfCost_added (tracker : CostTracker) (outstanding : Multiset TransactionCost)
    (h : tracker.blockCostLimit = maxU64) : Step ⟨tracker,outstanding⟩ (.addCost halfCost)
      ⟨tracker.added halfCost,halfCost ::ₘ outstanding⟩ :=
  .addCost (halfCost_fits h) (addCost_ok.mpr ⟨fun k hk => absurd hk (halfCost_writes k),rfl⟩)

/-- Every history of a tracker is balanced exactly when the block has a limit that a counter
exceeds. -/
theorem cost_ledger_iff (blockCostLimit accountCostLimit : UInt64) :
    (∀ ops s, Run Step (begin blockCostLimit accountCostLimit) ops s → s.Balanced) ↔
      blockCostLimit < maxU64 := by
  constructor
  · intro h
    by_contra hn
    obtain rfl : blockCostLimit = maxU64 := UInt64.le_antisymm (le_maxU64 _) (UInt64.not_lt.mp hn)
    -- Once it has been added, it fits again, and the sum is one more than a counter can hold.
    have hrun := Run.single (halfCost_added (.new maxU64 accountCostLimit) 0 rfl)
    have hrange := ((h _ _ hrun).inRange (.addCost halfCost) (halfCost_fits rfl)).1
    change (0+halfCost.sum).toNat+halfCost.sum.toNat < 2^64 at hrange
    rw [UInt64.zero_add,halfCost_sum] at hrange
    omega
  · intro hmax ops s hr
    have hstep : ∀ s op t, s.tracker.Tallies s.outstanding ∧ s.tracker.blockCostLimit < maxU64 →
        Step s op t → t.tracker.Tallies t.outstanding ∧ t.tracker.blockCostLimit < maxU64 := by
      rintro s op t ⟨hs,hmax⟩ h
      exact ⟨h.tallies hs hmax,h.limits.1 ▸ hmax⟩
    obtain ⟨ht,hlimit⟩ := hr.invariant hstep ⟨new_tallies blockCostLimit accountCostLimit,hmax⟩
    exact balanced_of_tallies ht hlimit

/-- Two costs that fit take the block cost around to zero. -/
theorem two_halves_wrap :
    ∃ s, Run Step (begin maxU64 maxWritableAccountUnits) [.addCost halfCost,.addCost halfCost] s ∧
      s.tracker.blockCost = 0 ∧ charged s.outstanding = 2^64 ∧ ¬s.Balanced := by
  have hblock : (0+halfCost.sum)+halfCost.sum = 0 := by decide +kernel
  have hcharged : charged (halfCost ::ₘ halfCost ::ₘ 0) = 2^64 := by
    rw [charged_cons,charged_cons,halfCost_sum]
    rfl
  refine ⟨_,(Run.single (halfCost_added _ _ rfl)).snoc (halfCost_added _ _ rfl),hblock,
    hcharged,fun h => ?_⟩
  have hsum := (congrArg UInt64.toNat hblock).symm.trans (h.block.trans hcharged)
  cases hsum

/-! ## The limit of an account -/

/-- No account is charged more than it may be. -/
def AccountsLimited (tracker : CostTracker) : Prop :=
  ∀ k, ∀ e ∈ tracker.costByWritableAccounts.lookup k, e ≤ tracker.accountCostLimit

/-- A cost is added to an account without an entry only if the account may be charged it. -/
def FirstWithinLimit (s : CostHistory) : CostOperation → Prop
  | .addCost txCost => ∀ k ∈ txCost.writableAccounts,
      s.tracker.costByWritableAccounts.lookup k = none → txCost.sum ≤ s.tracker.accountCostLimit
  | _ => True

/-- An operation keeps the accounts within their limit exactly when it adds nothing over the limit
to an account without an entry. -/
theorem Step.accountsLimited_iff (h : Step s op t) (hs : AccountsLimited s.tracker) :
    AccountsLimited t.tracker ↔ s.FirstWithinLimit op := by
  cases h with
  | @addCost tracker tracker' outstanding txCost hf hx =>
    obtain ⟨hfits,rfl⟩ := addCost_ok.mp hx
    constructor
    · intro ht k hk hnone
      have hentry := ht k (tracker.accountCost k+txCost.sum) (by
        rw [Option.mem_def,added_lookup,if_pos hk])
      rwa [accountCost,hnone,Option.getD_none,UInt64.zero_add] at hentry
    · intro hfirst k e he
      rw [Option.mem_def,added_lookup] at he
      split at he
      · next hk =>
        cases he
        cases hl : tracker.costByWritableAccounts.lookup k with
        | none =>
          rw [accountCost,hl,Option.getD_none,UInt64.zero_add]
          exact hfirst k hk hl
        | some e =>
          -- The sum does not saturate, so it is the one that was compared with the limit.
          have hle := wouldFit_account hf hk hl
          have hlt := hfits k hk
          rw [accountCost,hl,Option.getD_some] at hlt ⊢
          rw [UInt64.le_iff_toNat_le,satAdd_toNat_of_lt hlt] at hle
          exact UInt64.le_iff_toNat_le.mpr (by rwa [UInt64.toNat_add,Nat.mod_eq_of_lt hlt])
      · exact hs k e he
  | @subtractCost tracker tracker' outstanding txCost hx =>
    obtain ⟨hle,rfl⟩ := subtractCost_ok.mp hx
    refine iff_of_true (fun k e he => ?_) trivial
    rw [Option.mem_def,subtracted_lookup] at he
    split at he
    · next hk =>
      obtain ⟨e',he',rfl⟩ := Option.map_eq_some_iff.mp he
      have hsub := UInt64.toNat_sub_of_le _ _ (hle k hk e' he')
      have hlimit := UInt64.le_iff_toNat_le.mp (hs k e' he')
      exact UInt64.le_iff_toNat_le.mpr (hsub.trans_le ((Nat.sub_le _ _).trans hlimit))
    · exact hs k e he
  | reset =>
    refine iff_of_true (fun k e he => ?_) trivial
    simp [CostTracker.reset] at he

/-- While no cost over the limit is added to an account without an entry, no account exceeds its
limit; and the first such cost makes the account exceed it. -/
theorem account_cost_limited (blockCostLimit accountCostLimit : UInt64) :
    (∀ ops s, Run.Always Step FirstWithinLimit (begin blockCostLimit accountCostLimit) ops s →
      AccountsLimited s.tracker) ∧
    ∀ s op t, AccountsLimited s.tracker → Step s op t →
      (AccountsLimited t.tracker ↔ s.FirstWithinLimit op) := by
  refine ⟨fun ops s hr => ?_,fun s op t hs h => h.accountsLimited_iff hs⟩
  have hbegin : AccountsLimited (begin blockCostLimit accountCostLimit).tracker := by
    intro k e he
    simp [begin,CostTracker.new] at he
  exact hr.invariant (P := fun s => AccountsLimited s.tracker)
    (fun s op t hs hc h => (h.accountsLimited_iff hs).mpr hc) hbegin

/-- The costs of a transaction that calls the loader 121 times with its only account. -/
def costlyCalls : TransactionCost :=
  CostModel.new.calculateCost ⟨[],[.ofByte 1],default,
    List.replicate 121 ⟨bpfLoaderUpgradeableProgramId,[⟨.ofByte 1,true,true⟩],[]⟩⟩

/-- They fit into a block, and the account they write had no entry. -/
theorem first_cost_over_limit :
    ∃ s, Run Step (begin maxBlockUnits maxWritableAccountUnits) [.addCost costlyCalls] s ∧
      s.tracker.costByWritableAccounts.lookup (.ofByte 1) = some 24200300 ∧
      ¬AccountsLimited s.tracker := by
  have hentry : ((new maxBlockUnits maxWritableAccountUnits).added
      costlyCalls).costByWritableAccounts.lookup (.ofByte 1) = some 24200300 := by decide +kernel
  refine ⟨_,Run.single (.addCost (by decide +kernel) (addCost_ok.mpr ⟨fun k _ => ?_,rfl⟩)),hentry,
    fun h => absurd (h _ _ hentry) (by decide)⟩
  simpa [accountCost,new] using costlyCalls.sum.toNat_lt

/-- A cost that is within the limit is charged to its account. -/
theorem small_cost_within_limit :
    ∃ s, Run.Always Step FirstWithinLimit (begin maxBlockUnits maxWritableAccountUnits)
      [.addCost (costOf 720 [.ofByte 1])] s ∧ AccountsLimited s.tracker := by
  have hsum : (costOf 720 [.ofByte 1]).sum ≤ maxWritableAccountUnits := by
    rw [costOf_sum]
    decide
  have hstep : Step (begin maxBlockUnits maxWritableAccountUnits)
    (.addCost (costOf 720 [.ofByte 1]))
      ⟨(new maxBlockUnits maxWritableAccountUnits).added (costOf 720 [.ofByte 1]),
        costOf 720 [.ofByte 1] ::ₘ 0⟩ := by
    refine .addCost (by decide +kernel) (addCost_ok.mpr ⟨fun k _ => ?_,rfl⟩)
    simp [accountCost,new]
  have hr : Run.Always Step FirstWithinLimit (begin maxBlockUnits maxWritableAccountUnits)
      [.addCost (costOf 720 [.ofByte 1])] _ := Run.single ⟨fun _ _ _ => hsum,hstep⟩
  exact ⟨_,hr,(account_cost_limited maxBlockUnits maxWritableAccountUnits).1 _ _ hr⟩

end CostHistory

end TinySolana
