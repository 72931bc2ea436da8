import TinySolana.Transactions
import Mathlib.Data.List.Perm.Basic

/-!
# Scheduler

Transactions are sorted into groups first-fit: a pass over the transactions that are left takes each
one that names no key written by an earlier member of the group.
-/

namespace TinySolana
open Foundations

structure TransactionSets where
  readSet : BTreeSet Pubkey
  writeSet : BTreeSet Pubkey

namespace TransactionScheduler

def extractSets (tx : ℕ × Transaction) : TransactionSets where
  readSet := .ofList (metaKeys false tx.2.metas)
  writeSet := .ofList (metaKeys true tx.2.metas)

/-- The transaction names a key of the set. -/
def Conflicts (writeSet : BTreeSet Pubkey) (tx : ℕ × Transaction) : Prop :=
  (∃ key ∈ (extractSets tx).readSet.toList, key ∈ writeSet) ∨
    ∃ key ∈ (extractSets tx).writeSet.toList, key ∈ writeSet

instance (writeSet : BTreeSet Pubkey) (tx : ℕ × Transaction) : Decidable (Conflicts writeSet tx) :=
  inferInstanceAs (Decidable (_ ∨ _))

/-- One `retain` over the transactions left, in ascending order of their positions: the members of
the current group and the transactions that stay. -/
def retainPass : BTreeSet Pubkey → List (ℕ × Transaction) →
    List (ℕ × Transaction) × List (ℕ × Transaction)
  | _, [] => ([],[])
  | writeSet, tx :: rest =>
    if Conflicts writeSet tx then
      let r := retainPass writeSet rest
      (r.1,tx :: r.2)
    else
      let r := retainPass (writeSet.extend (extractSets tx).writeSet.toList) rest
      (tx :: r.1,r.2)

/-- The rounds of `schedule`, at most `fuel` of them. -/
def scheduleRounds : ℕ → List (ℕ × Transaction) → List (List (ℕ × Transaction))
  | 0, _ => []
  | fuel+1, remaining =>
    if remaining = [] then []
    else
      let (group,rest) := retainPass .empty remaining
      if group = [] then scheduleRounds fuel rest else group :: scheduleRounds fuel rest

/-- `TransactionScheduler::schedule`. Every round places a transaction, so as many rounds as there
are transactions are enough (`schedule_flatten_perm`). -/
def schedule (txs : List (ℕ × Transaction)) : List (List (ℕ × Transaction)) :=
  scheduleRounds txs.length txs

/-- A key named by a meta of the transaction. -/
def Names (tx : ℕ × Transaction) (k : Pubkey) : Prop := ∃ m ∈ tx.2.metas, m.pubkey = k

/-- A key named by a writable meta of the transaction. -/
def Writes (tx : ℕ × Transaction) (k : Pubkey) : Prop :=
  ∃ m ∈ tx.2.metas, m.isWritable = true ∧ m.pubkey = k

@[simp] theorem mem_extractSets_writeSet {tx : ℕ × Transaction} {k : Pubkey} :
    k ∈ (extractSets tx).writeSet ↔ Writes tx k := by
  rw [extractSets,BTreeSet.mem_ofList,mem_metaKeys,Writes]

@[simp] theorem mem_extractSets_readSet {tx : ℕ × Transaction} {k : Pubkey} :
    k ∈ (extractSets tx).readSet ↔ ∃ m ∈ tx.2.metas, m.isWritable = false ∧ m.pubkey = k := by
  rw [extractSets,BTreeSet.mem_ofList,mem_metaKeys]

theorem conflicts_iff {writeSet : BTreeSet Pubkey} {tx : ℕ × Transaction} :
    Conflicts writeSet tx ↔ ∃ k ∈ writeSet, Names tx k := by
  have hr : ∀ k, k ∈ (extractSets tx).readSet.toList ↔
      ∃ m ∈ tx.2.metas, m.isWritable = false ∧ m.pubkey = k := fun k => mem_extractSets_readSet
  have hw : ∀ k, k ∈ (extractSets tx).writeSet.toList ↔
      ∃ m ∈ tx.2.metas, m.isWritable = true ∧ m.pubkey = k := fun k => mem_extractSets_writeSet
  unfold Conflicts Names
  simp only [hr,hw]
  constructor
  · rintro (⟨k,⟨m,hm,-,hk⟩,hs⟩ | ⟨k,⟨m,hm,-,hk⟩,hs⟩)
    · exact ⟨k,hs,m,hm,hk⟩
    · exact ⟨k,hs,m,hm,hk⟩
  · rintro ⟨k,hs,m,hm,hk⟩
    cases hw : m.isWritable with
    | false => exact .inl ⟨k,⟨m,hm,hw,hk⟩,hs⟩
    | true => exact .inr ⟨k,⟨m,hm,hw,hk⟩,hs⟩

/-! ## Nothing is lost -/

theorem retainPass_perm (writeSet : BTreeSet Pubkey) (txs : List (ℕ × Transaction)) :
    ((retainPass writeSet txs).1 ++ (retainPass writeSet txs).2).Perm txs := by
  induction txs generalizing writeSet with
  | nil => exact .nil
  | cons tx txs ih =>
    simp only [retainPass]
    split
    · exact List.perm_middle.trans ((ih writeSet).cons tx)
    · exact (ih _).cons tx

/-- The first transaction left is always taken. -/
theorem retainPass_cons (tx : ℕ × Transaction) (txs : List (ℕ × Transaction)) :
    (retainPass .empty (tx :: txs)).1 ≠ [] := by
  have hc : ¬Conflicts .empty tx := by
    rw [conflicts_iff]
    rintro ⟨k,hk,-⟩
    exact BTreeSet.mem_empty hk
  simp [retainPass,hc]

theorem scheduleRounds_perm {fuel : ℕ} {txs : List (ℕ × Transaction)} (h : txs.length ≤ fuel) :
    (scheduleRounds fuel txs).flatten.Perm txs := by
  induction fuel generalizing txs with
  | zero =>
    have hn : txs = [] := List.length_eq_zero_iff.mp (Nat.le_zero.mp h)
    subst hn
    exact .nil
  | succ fuel ih =>
    cases txs with
    | nil => exact .nil
    | cons tx txs =>
      have hg := retainPass_cons tx txs
      have hp := retainPass_perm .empty (tx :: txs)
      have hl := hp.length_eq
      have hpos := List.length_pos_iff.mpr hg
      rw [List.length_append] at hl
      simp only [scheduleRounds,reduceCtorEq,if_false,hg]
      rw [List.flatten_cons]
      exact ((ih (by omega)).append_left _).trans hp

/-- Every scheduled transaction is in exactly one group, exactly as often as it was given. -/
theorem schedule_flatten_perm (txs : List (ℕ × Transaction)) : (schedule txs).flatten.Perm txs :=
  scheduleRounds_perm le_rfl

/-! ## Groups -/

/-- What holds of every pass holds of every group. -/
theorem scheduleRounds_groups {P : List (ℕ × Transaction) → Prop}
    (hP : ∀ txs, P (retainPass .empty txs).1) {fuel : ℕ} {txs group : List (ℕ × Transaction)}
    (hg : group ∈ scheduleRounds fuel txs) : P group := by
  induction fuel generalizing txs with
  | zero => simp [scheduleRounds] at hg
  | succ fuel ih =>
    simp only [scheduleRounds] at hg
    split at hg
    · simp at hg
    · split at hg
      · exact ih hg
      · rcases List.mem_cons.mp hg with rfl | hg
        · exact hP txs
        · exact ih hg

/-- No member of a pass names a key of the set that it starts from. -/
theorem retainPass_avoids {writeSet : BTreeSet Pubkey} {txs : List (ℕ × Transaction)}
    {tx : ℕ × Transaction} (h : tx ∈ (retainPass writeSet txs).1) {k : Pubkey} (hk : k ∈ writeSet) :
    ¬Names tx k := by
  induction txs generalizing writeSet with
  | nil => simp [retainPass] at h
  | cons t txs ih =>
    simp only [retainPass] at h
    split at h
    · exact ih h hk
    · next hc =>
      rcases List.mem_cons.mp h with rfl | h
      · exact fun hn => hc (conflicts_iff.mpr ⟨k,hk,hn⟩)
      · exact ih h (by simp [hk])

/-- A later member of a group names no key that an earlier one writes. -/
theorem retainPass_pairwise (writeSet : BTreeSet Pubkey) (txs : List (ℕ × Transaction)) :
    (retainPass writeSet txs).1.Pairwise fun a b => ∀ k, Writes a k → ¬Names b k := by
  induction txs generalizing writeSet with
  | nil => simp [retainPass]
  | cons tx txs ih =>
    simp only [retainPass]
    split
    · exact ih writeSet
    · refine List.pairwise_cons.mpr ⟨?_,ih _⟩
      intro b hb k hk
      refine retainPass_avoids hb ?_
      rw [BTreeSet.mem_extend]
      exact .inr (mem_extractSets_writeSet.mpr hk)

theorem schedule_pairwise {txs group : List (ℕ × Transaction)} (hg : group ∈ schedule txs) :
    group.Pairwise fun a b => ∀ k, Writes a k → ¬Names b k :=
  scheduleRounds_groups (retainPass_pairwise .empty) hg

end TransactionScheduler

end TinySolana
