import TinySolana.Bank
import TinySolana.Foundations.FirstFit
import TinySolana.Scheduler

/-!
# First-fit scheduling

`schedule` is first fit for the relation "writes a key that the other names". The relation is
not symmetric: a later writer of a key joins the group of an earlier reader.
-/

namespace TinySolana
open Foundations

namespace TransactionScheduler

/-- The first transaction writes a key that the second names. -/
def Blocks (a b : ℕ × Transaction) : Prop := ∃ k, Writes a k ∧ Names b k

instance : DecidableRel Blocks := fun a b =>
  decidable_of_iff (∃ m ∈ a.2.metas, m.isWritable = true ∧ ∃ n ∈ b.2.metas, n.pubkey = m.pubkey) (by
    constructor
    · rintro ⟨m,hm,hw,n,hn,hk⟩
      exact ⟨m.pubkey,⟨m,hm,hw,rfl⟩,n,hn,hk⟩
    · rintro ⟨k,⟨m,hm,hw,rfl⟩,n,hn,hk⟩
      exact ⟨m,hm,hw,n,hn,hk⟩)

theorem conflicts_extend {writeSet : BTreeSet Pubkey} {tx t : ℕ × Transaction} :
    Conflicts (writeSet.extend (extractSets tx).writeSet.toList) t ↔
      Conflicts writeSet t ∨ Blocks tx t := by
  simp only [conflicts_iff,Blocks,BTreeSet.mem_extend,← BTreeSet.mem_def,mem_extractSets_writeSet]
  constructor
  · rintro ⟨k,hk | hk,hn⟩
    · exact .inl ⟨k,hk,hn⟩
    · exact .inr ⟨k,hk,hn⟩
  · rintro (⟨k,hk,hn⟩ | ⟨k,hk,hn⟩)
    · exact ⟨k,.inl hk,hn⟩
    · exact ⟨k,.inr hk,hn⟩

/-- A last transaction does not disturb a pass; it is taken unless a member of the group blocks
it. -/
theorem retainPass_concat (writeSet : BTreeSet Pubkey) (txs : List (ℕ × Transaction))
    (t : ℕ × Transaction) :
    retainPass writeSet (txs ++ [t]) =
      if Conflicts writeSet t ∨ ∃ y ∈ (retainPass writeSet txs).1, Blocks y t then
        ((retainPass writeSet txs).1,(retainPass writeSet txs).2 ++ [t])
      else ((retainPass writeSet txs).1 ++ [t],(retainPass writeSet txs).2) := by
  induction txs generalizing writeSet with
  | nil => by_cases h : Conflicts writeSet t <;> simp [retainPass,h]
  | cons tx txs ih =>
    rw [List.cons_append,retainPass,retainPass]
    by_cases hc : Conflicts writeSet tx
    · rw [if_pos hc,if_pos hc,ih]
      split <;> rfl
    · rw [if_neg hc,if_neg hc,ih]
      simp only [conflicts_extend,List.mem_cons,or_and_right,exists_or,exists_eq_left,or_assoc]
      split <;> rfl

theorem not_conflicts_empty (t : ℕ × Transaction) : ¬Conflicts .empty t := by
  rw [conflicts_iff]
  rintro ⟨k,hk,-⟩
  exact BTreeSet.mem_empty hk

/-- A last transaction joins the first round that does not block it, or a round of its own. -/
theorem scheduleRounds_concat {fuel : ℕ} {txs : List (ℕ × Transaction)} {t : ℕ × Transaction}
    (h : txs.length < fuel) :
    scheduleRounds fuel (txs ++ [t]) = FirstFit.insert Blocks t (scheduleRounds fuel txs) := by
  induction fuel generalizing txs with
  | zero => omega
  | succ fuel ih =>
    cases txs with
    | nil =>
      have hc := not_conflicts_empty t
      cases fuel <;> simp [scheduleRounds,retainPass,hc,FirstFit.insert]
    | cons tx txs =>
      have hg := retainPass_cons tx txs
      have hl := (retainPass_perm .empty (tx :: txs)).length_eq
      have hpos := List.length_pos_iff.mpr hg
      rw [List.length_append] at hl
      have hrest : (retainPass .empty (tx :: txs)).2.length < fuel := by omega
      have hne : tx :: txs ++ [t] ≠ [] := by simp
      simp only [scheduleRounds,if_neg hne,reduceCtorEq,if_false,hg,retainPass_concat,
        not_conflicts_empty,false_or]
      rw [FirstFit.insert]
      -- The first round takes the last transaction, or leaves it to the rounds behind.
      split
      · exact congrArg _ (ih hrest)
      · exact if_neg (List.append_ne_nil_of_right_ne_nil _ (List.cons_ne_nil t []))

/-- With enough fuel the rounds are first fit. -/
theorem scheduleRounds_eq_groups {fuel : ℕ} {txs : List (ℕ × Transaction)} (h : txs.length ≤ fuel) :
    scheduleRounds fuel txs = FirstFit.groups Blocks txs := by
  induction txs using List.reverseRecOn with
  | nil => cases fuel <;> rfl
  | append_singleton txs t ih =>
    rw [List.length_append,List.length_singleton] at h
    rw [scheduleRounds_concat h,ih (by omega),FirstFit.groups_concat]

theorem schedule_eq_groups (txs : List (ℕ × Transaction)) :
    schedule txs = FirstFit.groups Blocks txs := scheduleRounds_eq_groups le_rfl

/-- After as many passes as there are transactions none is left. -/
theorem iterate_retainPass {n : ℕ} {txs : List (ℕ × Transaction)} (h : txs.length ≤ n) :
    (fun left => (retainPass .empty left).2)^[n] txs = [] := by
  induction n generalizing txs with
  | zero => exact List.length_eq_zero_iff.mp (Nat.le_zero.mp h)
  | succ n ih =>
    rw [Function.iterate_succ_apply]
    apply ih
    cases txs with
    | nil => simp [retainPass]
    | cons tx txs =>
      have hl := (retainPass_perm .empty (tx :: txs)).length_eq
      have hpos := List.length_pos_iff.mpr (retainPass_cons tx txs)
      rw [List.length_append] at hl
      omega

/-- The passes come to an end, and every transaction is, once and in its order, in the group with
the least number at which no earlier transaction writes a key that it names. -/
theorem schedule_firstFit (txs : List (ℕ × Transaction)) :
    (fun left => (retainPass .empty left).2)^[txs.length] txs = [] ∧
      (∀ fuel ≥ txs.length, scheduleRounds fuel txs = schedule txs) ∧
      (∀ group ∈ schedule txs, group ≠ []) ∧
      ∃ g : Fin txs.length → ℕ,
        (∀ i, IsLeast
          {m | ∀ j < i, g j = m → ¬∃ k, Writes (txs.get j) k ∧ Names (txs.get i) k} (g i)) ∧
        (∀ i, g i < (schedule txs).length) ∧
        schedule txs = (List.range (schedule txs).length).map fun k =>
          ((List.finRange txs.length).filter fun i => g i = k).map txs.get := by
  obtain ⟨g,hg,hlt,hgroups⟩ := FirstFit.exists_placement Blocks txs
  rw [← schedule_eq_groups] at hlt hgroups
  refine ⟨iterate_retainPass le_rfl,fun fuel hf => ?_,?_,g,hg,hlt,hgroups⟩
  · rw [scheduleRounds_eq_groups hf,schedule_eq_groups]
  · rw [schedule_eq_groups]
    exact FirstFit.groups_nonempty Blocks txs

/-! ## The length of the schedule -/

/-- The critical path: a transaction waits for as many groups as there are transactions before it in
a chain where each writes a key that the next one names. Transactions that each write a key of all
later ones need a group each. -/
theorem schedule_critical_path (txs : List (ℕ × Transaction)) :
    (∀ k, ∀ tx ∈ (schedule txs).getD k [], ∃ before, (before ++ [tx]).Sublist txs ∧
      before.length = k ∧
      (before ++ [tx]).IsChain Blocks) ∧
    ∀ rivals : List (ℕ × Transaction), rivals.Sublist txs → rivals.Pairwise Blocks →
      rivals.length ≤ (schedule txs).length := by
  rw [schedule_eq_groups]
  exact ⟨fun k tx ht => FirstFit.exists_chain ht,fun rivals hr hb =>
    FirstFit.length_le_groups hr hb⟩

/-! ## Conflicts within a group -/

/-- No member writes a key that another one names. -/
def ConflictFree (group : List (ℕ × Transaction)) : Prop :=
  group.Pairwise fun a b => ¬Blocks a b ∧ ¬Blocks b a

instance (group : List (ℕ × Transaction)) : Decidable (ConflictFree group) :=
  inferInstanceAs (Decidable (List.Pairwise _ _))

variable {txs : List (ℕ × Transaction)} {g : Fin txs.length → ℕ}

/-- A transaction is placed behind an earlier one exactly when all groups up to that one's turn it
away. -/
theorem placed_behind (hg : FirstFit.Placement Blocks txs g) {i j : Fin txs.length} :
    g i < g j ↔ ∀ m ≤ g i, ∃ h < j, g h = m ∧ Blocks (txs.get h) (txs.get j) := by
  constructor
  · intro hlt m hm
    by_contra hc
    push Not at hc
    have hle := (hg j).2 hc
    omega
  · intro hb
    by_contra hc
    obtain ⟨h,hh,hk,hR⟩ := hb (g j) (not_lt.mp hc)
    exact (hg j).1 h hh hk hR

/-- Earlier transactions of its own number do not block a transaction. -/
theorem placed_apart (hg : FirstFit.Placement Blocks txs g) {i j : Fin txs.length} (hij : i < j)
    (hb : Blocks (txs.get i) (txs.get j)) : g i ≠ g j := fun he => (hg j).1 i hij he hb

/-- The later transaction writes no key of the earlier one, or the earlier one blocks it as well. -/
def KeptApart (a b : ℕ × Transaction) : Prop := Blocks b a → Blocks a b

instance : DecidableRel KeptApart :=
  fun a b => inferInstanceAs (Decidable (Blocks b a → Blocks a b))

/-- Two transactions of which the first does not block the second come into one group. -/
theorem schedule_pair {a b : ℕ × Transaction} (h : ¬Blocks a b) : schedule [a,b] = [[a,b]] := by
  rw [schedule_eq_groups]
  simp [FirstFit.groups,FirstFit.insert,h]

/-- A transaction with one instruction and the metas given. -/
def accessing (metas : List AccountMeta) : Transaction :=
  ⟨[blankSignature],metas.map AccountMeta.pubkey,default,[⟨systemProgramId,metas,[]⟩]⟩

end TransactionScheduler

end TinySolana
