import TinySolana.AccountLocks
import TinySolana.Foundations.Runs
import Mathlib.Data.Multiset.Bind

/-!
# Accounting of account locks

The lock table against the guards that are outstanding: keys locked for writing are the disjoint
union of what the guards hold, reader counts are the numbers of guards that hold a key for reading,
and a key that a guard holds for writing is held by no other guard.
-/

namespace TinySolana
open Foundations

/-- The lock table and the guards that were returned and not yet dropped. -/
structure LockSystem where
  table : AccountLockState
  guards : Multiset LockGuard

/-! ## The two operations -/

namespace AccountLocks

/-- Some key of the group is locked in a way that excludes it. -/
def InUse (group : List (ℕ × Transaction)) (s : AccountLockState) : Prop :=
  (∃ key ∈ (keysToLock true group).toList, key ∈ s.writeLocks ∨ key ∈ s.readLocks) ∨
    ∃ key ∈ (keysToLock false group).toList, key ∈ s.writeLocks

instance (group : List (ℕ × Transaction)) (s : AccountLockState) : Decidable (InUse group s) :=
  inferInstanceAs (Decidable (_ ∨ _))

/-- The guard for the keys of a group. -/
def guardFor (group : List (ℕ × Transaction)) : LockGuard :=
  ⟨(keysToLock true group).toList,(keysToLock false group).toList⟩

/-- A call fails and changes nothing, or it locks every key of the group. -/
theorem tryLock_run (group : List (ℕ × Transaction)) (s : AccountLockState) :
    tryLockAccountsForGroup group s = if InUse group s then (.err .accountInUse,s) else
      (.ok (guardFor group),(guardFor group).readLocks.foldl acquireRead
        ((guardFor group).writeLocks.foldl acquireWrite s)) := by
  unfold tryLockAccountsForGroup guardFor
  by_cases hw : ∃ key ∈ (keysToLock true group).toList, key ∈ s.writeLocks ∨ key ∈ s.readLocks
  · have hu : InUse group s := .inl hw
    simp only [Exec.bind_run,Exec.get_run,Exec.failIf_true hw,Exec.throw_run,if_pos hu]
  · by_cases hr : ∃ key ∈ (keysToLock false group).toList, key ∈ s.writeLocks
    · have hu : InUse group s := .inr hr
      simp only [Exec.bind_run,Exec.get_run,Exec.failIf_false hw,Exec.failIf_true hr,Exec.throw_run,
        Exec.pure_run,if_pos hu]
    · have hu : ¬InUse group s := not_or.mpr ⟨hw,hr⟩
      simp only [Exec.bind_run,Exec.get_run,Exec.failIf_false hw,Exec.failIf_false hr,
        Exec.modify_run,Exec.pure_run,if_neg hu]

theorem acquireWrites_readLocks (s : AccountLockState) (keys : List Pubkey) :
    (keys.foldl acquireWrite s).readLocks = s.readLocks := by
  induction keys generalizing s with
  | nil => rfl
  | cons k keys ih => exact ih (acquireWrite s k)

theorem acquireWrites_writeLocks {s : AccountLockState} {keys : List Pubkey} (hn : keys.Nodup)
    (hd : ∀ k ∈ keys, k ∉ s.writeLocks) :
    (keys.foldl acquireWrite s).writeLocks.val = keys + s.writeLocks.val := by
  induction keys generalizing s with
  | nil => simp
  | cons k keys ih =>
    obtain ⟨hk,hn⟩ := List.nodup_cons.mp hn
    have hs : ∀ j ∈ keys, j ∉ (acquireWrite s k).writeLocks := by
      intro j hj hm
      rcases Finset.mem_insert.mp hm with rfl | hm
      · exact hk hj
      · exact hd j (List.mem_cons_of_mem _ hj) hm
    rw [List.foldl_cons,ih hn hs]
    change ↑keys + (insert k s.writeLocks).val = _
    rw [Finset.insert_val_of_notMem (hd k List.mem_cons_self),Multiset.add_cons,← Multiset.cons_coe,
      Multiset.cons_add]

theorem acquireReads_writeLocks (s : AccountLockState) (keys : List Pubkey) :
    (keys.foldl acquireRead s).writeLocks = s.writeLocks := by
  induction keys generalizing s with
  | nil => rfl
  | cons k keys ih => exact ih (acquireRead s k)

theorem acquireReads_counts {s : AccountLockState} {c : Pubkey → ℕ} {keys : List Pubkey}
    (hc : FiniteMap.Counts s.readLocks c) (hn : keys.Nodup) :
    FiniteMap.Counts (keys.foldl acquireRead s).readLocks
      fun k => c k+if k ∈ keys then 1 else 0 := by
  induction keys generalizing s c with
  | nil => simpa using hc
  | cons k keys ih =>
    obtain ⟨hk,hn⟩ := List.nodup_cons.mp hn
    have hs : FiniteMap.Counts (acquireRead s k).readLocks (Function.update c k (c k+1)) := by
      have := hc.insert (k := k) (Nat.succ_pos (c k))
      rwa [← hc.getD k] at this ⊢
    refine (ih hs hn).congr fun j => ?_
    by_cases hj : j = k
    · subst hj
      simp [hk]
    · simp [hj]

theorem releaseWrites_readLocks (s : AccountLockState) (keys : List Pubkey) :
    (keys.foldl releaseWrite s).readLocks = s.readLocks := by
  induction keys generalizing s with
  | nil => rfl
  | cons k keys ih => exact ih (releaseWrite s k)

theorem releaseWrites_writeLocks {s : AccountLockState} {keys : List Pubkey} {m : Multiset Pubkey}
    (h : s.writeLocks.val = keys + m) : (keys.foldl releaseWrite s).writeLocks.val = m := by
  induction keys generalizing s with
  | nil => simpa using h
  | cons k keys ih =>
    apply ih
    rw [← Multiset.cons_coe,Multiset.cons_add] at h
    change (s.writeLocks.erase k).val = _
    rw [Finset.erase_val,h,Multiset.erase_cons_head]

/-- A reader that is counted can leave. -/
theorem releaseRead_run {ε : Type} {s : AccountLockState} {c : Pubkey → ℕ} {k : Pubkey}
    (hc : FiniteMap.Counts s.readLocks c) (hk : 0 < c k) :
    ∃ t, (releaseRead k : Exec _ ε Unit) s = (.ok (),t) ∧ t.writeLocks = s.writeLocks ∧
      FiniteMap.Counts t.readLocks (Function.update c k (c k-1)) := by
  have hl : s.readLocks.lookup k = some (c k) := by rw [hc k,if_neg hk.ne']
  have hp : ¬c k = 0 := hk.ne'
  by_cases h1 : c k-1 = 0
  · refine ⟨{ s with readLocks := s.readLocks.erase k },?_,rfl,?_⟩
    · simp [releaseRead,Exec.bind_run,hl,hp,h1]
    · rw [h1]
      exact hc.erase k
  · refine ⟨{ s with readLocks := s.readLocks.insert k (c k-1) },?_,rfl,?_⟩
    · simp [releaseRead,Exec.bind_run,hl,hp,h1]
    · exact hc.insert (Nat.pos_of_ne_zero h1)

theorem releaseReads_run {ε : Type} {s : AccountLockState} {c : Pubkey → ℕ} {keys : List Pubkey}
    (hn : keys.Nodup) (hc : FiniteMap.Counts s.readLocks fun k => c k+if k ∈ keys then 1 else 0) :
    ∃ t, (releaseReads keys : Exec _ ε Unit) s = (.ok (),t) ∧ t.writeLocks = s.writeLocks ∧
      FiniteMap.Counts t.readLocks c := by
  induction keys generalizing s with
  | nil => exact ⟨s,rfl,rfl,by simpa using hc⟩
  | cons k keys ih =>
    obtain ⟨hk,hn⟩ := List.nodup_cons.mp hn
    obtain ⟨t,ht,htw,htc⟩ := releaseRead_run (ε := ε) hc (k := k) (by simp)
    have hstep : FiniteMap.Counts t.readLocks fun j => c j+if j ∈ keys then 1 else 0 := by
      refine htc.congr fun j => ?_
      by_cases hj : j = k
      · subst hj
        simp [hk]
      · simp [hj]
    obtain ⟨u,hu,huw,huc⟩ := ih hn hstep
    refine ⟨u,?_,huw.trans htw,huc⟩
    rw [releaseReads,Exec.bind_run,ht]
    exact hu

end AccountLocks

/-- A guard whose keys are all accounted for is dropped without a panic. -/
theorem LockGuard.drop_run {ε : Type} {s : AccountLockState} {g : LockGuard} {m : Multiset Pubkey}
    {c : Pubkey → ℕ} (hn : g.readLocks.Nodup) (hw : s.writeLocks.val = g.writeLocks + m)
    (hc : FiniteMap.Counts s.readLocks fun k => c k+if k ∈ g.readLocks then 1 else 0) :
    ∃ t, (g.drop : Exec _ ε Unit) s = (.ok (),t) ∧ t.writeLocks.val = m ∧
      FiniteMap.Counts t.readLocks c := by
  by_cases he : g.writeLocks = [] ∧ g.readLocks = []
  · refine ⟨s,by rw [drop,if_pos he]; rfl,?_,?_⟩
    · simpa [he.1] using hw
    · simpa [he.2] using hc
  · have hc' := hc
    rw [← AccountLocks.releaseWrites_readLocks s g.writeLocks] at hc'
    obtain ⟨t,ht,htw,htc⟩ := AccountLocks.releaseReads_run (ε := ε) hn hc'
    refine ⟨t,?_,?_,htc⟩
    · rw [drop,if_neg he,Exec.bind_run,Exec.modify_run]
      exact ht
    · rw [htw]
      exact AccountLocks.releaseWrites_writeLocks hw

/-! ## Runs -/

namespace LockSystem

def init : LockSystem := ⟨AccountLocks.new,0⟩

inductive Label where
  | tryLock (group : List (ℕ × Transaction))
  | drop (guard : LockGuard)

/-- One call on the table, or the drop of an outstanding guard. -/
inductive Step : LockSystem → Label → LockSystem → Prop where
  | locked {s : LockSystem} {group : List (ℕ × Transaction)} {g : LockGuard}
      {t : AccountLockState} :
      AccountLocks.tryLockAccountsForGroup group s.table = (.ok g,t) →
        Step s (.tryLock group) ⟨t,g ::ₘ s.guards⟩
  | refused {s : LockSystem} {group : List (ℕ × Transaction)} {e : LockError}
      {t : AccountLockState} :
      AccountLocks.tryLockAccountsForGroup group s.table = (.err e,t) →
        Step s (.tryLock group) ⟨t,s.guards⟩
  | dropped {s : LockSystem} {g : LockGuard} : g ∈ s.guards →
        Step s (.drop g) ⟨((g.drop : Exec _ Empty Unit) s.table).2,s.guards.erase g⟩

/-- How many guards hold a key for reading. -/
def readers (guards : Multiset LockGuard) (k : Pubkey) : ℕ := guards.countP fun g => k ∈ g.readLocks

/-- The table says exactly what the outstanding guards hold. -/
structure Accounted (s : LockSystem) : Prop where
  writes : s.table.writeLocks.val = s.guards.bind fun g => (g.writeLocks : Multiset Pubkey)
  reads : FiniteMap.Counts s.table.readLocks (readers s.guards)
  exclusive : ∀ g rest, s.guards = g ::ₘ rest →
    ∀ k ∈ g.writeLocks, ∀ h ∈ rest, k ∉ h.readLocks
  readsNodup : ∀ g ∈ s.guards, g.readLocks.Nodup

theorem accounted_init : Accounted init where
  writes := rfl
  reads := FiniteMap.counts_zero.mpr rfl
  exclusive g rest h := by simp [init] at h
  readsNodup g h := by simp [init] at h

/-- Dropping an outstanding guard succeeds and leaves the rest accounted for. -/
theorem Accounted.drop {ε : Type} {table : AccountLockState} {g : LockGuard}
    {rest : Multiset LockGuard} (hs : Accounted ⟨table,g ::ₘ rest⟩) :
    ∃ t, (g.drop : Exec _ ε Unit) table = (.ok (),t) ∧ Accounted ⟨t,rest⟩ := by
  have hn := hs.readsNodup g (Multiset.mem_cons_self g rest)
  have hw : table.writeLocks.val = g.writeLocks + rest.bind fun g =>
      (g.writeLocks : Multiset Pubkey) := by
    have h := hs.writes
    rwa [Multiset.cons_bind] at h
  have hc : FiniteMap.Counts table.readLocks
      fun k => readers rest k+if k ∈ g.readLocks then 1 else 0 := by
    refine hs.reads.congr fun k => ?_
    rw [readers,readers,Multiset.countP_cons]
  obtain ⟨t,ht,htw,htc⟩ := LockGuard.drop_run (ε := ε) hn hw hc
  refine ⟨t,ht,htw,htc,?_,fun h hh => hs.readsNodup h (Multiset.mem_cons_of_mem hh)⟩
  rintro h others rfl k hk f hf
  exact hs.exclusive h (g ::ₘ others) (Multiset.cons_swap g h others) k hk f
    (Multiset.mem_cons_of_mem hf)

/-- Locking a group whose keys are free adds its guard. -/
theorem Accounted.lock {s : LockSystem} {group : List (ℕ × Transaction)} (hs : Accounted s)
    (hf : ¬AccountLocks.InUse group s.table) :
    Accounted ⟨(AccountLocks.guardFor group).readLocks.foldl AccountLocks.acquireRead
      ((AccountLocks.guardFor group).writeLocks.foldl AccountLocks.acquireWrite s.table),
      AccountLocks.guardFor group ::ₘ s.guards⟩ := by
  obtain ⟨hfw,hfr⟩ := not_or.mp hf
  have hwn : (AccountLocks.guardFor group).writeLocks.Nodup := BTreeSet.nodup _
  have hrn : (AccountLocks.guardFor group).readLocks.Nodup := BTreeSet.nodup _
  -- A key of the new guard's writes is neither written nor read by an outstanding guard.
  have hw : ∀ k ∈ (AccountLocks.guardFor group).writeLocks, k ∉ s.table.writeLocks :=
    fun k hk h => hfw ⟨k,hk,.inl h⟩
  have hr : ∀ k ∈ (AccountLocks.guardFor group).writeLocks, ∀ h ∈ s.guards, k ∉ h.readLocks := by
    intro k hk h hh hkr
    refine hfw ⟨k,hk,.inr (hs.reads.mem_iff.mpr ?_)⟩
    exact Multiset.countP_pos.mpr ⟨h,hh,hkr⟩
  constructor
  · rw [AccountLocks.acquireReads_writeLocks,AccountLocks.acquireWrites_writeLocks hwn hw,hs.writes,
      Multiset.cons_bind]
  · have hc := hs.reads
    rw [← AccountLocks.acquireWrites_readLocks s.table
      (AccountLocks.guardFor group).writeLocks] at hc
    refine (AccountLocks.acquireReads_counts hc hrn).congr fun k => ?_
    rw [readers,readers,Multiset.countP_cons]
  · intro g rest hg k hk h hh
    rcases Multiset.cons_eq_cons.mp hg with ⟨rfl,rfl⟩ | ⟨-,others,ho,rfl⟩
    · exact hr k hk h hh
    · rcases Multiset.mem_cons.mp hh with rfl | hh
      · -- The new guard reads only keys that no outstanding guard writes.
        intro hkr
        refine hfr ⟨k,hkr,?_⟩
        rw [← Finset.mem_val,hs.writes,ho,Multiset.cons_bind]
        exact Multiset.mem_add.mpr (.inl hk)
      · exact hs.exclusive g others ho k hk h hh
  · intro h hh
    rcases Multiset.mem_cons.mp hh with rfl | hh
    · exact hrn
    · exact hs.readsNodup h hh

theorem accounted_step {s t : LockSystem} {l : Label} (hs : Accounted s) (h : Step s l t) :
    Accounted t := by
  cases h with
  | @locked group g table hl =>
    rw [AccountLocks.tryLock_run] at hl
    split at hl
    · simp at hl
    · next hf =>
      cases hl
      exact hs.lock hf
  | @refused group e table hl =>
    rw [AccountLocks.tryLock_run] at hl
    split at hl
    · cases hl
      exact hs
    · simp at hl
  | @dropped g hg =>
    obtain ⟨rest,hr⟩ := Multiset.exists_cons_of_mem hg
    have hs' : Accounted ⟨s.table,g ::ₘ rest⟩ := hr ▸ hs
    obtain ⟨u,hu,ha⟩ := hs'.drop (ε := Empty)
    rw [hu,hr,Multiset.erase_cons_head]
    exact ha

theorem accounted_of_run {s : LockSystem} {ls : List Label} (hr : Run Step init ls s) :
    Accounted s :=
  Run.invariant (P := Accounted) (fun _ _ _ hs h => accounted_step hs h) hr accounted_init

/-- A key that a guard holds for writing is held by no other guard. -/
theorem Accounted.exclusive_erase {s : LockSystem} (hs : Accounted s) {g h : LockGuard}
    (hg : g ∈ s.guards) (hh : h ∈ s.guards.erase g) {k : Pubkey} (hk : k ∈ g.writeLocks) :
    k ∉ h.writeLocks ∧ k ∉ h.readLocks := by
  obtain ⟨rest,hr⟩ := Multiset.exists_cons_of_mem hg
  rw [hr,Multiset.erase_cons_head] at hh
  refine ⟨?_,hs.exclusive g rest hr k hk h hh⟩
  intro hkh
  have hn := s.table.writeLocks.nodup
  rw [hs.writes,hr,Multiset.cons_bind] at hn
  exact Multiset.disjoint_left.mp (Multiset.nodup_add.mp hn).2.2 hk
    (Multiset.mem_bind.mpr ⟨h,hh,hkh⟩)

theorem Accounted.eq_new {s : LockSystem} (hs : Accounted s) (h : s.guards = 0) :
    s.table = AccountLocks.new := by
  have hw : s.table.writeLocks = ∅ := by
    rw [← Finset.val_eq_zero,hs.writes,h,Multiset.zero_bind]
  have hr : s.table.readLocks = ∅ := by
    have := hs.reads
    rw [h] at this
    exact FiniteMap.counts_zero.mp this
  cases hst : s.table with
  | mk writeLocks readLocks =>
    rw [hst] at hw hr
    simp only at hw hr
    subst hw hr
    rfl

/-- In every state that calls and drops can reach, the table is exactly what the outstanding guards
hold, no two guards conflict, refused calls change nothing and drops do not underflow. -/
theorem locks_exclusive_and_accounted {s : LockSystem} {ls : List Label} (hr : Run Step init ls s) :
    s.table.writeLocks.val = s.guards.bind (fun g => (g.writeLocks : Multiset Pubkey)) ∧
    (∀ k, s.table.readLocks.lookup k =
      if readers s.guards k = 0 then none else some (readers s.guards k)) ∧
    (∀ g ∈ s.guards, ∀ k ∈ g.writeLocks, ∀ h ∈ s.guards.erase g,
      k ∉ h.writeLocks ∧ k ∉ h.readLocks) ∧
    (∀ group e t, AccountLocks.tryLockAccountsForGroup group s.table = (.err e,t) → t = s.table) ∧
    (∀ group t, AccountLocks.tryLockAccountsForGroup group s.table ≠ (.panic,t)) ∧
    (∀ g ∈ s.guards, ((g.drop : Exec _ Empty Unit) s.table).1 = .ok ()) ∧
    (s.guards = 0 → s.table = AccountLocks.new) := by
  have hs := accounted_of_run hr
  refine ⟨hs.writes,hs.reads,fun g hg k hk h hh => hs.exclusive_erase hg hh hk,?_,?_,?_,hs.eq_new⟩
  · intro group e t ht
    rw [AccountLocks.tryLock_run] at ht
    split at ht
    · cases ht
      rfl
    · simp at ht
  · intro group t ht
    rw [AccountLocks.tryLock_run] at ht
    split at ht <;> simp at ht
  · intro g hg
    obtain ⟨rest,hrest⟩ := Multiset.exists_cons_of_mem hg
    have hs' : Accounted ⟨s.table,g ::ₘ rest⟩ := hrest ▸ hs
    obtain ⟨t,ht,-⟩ := hs'.drop (ε := Empty)
    rw [ht]

/-- One transaction that names one key for writing and one for reading. -/
def writerAndReader : List (ℕ × Transaction) :=
  [(0,⟨[],[],default,[⟨default,[⟨.ofByte 1,false,true⟩,⟨.ofByte 2,false,false⟩],[]⟩]⟩)]

theorem locks_accounted_after_call :
    let guard : LockGuard := ⟨[.ofByte 1],[.ofByte 2]⟩
    let s : LockSystem := ⟨⟨{.ofByte 1},Finmap.singleton (.ofByte 2) 1⟩,{guard}⟩
    Run Step init [.tryLock writerAndReader] s ∧ readers s.guards (.ofByte 2) = 1 ∧
      s.table.writeLocks.val = s.guards.bind (fun g => (g.writeLocks : Multiset Pubkey)) ∧
      ∀ g ∈ s.guards, ((g.drop : Exec _ Empty Unit) s.table).1 = .ok () := by
  intro guard s
  have hr : Run Step init [.tryLock writerAndReader] s := Run.single (.locked (by decide))
  obtain ⟨hw,-,-,-,-,hd,-⟩ := locks_exclusive_and_accounted hr
  exact ⟨hr,by decide,hw,hd⟩

end LockSystem

end TinySolana
