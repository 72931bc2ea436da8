import TinySolana.BankingStage
import TinySolana.LockAccounting
import TinySolana.Overlays
import TinySolana.SerialEquivalence
import Mathlib.Data.List.ReduceOption

/-!
# Batches that run at the same time

Two calls of `process_batch` on one stage and one bank. A group locks the keys that its instructions
name and loads and stores the keys that its transactions list. No update is lost as long as every
key that transactions of two running groups list is either excluded by the locks or left as it was
loaded by both.
-/

namespace TinySolana
open Foundations

/-- A transaction that was executed: its overlay, and the store that its accounts were loaded
from. -/
structure ExecutedTransaction where
  transaction : Transaction
  overlay : OverlayStore
  loadedFrom : InMemoryAccountStore

inductive Job where
  | pending (tx : Transaction)
  | finished (result : Option ExecutedTransaction)

/-- Where a call is: at the groups that are left, or in a group that holds its locks. A group that
is committed keeps the store from just before. -/
inductive CallPhase where
  | scheduled (groups : List (List (ℕ × Transaction)))
  | executing (guard : LockGuard) (group : List (ℕ × Transaction)) (jobs : List Job)
      (groups : List (List (ℕ × Transaction)))
  | committing (guard : LockGuard) (group : List (ℕ × Transaction)) (before : InMemoryAccountStore)
      (overlays : List ExecutedTransaction) (groups : List (List (ℕ × Transaction)))
  | returned

namespace CallPhase

/-- The group that holds its locks. -/
def group : CallPhase → List (ℕ × Transaction)
  | executing _ group _ _ => group
  | committing _ group _ _ _ => group
  | _ => []

/-- The guard that is not dropped yet. -/
def guards : CallPhase → Multiset LockGuard
  | executing guard _ _ _ => {guard}
  | committing guard _ _ _ _ => {guard}
  | scheduled _ => 0
  | returned => 0

/-- The guard is for the keys that the group names. -/
def Guarded : CallPhase → Prop
  | executing guard group _ _ => guard = AccountLocks.guardFor group
  | committing guard group _ _ _ => guard = AccountLocks.guardFor group
  | _ => True

/-- A group with members holds its guard. -/
theorem Guarded.mem_guards {p : CallPhase} (h : p.Guarded) {tx : ℕ × Transaction}
    (ht : tx ∈ p.group) :
    AccountLocks.guardFor p.group ∈ p.guards := by
  cases p with
  | scheduled groups => cases ht
  | executing guard group jobs groups => exact Multiset.mem_singleton.mpr h.symm
  | committing guard group before overlays groups => exact Multiset.mem_singleton.mpr h.symm
  | returned => cases ht

end CallPhase

/-- The two calls and what they share. -/
structure ConcurrentBatches where
  accountLocks : AccountLockState
  bank : Bank
  programCache : ProgramCache
  calls : Bool → CallPhase

namespace ConcurrentBatches

inductive Label where
  | skip (c : Bool)
  | lock (c : Bool) (admitted : List (ℕ × Transaction))
  | execute (c : Bool) (i : ℕ)
  | commit (c : Bool)
  | abort (c : Bool)
  | flush (c : Bool)
  | release (c : Bool)

def setCall (s : ConcurrentBatches) (c : Bool) (p : CallPhase) : ConcurrentBatches :=
  { s with calls := Function.update s.calls c p }

def setLocks (s : ConcurrentBatches) (accountLocks : AccountLockState) : ConcurrentBatches :=
  { s with accountLocks }

def setCache (s : ConcurrentBatches) (programCache : ProgramCache) : ConcurrentBatches :=
  { s with programCache }

def setAccounts (s : ConcurrentBatches) (accounts : InMemoryAccountStore) : ConcurrentBatches :=
  { s with bank := { s.bank with accounts } }

/-- The lock table without the keys of a guard. -/
def dropGuard (s : ConcurrentBatches) (guard : LockGuard) : ConcurrentBatches :=
  s.setLocks ((guard.drop : Exec _ Empty Unit) s.accountLocks).2

/-- Both calls before their first group. -/
def start (host : Host) (bank : Bank) (programCache : ProgramCache)
    (batches : Bool → List Transaction) :
    ConcurrentBatches where
  accountLocks := AccountLocks.new
  bank := bank
  programCache := programCache
  calls c := .scheduled (TransactionScheduler.schedule
    (BankingStage.txsToSchedule host.ed25519 (batches c)))

/-- The atomic steps of the calls, in any order. Which members of a group are admitted by their
cost, and whether a group is recorded, is left open. A panic and a failed record end the call. -/
inductive Step (host : Host) (costModel : CostModel) :
    ConcurrentBatches → Label → ConcurrentBatches → Prop where
  | skip {s : ConcurrentBatches} {c : Bool} {group : List (ℕ × Transaction)}
      {groups : List (List (ℕ × Transaction))} : s.calls c = .scheduled (group :: groups) →
      Step host costModel s (.skip c) (s.setCall c (.scheduled groups))
  | lock {s : ConcurrentBatches} {c : Bool} {group admitted : List (ℕ × Transaction)}
      {groups : List (List (ℕ × Transaction))} {guard : LockGuard} {table : AccountLockState} :
      s.calls c = .scheduled (group :: groups) → admitted ≠ [] → admitted.Sublist group →
      AccountLocks.tryLockAccountsForGroup admitted s.accountLocks = (.ok guard,table) →
      Step host costModel s (.lock c admitted) ((s.setCall c (.executing guard admitted
        (admitted.map fun tx => .pending tx.2) groups)).setLocks table)
  | inUse {s : ConcurrentBatches} {c : Bool} {group admitted : List (ℕ × Transaction)}
      {groups : List (List (ℕ × Transaction))} {table : AccountLockState} :
      s.calls c = .scheduled (group :: groups) → admitted ≠ [] → admitted.Sublist group →
      AccountLocks.tryLockAccountsForGroup admitted s.accountLocks = (.err .accountInUse,table) →
      Step host costModel s (.skip c) ((s.setCall c (.scheduled groups)).setLocks table)
  | execute {s : ConcurrentBatches} {c : Bool} {i : ℕ} {guard : LockGuard}
      {group : List (ℕ × Transaction)} {jobs : List Job} {groups : List (List (ℕ × Transaction))}
      {tx : Transaction} {overlay : OverlayStore} {cache : ProgramCache} :
      s.calls c = .executing guard group jobs groups → jobs[i]? = some (.pending tx) →
      s.bank.processSingleTransaction host tx (costModel.calculateCost tx).sum s.programCache =
        (.ok overlay,cache) →
      Step host costModel s (.execute c i) ((s.setCall c (.executing guard group
        (jobs.set i (.finished (some ⟨tx,overlay,s.bank.accounts⟩))) groups)).setCache cache)
  | executeFails {s : ConcurrentBatches} {c : Bool} {i : ℕ} {guard : LockGuard}
      {group : List (ℕ × Transaction)} {jobs : List Job} {groups : List (List (ℕ × Transaction))}
      {tx : Transaction} {e : TransactionError} {cache : ProgramCache} :
      s.calls c = .executing guard group jobs groups → jobs[i]? = some (.pending tx) →
      s.bank.processSingleTransaction host tx (costModel.calculateCost tx).sum s.programCache =
        (.err e,cache) →
      Step host costModel s (.execute c i) ((s.setCall c (.executing guard group
        (jobs.set i (.finished none)) groups)).setCache cache)
  | executePanics {s : ConcurrentBatches} {c : Bool} {i : ℕ} {guard : LockGuard}
      {group : List (ℕ × Transaction)} {jobs : List Job} {groups : List (List (ℕ × Transaction))}
      {tx : Transaction} {cache : ProgramCache} :
      s.calls c = .executing guard group jobs groups → jobs[i]? = some (.pending tx) →
      s.bank.processSingleTransaction host tx (costModel.calculateCost tx).sum s.programCache =
        (.panic,cache) →
      Step host costModel s (.execute c i)
        (((s.setCall c .returned).setCache cache).dropGuard guard)
  | commit {s : ConcurrentBatches} {c : Bool} {guard : LockGuard} {group : List (ℕ × Transaction)}
      {results : List (Option ExecutedTransaction)} {groups : List (List (ℕ × Transaction))} :
      s.calls c = .executing guard group (results.map .finished) groups →
      Step host costModel s (.commit c)
        (s.setCall c (.committing guard group s.bank.accounts results.reduceOption groups))
  | abort {s : ConcurrentBatches} {c : Bool} {guard : LockGuard} {group : List (ℕ × Transaction)}
      {results : List (Option ExecutedTransaction)} {groups : List (List (ℕ × Transaction))} :
      s.calls c = .executing guard group (results.map .finished) groups →
      Step host costModel s (.abort c) ((s.setCall c .returned).dropGuard guard)
  | flush {s : ConcurrentBatches} {c : Bool} {guard : LockGuard} {group : List (ℕ × Transaction)}
      {before : InMemoryAccountStore} {e : ExecutedTransaction}
      {overlays : List ExecutedTransaction} {groups : List (List (ℕ × Transaction))} :
      s.calls c = .committing guard group before (e :: overlays) groups →
      Step host costModel s (.flush c) ((s.setCall c (.committing guard group before overlays
        groups)).setAccounts (e.overlay.flush s.bank.accounts))
  | release {s : ConcurrentBatches} {c : Bool} {guard : LockGuard} {group : List (ℕ × Transaction)}
      {before : InMemoryAccountStore} {groups : List (List (ℕ × Transaction))} :
      s.calls c = .committing guard group before [] groups →
      Step host costModel s (.release c) ((s.setCall c (.scheduled groups)).dropGuard guard)

/-- Whatever the next overlay stores, the account that its transaction loaded for the key was still
in the bank when the commit of its group began. -/
def NoLostUpdate (s : ConcurrentBatches) : Prop :=
  ∀ c guard group before e overlays groups,
    s.calls c = .committing guard group before (e :: overlays) groups →
      ∀ k ∈ e.overlay.dirty, e.loadedFrom.loaded k = before.loaded k

/-! ## When the locks are enough -/

/-- Both transactions name the key in a meta, one of them in a writable one. -/
def Excludes (x y : ℕ × Transaction) (k : Pubkey) : Prop :=
  (TransactionScheduler.Writes x k ∧ TransactionScheduler.Names y k) ∨
    (TransactionScheduler.Names x k ∧ TransactionScheduler.Writes y k)

/-- From every keyed store, the transaction stores the account that it has loaded for the key. -/
def LeavesLoaded (host : Host) (tx : Transaction) (k : Pubkey) : Prop :=
  ∀ (accounts : InMemoryAccountStore) (computeBudget : UInt64) (cache cache' : ProgramCache)
    (overlay : OverlayStore), accounts.Keyed →
    Bank.executeOnOverlay host accounts tx computeBudget cache = (.ok overlay,cache') →
      overlay.dirty.lookup k = some (accounts.loaded k)

/-- When a group gets its locks beside a group of the other call, the locks exclude every key that a
transaction of each lists, unless both leave it as loaded. -/
def LocksSuffice (host : Host) (s : ConcurrentBatches) (l : Label) : Prop :=
  ∀ c admitted, l = .lock c admitted → ∀ x ∈ admitted, ∀ y ∈ (s.calls !c).group, ∀ k,
    k ∈ x.2.message.accountKeys → k ∈ y.2.message.accountKeys →
      Excludes x y k ∨ (LeavesLoaded host x.2 k ∧ LeavesLoaded host y.2 k)

variable {host : Host} {costModel : CostModel} {s t : ConcurrentBatches} {l : Label} {c : Bool}

/-! ## What holds of one call -/

/-- The transaction is of the group and was executed over a keyed store. -/
structure ExecutedOf (host : Host) (group : List (ℕ × Transaction))
    (e : ExecutedTransaction) : Prop where
  member : ∃ tx ∈ group, tx.2 = e.transaction
  keyed : e.loadedFrom.Keyed
  executed : ∃ computeBudget cache cache', Bank.executeOnOverlay host e.loadedFrom e.transaction
    computeBudget cache = (.ok e.overlay,cache')

/-- The group lists the key. -/
def Lists (group : List (ℕ × Transaction)) (k : Pubkey) : Prop :=
  ∃ tx ∈ group, k ∈ tx.2.message.accountKeys

/-- No transaction of the group that lists the key changes what it loaded for it. -/
def Leaves (host : Host) (group : List (ℕ × Transaction)) (k : Pubkey) : Prop :=
  ∀ tx ∈ group, k ∈ tx.2.message.accountKeys → LeavesLoaded host tx.2 k

/-- The keys that the group lists are as its executed transactions have loaded them: in the bank
while the group executes, and before its commit once that has begun. Keys that no member changes
still are as they were before the commit. -/
def Fresh (host : Host) (accounts : InMemoryAccountStore) : CallPhase → Prop
  | .executing _ group jobs _ => ∀ job ∈ jobs, match job with
    | .pending tx => ∃ x ∈ group, x.2 = tx
    | .finished none => True
    | .finished (some e) => ExecutedOf host group e ∧
        ∀ k, Lists group k → e.loadedFrom.loaded k = accounts.loaded k
  | .committing _ group before overlays _ =>
    (∀ e ∈ overlays, ExecutedOf host group e ∧
      ∀ k, Lists group k → e.loadedFrom.loaded k = before.loaded k) ∧
    ∀ k, Lists group k → Leaves host group k → before.loaded k = accounts.loaded k
  | _ => True

theorem Fresh.congr {accounts accounts' : InMemoryAccountStore} {p : CallPhase}
    (h : Fresh host accounts p)
    (hs : ∀ k, Lists p.group k → accounts'.loaded k = accounts.loaded k) :
    Fresh host accounts' p := by
  cases p with
  | executing guard group jobs groups =>
    intro job hjob
    have hj := h job hjob
    rcases job with tx | _ | e
    · exact hj
    · trivial
    · exact ⟨hj.1,fun k hk => (hj.2 k hk).trans (hs k hk).symm⟩
  | committing guard group before overlays groups =>
    exact ⟨h.1,fun k hk hl => (h.2 k hk hl).trans (hs k hk).symm⟩
  | _ => trivial

theorem ExecutedOf.listed {group : List (ℕ × Transaction)} {e : ExecutedTransaction}
    (h : ExecutedOf host group e) {k : Pubkey} (hk : k ∈ e.overlay.dirty) : Lists group k := by
  obtain ⟨x,hx,hxe⟩ := h.member
  obtain ⟨b,cache,cache',hrun⟩ := h.executed
  refine ⟨x,hx,?_⟩
  rw [hxe]
  by_contra hn
  have hnone := Bank.overlay_other (fun k _ => h.keyed k) hrun hn
  rw [Finmap.lookup_eq_none] at hnone
  exact hnone hk

/-- Flushing leaves a key that no transaction of the group changes, where the bank still has what
was loaded for it. -/
theorem ExecutedOf.flush_loaded {group : List (ℕ × Transaction)} {e : ExecutedTransaction}
    (h : ExecutedOf host group e) {accounts : InMemoryAccountStore} {k : Pubkey}
    (hl : Leaves host group k) (hs : Lists group k → e.loadedFrom.loaded k = accounts.loaded k) :
    InMemoryAccountStore.loaded (e.overlay.flush accounts) k = accounts.loaded k := by
  obtain ⟨x,hx,hxe⟩ := h.member
  obtain ⟨b,cache,cache',hrun⟩ := h.executed
  unfold InMemoryAccountStore.loaded at hs ⊢
  rw [OverlayStore.flush_load,OverlayStore.load]
  by_cases hk : k ∈ e.transaction.message.accountKeys
  · have hleft := hl x hx (hxe ▸ hk)
    rw [hxe] at hleft
    rw [hleft _ b cache cache' _ h.keyed hrun]
    exact hs ⟨x,hx,hxe ▸ hk⟩
  · rw [Bank.overlay_other (fun k _ => h.keyed k) hrun hk]

/-! ## What holds of both -/

/-- The lock table holds the guards of both calls, the groups that hold them change no key that both
list, and every key that a group lists is as it was loaded. -/
structure Sound (host : Host) (s : ConcurrentBatches) : Prop where
  locks : LockSystem.Accounted ⟨s.accountLocks,(s.calls true).guards+(s.calls false).guards⟩
  guarded : ∀ c, (s.calls c).Guarded
  keyed : s.bank.accounts.Keyed
  apart : ∀ c k, Lists (s.calls c).group k → Lists (s.calls !c).group k →
    Leaves host (s.calls c).group k
  fresh : ∀ c, Fresh host s.bank.accounts (s.calls c)

theorem Sound.locks_at (hs : Sound host s) (c : Bool) :
    LockSystem.Accounted ⟨s.accountLocks,(s.calls c).guards+(s.calls !c).guards⟩ := by
  have h := hs.locks
  cases c with
  | true => exact h
  | false =>
    rw [add_comm] at h
    exact h

/-- What a step of one call has to establish. -/
theorem Sound.move (hs : Sound host s) {p : CallPhase}
    (hcalls : t.calls = Function.update s.calls c p)
    (hlocks : LockSystem.Accounted ⟨t.accountLocks,p.guards+(s.calls !c).guards⟩)
    (hguard : p.Guarded) (hkeyed : t.bank.accounts.Keyed)
    (hapart : ∀ k, Lists p.group k → Lists (s.calls !c).group k →
      Leaves host p.group k ∧ Leaves host (s.calls !c).group k)
    (hfresh : Fresh host t.bank.accounts p)
    (hother : ∀ k, Lists (s.calls !c).group k →
      t.bank.accounts.loaded k = s.bank.accounts.loaded k) :
    Sound host t := by
  have hself : t.calls c = p := by rw [hcalls,Function.update_self]
  have hrest : t.calls (!c) = s.calls !c := by
    rw [hcalls,Function.update_of_ne (Bool.not_ne_self c)]
  have hboth : ∀ P : Bool → Prop, P c → P (!c) → ∀ d, P d := by
    intro P h₁ h₂ d
    cases c <;> cases d <;> assumption
  refine ⟨?_,hboth _ ?_ ?_,hkeyed,hboth _ ?_ ?_,hboth _ ?_ ?_⟩
  · rw [← hself,← hrest] at hlocks
    cases c with
    | true => exact hlocks
    | false =>
      rw [add_comm] at hlocks
      exact hlocks
  · rwa [hself]
  · rw [hrest]
    exact hs.guarded _
  · rw [hself,hrest]
    exact fun k hk hk' => (hapart k hk hk').1
  · rw [hrest,Bool.not_not,hself]
    exact fun k hk hk' => (hapart k hk' hk).2
  · rwa [hself]
  · rw [hrest]
    exact (hs.fresh _).congr hother

/-- A step of a call that keeps its group, or leaves it, does not bring two groups together. -/
theorem Sound.still_apart (hs : Sound host s) {p : CallPhase}
    (hp : p.group = (s.calls c).group ∨ p.group = []) (k : Pubkey) (hk : Lists p.group k)
    (hk' : Lists (s.calls !c).group k) :
    Leaves host p.group k ∧ Leaves host (s.calls !c).group k := by
  rcases hp with hp | hp
  · rw [hp] at hk ⊢
    have hk'' : Lists (s.calls !!c).group k := by rwa [Bool.not_not]
    exact ⟨hs.apart c k hk hk',hs.apart (!c) k hk' hk''⟩
  · rw [hp] at hk
    obtain ⟨x,hx,-⟩ := hk
    cases hx

/-- The other call goes on undisturbed when a call drops its guard. -/
theorem Sound.left (hs : Sound host s) {guard : LockGuard} {p : CallPhase} (cache : ProgramCache)
    (hg : (s.calls c).guards = {guard}) (hp : p = .returned ∨ ∃ groups, p = .scheduled groups) :
    Sound host (((s.setCall c p).setCache cache).dropGuard guard) := by
  have hl := hs.locks_at c
  rw [hg,Multiset.singleton_add] at hl
  obtain ⟨table,hrun,ht⟩ := hl.drop (ε := Empty)
  have hlocks : LockSystem.Accounted ⟨((guard.drop : Exec _ Empty Unit) s.accountLocks).2,
      0+(s.calls !c).guards⟩ := by
    rw [hrun,zero_add]
    exact ht
  rcases hp with rfl | ⟨groups,rfl⟩
  · exact hs.move rfl hlocks trivial hs.keyed (hs.still_apart (.inr rfl)) trivial fun _ _ => rfl
  · exact hs.move rfl hlocks trivial hs.keyed (hs.still_apart (.inr rfl)) trivial fun _ _ => rfl

/-- A group that gets its locks names no key together with the running group of the other call, one
of them for writing. -/
theorem Sound.not_excludes (hs : Sound host s) {admitted : List (ℕ × Transaction)}
    (hf : ¬AccountLocks.InUse admitted s.accountLocks) {x y : ℕ × Transaction} (hx : x ∈ admitted)
    (hy : y ∈ (s.calls !c).group) (k : Pubkey) : ¬Excludes x y k := by
  have hmem : AccountLocks.guardFor (s.calls !c).group ∈ (s.calls c).guards+(s.calls !c).guards :=
    Multiset.mem_add.mpr (.inr ((hs.guarded !c).mem_guards hy))
  have hl := hs.locks_at c
  have hkey : ∀ (w : Bool) (group : List (ℕ × Transaction)), ∀ tx ∈ group, (∃ m ∈ tx.2.metas,
      m.isWritable = w ∧ m.pubkey = k) → k ∈ (AccountLocks.keysToLock w group).toList := by
    rintro w group tx htx ⟨m,hm,hw,hk⟩
    refine BTreeSet.mem_def.mp (BTreeSet.mem_ofList.mpr (mem_metaKeys.mpr ⟨m,?_,hw,hk⟩))
    exact List.mem_flatMap.mpr ⟨tx,htx,hm⟩
  -- What the other group names stands in the table.
  have hwritten : TransactionScheduler.Writes y k → k ∈ s.accountLocks.writeLocks := by
    intro hw
    rw [← Finset.mem_val,hl.writes]
    exact Multiset.mem_bind.mpr ⟨_,hmem,hkey true _ y hy hw⟩
  have hread : (∃ m ∈ y.2.metas, m.isWritable = false ∧ m.pubkey = k) →
      k ∈ s.accountLocks.readLocks := by
    intro hr
    rw [hl.reads.mem_iff]
    exact Multiset.countP_pos.mpr ⟨_,hmem,hkey false _ y hy hr⟩
  rintro (⟨hw,m,hm,hk⟩ | ⟨⟨m,hm,hk⟩,hw⟩)
  · have hin := hkey true _ x hx hw
    cases hmw : m.isWritable with
    | true => exact hf (.inl ⟨k,hin,.inl (hwritten ⟨m,hm,hmw,hk⟩)⟩)
    | false => exact hf (.inl ⟨k,hin,.inr (hread ⟨m,hm,hmw,hk⟩)⟩)
  · have hin := hkey m.isWritable _ x hx ⟨m,hm,rfl,hk⟩
    cases hmw : m.isWritable with
    | true =>
      rw [hmw] at hin
      exact hf (.inl ⟨k,hin,.inl (hwritten hw)⟩)
    | false =>
      rw [hmw] at hin
      exact hf (.inr ⟨k,hin,hwritten hw⟩)

/-! ## Steps -/

theorem sound_lock (hs : Sound host s) {group admitted : List (ℕ × Transaction)}
    {groups : List (List (ℕ × Transaction))} {guard : LockGuard} {table : AccountLockState}
    (hc : s.calls c = .scheduled (group :: groups))
    (hl : AccountLocks.tryLockAccountsForGroup admitted s.accountLocks = (.ok guard,table))
    (hsuffice : LocksSuffice host s (.lock c admitted)) :
    Sound host ((s.setCall c (.executing guard admitted
      (admitted.map fun tx => .pending tx.2) groups)).setLocks table) := by
  rw [AccountLocks.tryLock_run] at hl
  split at hl
  · cases hl
  · next hf =>
    cases hl
    have hlocks := hs.locks_at c
    rw [hc,CallPhase.guards,zero_add] at hlocks
    refine hs.move rfl ?_ rfl hs.keyed ?_ ?_ fun _ _ => rfl
    · rw [CallPhase.guards,Multiset.singleton_add]
      exact hlocks.lock hf
    · have hboth : ∀ x ∈ admitted, ∀ y ∈ (s.calls !c).group, ∀ k, k ∈ x.2.message.accountKeys →
          k ∈ y.2.message.accountKeys → LeavesLoaded host x.2 k ∧ LeavesLoaded host y.2 k :=
        fun x hx y hy k hkx hky => (hsuffice c admitted rfl x hx y hy k hkx hky).resolve_left
          (hs.not_excludes hf hx hy k)
      rintro k ⟨x,hx,hkx⟩ ⟨y,hy,hky⟩
      exact ⟨fun x' hx' hk' => (hboth x' hx' y hy k hk' hky).1,
        fun y' hy' hk' => (hboth x hx y' hy' k hkx hk').2⟩
    · intro job hjob
      obtain ⟨tx,htx,rfl⟩ := List.mem_map.mp hjob
      exact ⟨tx,htx,rfl⟩

/-- The executed transaction has loaded its accounts from the bank as it is. -/
theorem sound_execute (hs : Sound host s) {i : ℕ} {guard : LockGuard}
    {group : List (ℕ × Transaction)} {jobs : List Job} {groups : List (List (ℕ × Transaction))}
    {tx : Transaction} {cache : ProgramCache} (hc : s.calls c = .executing guard group jobs groups)
    (hi : jobs[i]? = some (.pending tx)) {result : Option ExecutedTransaction}
    (hr : ∀ e ∈ result, ∃ computeBudget cache', e.transaction = tx ∧
      e.loadedFrom = s.bank.accounts ∧
      s.bank.processSingleTransaction host tx computeBudget s.programCache =
        (.ok e.overlay,cache')) :
    Sound host ((s.setCall c (.executing guard group (jobs.set i (.finished result))
      groups)).setCache cache) := by
  have hfresh := hs.fresh c
  have hguard := hs.guarded c
  have hlocks := hs.locks_at c
  rw [hc] at hfresh hguard hlocks
  refine hs.move rfl hlocks hguard hs.keyed (hs.still_apart (.inl (by rw [hc]; rfl)))
    ?_ fun _ _ => rfl
  intro job hjob
  rcases List.mem_or_eq_of_mem_set hjob with hjob | rfl
  · exact hfresh job hjob
  cases result with
  | none => trivial
  | some e =>
    obtain ⟨b,cache',rfl,hloaded,hrun⟩ := hr e rfl
    obtain ⟨-,hrun⟩ := Bank.processSingleTransaction_ok hrun
    refine ⟨⟨hfresh _ (List.mem_of_getElem? hi),?_,b,s.programCache,cache',?_⟩,
      fun k _ => by rw [hloaded]; rfl⟩
    · rw [hloaded]
      exact hs.keyed
    · rw [hloaded]
      exact hrun

theorem sound_commit (hs : Sound host s) {guard : LockGuard} {group : List (ℕ × Transaction)}
    {results : List (Option ExecutedTransaction)} {groups : List (List (ℕ × Transaction))}
    (hc : s.calls c = .executing guard group (results.map .finished) groups) :
    Sound host
      (s.setCall c (.committing guard group s.bank.accounts results.reduceOption groups)) := by
  have hfresh := hs.fresh c
  have hguard := hs.guarded c
  have hlocks := hs.locks_at c
  rw [hc] at hfresh hguard hlocks
  refine hs.move rfl hlocks hguard hs.keyed (hs.still_apart (.inl (by rw [hc]; rfl)))
    ⟨?_,fun _ _ _ => rfl⟩ fun _ _ => rfl
  intro e he
  exact hfresh _ (List.mem_map.mpr ⟨some e,List.reduceOption_mem_iff.mp he,rfl⟩)

theorem sound_flush (hs : Sound host s) {guard : LockGuard} {group : List (ℕ × Transaction)}
    {before : InMemoryAccountStore} {e : ExecutedTransaction} {overlays : List ExecutedTransaction}
    {groups : List (List (ℕ × Transaction))}
    (hc : s.calls c = .committing guard group before (e :: overlays) groups) :
    Sound host ((s.setCall c (.committing guard group before overlays groups)).setAccounts
      (e.overlay.flush s.bank.accounts)) := by
  have hfresh := hs.fresh c
  have hguard := hs.guarded c
  have hlocks := hs.locks_at c
  rw [hc] at hfresh hguard hlocks
  obtain ⟨hoverlays,hbefore⟩ := hfresh
  obtain ⟨he,hloaded⟩ := hoverlays e List.mem_cons_self
  -- A key that no member changes is flushed as it is.
  have hsame : ∀ k, Leaves host group k →
      InMemoryAccountStore.loaded (e.overlay.flush s.bank.accounts) k = s.bank.accounts.loaded k :=
    fun k hl => he.flush_loaded hl fun hk => (hloaded k hk).trans (hbefore k hk hl)
  refine hs.move rfl hlocks hguard ?_ (hs.still_apart (.inl (by rw [hc]; rfl)))
    ⟨fun e' he' => hoverlays e' (List.mem_cons_of_mem _ he'),fun k hk hl => ?_⟩ fun k hk => ?_
  · obtain ⟨b,cache,cache',hrun⟩ := he.executed
    exact Bank.flush_keyed (fun k _ => he.keyed k) hrun hs.keyed
  · exact (hbefore k hk hl).trans (hsame k hl).symm
  · by_cases hl : Lists group k
    · have hapart := hs.apart c k
      rw [hc] at hapart
      exact hsame k (hapart hl hk)
    · exact hsame k fun x hx hkx => absurd ⟨x,hx,hkx⟩ hl

theorem sound_step (hs : Sound host s) (hsuffice : LocksSuffice host s l)
    (h : Step host costModel s l t) :
    Sound host t := by
  cases h with
  | @skip c group groups hc =>
    have hlocks := hs.locks_at c
    rw [hc] at hlocks
    exact hs.move rfl hlocks trivial hs.keyed (hs.still_apart (.inr rfl)) trivial fun _ _ => rfl
  | lock hc hne hsub hl => exact sound_lock hs hc hl hsuffice
  | @inUse c group admitted groups table hc hne hsub hl =>
    have hlocks := hs.locks_at c
    rw [hc] at hlocks
    rw [AccountLocks.tryLock_run] at hl
    split at hl
    · cases hl
      exact hs.move rfl hlocks trivial hs.keyed (hs.still_apart (.inr rfl)) trivial fun _ _ => rfl
    · cases hl
  | execute hc hi hx =>
    refine sound_execute hs hc hi ?_
    rintro e ⟨⟩
    exact ⟨_,_,rfl,rfl,hx⟩
  | executeFails hc hi hx => exact sound_execute hs hc hi fun e he => by cases he
  | executePanics hc hi hx => exact hs.left _ (by rw [hc]; rfl) (.inl rfl)
  | commit hc => exact sound_commit hs hc
  | abort hc => exact hs.left s.programCache (by rw [hc]; rfl) (.inl rfl)
  | flush hc => exact sound_flush hs hc
  | release hc => exact hs.left s.programCache (by rw [hc]; rfl) (.inr ⟨_,rfl⟩)

theorem sound_start {bank : Bank} (hk : bank.accounts.Keyed) (programCache : ProgramCache)
    (batches : Bool → List Transaction) : Sound host (start host bank programCache batches) where
  locks := LockSystem.accounted_init
  guarded _ := trivial
  keyed := hk
  apart _ _ h := by
    obtain ⟨x,hx,-⟩ := h
    cases hx
  fresh _ := trivial

/-- In every run in which groups only get their locks beside each other where the locks suffice, no
overlay overwrites an update of the other call. -/
theorem no_lost_update {bank : Bank} {programCache : ProgramCache}
    {batches : Bool → List Transaction} {ls : List Label} (hk : bank.accounts.Keyed)
    (hr : Run.Always (Step host costModel) (LocksSuffice host)
      (start host bank programCache batches) ls s) :
    s.NoLostUpdate := by
  have hs : Sound host s := hr.invariant (fun _ _ _ ha hc hl => sound_step ha hc hl)
    (sound_start hk programCache batches)
  intro c guard group before e overlays groups hc k hdirty
  have hfresh := hs.fresh c
  rw [hc] at hfresh
  obtain ⟨he,hloaded⟩ := hfresh.1 e List.mem_cons_self
  exact hloaded k (he.listed hdirty)

/-! ## Two payments -/

/-- The first call pays from wallet 1 and lists another wallet that its instruction does not
name. -/
def listing (bystander : UInt8) : Transaction := paymentListing [blankSignature] 1 2 bystander 3

/-- The second call pays from wallet 3. -/
def paying : Transaction := paymentListing [blankSignature] 3 4 5 1

def beforePayments (bystander : UInt8) : ConcurrentBatches :=
  start default (.new walletStore) ∅ fun c => if c then [paying] else [listing bystander]

/-- What the listing transaction stores: the two wallets of its payment, and the one that it lists
as it was loaded. -/
def listingOverlay (bystander : UInt8) : OverlayStore :=
  ((OverlayStore.new.store (.ofByte 1) (wallet 1 7)).store (.ofByte 2) (wallet 2 3)).store
    (.ofByte bystander) (walletStore.loaded (.ofByte bystander))

def payingOverlay : OverlayStore :=
  ((OverlayStore.new.store (.ofByte 3) (wallet 3 9)).store (.ofByte 4) (wallet 4 1)).store
    (.ofByte 5) (wallet 5 0)

theorem paying_executes : Bank.processSingleTransaction default (.new walletStore) paying
    (CostModel.new.calculateCost paying).sum ∅ = (.ok payingOverlay,∅) := by decide +kernel

theorem paying_scheduled (bystander : UInt8) :
    (beforePayments bystander).calls true = .scheduled [[(0,paying)]] := by
  have h :
    TransactionScheduler.schedule (BankingStage.txsToSchedule (default : Host).ed25519 [paying]) =
      [[(0,paying)]] := by decide +kernel
  exact congrArg CallPhase.scheduled h

/-- The first call writes wallet 3 back as it was before the second call has paid from it. -/
theorem listed_wallet_overwritten : ∃ ls s t,
    Run (Step default .new) (beforePayments 3) ls s ∧ ¬s.NoLostUpdate ∧
    Step default .new s (.flush false) t ∧ s.bank.accounts.loaded (.ofByte 3) = wallet 3 9 ∧
    t.bank.accounts.loaded (.ofByte 3) = wallet 3 10 := by
  have hschedule :
    TransactionScheduler.schedule (BankingStage.txsToSchedule (default : Host).ed25519
      [listing 3]) = [[(0,listing 3)]] := by decide +kernel
  have hexecutes : Bank.processSingleTransaction default (.new walletStore) (listing 3)
      (CostModel.new.calculateCost (listing 3)).sum ∅ = (.ok (listingOverlay 3),∅) := by
    decide +kernel
  have r : Run (Step default .new) (beforePayments 3) [] (beforePayments 3) := .nil
  have r : Run (Step default .new) (beforePayments 3) (_ ++ [.lock false [(0,listing 3)]]) _ :=
    r.snoc (.lock (congrArg CallPhase.scheduled hschedule) (by simp) (.refl _)
      (Prod.ext_iff.mpr ⟨rfl,rfl⟩))
  have r := r.snoc (.execute (c := false) (i := 0) rfl rfl hexecutes)
  have r : Run (Step default .new) (beforePayments 3) (_ ++ [.lock true [(0,paying)]]) _ := r.snoc
    (.lock (paying_scheduled 3) (by simp) (.refl _) (Prod.ext_iff.mpr ⟨rfl,rfl⟩))
  have r := r.snoc (.execute (c := true) (i := 0) rfl rfl paying_executes)
  have r := r.snoc (.commit (c := true) (show _ = CallPhase.executing _ _
    ([some ⟨paying,payingOverlay,walletStore⟩].map .finished) _ from rfl))
  have r := r.snoc (.flush (c := true) rfl)
  have r := r.snoc (.commit (c := false) (show _ = CallPhase.executing _ _
    ([some ⟨listing 3,listingOverlay 3,walletStore⟩].map .finished) _ from rfl))
  have hpaid : InMemoryAccountStore.loaded (payingOverlay.flush walletStore) (.ofByte 3) =
      wallet 3 9 := by
    decide +kernel
  have hrestored :
    InMemoryAccountStore.loaded ((listingOverlay 3).flush (payingOverlay.flush walletStore))
      (.ofByte 3) = wallet 3 10 := by decide +kernel
  refine ⟨_,_,_,r,fun h => ?_,.flush (c := false) rfl,hpaid,hrestored⟩
  have hmem : Pubkey.ofByte 3 ∈ (listingOverlay 3).dirty :=
    Finmap.mem_of_lookup_eq_some (b := wallet 3 10) (by decide +kernel)
  have hloaded : walletStore.loaded (.ofByte 3) = wallet 3 10 := by decide +kernel
  have hlost := (hloaded.symm.trans (h false _ _ _ _ _ _ rfl _ hmem)).trans hpaid
  exact absurd hlost (by decide)

/-- Beside a payment that lists none of its wallets nothing is overwritten. -/
theorem listed_wallet_kept : ∃ ls s guard group before e overlays groups,
    Run.Always (Step default .new) (LocksSuffice default) (beforePayments 6) ls s ∧
    s.calls false = .committing guard group before (e :: overlays) groups ∧
    before.loaded (.ofByte 3) = wallet 3 9 ∧
    ∀ k ∈ e.overlay.dirty, e.loadedFrom.loaded k = before.loaded k := by
  have hschedule :
    TransactionScheduler.schedule (BankingStage.txsToSchedule (default : Host).ed25519
      [listing 6]) = [[(0,listing 6)]] := by decide +kernel
  have hexecutes : Bank.processSingleTransaction default (.new walletStore) (listing 6)
      (CostModel.new.calculateCost (listing 6)).sum ∅ = (.ok (listingOverlay 6),∅) := by
    decide +kernel
  have hfree : ∀ {s : ConcurrentBatches} {l : Label}, (∀ c admitted, l ≠ .lock c admitted) →
      LocksSuffice default s l := fun h c admitted hl => absurd hl (h c admitted)
  have r : Run.Always (Step default .new) (LocksSuffice default) (beforePayments 6) []
    (beforePayments 6) :=
    .nil
  have r : Run.Always (Step default .new) (LocksSuffice default) (beforePayments 6)
      (_ ++ [.lock false [(0,listing 6)]]) _ := r.snoc ⟨by rintro c admitted ⟨⟩ x hx y ⟨⟩,
    .lock (congrArg CallPhase.scheduled hschedule) (by simp) (.refl _) (Prod.ext_iff.mpr ⟨rfl,rfl⟩)⟩
  have r := r.snoc ⟨hfree (by simp),.execute (c := false) (i := 0) rfl rfl hexecutes⟩
  have hdisjoint : ∀ k ∈ paying.message.accountKeys, k ∉ (listing 6).message.accountKeys := by
    decide
  have r : Run.Always (Step default .new) (LocksSuffice default) (beforePayments 6)
      (_ ++ [.lock true [(0,paying)]]) _ := r.snoc ⟨by
    rintro c admitted ⟨⟩ x hx y hy k hkx hky
    cases List.mem_singleton.mp hx
    cases List.mem_singleton.mp hy
    exact absurd hky (hdisjoint k hkx),
    .lock (paying_scheduled 6) (by simp) (.refl _) (Prod.ext_iff.mpr ⟨rfl,rfl⟩)⟩
  have r := r.snoc ⟨hfree (by simp),.execute (c := true) (i := 0) rfl rfl paying_executes⟩
  have r := r.snoc ⟨hfree (by simp),.commit (c := true) (show _ = CallPhase.executing _ _
    ([some ⟨paying,payingOverlay,walletStore⟩].map .finished) _ from rfl)⟩
  have r := r.snoc ⟨hfree (by simp),.flush (c := true) rfl⟩
  have r := r.snoc ⟨hfree (by simp),.commit (c := false) (show _ = CallPhase.executing _ _
    ([some ⟨listing 6,listingOverlay 6,walletStore⟩].map .finished) _ from rfl)⟩
  have hpaid : InMemoryAccountStore.loaded (payingOverlay.flush walletStore) (.ofByte 3) =
      wallet 3 9 := by
    decide +kernel
  exact ⟨_,_,_,_,_,_,_,_,r,rfl,hpaid,no_lost_update walletStore_keyed r false _ _ _ _ _ _ rfl⟩

end ConcurrentBatches

end TinySolana
