import TinySolana.BatchSteps
import TinySolana.Conservation
import TinySolana.Overlays
import TinySolana.SerialEquivalence
import TinySolana.Foundations.Runs

/-!
# Conservation of lamports over batches

Every group is committed as a whole: its overlays were all computed over the store as it was before
the group. Along the commit the store still holds, for the keys of the members to come, the lamports
that they have loaded.
-/

namespace TinySolana
open Foundations

/-- No member moves lamports of an account that a later one lists. -/
def Bank.LamportsSeparated (bank : Bank) (group : List (ℕ × Transaction)) : Prop :=
  group.Pairwise fun a b => bank.Passes a.2 → bank.Passes b.2 →
    ∀ k ∈ a.2.movedKeys, k ∉ b.2.message.accountKeys

/-- The store is keyed and has the given total. -/
structure Holds (total : ℕ) (s : InMemoryAccountStore) : Prop where
  keyed : s.Keyed
  total : s.totalLamports = total

/-- Committing overlays that were all computed over the same store. -/
theorem commitOverlays_holds {accounts : InMemoryAccountStore}
    {members : List (Transaction × OverlayStore)}
    (hb : ∀ e ∈ members, Bank.OverlayBalanced accounts e.1 e.2)
    (hs : members.Pairwise fun a b => ∀ k ∈ a.1.movedKeys, k ∉ b.1.message.accountKeys)
    {p : InMemoryAccountStore} {total : ℕ} (hp : Holds total p)
    (hagree : ∀ e ∈ members, ∀ k ∈ e.1.message.accountKeys, p.lamportsOf k =
      accounts.lamportsOf k) :
    Holds total (commitOverlays (members.map Prod.snd) p) := by
  induction members generalizing p with
  | nil => exact hp
  | cons e rest ih =>
    obtain ⟨hs₁,hs₂⟩ := List.pairwise_cons.mp hs
    obtain ⟨hk,ht,hsame⟩ := (hb e List.mem_cons_self).flush hp.keyed (hagree e List.mem_cons_self)
    refine ih (fun e' he' => hb e' (List.mem_cons_of_mem _ he')) hs₂ ⟨hk,ht.trans hp.total⟩ ?_
    intro e' he' k hk'
    rw [hsame k fun hm => hs₁ e' he' k hm hk']
    exact hagree e' (List.mem_cons_of_mem _ he') k hk'

namespace BankingStage

variable {host : Host} {costModel : CostModel}

/-- The store of the bank and its preflight check are the same. -/
structure SameBank (s s' : BatchState) : Prop where
  accounts : s'.bank.accounts = s.bank.accounts
  preflight : ∀ tx, s'.bank.checkPreflightRules tx = s.bank.checkPreflightRules tx

instance : Std.Refl SameBank := ⟨fun _ => ⟨rfl,fun _ => rfl⟩⟩

instance : IsTrans BatchState SameBank :=
  ⟨fun _ _ _ h h' =>
    ⟨h'.accounts.trans h.accounts,fun tx => (h'.preflight tx).trans (h.preflight tx)⟩⟩

theorem sameBank_across : AcrossStages (fun _ => True) SameBank where
  locks _ _ := ⟨rfl,fun _ => rfl⟩
  tracker _ _ := ⟨rfl,fun _ => rfl⟩
  records _ _ := ⟨rfl,fun _ => rfl⟩
  cache _ _ := ⟨rfl,fun _ => rfl⟩
  metrics _ ok := by cases ok <;> exact ⟨rfl,fun _ => rfl⟩
  freezeLock _ _ := ⟨rfl,fun _ => rfl⟩
  recorded _ _ := ⟨rfl,fun _ => rfl⟩
  result _ _ _ _ := ⟨rfl,fun _ => rfl⟩
  requeued s tx _ := by
    unfold requeueTransaction
    rw [Exec.modify_run]
    cases s.stage.txSender.send tx.2 <;> exact ⟨rfl,fun _ => rfl⟩

/-- What a batch keeps: the total of the store, and the preflight check of the bank. -/
structure Conserving (bank : Bank) (total : ℕ) (s : BatchState) : Prop where
  holds : Holds total s.bank.accounts
  preflight : ∀ tx, s.bank.checkPreflightRules tx = bank.checkPreflightRules tx

variable {bank : Bank} {total : ℕ} {s s' : BatchState}

theorem Conserving.congr (h : Conserving bank total s) (hs : SameBank s s') :
    Conserving bank total s' :=
  ⟨hs.accounts ▸ h.holds,fun tx => (hs.preflight tx).trans (h.preflight tx)⟩

/-- The condition on the members of a group. -/
structure Balanceable (bank : Bank) (group : List (ℕ × Transaction)) : Prop where
  systemOnly : ∀ tx ∈ group, tx.2.SystemOnly
  listsOnce : ∀ tx ∈ group, bank.Passes tx.2 → Bank.ListsOnce tx.2
  separated : bank.LamportsSeparated group

theorem Balanceable.sublist {group group' : List (ℕ × Transaction)} (h : Balanceable bank group)
    (hg : group'.Sublist group) : Balanceable bank group' :=
  ⟨fun tx ht => h.systemOnly tx (hg.subset ht),fun tx ht => h.listsOnce tx (hg.subset ht),
    h.separated.sublist hg⟩

/-- A successful result of a member, as the pair of its transaction and its overlay. -/
def TransactionProcessResult.success (r : TransactionProcessResult) :
    Option (Transaction × OverlayStore) :=
  r.processingResult.toOption.map fun o => (r.member.transaction,o)

theorem success_eq_some {r : TransactionProcessResult} {e : Transaction × OverlayStore} :
    r.success = some e ↔ r.processingResult = .ok e.2 ∧ r.member.transaction = e.1 := by
  unfold TransactionProcessResult.success
  obtain ⟨tx,o⟩ := e
  cases r.processingResult <;> simp [Except.toOption,and_comm]

/-- The commit of a group, from the results of its members. -/
theorem commit_holds {admitted : List Admitted} {results : List TransactionProcessResult}
    (hc : Conserving bank total s) (hfit : total < 2^64)
    (hg : Balanceable bank (admitted.map fun m => (m.originalIndex,m.transaction)))
    (hx : executeGroup host admitted s = (.ok results,s')) :
    Holds total (commitOverlays ((results.filterMap TransactionProcessResult.success).map Prod.snd)
      s.bank.accounts) := by
  obtain ⟨rfl,hrun⟩ := executeGroup_results hx
  have hmem : ∀ r ∈ results, (r.member.originalIndex,r.member.transaction) ∈
      (results.map TransactionProcessResult.member).map fun m => (m.originalIndex,m.transaction) :=
    fun r hr => List.mem_map.mpr ⟨_,List.mem_map_of_mem hr,rfl⟩
  -- A member that succeeds has passed the preflight check and ran over the store of the bank.
  have hok : ∀ r ∈ results, ∀ o, r.processingResult = .ok o → bank.Passes r.member.transaction ∧
      ∃ cache cache', Bank.executeOnOverlay host s.bank.accounts r.member.transaction
        r.member.cost.sum cache = (.ok o,cache') := by
    intro r hr o ho
    obtain ⟨cache,cache',hproc⟩ := hrun r hr o ho
    obtain ⟨hp,hex⟩ := Bank.processSingleTransaction_ok hproc
    exact ⟨(hc.preflight _).symm.trans hp,cache,cache',hex⟩
  refine commitOverlays_holds ?_ ?_ hc.holds fun _ _ _ _ => rfl
  · intro e he
    obtain ⟨r,hr,hre⟩ := List.mem_filterMap.mp he
    obtain ⟨ho,htx⟩ := success_eq_some.mp hre
    obtain ⟨hp,cache,cache',hex⟩ := hok r hr e.2 ho
    rw [← htx]
    exact Bank.overlay_balanced (hg.systemOnly _ (hmem r hr)) hc.holds.keyed
      (hc.holds.total.trans_lt hfit) (hg.listsOnce _ (hmem r hr) hp) hex
  · have hsep := hg.separated
    rw [Bank.LamportsSeparated,List.map_map,List.pairwise_map] at hsep
    rw [List.pairwise_filterMap]
    refine hsep.imp_of_mem ?_
    intro r r' hr hr' h e he e' he'
    obtain ⟨ho,htx⟩ := success_eq_some.mp he
    obtain ⟨ho',htx'⟩ := success_eq_some.mp he'
    rw [← htx,← htx']
    exact h (hok r hr e.2 ho).1 (hok r' hr' e'.2 ho').1

/-- A group is run to its end or stopped, and the total is the same. -/
theorem runGroup_conserving {admitted : List Admitted} (hc : Conserving bank total s)
    (hfit : total < 2^64)
    (hg : Balanceable bank (admitted.map fun m => (m.originalIndex,m.transaction))) :
    Conserving bank total (runGroup host admitted s).2 := by
  unfold runGroup
  refine (executeGroup_keeps sameBank_across admitted).bind_final (fun _ => hc.congr)
    fun results s₁ hx h₁ => ?_
  have hc₁ := hc.congr h₁
  refine (record_keeps sameBank_across _).bind_final (fun _ => hc₁.congr) fun _ s₂ _ h₂ => ?_
  have hc₂ := hc₁.congr h₂
  refine (logRecorded_keeps sameBank_across _).bind_final (fun _ => hc₂.congr) fun _ s₃ _ h₃ => ?_
  have hc₃ := hc₂.congr h₃
  refine (settleGroup_keeps sameBank_across fun _ _ => trivial).bind_final (fun _ => hc₃.congr)
    fun overlays s₄ hset h₄ => ?_
  refine ⟨?_,(hc₃.congr h₄).preflight⟩
  have ho : overlays.map Prod.snd =
      (results.filterMap TransactionProcessResult.success).map Prod.snd := by
    rw [settleGroup_overlays hset,List.map_filterMap,List.map_filterMap]
    refine List.filterMap_congr fun r _ => ?_
    unfold TransactionProcessResult.success
    cases r.processingResult <;> rfl
  have ha : s₄.bank.accounts = s.bank.accounts := by
    rw [h₄.accounts,h₃.accounts,h₂.accounts,h₁.accounts]
  change Holds total (commitOverlays (overlays.map Prod.snd) s₄.bank.accounts)
  rw [ho,ha]
  exact commit_holds hc hfit hg hx

theorem processGroup_conserving {txs group : List (ℕ × Transaction)} (hc : Conserving bank total s)
    (hfit : total < 2^64) (hg : Balanceable bank group) :
    Conserving bank total (processGroup host costModel txs group s).2 := by
  unfold processGroup
  refine (admitGroup_keeps sameBank_across fun _ _ => trivial).bind_final (fun _ => hc.congr)
    fun admitted s₁ ha h₁ => ?_
  have hc₁ := hc.congr h₁
  split
  · exact hc₁
  refine Exec.Keeps.bind_final (.attempt (locks_keeps sameBank_across _)) (fun _ => hc₁.congr)
    fun locked s₂ _ h₂ => ?_
  have hc₂ := hc₁.congr h₂
  cases locked with
  | error e =>
    exact hc₂.congr (rollBackGroup_keeps sameBank_across (fun _ _ _ _ => trivial)
      (fun _ _ => trivial) s₂)
  | ok lockGuard =>
    have hg' := hg.sublist (admitGroup_sublist ha)
    rw [Exec.ensuring_final]
    refine Conserving.congr ?_ (locks_keeps sameBank_across _ _)
    refine Exec.Keeps.bind_final (fun s => sameBank_across.freezeLock s _) (fun _ => hc₂.congr)
      fun _ s₃ _ h₃ => ?_
    rw [Exec.ensuring_final]
    exact (runGroup_conserving (hc₂.congr h₃) hfit hg').congr (sameBank_across.freezeLock _ _)

theorem processGroups_conserving {txs : List (ℕ × Transaction)}
    {groups : List (List (ℕ × Transaction))} (hc : Conserving bank total s) (hfit : total < 2^64)
    (hg : ∀ group ∈ groups, Balanceable bank group) :
    Conserving bank total (processGroups host costModel txs groups s).2 := by
  induction groups generalizing s with
  | nil => exact hc
  | cons group rest ih =>
    exact Exec.bind_invariant (processGroup_conserving hc hfit (hg group List.mem_cons_self))
      fun _ _ ht => ih ht fun g hgm => hg g (List.mem_cons_of_mem _ hgm)

theorem processBatch_conserving {transactions : List Transaction} (hc : Conserving bank total s)
    (hfit : total < 2^64) (hg : ∀ group ∈ TransactionScheduler.schedule
      (txsToSchedule host.ed25519 transactions), Balanceable bank group) :
    Conserving bank total (processBatch host costModel transactions s).2 := by
  refine (Exec.Keeps.failIf _ _).bind_final (fun _ => hc.congr) fun _ s₁ _ h₁ => ?_
  refine Exec.bind_invariant ((hc.congr h₁).congr ⟨rfl,fun _ => rfl⟩) fun _ s₂ hc₂ => ?_
  refine Exec.bind_invariant (processGroups_conserving hc₂ hfit hg) fun _ s₃ hc₃ => ?_
  exact Exec.bind_invariant (hc₃.congr (Exec.Keeps.zoom sameBank_across.tracker _ s₃))
    fun _ _ hc₄ => hc₄

end BankingStage

/-! ## Runs -/

/-- A call of `process_batch` on some stage, bank and cache over a store. -/
structure BatchCall where
  costModel : CostModel
  transactions : List Transaction
  before : BatchState

namespace BatchCall

variable (host : Host)

/-- The call gets the store from one content to the next, whether it returns results or not. -/
def Step (s : InMemoryAccountStore) (call : BatchCall) (s' : InMemoryAccountStore) : Prop :=
  call.before.bank.accounts = s ∧ s' =
    (BankingStage.processBatch host call.costModel call.transactions call.before).2.bank.accounts

/-- Every account that a transaction moves lamports from or to is listed once, and no later member
of the group lists it. -/
structure Balanceable (call : BatchCall) : Prop where
  listsOnce : ∀ tx ∈ call.transactions, call.before.bank.Passes tx → Bank.ListsOnce tx
  separated : ∀ group ∈ TransactionScheduler.schedule
    (BankingStage.txsToSchedule host.ed25519 call.transactions),
      call.before.bank.LamportsSeparated group

variable {host}

theorem mem_transactions_of_scheduled {call : BatchCall} {group : List (ℕ × Transaction)}
    (hg : group ∈ TransactionScheduler.schedule
      (BankingStage.txsToSchedule host.ed25519 call.transactions)) {tx : ℕ × Transaction}
    (ht : tx ∈ group) : tx.2 ∈ call.transactions := by
  have hmem := (TransactionScheduler.schedule_flatten_perm _).mem_iff.mp
    (List.mem_flatten.mpr ⟨group,hg,ht⟩)
  exact List.mem_of_getElem? (BankingStage.mem_txsToSchedule.mp hmem).1

theorem step_holds {call : BatchCall} {s s' : InMemoryAccountStore} {total : ℕ}
    (hfit : total < 2^64) (hs : Holds total s) (hsys : ∀ tx ∈ call.transactions, tx.SystemOnly)
    (hb : call.Balanceable host) (h : Step host s call s') : Holds total s' := by
  obtain ⟨rfl,rfl⟩ := h
  have hc : BankingStage.Conserving call.before.bank total call.before := ⟨hs,fun _ => rfl⟩
  refine (BankingStage.processBatch_conserving hc hfit
    fun group hg => ⟨?_,?_,hb.separated group hg⟩).holds
  · exact fun tx ht => hsys _ (mem_transactions_of_scheduled hg ht)
  · exact fun tx ht => hb.listsOnce _ (mem_transactions_of_scheduled hg ht)

end BatchCall

/-- In every run of batches that meet the condition the store keeps its total. -/
theorem lamports_conserved {host : Host} {s s' : InMemoryAccountStore} {calls : List BatchCall}
    (hkeyed : s.Keyed) (hfit : s.totalLamports < 2^64)
    (hr : Run.Always (BatchCall.Step host) (fun _ call =>
      (∀ tx ∈ call.transactions, tx.SystemOnly) ∧ call.Balanceable host) s calls s') :
    s'.totalLamports = s.totalLamports :=
  (hr.invariant (P := Holds s.totalLamports)
    (fun _ _ _ hs hcond hstep => BatchCall.step_holds hfit hs hcond.1 hcond.2 hstep)
      ⟨hkeyed,rfl⟩).total

/-- A payment that lists its payer twice stores the payer again as it was before. -/
theorem payer_listed_twice_restored :
    let call : BatchCall := ⟨.new,[paymentListing [blankSignature] 1 2 1 3],.new walletStore⟩
    (∀ tx ∈ call.transactions, tx.SystemOnly) ∧ ∃ s', call.Step default walletStore s' ∧
      s'.totalLamports ≠ walletStore.totalLamports := by
  refine ⟨?_,_,⟨rfl,rfl⟩,?_⟩
  · unfold Transaction.SystemOnly
    decide
  · decide +kernel

theorem payment_conserves_lamports :
    let call : BatchCall := ⟨.new,[payment [blankSignature] 3],.new walletStore⟩
    ∃ s', call.Step default walletStore s' ∧ s'.totalLamports = walletStore.totalLamports := by
  intro call
  have hgroups : TransactionScheduler.schedule (BankingStage.txsToSchedule
      (default : Host).ed25519 call.transactions) = [[(0,payment [blankSignature] 3)]] := by
    decide +kernel
  have hcond : (∀ tx ∈ call.transactions, tx.SystemOnly) ∧ call.Balanceable default := by
    refine ⟨?_,?_,?_⟩
    · unfold Transaction.SystemOnly
      decide
    · have honce : ∀ tx ∈ call.transactions, ∀ k ∈ tx.movedKeys,
        tx.message.accountKeys.count k ≤ 1 := by decide
      exact fun tx ht _ => honce tx ht
    · intro group hg
      rw [hgroups,List.mem_singleton] at hg
      subst hg
      exact List.pairwise_singleton _ _
  have hr : Run.Always (BatchCall.Step default) (fun _ call =>
      (∀ tx ∈ call.transactions, tx.SystemOnly) ∧ call.Balanceable default) walletStore [call] _ :=
    Run.single ⟨hcond,rfl,rfl⟩
  exact ⟨_,⟨rfl,rfl⟩,lamports_conserved walletStore_keyed (by decide) hr⟩

end TinySolana
