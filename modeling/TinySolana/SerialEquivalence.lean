import TinySolana.Scheduler
import TinySolana.WriteBack

/-!
# Parallel and serial execution of a group

The members of a group load from one store and store every account they list. A member that lists
an account which an earlier one wrote stores it as it was before, unless the scheduler has seen that
the two conflict. The scheduler sees what the metas declare.
-/

namespace TinySolana
open Foundations

/-- The overlay of a successful run. -/
def overlay? : Outcome TransactionError OverlayStore → Option OverlayStore
  | .ok overlay => some overlay
  | _ => none

namespace Bank

variable (host : Host) (computeBudget : ℕ × Transaction → UInt64)

/-- Process the members of a group, each on its own overlay over the store of the bank. -/
def processMembers (bank : Bank) :
    ProgramCache → List (ℕ × Transaction) → List (Outcome TransactionError OverlayStore)
  | _, [] => []
  | cache, tx :: rest =>
    let r := bank.processSingleTransaction host tx.2 (computeBudget tx) cache
    r.1 :: processMembers bank r.2 rest

/-- The verdicts, and the store after the overlays were flushed in the order of the group. -/
def processInParallel (bank : Bank) (cache : ProgramCache) (group : List (ℕ × Transaction)) :
    List (Outcome TransactionError Unit) × InMemoryAccountStore :=
  let results := processMembers host computeBudget bank cache group
  (results.map Outcome.verdict,commitOverlays (results.filterMap overlay?) bank.accounts)

/-- The same with every overlay flushed before the next transaction is loaded. -/
def processSerially (bank : Bank) : ProgramCache → List (ℕ × Transaction) →
    List (Outcome TransactionError Unit) × InMemoryAccountStore
  | _, [] => ([],bank.accounts)
  | cache, tx :: rest =>
    let r := bank.processSingleTransaction host tx.2 (computeBudget tx) cache
    let accounts := commitOverlays (overlay? r.1).toList bank.accounts
    let s := processSerially { bank with accounts } r.2 rest
    (r.1.verdict :: s.1,s.2)

variable {host} {computeBudget} {bank : Bank}

/-- The transaction passes the preflight check. -/
def Passes (bank : Bank) (tx : Transaction) : Prop := bank.checkPreflightRules tx = .ok ()

theorem processSingleTransaction_of_passes {tx : Transaction} (h : bank.Passes tx) (b : UInt64) :
    bank.processSingleTransaction host tx b = executeOnOverlay host bank.accounts tx b := by
  rw [processSingleTransaction,h]
  rfl

/-- Without the check nothing is run and nothing is to be flushed. -/
theorem processSingleTransaction_of_not_passes (host : Host) {tx : Transaction}
    (h : ¬bank.Passes tx) (b : UInt64) :
    ∃ e, ∀ (accounts : InMemoryAccountStore) (cache : ProgramCache),
      { bank with accounts }.processSingleTransaction host tx b cache = (.err e,cache) := by
  cases hc : bank.checkPreflightRules tx with
  | ok u => exact absurd hc h
  | error e =>
    refine ⟨e,fun accounts cache => ?_⟩
    have hc' : { bank with accounts }.checkPreflightRules tx = .error e := hc
    rw [processSingleTransaction,hc']
    rfl

/-- An earlier member writes no account that a later one lists. -/
def Separated (bank : Bank) (group : List (ℕ × Transaction)) : Prop :=
  group.Pairwise fun a b => bank.Passes a.2 → bank.Passes b.2 →
    ∀ k ∈ a.2.touchedKeys, k ∉ b.2.message.accountKeys

/-- Over a store that still shows the members what the store of the bank does, serial execution
comes to the same as flushing the overlays of the parallel one. -/
theorem processSerially_eq {group : List (ℕ × Transaction)} (hn : ∀ tx ∈ group, tx.2.Native)
    (hk : ∀ tx ∈ group, bank.accounts.KeyedOn tx.2.message.accountKeys)
    (hs : bank.Separated group) (cache : ProgramCache) {accounts : InMemoryAccountStore}
    (ha : ∀ tx ∈ group, bank.Passes tx.2 → ∀ k ∈ tx.2.message.accountKeys,
      accounts.loaded k = bank.accounts.loaded k) :
    processSerially host computeBudget { bank with accounts } cache group =
      ((processMembers host computeBudget bank cache group).map Outcome.verdict,
        commitOverlays ((processMembers host computeBudget bank cache group).filterMap overlay?)
          accounts) := by
  induction group generalizing accounts with
  | nil => rfl
  | cons tx rest ih =>
    obtain ⟨hs₁,hs₂⟩ := List.pairwise_cons.mp hs
    have hn' := fun t ht => hn t (List.mem_cons_of_mem tx ht)
    have hk' := fun t ht => hk t (List.mem_cons_of_mem tx ht)
    have ha' := fun t ht => ha t (List.mem_cons_of_mem tx ht)
    by_cases hp : bank.Passes tx.2
    · have hrun : { bank with accounts }.processSingleTransaction host tx.2
        (computeBudget tx) cache =
          executeOnOverlay host bank.accounts tx.2 (computeBudget tx) cache := by
        have hpa : { bank with accounts }.Passes tx.2 := hp
        rw [processSingleTransaction_of_passes hpa,
          executeOnOverlay_congr (ha tx List.mem_cons_self hp)]
      have hcache : (executeOnOverlay host bank.accounts tx.2 (computeBudget tx) cache).2 = cache :=
        executeOnOverlay_programCache (hn tx List.mem_cons_self)
      simp only [processSerially,processMembers,hrun,processSingleTransaction_of_passes hp,hcache]
      cases hr : executeOnOverlay host bank.accounts tx.2 (computeBudget tx) cache with
      | mk r cache' =>
        cases r with
        | ok o =>
          have hagree : ∀ t ∈ rest, bank.Passes t.2 → ∀ k ∈ t.2.message.accountKeys,
              InMemoryAccountStore.loaded (o.flush accounts) k = bank.accounts.loaded k :=
            fun t ht hpt k hkt => loaded_flush (hn tx List.mem_cons_self)
              (hk tx List.mem_cons_self) hr
              (fun htouch => hs₁ t ht hp hpt k htouch hkt) (ha' t ht hpt k hkt)
          simp only [overlay?,Option.toList_some,commitOverlays_cons,commitOverlays_nil,
            ih hn' hk' hs₂ hagree]
          rfl
        | err e =>
          simp only [overlay?,Option.toList_none,commitOverlays_nil,ih hn' hk' hs₂ ha']
          rfl
        | panic =>
          simp only [overlay?,Option.toList_none,commitOverlays_nil,ih hn' hk' hs₂ ha']
          rfl
    · obtain ⟨e,he⟩ := processSingleTransaction_of_not_passes host hp (computeBudget tx)
      simp only [processSerially,processMembers,he,overlay?,Option.toList_none,
        commitOverlays_nil,ih hn' hk' hs₂ ha']
      rfl

end Bank

/-- Both ways to process the group give the same verdicts and the same store. -/
def SeriallyEquivalent (host : Host) (bank : Bank) (computeBudget : ℕ × Transaction → UInt64)
    (cache : ProgramCache) (group : List (ℕ × Transaction)) : Prop :=
  bank.processInParallel host computeBudget cache group =
    bank.processSerially host computeBudget cache group

open TransactionScheduler in
/-- What one transaction writes and the other lists is declared: the first has a writable meta for
it, the second names it. -/
def DeclaresShared (a b : ℕ × Transaction) : Prop :=
  ∀ k ∈ a.2.touchedKeys, k ∈ b.2.message.accountKeys → Writes a k ∧ Names b k

/-- A scheduled group of native transactions ends the same in parallel and one after another when,
of any two members that pass the rules of the bank, the first declares what it writes and the second
lists. -/
theorem group_serially_equivalent {host : Host} {bank : Bank}
    {computeBudget : ℕ × Transaction → UInt64} {cache : ProgramCache}
    {txs group : List (ℕ × Transaction)} (hg : group ∈ TransactionScheduler.schedule txs)
    (hn : ∀ tx ∈ group, tx.2.Native)
    (hk : ∀ tx ∈ group, bank.accounts.KeyedOn tx.2.message.accountKeys)
    (hd : group.Pairwise fun a b => bank.Passes a.2 → bank.Passes b.2 → DeclaresShared a b) :
    SeriallyEquivalent host bank computeBudget cache group := by
  -- The scheduler has separated the members that declare what they share.
  have hs : bank.Separated group := by
    refine (hd.and (TransactionScheduler.schedule_pairwise hg)).imp ?_
    rintro a b ⟨hdecl,hsched⟩ ha hb k htouch hlist
    obtain ⟨hw,hnm⟩ := hdecl ha hb k htouch hlist
    exact hsched k hw hnm
  exact (Bank.processSerially_eq hn hk hs cache fun _ _ _ _ _ => rfl).symm

/-! ## Two payments -/

/-- A payment that also lists a third wallet, which its instruction does not name. -/
def paymentListing (signatures : List Signature) (payer recipient bystander : UInt8)
    (lamports : UInt64) : Transaction :=
  ⟨signatures,[.ofByte payer,.ofByte recipient,.ofByte bystander],default,
    [⟨systemProgramId,[⟨.ofByte payer,true,true⟩,⟨.ofByte recipient,false,true⟩],
      SystemInstruction.codec.encode (.transfer lamports)⟩]⟩

/-- Wallets 1 and 3 hold ten lamports each. -/
def walletStore : InMemoryAccountStore :=
  ((∅ : InMemoryAccountStore).store (.ofByte 1) (wallet 1 10)).store (.ofByte 3) (wallet 3 10)

theorem walletStore_keyed : walletStore.Keyed :=
  (InMemoryAccountStore.keyed_empty.store (wallet 1 10)).store (wallet 3 10)

/-- The second payment lists the payer of the first one and stores it as it was before. -/
theorem listed_payer_restored :
    let group := [(0,payment [] 3),(1,paymentListing [] 3 4 1 1)]
    group ∈ TransactionScheduler.schedule group ∧ (∀ tx ∈ group, tx.2.Native) ∧
      ¬SeriallyEquivalent default (.new walletStore) (fun _ => 300) ∅ group := by
  unfold SeriallyEquivalent
  decide +kernel

theorem unrelated_payments_equivalent :
    SeriallyEquivalent default (.new walletStore) (fun _ => 300) ∅
      [(0,payment [] 3),(1,paymentListing [] 3 4 5 1)] :=
  group_serially_equivalent (show _ ∈ TransactionScheduler.schedule
      [(0,payment [] 3),(1,paymentListing [] 3 4 5 1)] by decide)
    (by decide) (fun _ _ k _ a h => walletStore_keyed k a h)
    (.cons (by
      rintro b hb - - k hk hl
      obtain rfl := List.mem_singleton.mp hb
      have hd : ∀ k ∈ (payment [] 3).touchedKeys,
        k ∉ (paymentListing [] 3 4 5 1).message.accountKeys := by decide
      exact absurd hl (hd k hk)) (.cons (by simp) .nil))

end TinySolana
