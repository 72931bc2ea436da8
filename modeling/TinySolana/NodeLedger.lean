import TinySolana.ClientTransfers
import TinySolana.NodeSerial

/-!
# The ledger of the node

Transactions of the client make the store of a node a ledger. The groups that the banking task
processes are transfers, settled one after another in the order of the groups, and members of one
group in theirs, although they are executed over the same store.
-/

namespace TinySolana
open Foundations

/-- The transfers that some transactions ask for. -/
def transfers (txs : List Transaction) : List (Transfer Pubkey) :=
  txs.filterMap Transaction.transfer?

theorem transfers_append (txs txs' : List Transaction) :
    transfers (txs ++ txs') = transfers txs ++ transfers txs' := List.filterMap_append

/-- The store has the given total, and every account the lamports that a ledger says. -/
structure Shows (total : ℕ) (b : Pubkey → ℕ) (accounts : InMemoryAccountStore) : Prop
    extends Holds total accounts where
  ledger : accounts.lamportsOf = b

/-- The transaction is one of the client. -/
def FromClient (tx : Transaction) : Prop := ∃ t, ClientTransfer tx t

namespace ClientTransfer

/-- What one transaction of the client writes and another one lists is declared by both. -/
theorem declaresShared {a b : Transaction} (ha : FromClient a) (hb : FromClient b) (i j : ℕ) :
    DeclaresShared (i,a) (j,b) := by
  obtain ⟨t,ht⟩ := ha
  obtain ⟨u,hu⟩ := hb
  obtain ⟨_,-,hma,-⟩ := ht.shape
  obtain ⟨_,-,hmb,-⟩ := hu.shape
  intro k hk hlist
  have hk' := ht.touchedKeys hk
  simp only [List.mem_cons,List.not_mem_nil,or_false] at hk'
  have hsystem : k ≠ systemProgramId := by
    rcases hk' with rfl | rfl
    · exact ht.payer
    · exact ht.receiver
  constructor
  · unfold TransactionScheduler.Writes Transaction.metas
    rw [hma]
    rcases hk' with rfl | rfl <;> simp [instruction]
  · rw [hu.accountKeys] at hlist
    simp only [List.mem_cons,List.not_mem_nil,or_false,hsystem] at hlist
    unfold TransactionScheduler.Names Transaction.metas
    rw [hmb]
    rcases hlist with rfl | rfl <;> simp [instruction]

end ClientTransfer

/-! ## Transfers, one after another -/

namespace Bank

variable {host : Host} {bank : Bank} {tx : Transaction} {accounts : InMemoryAccountStore}
  {total : ℕ} {b : Pubkey → ℕ}

/-- A transaction of the client that was processed alone is its transfer. -/
theorem settle_shows (host : Host) (hclient : FromClient tx) (hp : bank.Passes tx)
    (hfit : total < 2^64) (h : Shows total b accounts) :
    Shows total (Transfer.settle b (transfers [tx])) (bank.settle host accounts tx) := by
  obtain ⟨t,ht⟩ := hclient
  have htransfer : Transfer.settle b (transfers [tx]) = Transfer.apply b t := by
    rw [transfers,List.filterMap_cons_some ht.transfer_eq]
    rfl
  rw [htransfer,settle_of_passes hp ht.systemOnly.native ∅]
  by_cases hf : t.Fits b
  · obtain ⟨o,ho,hkeyed,htotal,hledger⟩ :=
      ht.executeOnOverlay_fits host (CostModel.new.calculateCost tx).sum ∅
      h.keyed (h.total.trans_lt hfit) (h.ledger ▸ hf)
    rw [ho]
    refine ⟨⟨hkeyed,htotal.trans h.total⟩,hledger.trans ?_⟩
    rw [h.ledger,Transfer.apply,if_pos hf]
  · obtain ⟨e,he⟩ := ht.executeOnOverlay_refused host (CostModel.new.calculateCost tx).sum
      ∅ (h.ledger ▸ hf)
    rw [he,Transfer.apply,if_neg hf]
    exact h

theorem settleAll_shows (host : Host) {txs : List Transaction} (hclient : ∀ tx ∈ txs, FromClient tx)
    (hpass : ∀ tx ∈ txs, bank.Passes tx) (hfit : total < 2^64) (h : Shows total b accounts) :
    Shows total (Transfer.settle b (transfers txs)) (txs.foldl (bank.settle host) accounts) := by
  induction txs generalizing b accounts with
  | nil => exact h
  | cons tx rest ih =>
    obtain ⟨hc,hclient⟩ := List.forall_mem_cons.mp hclient
    obtain ⟨hp,hpass⟩ := List.forall_mem_cons.mp hpass
    have hsplit : transfers (tx :: rest) = transfers [tx] ++ transfers rest :=
      transfers_append [tx] rest
    rw [hsplit,Transfer.settle_append]
    exact ih hclient hpass (settle_shows host hc hp hfit h)

end Bank

/-! ## The node -/

namespace Node

/-- All that there ever is. -/
def supply : ℕ := (1000*lamportsPerSol).toNat

/-- The faucet has everything. -/
def firstLedger (faucetPubkey : Pubkey) : Pubkey → ℕ :=
  fun k => if k = faucetPubkey then supply else 0

variable {host : Host} {rpc : RpcHost} {faucetPubkey : Pubkey} {s t : Node} {l : Label}
  {ls : List Label}

/-- A node begins with the store of the faucet. -/
theorem shows_start (faucetPubkey : Pubkey) :
    Shows supply (firstLedger faucetPubkey) (start faucetPubkey).state.bank.accounts := by
  have hledger : (start faucetPubkey).state.bank.accounts.lamportsOf =
      firstLedger faucetPubkey := by
    funext k
    rw [InMemoryAccountStore.lamportsOf_eq,firstLedger]
    change (((∅ : InMemoryAccountStore).insert faucetPubkey _).lookup k).elim _ _ = _
    rw [FiniteMap.lookup_insert]
    split
    · rfl
    · rw [Finmap.lookup_empty]
      rfl
  refine ⟨⟨keyed_start faucetPubkey,?_⟩,hledger⟩
  have hkeys : (start faucetPubkey).state.bank.accounts.keys ⊆ {faucetPubkey} := by
    intro k hk
    rw [Finmap.mem_keys,← Finmap.lookup_isSome] at hk
    change (((∅ : InMemoryAccountStore).insert faucetPubkey _).lookup k).isSome = true at hk
    rw [FiniteMap.lookup_insert] at hk
    split at hk
    · next h => exact Finset.mem_singleton.mpr h
    · rw [Finmap.lookup_empty] at hk
      cases hk
  rw [InMemoryAccountStore.totalLamports_eq _ hkeys,Finset.sum_singleton,hledger,
    firstLedger,if_pos rfl]

/-- A transaction of the client is never refused for its blockhash. -/
theorem passes_of_client {tx : Transaction} (h : FromClient tx)
    (hr : (Bank.new ∅).SameRules s.state.bank) :
    s.state.bank.Passes tx := by
  obtain ⟨t,ht⟩ := h
  obtain ⟨_,-,hm,-⟩ := ht.shape
  rw [Bank.Passes,hr.preflight]
  unfold Bank.checkPreflightRules
  rw [hm]
  rfl

/-- The ledger that a node has come to. -/
def ledger (faucetPubkey : Pubkey) (ls : List Label) : Pubkey → ℕ :=
  Transfer.settle (firstLedger faucetPubkey) (transfers (processed ls))

/-- Transactions of the client that a node has processed one after another are their transfers. -/
theorem serialStore_shows (host : Host) (faucetPubkey : Pubkey) {txs : List Transaction}
    (h : ∀ tx ∈ txs, FromClient tx) :
    Shows supply (Transfer.settle (firstLedger faucetPubkey) (transfers txs))
      (serialStore host faucetPubkey txs) := by
  have hpass : ∀ tx ∈ txs, (start faucetPubkey).state.bank.Passes tx := fun tx ht =>
    passes_of_client (h tx ht) ⟨⟨rfl,rfl,rfl⟩,rfl⟩
  exact Bank.settleAll_shows host h hpass (by decide) (shows_start faucetPubkey)

theorem shows_run (hr : Run (Step host rpc) (start faucetPubkey) ls s)
    (hclient : ∀ tx ∈ queued ls, FromClient tx) :
    Shows supply (ledger faucetPubkey ls) s.state.bank.accounts := by
  have hnative : ∀ tx ∈ queued ls, tx.Native := fun tx ht => by
    obtain ⟨_,h⟩ := hclient tx ht
    exact h.systemOnly.native
  rw [serial_run hr hnative fun a ha b hb => ClientTransfer.declaresShared (hclient a ha)
    (hclient b hb)]
  exact serialStore_shows host faucetPubkey fun tx ht => hclient tx ((within_queued hr).1.subset ht)

theorem faucetPayment_fromClient : FromClient faucetPayment :=
  ⟨⟨.ofByte 1,.ofByte 2,3⟩,⟨⟨blankSigner,keypairOf 1,3,rfl,rfl,rfl⟩,by decide,by decide⟩⟩

/-- The hash that the client is told in one state of a run is one that the bank takes in any later
state, for the node never makes another bank. -/
theorem blockhash_never_stale {ls' : List Label}
    (hr : Run (Step host rpc) (start faucetPubkey) ls s)
    (hr' : Run (Step host rpc) s ls' t) : ∃ blockhash,
      Client.getLatestBlockhash host rpc s.rpcState = (.ok blockhash,s.rpcState) ∧
        ∀ tx : Transaction, tx.message.recentBlockhash = blockhash → t.state.bank.Passes tx := by
  have hs := rules_run hr
  have ht := rules_run (hr.append hr')
  have hlatest : s.rpcState.bank.getLatestBlockhash = some (default,150) := hs.getLatestBlockhash
  refine ⟨default,Client.getLatestBlockhash_run hlatest,fun tx htx => ?_⟩
  rw [Bank.Passes,ht.preflight]
  unfold Bank.checkPreflightRules
  rw [htx]
  rfl

theorem blockhash_outlives_take : ∃ blockhash,
    Client.getLatestBlockhash default default queuedNode.rpcState =
      (.ok blockhash,queuedNode.rpcState) ∧
      ∀ tx : Transaction, tx.message.recentBlockhash = blockhash →
        collectedNode.state.bank.Passes tx :=
  blockhash_never_stale queued_run (.single take_faucetPayment)

/-- An account only gets poorer by a transfer that its owner has signed. -/
theorem debits_signed {ls' : List Label} {k : Pubkey}
    (hr : Run (Step host rpc) (start faucetPubkey) ls s) (hr' : Run (Step host rpc) s ls' t)
    (hclient : ∀ tx ∈ queued (ls ++ ls'), FromClient tx)
    (hless : t.state.bank.accounts.lamportsOf k < s.state.bank.accounts.lamportsOf k) :
    ∃ tx ∈ processed ls', tx.SignedBy host.ed25519 k ∧
      ∃ u, tx.transfer? = some u ∧ u.payer = k ∧ 0 < u.amount := by
  have hfirst : ∀ tx ∈ queued ls, FromClient tx := fun tx htx =>
    hclient tx (by rw [queued,List.flatMap_append]; exact List.mem_append_left _ htx)
  have hsplit : processed (ls ++ ls') = processed ls ++ processed ls' := List.flatMap_append
  have hs := (shows_run hr hfirst).ledger
  have ht := (shows_run (hr.append hr') hclient).ledger
  rw [ledger,hsplit,transfers_append,Transfer.settle_append] at ht
  rw [hs,ht] at hless
  obtain ⟨u,hu,hpayer,hamount⟩ := Transfer.exists_payer_of_settle_lt hless
  obtain ⟨tx,htx,htransfer⟩ := List.mem_filterMap.mp hu
  have hmem : tx ∈ processed (ls ++ ls') := hsplit ▸ List.mem_append_right _ htx
  obtain ⟨hsub,hverified⟩ := within_queued (hr.append hr')
  obtain ⟨v,hv⟩ := hclient tx (hsub.subset hmem)
  have huv : u = v := Option.some.inj (htransfer.symm.trans hv.transfer_eq)
  refine ⟨tx,htx,Transaction.signedBy_of_verified (hverified tx hmem) ?_,u,htransfer,hpayer,hamount⟩
  rw [← hpayer,huv]
  exact hv.payer_signs

theorem faucet_has_signed : ∃ tx ∈ [faucetPayment],
    tx.SignedBy (default : Host).ed25519 (.ofByte 1) ∧
      ∃ u, tx.transfer? = some u ∧ u.payer = .ofByte 1 ∧ 0 < u.amount := by
  have hless : processedNode.state.bank.accounts.lamportsOf (.ofByte 1) <
      (start (.ofByte 1)).state.bank.accounts.lamportsOf (.ofByte 1) := by decide +kernel
  exact debits_signed .nil processed_run
    (List.forall_mem_singleton.mpr faucetPayment_fromClient) hless

end Node

end TinySolana
