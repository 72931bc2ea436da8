import TinySolana.ClientService
import TinySolana.Preflight

/-!
# Payments

Where nothing is left to be taken, a client that asks for a transfer is told its signature exactly
if the transfer fits, and the node can go on to a state of the same kind whose balances are those
after it.
-/

namespace TinySolana
open Foundations

/-- Simulation ends as execution does and leaves the same programs in the cache. -/
theorem Bank.simulateTransaction_overlay (host : Host) (bank : Bank) (tx : Transaction)
    (cache : ProgramCache) :
    simulateTransaction host bank tx cache =
      ((executeOnOverlay host bank.accounts tx 200000 cache).1.verdict,
      (executeOnOverlay host bank.accounts tx 200000 cache).2) := by
  rw [simulateTransaction_run,executeOnOverlay,Exec.bind_run,ExecutorUse.loaded]
  cases executeLoaded host tx 200000 _ cache with
  | mk r cache' => cases r <;> rfl

theorem Client.usizeLengths (signer : Signer) (fromKeypair : Keypair) (toPubkey : Pubkey)
    (lamports : UInt64) (recentBlockhash : Hash) :
    (createTransferTransaction signer fromKeypair toPubkey lamports
      recentBlockhash).UsizeLengths := by
  have hdata : (SystemInstruction.codec.encode (.transfer lamports)).length < 2^64 :=
    (SystemInstruction.encode_length _).trans_lt (by decide : 12 < 2^64)
  exact ⟨(by decide : 1 < 2^64),(by decide : 3 < 2^64),(by decide : 1 < 2^64),
    List.forall_mem_singleton.mpr ⟨(by decide : 2 < 2^64),hdata⟩⟩

namespace ClientTransfer

variable {host : Host} {rpc : RpcHost} {tx : Transaction} {t : Transfer Pubkey} {s : RpcState}

theorem usizeLengths (h : ClientTransfer tx t) : tx.UsizeLengths := by
  obtain ⟨⟨signer,fromKeypair,lamports,-,-,rfl⟩,-,-⟩ := h
  exact Client.usizeLengths signer fromKeypair t.receiver lamports default

/-- What becomes of the transaction in the parameters is up to its simulation. -/
theorem acceptTransaction_run (h : ClientTransfer tx t) {r : Outcome TransactionError Unit}
    (hsim : s.bank.simulateTransaction host tx s.programCache = (r,s.programCache)) :
    Rpc.acceptTransaction host rpc (.array [.string (rpc.base64.encode tx.serialize)]) s =
      ((r.mapErr fun e => .sendTransactionPreflightFailure (e.display rpc)).map fun _ => tx,s) := by
  have hread : Rpc.readTransaction rpc (.array [.string (rpc.base64.encode tx.serialize)]) =
    .ok (tx,{}) :=
    Rpc.readTransaction_eq_ok.mpr ⟨h.usizeLengths,[],rfl,rfl⟩
  have haccept :
    Rpc.acceptTransaction host rpc (.array [.string (rpc.base64.encode tx.serialize)]) s =
      (Rpc.preflight host rpc {} tx >>= fun _ => pure tx : Rpc Transaction) s := by
    unfold Rpc.acceptTransaction
    rw [hread,Exec.ofExcept_ok,Exec.pure_bind]
  rw [haccept,Exec.bind_run]
  unfold Rpc.preflight
  rw [if_neg (by decide),Exec.get_bind,Exec.mapErr_run,Exec.zoom,hsim]
  cases r <;> rfl

/-- The server accepts a transfer that fits and changes nothing. -/
theorem accepted (h : ClientTransfer tx t) (hk : s.bank.accounts.Keyed)
    (hfit : s.bank.accounts.totalLamports < 2^64) (ht : t.Fits s.bank.accounts.lamportsOf) :
    Rpc.acceptTransaction host rpc (.array [.string (rpc.base64.encode tx.serialize)]) s =
      (.ok tx,s) := by
  obtain ⟨o,ho,-⟩ := h.executeOnOverlay_fits host 200000 s.programCache hk hfit ht
  have hsim : s.bank.simulateTransaction host tx s.programCache = (.ok (),s.programCache) := by
    rw [Bank.simulateTransaction_overlay,ho]
    rfl
  exact h.acceptTransaction_run hsim

/-- It refuses one that does not, and changes nothing. -/
theorem refused (h : ClientTransfer tx t) (ht : ¬t.Fits s.bank.accounts.lamportsOf) : ∃ e,
    Rpc.acceptTransaction host rpc (.array [.string (rpc.base64.encode tx.serialize)]) s =
      (.err e,s) := by
  obtain ⟨e,he⟩ := h.executeOnOverlay_refused host 200000 s.programCache ht
  have hsim : s.bank.simulateTransaction host tx s.programCache = (.err e,s.programCache) := by
    rw [Bank.simulateTransaction_overlay,he]
    rfl
  exact ⟨_,h.acceptTransaction_run hsim⟩

end ClientTransfer

namespace Client

variable {host : Host} {rpc : RpcHost} {tx : Transaction} {s : RpcState}

theorem sendTransaction_of_accepted {c : Channel Transaction}
    (h : Rpc.acceptTransaction host rpc (.array [.string (rpc.base64.encode tx.serialize)]) s =
      (.ok tx,s)) (hsend : s.txSender.send tx = some c) :
    sendTransaction host rpc tx s = (.ok (Rpc.signatureText rpc tx),{ s with txSender := c }) := by
  have hqueue : Rpc.queueTransaction rpc tx s =
    (.ok (.string (Rpc.signatureText rpc tx)),{ s with txSender := c }) :=
    Rpc.queueTransaction_ok.mpr ⟨rfl,c,hsend,rfl⟩
  have hdispatch : Rpc.dispatch host rpc
      ⟨"2.0","sendTransaction",.array [.string (rpc.base64.encode tx.serialize)],.ofU64 1⟩ s =
        (.ok (.string (Rpc.signatureText rpc tx)),{ s with txSender := c }) := by
    rw [Rpc.dispatch_send rfl,Rpc.handleSendTransaction,Exec.bind_of_ok h,hqueue]
  unfold sendTransaction
  rw [Exec.bind_of_ok (post_ok hdispatch)]
  rfl

theorem sendTransaction_of_refused {e : RpcError}
    (h : Rpc.acceptTransaction host rpc (.array [.string (rpc.base64.encode tx.serialize)]) s =
      (.err e,s)) :
    ∃ e', sendTransaction host rpc tx s = (.err e',s) := by
  have hdispatch : Rpc.dispatch host rpc
      ⟨"2.0","sendTransaction",.array [.string (rpc.base64.encode tx.serialize)],.ofU64 1⟩ s =
        (.err e,s) := by
    rw [Rpc.dispatch_send rfl,Rpc.handleSendTransaction,Exec.bind_run,h]
  unfold sendTransaction
  rw [Exec.bind_of_ok (post_err hdispatch)]
  exact ⟨_,rfl⟩

end Client

/-! ## The node -/

namespace Node

variable {host : Host} {rpc : RpcHost} {faucetPubkey : Pubkey} {s : Node} {ls : List Label}
  {tx : Transaction} {t : Transfer Pubkey}

/-- The handler of a request for a transfer that fits accepts it and queues it. -/
theorem Serves.queues (h : Serves host rpc faucetPubkey ls s) (hrun : s.banking ≠ .stopped)
    (ht : ClientTransfer tx t) (hfits : t.Fits s.state.bank.accounts.lamportsOf) :
    Client.sendTransaction host rpc tx s.rpcState = (.ok (Rpc.signatureText rpc tx),
      (s.submitted tx).rpcState) ∧
      Run (Step host rpc) s [.accept tx,.queue tx] (s.submitted tx) := by
  have hshows := shows_run h.run h.client
  have haccept : Rpc.acceptTransaction host rpc (.array [.string (rpc.base64.encode tx.serialize)])
    s.rpcState =
      (.ok tx,s.rpcState) := ht.accepted hshows.keyed (hshows.total.trans_lt (by decide)) hfits
  have hconnected := (inOrder_run h.run).connected hrun
  have hsend : s.rpcState.txSender.send tx = some (s.submitted tx).rpcState.txSender :=
    BankingStage.send_connected hconnected tx
  exact ⟨Client.sendTransaction_of_accepted haccept hsend,submit_run haccept hconnected⟩

theorem Serves.submitted (h : Serves host rpc faucetPubkey ls s) (ht : ClientTransfer tx t)
    (hr : Run (Step host rpc) s [.accept tx,.queue tx] (s.submitted tx)) :
    Serves host rpc faucetPubkey (ls ++ [.accept tx,.queue tx]) (s.submitted tx) ∧
      queued (ls ++ [.accept tx,.queue tx]) = queued ls ++ [tx] := by
  have hqueued : queued (ls ++ [.accept tx,.queue tx]) = queued ls ++ [tx] := by
    rw [queued,List.flatMap_append]
    rfl
  refine ⟨⟨h.run.append hr,?_,by simp [h.clock]⟩,hqueued⟩
  rw [hqueued]
  exact List.forall_mem_append.mpr ⟨h.client,List.forall_mem_singleton.mpr ⟨t,ht⟩⟩

/-- What a drained node has processed since it was drained before is what was verified of the queue
since. -/
theorem Serves.processed_since {ls' : List Label} {u : Node} {txs : List Transaction}
    (h : Serves host rpc faucetPubkey ls s) (hd : s.Drained)
    (hafter : Serves host rpc faucetPubkey (ls ++ ls') u) (hd' : u.Drained)
    (hqueued : queued (ls ++ ls') = queued ls ++ txs) :
    (processed ls').Perm (txs.filter fun tx => Verified host tx) := by
  have hprocessed : processed (ls ++ ls') = processed ls ++ processed ls' := List.flatMap_append
  have hall := hafter.processed_all hd'
  rw [hprocessed,hqueued,List.filter_append] at hall
  exact (List.perm_append_left_iff _).mp (hall.trans ((h.processed_all hd).symm.append_right _))

/-- A drained node serves one more transfer: it is processed if it fits and verified, and refused
else. -/
theorem Serves.pays (h : Serves host rpc faucetPubkey ls s) (hd : s.Drained)
    (ht : ClientTransfer tx t) (hv : Verified host tx) : ∃ r q u,
      Client.sendTransaction host rpc tx s.rpcState = (r,q.rpcState) ∧
        (r = .ok (Rpc.signatureText rpc tx) ↔ t.Fits s.state.bank.accounts.lamportsOf) ∧
          (∃ ls', Run (Step host rpc) s ls' q) ∧ LoopsTo host rpc q u ∧ u.Drained ∧
            (∃ ls', Serves host rpc faucetPubkey ls' u) ∧
              u.state.bank.accounts.lamportsOf =
                Transfer.apply s.state.bank.accounts.lamportsOf t := by
  by_cases hfits : t.Fits s.state.bank.accounts.lamportsOf
  · have hrun : s.banking ≠ .stopped := by simp [hd.banking]
    obtain ⟨hsent,hq⟩ := h.queues hrun ht hfits
    obtain ⟨hserves,hqueued⟩ := h.submitted ht hq
    obtain ⟨u,⟨ls',hu,hl⟩,hdrained⟩ := hserves.drains hrun
    obtain ⟨hafter,hsame⟩ := hserves.loop hu hl
    rw [List.append_assoc] at hafter hsame
    have hone : [tx].filter (fun tx => Verified host tx) = [tx] :=
      List.filter_cons_of_pos (decide_eq_true hv)
    have hlast := h.processed_since hd hafter hdrained (hsame.trans hqueued)
    rw [hone] at hlast
    have hsettle : transfers (processed ([.accept tx,.queue tx] ++ ls')) = [t] := by
      rw [List.perm_singleton.mp hlast]
      exact List.filterMap_cons_some ht.transfer_eq
    have hprocessed : processed (ls ++ ([.accept tx,.queue tx] ++ ls')) =
        processed ls ++ processed ([.accept tx,.queue tx] ++ ls') := List.flatMap_append
    have hbefore := (shows_run h.run h.client).ledger
    have hledger := (shows_run hafter.run hafter.client).ledger
    rw [ledger,hprocessed,transfers_append,hsettle,Transfer.settle_append] at hledger
    refine ⟨_,s.submitted tx,u,hsent,iff_of_true rfl hfits,⟨_,hq⟩,⟨ls',hu,hl⟩,
      hdrained,⟨_,hafter⟩,?_⟩
    rw [hledger,hbefore]
    rfl
  · obtain ⟨e,he⟩ :
      ∃ e, Rpc.acceptTransaction host rpc (.array [.string (rpc.base64.encode tx.serialize)])
        s.rpcState = (.err e,s.rpcState) := ht.refused hfits
    obtain ⟨e',hsent⟩ := Client.sendTransaction_of_refused he
    refine ⟨_,s,s,hsent,iff_of_false (by simp) hfits,⟨[],.nil⟩,.refl s,hd,⟨ls,h⟩,?_⟩
    rw [Transfer.apply,if_neg hfits]

end Node

/-! ## Payments one after another -/

/-- A transfer that a holder of a key pair asks for. -/
structure Payment where
  fromKeypair : Keypair
  toPubkey : Pubkey
  lamports : UInt64

namespace Payment

variable (signer : Signer) (p : Payment)

def transaction : Transaction :=
  Client.createTransferTransaction signer p.fromKeypair p.toPubkey p.lamports default

def transfer : Transfer Pubkey := ⟨p.fromKeypair.pubkey signer,p.toPubkey,p.lamports.toNat⟩

/-- Neither account is that of the System program. -/
def BetweenOthers : Prop := p.fromKeypair.pubkey signer ≠ systemProgramId ∧
    p.toPubkey ≠ systemProgramId

instance : Decidable (p.BetweenOthers signer) := inferInstanceAs (Decidable (_ ∧ _))

variable {signer p}

theorem clientTransfer (h : p.BetweenOthers signer) :
    ClientTransfer (p.transaction signer) (p.transfer signer) :=
  ⟨⟨signer,p.fromKeypair,p.lamports,rfl,rfl,rfl⟩,h.1,h.2⟩

/-- What the client signs passes verification. -/
theorem verified {host : Host} (h : signer.Verified host.ed25519) :
    Node.Verified host (p.transaction signer) := by
  refine Transaction.verifySignaturesSync_ok.mpr ⟨(by decide : 1 ≤ 3),fun q hq => ?_⟩
  obtain rfl := List.mem_singleton.mp hq
  exact h p.fromKeypair _

end Payment

namespace Node

variable {host : Host} {rpc : RpcHost} {faucetPubkey : Pubkey} {s : Node} {ls : List Label}
  {signer : Signer}

/-- The client is told the hash that its transactions are made with. -/
theorem pay_run (hr : Run (Step host rpc) (start faucetPubkey) ls s) (p : Payment) :
    Client.pay host rpc signer p.fromKeypair p.toPubkey p.lamports s.rpcState =
      Client.sendTransaction host rpc (p.transaction signer) s.rpcState := by
  have hlatest : s.rpcState.bank.getLatestBlockhash = some (default,150) :=
    (rules_run hr).getLatestBlockhash
  rw [Client.pay,Exec.bind_of_ok (Client.getLatestBlockhash_run hlatest)]
  rfl

/-- In every state of a run, whoever asks for a payment is told the signature of the transaction
exactly if it has come to the end of the queue, and no balance changes meanwhile. -/
theorem client_told_iff_queued (hr : Run (Step host rpc) (start faucetPubkey) ls s)
    (p : Payment) : ∃ r t,
    Client.pay host rpc signer p.fromKeypair p.toPubkey p.lamports s.rpcState = (r,t) ∧
      t.bank = s.state.bank ∧ (r = .ok (Rpc.signatureText rpc (p.transaction signer)) ∧
          s.rpcState.txSender.send (p.transaction signer) = some t.txSender ∨
        (∀ signature, r ≠ .ok signature) ∧ t.txSender = s.rpcState.txSender) := by
  rw [pay_run hr p]
  cases h : Client.sendTransaction host rpc (p.transaction signer) s.rpcState with
  | mk r t =>
    have hlen : (p.transaction signer).UsizeLengths := Client.usizeLengths _ _ _ _ _
    exact ⟨r,t,rfl,Client.sendTransaction_run hlen h⟩

theorem faucetPayment_told : ∃ r t,
    Client.pay default default blankSigner (keypairOf 1) (.ofByte 2) 3
      processedNode.rpcState = (r,t) ∧
      t.bank = processedNode.state.bank ∧ (r = .ok (Rpc.signatureText default faucetPayment) ∧
          processedNode.rpcState.txSender.send faucetPayment = some t.txSender ∨
        (∀ signature, r ≠ .ok signature) ∧ t.txSender = processedNode.rpcState.txSender) :=
  client_told_iff_queued processed_run ⟨keypairOf 1,.ofByte 2,3⟩

/-- The client asks for a payment and is told a signature exactly if it fits. Behind the request the
banking task goes on by itself until the queue is empty. -/
def Pays (host : Host) (rpc : RpcHost) (signer : Signer) (s : Node) (p : Payment)
    (t : Node) : Prop :=
  ∃ r q, Client.pay host rpc signer p.fromKeypair p.toPubkey p.lamports s.rpcState =
    (r,q.rpcState) ∧
    (r = .ok (Rpc.signatureText rpc (p.transaction signer)) ↔
      (p.transfer signer).Fits s.state.bank.accounts.lamportsOf) ∧
        (∃ ls, Run (Step host rpc) s ls q) ∧ LoopsTo host rpc q t ∧ t.Drained

/-- A drained node can serve any list of payments, one after another, and its balances are then
those after the transfers that fit. -/
theorem payments_served (hsigner : signer.Verified host.ed25519)
    (hr : Run (Step host rpc) (start faucetPubkey) ls s) (hclient : ∀ tx ∈ queued ls, FromClient tx)
    (hclock : .endService ∉ ls) (hd : s.Drained) (payments : List Payment)
    (hkeys : ∀ p ∈ payments, p.BetweenOthers signer) :
    ∃ t, Run (Pays host rpc signer) s payments t ∧ ∀ k, ∃ balance,
      Client.getBalance host rpc k t.rpcState = (.ok balance,t.rpcState) ∧ balance.toNat =
        Transfer.settle s.state.bank.accounts.lamportsOf
          (payments.map (Payment.transfer signer)) k := by
  have hserved : ∀ payments : List Payment, (∀ p ∈ payments, p.BetweenOthers signer) → ∃ ls' t,
      Run (Pays host rpc signer) s payments t ∧ Serves host rpc faucetPubkey ls' t ∧ t.Drained ∧
        t.state.bank.accounts.lamportsOf =
          Transfer.settle s.state.bank.accounts.lamportsOf
            (payments.map (Payment.transfer signer)) := by
    intro payments
    induction payments using List.reverseRecOn with
    | nil => exact fun _ => ⟨ls,s,.nil,⟨hr,hclient,hclock⟩,hd,rfl⟩
    | append_singleton payments p ih =>
      intro hkeys
      obtain ⟨hbefore,hp⟩ := List.forall_mem_append.mp hkeys
      obtain ⟨ls',t,hrun,hserves,hdrained,hledger⟩ := ih hbefore
      obtain ⟨r,q,u,hsent,hfits,hq,hloop,hdrained',⟨ls'',hserves'⟩,hlast⟩ := hserves.pays hdrained
        (Payment.clientTransfer (List.forall_mem_singleton.mp hp)) (Payment.verified hsigner)
      have hpaid := (pay_run hserves.run p).trans hsent
      refine ⟨ls'',u,hrun.snoc ⟨r,q,hpaid,hfits,hq,hloop,hdrained'⟩,hserves',hdrained',?_⟩
      rw [hlast,hledger,List.map_append,Transfer.settle_append]
      rfl
  obtain ⟨-,t,hrun,-,-,hledger⟩ := hserved payments hkeys
  exact ⟨t,hrun,fun k => ⟨_,Client.getBalance_run k,congrFun hledger k⟩⟩

/-- The second wallet has nothing to pay with until the faucet has paid. -/
theorem faucet_payments_served :
    let payments : List Payment :=
      [⟨keypairOf 2,.ofByte 3,1⟩,⟨keypairOf 1,.ofByte 2,3⟩,⟨keypairOf 2,.ofByte 3,1⟩]
    ∃ t, Run (Pays default default blankSigner) (start (.ofByte 1)) payments t ∧ ∀ k, ∃ balance,
      Client.getBalance default default k t.rpcState = (.ok balance,t.rpcState) ∧ balance.toNat =
        Transfer.settle (start (.ofByte 1)).state.bank.accounts.lamportsOf
          (payments.map (Payment.transfer blankSigner)) k :=
  payments_served (fun _ _ => rfl) .nil (by simp [queued]) List.not_mem_nil ⟨rfl,rfl⟩ _ (by decide)

end Node

end TinySolana
