import TinySolana.AffordableBatches
import TinySolana.Invocation
import TinySolana.NodeLedger

/-!
# Serving the client

While its clock runs, a node serves every transaction that the client has queued. None is refused
for its cost, none stops the banking task, and each one that has passed verification is processed
once. Wherever the node stands, the banking task can go on until nothing is left to be taken.
-/

namespace TinySolana
open Foundations

namespace ClientTransfer

variable {tx : Transaction} {t : Transfer Pubkey}

/-- What a transaction of the client costs at most. -/
def maxCost : ℕ := 1668

theorem cost_le (h : ClientTransfer tx t) :
    (CostModel.new.calculateCost tx).sum.toNat ≤ maxCost := by
  obtain ⟨lamports,-,hm,hs⟩ := h.shape
  have hmetas : metaKeys true tx.metas = [t.payer,t.receiver] := by
    rw [Transaction.metas,hm]
    rfl
  have hwrites : (BTreeSet.ofList [t.payer,t.receiver]).toList.length ≤ 2 :=
    ((BTreeSet.ofList [t.payer,t.receiver]).nodup.subperm fun k hk =>
      BTreeSet.mem_ofList.mp hk).length_le
  have hdata : (instruction t lamports).data.length = 12 :=
    SystemInstruction.encode_length (.transfer lamports)
  have hsum : CostModel.new.calculateCost tx = ⟨signatureCost,
      UInt64.ofNat (BTreeSet.ofList [t.payer,t.receiver]).toList.length*writeLockUnits,48,300,
        .ofList [t.payer,t.receiver]⟩ := by
    unfold CostModel.calculateCost
    rw [hmetas,hs,hm]
    simp only [List.map_cons,List.map_nil,hdata]
    rfl
  have hlocks :
    (UInt64.ofNat (BTreeSet.ofList [t.payer,t.receiver]).toList.length*writeLockUnits).toNat ≤
      600 := by
    generalize (BTreeSet.ofList [t.payer,t.receiver]).toList.length = n at hwrites
    obtain rfl | rfl | rfl : n = 0 ∨ n = 1 ∨ n = 2 := by omega
    all_goals decide
  have hsignature : signatureCost.toNat = 720 := rfl
  rw [hsum,TransactionCost.sum]
  simp only [satAdd_toNat,hsignature]
  have hrest : (48 : UInt64).toNat = 48 ∧ (300 : UInt64).toNat = 300 := ⟨rfl,rfl⟩
  rw [hrest.1,hrest.2,maxCost]
  omega

/-- The execution of a transaction of the client never panics. -/
theorem executeOnOverlay_no_panic {host : Host} {accounts : InMemoryAccountStore}
    {computeBudget : UInt64} {cache : ProgramCache} (h : ClientTransfer tx t) (hk : accounts.Keyed)
    (hfit : accounts.totalLamports < 2^64) :
    (Bank.executeOnOverlay host accounts tx computeBudget cache).1 ≠ .panic := by
  by_cases ht : t.Fits accounts.lamportsOf
  · obtain ⟨o,ho,-⟩ := h.executeOnOverlay_fits host computeBudget cache hk hfit ht
    rw [ho]
    simp
  · obtain ⟨e,he⟩ := h.executeOnOverlay_refused host computeBudget cache ht
    rw [he]
    simp

/-- Nor does the verification of one. -/
theorem verify_no_panic (h : ClientTransfer tx t) (valid : Ed25519) :
    tx.verifySignaturesSync valid ≠ .panic := by
  obtain ⟨_,-,hm,hs⟩ := h.shape
  unfold Transaction.verifySignaturesSync
  dsimp only
  rw [hs,hm,if_neg (by simp)]
  split <;> simp

theorem signed (h : ClientTransfer tx t) : tx.signatures ≠ [] := by
  obtain ⟨_,-,-,hs⟩ := h.shape
  exact List.length_pos_iff.mp (hs ▸ Nat.one_pos)

end ClientTransfer

namespace BankingStage

variable {host : Host}

theorem membersReturn_of_client {bank : Bank} {admitted : List Admitted} (cache : ProgramCache)
    (hclient : ∀ m ∈ admitted, FromClient m.transaction)
    (hpass : ∀ m ∈ admitted, bank.Passes m.transaction) (hk : bank.accounts.Keyed)
    (hfit : bank.accounts.totalLamports < 2^64) :
    MembersReturn host bank admitted cache := by
  induction admitted generalizing cache with
  | nil => exact trivial
  | cons member rest ih =>
    obtain ⟨⟨t,ht⟩,hclient⟩ := List.forall_mem_cons.mp hclient
    obtain ⟨hp,hpass⟩ := List.forall_mem_cons.mp hpass
    refine ⟨?_,ih _ hclient hpass⟩
    rw [Bank.processSingleTransaction_of_passes hp]
    exact ht.executeOnOverlay_no_panic hk hfit

theorem groupCost_le {group : List (ℕ × Transaction)} (hclient : ∀ tx ∈ group, FromClient tx.2) :
    groupCost .new group ≤ group.length*ClientTransfer.maxCost := by
  induction group with
  | nil => exact Nat.zero_le _
  | cons tx rest ih =>
    obtain ⟨⟨t,ht⟩,hclient⟩ := List.forall_mem_cons.mp hclient
    have hcost : groupCost .new (tx :: rest) =
        (CostModel.new.calculateCost tx.2).sum.toNat+groupCost .new rest := List.sum_cons
    rw [hcost,List.length_cons,Nat.succ_mul,Nat.add_comm]
    exact Nat.add_le_add (ih hclient) ht.cost_le

end BankingStage

namespace Node

variable {host : Host} {rpc : RpcHost} {faucetPubkey : Pubkey} {s t : Node} {l : Label}
  {ls : List Label}

/-- What was collected was queued. -/
theorem collected_subset_queued (hr : Run (Step host rpc) (start faucetPubkey) ls s) :
    s.banking.collected ⊆ queued ls := by
  have ho := inOrder_run hr
  intro tx ht
  rw [← ho.sent]
  refine List.mem_of_mem_take (i := s.taken) ?_
  rw [ho.taken]
  exact List.mem_append_right _ ht

/-- The members of the next group are transactions of the client that the bank takes. -/
theorem group_of_client (hr : Run (Step host rpc) (start faucetPubkey) ls s)
    (hclient : ∀ tx ∈ queued ls, FromClient tx) {batch : List Transaction}
    {txs group : List (ℕ × Transaction)} {groups : List (List (ℕ × Transaction))}
    (hb : s.banking = .processing batch txs (group :: groups)) :
    ∀ tx ∈ group, FromClient tx.2 ∧ s.state.bank.Passes tx.2 := by
  intro tx htx
  have hmem := ((sound_run hr).group hb).2 tx htx
  have hc := hclient _ (mem_queued hr hb (List.mem_of_getElem? hmem.2))
  exact ⟨hc,passes_of_client hc (rules_run hr)⟩

/-- A group of the client returns while its record can be sent. -/
theorem group_returns (hr : Run (Step host rpc) (start faucetPubkey) ls s)
    (hclient : ∀ tx ∈ queued ls, FromClient tx) {batch : List Transaction}
    {txs group : List (ℕ × Transaction)} {groups : List (List (ℕ × Transaction))}
    (hb : s.banking = .processing batch txs (group :: groups))
    (hc : s.state.stage.pohRecordSender.remaining = none) :
    (BankingStage.processGroup host .new txs group s.state).1 = .ok () := by
  have hs := sound_run hr
  have hgroup := group_of_client hr hclient hb
  have hmem := (hs.group hb).2
  obtain ⟨costs,hstage⟩ := hs.stage
  obtain ⟨-,hpanic,-⟩ := BankingStage.processGroup_run host .new batch hstage
    (fun tx ht => List.mem_map_of_mem (hmem tx ht).1) fun tx ht => (hmem tx ht).2
  have hshows := shows_run hr hclient
  have hreturns : BankingStage.GroupReturns host .new group s.state := by
    intro admitted u hrun _
    have hin : ∀ m ∈ admitted, (m.originalIndex,m.transaction) ∈ group := fun m hm =>
      (BankingStage.admitGroup_sublist hrun).subset (List.mem_map.mpr ⟨m,hm,rfl⟩)
    exact BankingStage.membersReturn_of_client _ (fun m hm => (hgroup _ (hin m hm)).1)
      (fun m hm => (hgroup _ (hin m hm)).2) hshows.keyed (hshows.total.trans_lt (by decide))
  have hsigned : ∀ tx ∈ group, tx.2.signatures ≠ [] := fun tx ht => by
    obtain ⟨u,hu⟩ := (hgroup tx ht).1
    exact hu.signed
  have herr := ((hs.alone hb).connected hc).2
  cases hres : (BankingStage.processGroup host .new txs group s.state).1 with
  | ok u => rfl
  | err e => exact absurd hres (herr e)
  | panic => exact absurd hreturns ((hpanic hsigned).mp hres)

/-! ## While the clock runs -/

/-- The transaction has passed verification. -/
def Verified (host : Host) (tx : Transaction) : Prop :=
  tx.verifySignaturesSync host.ed25519 = .ok ()

instance (host : Host) (tx : Transaction) : Decidable (Verified host tx) :=
  inferInstanceAs (Decidable (_ = _))

/-- What is charged leaves room for what is left of the batch. -/
def Affordable (task : BankingTask) (costs : Multiset TransactionCost) : Prop :=
  match task with
  | .collecting _ => costs = 0
  | .processing _ _ groups => CostTracker.charged costs+groupCost .new groups.flatten ≤
      batchSizeLimit*ClientTransfer.maxCost
  | .stopped => True

/-- How a node stands that serves only the client and has its clock running. -/
structure Serving (host : Host) (ls : List Label) (s : Node) : Prop where
  connected : s.state.stage.pohRecordSender.remaining = none
  running : s.banking = .stopped → .leave ∈ ls
  steady : ∀ l ∈ ls, l ≠ .panic ∧ l ≠ .groupError ∧ ∀ batch, l ≠ .joinError batch
  limits : (CostTracker.new maxBlockUnits maxWritableAccountUnits).SameLimits
    s.state.stage.costTracker
  affordable : ∃ costs, StageSound s.state.stage costs ∧ Affordable s.banking costs
  served : (processed ls ++ s.banking.remaining).Perm ((batches ls).flatten.filter fun tx =>
    Verified host tx)

theorem serving_start (host : Host) (faucetPubkey : Pubkey) :
    Serving host [] (start faucetPubkey) where
  connected := rfl
  running h := by cases h
  steady l hl := absurd hl List.not_mem_nil
  limits := ⟨rfl,rfl⟩
  affordable := ⟨0,⟨CostTracker.new_tallies _ _,(by decide : maxBlockUnits < maxU64),fun _ => 0,
    FiniteMap.counts_zero.mpr rfl⟩,rfl⟩
  served := .nil

/-- The rest of the batch is within the limits of a block and of an account. -/
theorem Serving.room (h : Serving host ls s) {cost : ℕ}
    (hle : cost ≤ batchSizeLimit*ClientTransfer.maxCost) :
    s.state.stage.costTracker.Room cost := by
  have hroom : (CostTracker.new maxBlockUnits maxWritableAccountUnits).Room
      (batchSizeLimit*ClientTransfer.maxCost) := ⟨by decide,by decide⟩
  exact hroom.congr h.limits hle

theorem steady_snoc (h : ∀ l ∈ ls, l ≠ .panic ∧ l ≠ .groupError ∧ ∀ batch, l ≠ .joinError batch)
    (hl : l ≠ .panic ∧ l ≠ .groupError ∧ ∀ batch, l ≠ .joinError batch) :
    ∀ l' ∈ ls ++ [l], l' ≠ .panic ∧ l' ≠ .groupError ∧ ∀ batch, l' ≠ .joinError batch :=
  List.forall_mem_append.mpr ⟨h,List.forall_mem_singleton.mpr hl⟩

/-- A step that leaves the banking task where it is. -/
theorem Serving.idle (h : Serving host ls s) (hb : t.banking = s.banking)
    (hstage : t.state.stage.pohRecordSender = s.state.stage.pohRecordSender ∧
      t.state.stage.costTracker = s.state.stage.costTracker ∧
        t.state.stage.accountLocks = s.state.stage.accountLocks)
    (hl : l ≠ .panic ∧ l ≠ .groupError ∧ ∀ batch, l ≠ .joinError batch)
    (hp : l.processed = []) (hbatches : l.batches = []) : Serving host (ls ++ [l]) t where
  connected := (congrArg Channel.remaining hstage.1).trans h.connected
  running hs := List.mem_append_left _ (h.running (hb ▸ hs))
  steady := steady_snoc h.steady hl
  limits := hstage.2.1 ▸ h.limits
  affordable := by
    obtain ⟨costs,hsound,hdue⟩ := h.affordable
    rw [hb]
    exact ⟨costs,
      ⟨hstage.2.1 ▸ hsound.tallied,hstage.2.1 ▸ hsound.limited,hstage.2.2 ▸ hsound.counted⟩,hdue⟩
  served := by
    rw [processed_snoc,hp,List.append_nil,batches_snoc,hbatches,List.append_nil,hb]
    exact h.served

/-- The scheduled part of a batch of the client leaves room. -/
theorem Serving.schedule {batch : List Transaction} (h : Serving host ls s)
    (hb : s.banking = .collecting batch) (hclient : ∀ tx ∈ batch, FromClient tx)
    (hsize : batch.length ≤ batchSizeLimit) :
      Serving host (ls ++ [.schedule batch]) (s.schedule host batch) := by
  let txs := BankingStage.txsToSchedule host.ed25519 batch
  have hperm := TransactionScheduler.schedule_flatten_perm txs
  have hsub := BankingStage.txsToSchedule_sublist host.ed25519 batch
  obtain ⟨costs,hsound,hdue⟩ := h.affordable
  rw [hb] at hdue
  obtain rfl : costs = 0 := hdue
  have hlen : (TransactionScheduler.schedule txs).flatten.length ≤ batch.length := by
    rw [hperm.length_eq,← List.length_map (f := Prod.snd)]
    exact hsub.length_le
  have hcost : groupCost .new (TransactionScheduler.schedule txs).flatten ≤
      (TransactionScheduler.schedule txs).flatten.length*ClientTransfer.maxCost :=
    BankingStage.groupCost_le fun tx ht =>
      hclient _ (hsub.subset (List.mem_map_of_mem (hperm.subset ht)))
  have hserved := h.served
  rw [hb] at hserved
  refine ⟨h.connected,(nomatch ·),steady_snoc h.steady (by simp),h.limits,
    ⟨0,⟨hsound.tallied,hsound.limited,hsound.counted⟩,?_⟩,?_⟩
  · have hle : CostTracker.charged 0+groupCost .new (TransactionScheduler.schedule txs).flatten ≤
        batchSizeLimit*ClientTransfer.maxCost := by
      rw [CostTracker.charged_zero,Nat.zero_add]
      exact hcost.trans (Nat.mul_le_mul_right _ (hlen.trans hsize))
    exact hle
  · have hprocessed : processed (ls ++ [.schedule batch]) = processed ls :=
      (processed_snoc ls _).trans (List.append_nil _)
    have hbatches : batches (ls ++ [.schedule batch]) = batches ls ++ [batch] := batches_snoc ls _
    have hbefore : (processed ls).Perm ((batches ls).flatten.filter fun tx => Verified host tx) :=
      (List.append_nil (processed ls)) ▸ hserved
    have hrest : ((TransactionScheduler.schedule txs).flatten.map Prod.snd).Perm
        (batch.filter fun tx => Verified host tx) :=
      (hperm.map Prod.snd).trans (BankingStage.txsToSchedule_map host.ed25519 batch ▸ .refl _)
    rw [hprocessed,hbatches,List.flatten_append,List.flatten_singleton,List.filter_append]
    exact hbefore.append hrest

/-- A group is processed as a whole. -/
theorem Serving.group {batch : List Transaction} {txs group : List (ℕ × Transaction)}
    {groups : List (List (ℕ × Transaction))} {u : BatchState} (h : Serving host ls s)
    (hr : Run (Step host rpc) (start faucetPubkey) ls s)
    (hb : s.banking = .processing batch txs (group :: groups))
    (hg : BankingStage.processGroup host .new txs group s.state = (.ok (),u)) :
    Serving host (ls ++ [.group (BankingStage.admittedOf .new group s.state)])
      { s with state := u, banking := .processing batch txs groups } := by
  have hs := sound_run hr
  have halone := hs.alone hb
  rw [hg] at halone
  obtain ⟨costs,hsound,hdue⟩ := h.affordable
  rw [hb] at hdue
  have hsplit : groupCost .new (group :: groups).flatten =
      groupCost .new group+groupCost .new groups.flatten := groupCost_append _ _ _
  have hle : CostTracker.charged costs+(groupCost .new group+groupCost .new groups.flatten) ≤
      batchSizeLimit*ClientTransfer.maxCost := hsplit ▸ hdue
  obtain ⟨hall,hok⟩ := BankingStage.processGroup_affordable host .new txs
    hs.accountLocks hsound (fun tx ht => ((hs.group hb).2 tx ht).2) (h.room (by omega))
  obtain ⟨hlimits,left,hleft,hcharged⟩ := hok hg
  refine ⟨(halone.connected h.connected).1,(nomatch ·),steady_snoc h.steady (by simp),
    IsTrans.trans _ _ _ h.limits hlimits,⟨left,hleft,?_⟩,?_⟩
  · have hdue' : CostTracker.charged left+groupCost .new groups.flatten ≤
        batchSizeLimit*ClientTransfer.maxCost := by omega
    exact hdue'
  · have hserved := h.served
    rw [hb] at hserved
    have hbatches : batches (ls ++ [.group (group.map Prod.snd)]) = batches ls :=
      (batches_snoc ls _).trans (List.append_nil _)
    have hprocessed : processed (ls ++ [.group (group.map Prod.snd)]) = processed ls ++
      group.map Prod.snd :=
      processed_snoc ls _
    have hflat : (group :: groups).flatten.map Prod.snd = group.map Prod.snd ++
      groups.flatten.map Prod.snd :=
      List.map_append
    rw [hall,hbatches,hprocessed,List.append_assoc]
    exact hflat ▸ hserved

theorem serving_step (hr : Run (Step host rpc) (start faucetPubkey) ls s)
    (hclient : ∀ tx ∈ queued ls, FromClient tx) (h : Serving host ls s) (hl : Step host rpc s l t)
    (hclock : l ≠ .endService) : Serving host (ls ++ [l]) t := by
  cases hl with
  | answer hm hrpc => exact h.idle rfl ⟨rfl,rfl,rfl⟩ (by simp) rfl rfl
  | accept hm hrpc => exact h.idle rfl ⟨rfl,rfl,rfl⟩ (by simp) rfl rfl
  | refuse hm hrpc hn => exact h.idle rfl ⟨rfl,rfl,rfl⟩ (by simp) rfl rfl
  | queue ha hrpc => exact h.idle rfl ⟨rfl,rfl,rfl⟩ (by simp) rfl rfl
  | unsent ha hrpc => exact h.idle rfl ⟨rfl,rfl,rfl⟩ (by simp) rfl rfl
  | @take batch tx rest hb hn hp =>
    have hserved := h.served
    obtain ⟨costs,hsound,hdue⟩ := h.affordable
    rw [hb] at hserved hdue
    refine ⟨h.connected,(nomatch ·),steady_snoc h.steady (by simp),h.limits,⟨costs,hsound,hdue⟩,?_⟩
    rw [processed_snoc,batches_snoc]
    exact (List.append_nil (processed ls)).symm ▸ (List.append_nil (batches ls)).symm ▸ hserved
  | @schedule batch hb hc hv =>
    have hcollected := collected_subset_queued hr
    have hsize := (inOrder_run hr).collected
    rw [hb] at hcollected hsize
    exact h.schedule hb (fun tx ht => hclient tx (hcollected ht)) hsize
  | @joinError batch hb hc hv =>
    -- verification of the client's transactions does not panic
    obtain ⟨tx,htx,hpanic⟩ := hv
    have hcollected := collected_subset_queued hr
    rw [hb] at hcollected
    obtain ⟨u,hu⟩ := hclient tx (hcollected htx)
    exact absurd hpanic (hu.verify_no_panic _)
  | group hb hg => exact h.group hr hb hg
  | groupError hb hg =>
    have hok := group_returns hr hclient hb h.connected
    rw [hg] at hok
    cases hok
  | panic hb hg =>
    have hok := group_returns hr hclient hb h.connected
    rw [hg] at hok
    cases hok
  | @finish batch txs hb =>
    obtain ⟨costs,hsound,-⟩ := h.affordable
    have hserved := h.served
    rw [hb] at hserved
    refine ⟨h.connected,(nomatch ·),steady_snoc h.steady (by simp),
      ⟨h.limits.block,h.limits.account⟩,
      ⟨0,⟨CostTracker.reset_tallies _,hsound.limited,hsound.counted⟩,rfl⟩,?_⟩
    rw [processed_snoc,batches_snoc]
    exact (List.append_nil (processed ls)).symm ▸ (List.append_nil (batches ls)).symm ▸ hserved
  | leave he hb =>
    obtain ⟨costs,hsound,-⟩ := h.affordable
    have hserved := h.served
    rw [hb] at hserved
    refine ⟨h.connected,fun _ => by simp,steady_snoc h.steady (by simp),h.limits,
      ⟨costs,⟨hsound.tallied,hsound.limited,hsound.counted⟩,trivial⟩,?_⟩
    rw [processed_snoc,batches_snoc]
    exact (List.append_nil (processed ls)).symm ▸ (List.append_nil (batches ls)).symm ▸ hserved
  | turn hsv hp => exact h.idle rfl ⟨rfl,rfl,rfl⟩ (by simp) rfl rfl
  | endService hsv hp hn => exact absurd rfl hclock
  | leaveService he hsv => exact absurd rfl hclock
  | exit => exact h.idle rfl ⟨rfl,rfl,rfl⟩ (by simp) rfl rfl

theorem serving_run (hr : Run (Step host rpc) (start faucetPubkey) ls s)
    (hclient : ∀ tx ∈ queued ls, FromClient tx) (hclock : .endService ∉ ls) :
      Serving host ls s := by
  induction hr with
  | nil => exact serving_start host faucetPubkey
  | snoc before last ih =>
    have hbefore : ∀ tx ∈ queued _, FromClient tx := fun tx ht =>
      hclient tx (by rw [queued_snoc]; exact List.mem_append_left _ ht)
    rw [List.mem_append,not_or,List.mem_singleton] at hclock
    exact serving_step before hbefore (ih hbefore hclock.1) last (Ne.symm hclock.2)

/-- What was processed, what is left of the batch at hand, and what has passed verification of the
rest of the queue is together what has passed verification of all that was queued. -/
theorem Serving.queued (hr : Run (Step host rpc) (start faucetPubkey) ls s)
    (h : Serving host ls s) :
    (processed ls ++ s.banking.remaining ++ (s.banking.collected ++ s.pending).filter fun tx =>
      Verified host tx).Perm ((queued ls).filter fun tx => Verified host tx) := by
  have ho := inOrder_run hr
  have hall : (batches ls).flatten ++ (s.banking.collected ++ s.pending) = Node.queued ls := by
    rw [← ho.sent,← List.append_assoc,← ho.taken]
    exact List.take_append_drop _ _
  have hfilter : ((Node.queued ls).filter fun tx => Verified host tx) =
      ((batches ls).flatten.filter fun tx => Verified host tx) ++
        (s.banking.collected ++ s.pending).filter fun tx => Verified host tx := by
    rw [← hall,List.filter_append]
  rw [hfilter]
  exact h.served.append_right _

/-- A node that serves the client loses nothing that was queued and processes nothing twice, and
nothing but the end of the node ends its banking task. -/
theorem queue_is_served (hr : Run (Step host rpc) (start faucetPubkey) ls s)
    (hclient : ∀ tx ∈ queued ls, FromClient tx) (hclock : .endService ∉ ls) :
    (∀ l ∈ ls, l ≠ .panic ∧ l ≠ .groupError ∧ ∀ batch, l ≠ .joinError batch) ∧
      (s.banking = .stopped → .leave ∈ ls) ∧
        (processed ls ++ s.banking.remaining ++ (s.banking.collected ++ s.pending).filter fun tx =>
          Verified host tx).Perm ((queued ls).filter fun tx => Verified host tx) := by
  have h := serving_run hr hclient hclock
  exact ⟨h.steady,h.running,h.queued hr⟩

theorem payment_served :
    (∀ l ∈ paidLabels, l ≠ .panic ∧ l ≠ .groupError ∧ ∀ batch, l ≠ .joinError batch) ∧
    (processedNode.banking = .stopped → .leave ∈ paidLabels) ∧
      (processed paidLabels ++ processedNode.banking.remaining ++
        (processedNode.banking.collected ++ processedNode.pending).filter fun tx =>
          Verified default tx).Perm ([faucetPayment].filter fun tx => Verified default tx) :=
  queue_is_served processed_run (List.forall_mem_singleton.mpr faucetPayment_fromClient)
    (by simp [paidLabels])

/-! ## To the end of the queue -/

/-- A step of the banking task that goes on with its loop. -/
def Label.ofLoop : Label → Bool
  | take _ => true
  | schedule _ => true
  | group _ => true
  | finish _ => true
  | _ => false

/-- The banking task comes from one state to the other by itself. -/
def LoopsTo (host : Host) (rpc : RpcHost) (s t : Node) : Prop :=
  ∃ ls, Run (Step host rpc) s ls t ∧ ∀ l ∈ ls, l.ofLoop = true

theorem LoopsTo.refl (s : Node) : LoopsTo host rpc s s :=
  ⟨[],.nil,fun _ h => absurd h List.not_mem_nil⟩

theorem LoopsTo.step (h : Step host rpc s l t) (hl : l.ofLoop = true) : LoopsTo host rpc s t :=
  ⟨[l],.single h,List.forall_mem_singleton.mpr hl⟩

theorem LoopsTo.trans {u : Node} (h : LoopsTo host rpc s t) (h' : LoopsTo host rpc t u) :
    LoopsTo host rpc s u := by
  obtain ⟨ls,hr,hls⟩ := h
  obtain ⟨ls',hr',hls'⟩ := h'
  exact ⟨ls ++ ls',hr.append hr',List.forall_mem_append.mpr ⟨hls,hls'⟩⟩

/-- A state that is reached while the client is served. -/
structure Serves (host : Host) (rpc : RpcHost) (faucetPubkey : Pubkey) (ls : List Label)
    (s : Node) : Prop where
  run : Run (Step host rpc) (start faucetPubkey) ls s
  client : ∀ tx ∈ queued ls, FromClient tx
  clock : .endService ∉ ls

/-- The loop queues nothing and does not end the service. -/
theorem Serves.loop {ls' : List Label} (h : Serves host rpc faucetPubkey ls s)
    (hr : Run (Step host rpc) s ls' t) (hl : ∀ l ∈ ls', l.ofLoop = true) :
    Serves host rpc faucetPubkey (ls ++ ls') t ∧ queued (ls ++ ls') = queued ls := by
  have hnone : queued ls' = [] := List.flatMap_eq_nil_iff.mpr fun l hmem => by
    have hloop := hl l hmem
    cases l <;> first | rfl | cases hloop
  have hsame : queued (ls ++ ls') = queued ls := by
    rw [queued,List.flatMap_append]
    exact (congrArg (queued ls ++ ·) hnone).trans (List.append_nil _)
  refine ⟨⟨h.run.append hr,hsame ▸ h.client,?_⟩,hsame⟩
  rw [List.mem_append,not_or]
  refine ⟨h.clock,fun hmem => ?_⟩
  have hloop := hl _ hmem
  cases hloop

/-- The groups that are left of a batch can be processed and the batch finished. -/
theorem Serves.finishes {batch : List Transaction} {txs : List (ℕ × Transaction)}
    {groups : List (List (ℕ × Transaction))} (h : Serves host rpc faucetPubkey ls s)
    (hb : s.banking = .processing batch txs groups) :
    ∃ t, LoopsTo host rpc s t ∧ t.banking = .collecting [] ∧ t.pending = s.pending := by
  induction groups generalizing s ls with
  | nil =>
    have hstep : Step host rpc s (.finish s.state.finalResults) s.finish := .finish hb
    exact ⟨s.finish,.step hstep rfl,rfl,rfl⟩
  | cons group groups ih =>
    have hserving := serving_run h.run h.client h.clock
    have hok := group_returns h.run h.client hb hserving.connected
    have halone := (sound_run h.run).alone hb
    let u := (BankingStage.processGroup host .new txs group s.state).2
    have hstep : Step host rpc s (.group (BankingStage.admittedOf .new group s.state))
        { s with state := u, banking := .processing batch txs groups } := .group hb
        (Prod.ext hok rfl)
    obtain ⟨t,hto,ht,hpending⟩ :=
      ih (h.loop (.single hstep) (List.forall_mem_singleton.mpr rfl)).1 rfl
    refine ⟨t,LoopsTo.trans (.step hstep rfl) hto,ht,hpending.trans ?_⟩
    exact congrArg (fun c => Channel.pending c s.taken) halone.txSender

theorem Serves.after (h : Serves host rpc faucetPubkey ls s) (hto : LoopsTo host rpc s t) :
    ∃ ls', Serves host rpc faucetPubkey ls' t ∧ queued ls' = queued ls := by
  obtain ⟨ls',hr,hl⟩ := hto
  exact ⟨ls ++ ls',h.loop hr hl⟩

/-- A complete batch can be scheduled and finished. -/
theorem Serves.completes {batch : List Transaction} (h : Serves host rpc faucetPubkey ls s)
    (hb : s.banking = .collecting batch) (hc : s.Complete batch) :
    ∃ t, LoopsTo host rpc s t ∧ t.banking = .collecting [] ∧ t.pending = s.pending := by
  have hcollected := collected_subset_queued h.run
  rw [hb] at hcollected
  have hverify : ∀ tx ∈ batch, tx.verifySignaturesSync host.ed25519 ≠ .panic := fun tx ht => by
    obtain ⟨u,hu⟩ := h.client tx (hcollected ht)
    exact hu.verify_no_panic _
  have hstep : Step host rpc s (.schedule batch) (s.schedule host batch) := .schedule hb hc hverify
  obtain ⟨t,hto,ht,hpending⟩ :=
    (h.loop (.single hstep) (List.forall_mem_singleton.mpr rfl)).1.finishes rfl
  exact ⟨t,LoopsTo.trans (.step hstep rfl) hto,ht,hpending⟩

/-- The loop can come to a place where it may take another transaction. -/
theorem Serves.ready (h : Serves host rpc faucetPubkey ls s) (hrun : s.banking ≠ .stopped) :
    ∃ t batch, LoopsTo host rpc s t ∧ t.banking = .collecting batch ∧
      batch.length < batchSizeLimit ∧
      t.pending = s.pending := by
  cases hb : s.banking with
  | collecting batch =>
    by_cases hlt : batch.length < batchSizeLimit
    · exact ⟨s,batch,.refl s,hb,hlt,rfl⟩
    · have hne : batch ≠ [] := by
        rintro rfl
        exact hlt (by decide)
      obtain ⟨t,hto,ht,hpending⟩ := h.completes hb ⟨hne,.inr (not_lt.mp hlt)⟩
      exact ⟨t,[],hto,ht,by decide,hpending⟩
  | processing batch txs groups =>
    obtain ⟨t,hto,ht,hpending⟩ := h.finishes hb
    exact ⟨t,[],hto,ht,by decide,hpending⟩
  | stopped => exact absurd hb hrun

/-- The loop has taken everything and finished its last batch. -/
structure Drained (s : Node) : Prop where
  banking : s.banking = .collecting []
  pending : s.pending = []

/-- Once drained, a node has processed all that was queued and verified. -/
theorem Serves.processed_all (h : Serves host rpc faucetPubkey ls s) (hd : s.Drained) :
    (processed ls).Perm ((queued ls).filter fun tx => Verified host tx) := by
  have hqueued := (serving_run h.run h.client h.clock).queued h.run
  rw [hd.banking,hd.pending] at hqueued
  have hnone : processed ls ++ (BankingTask.collecting []).remaining ++
      ((BankingTask.collecting []).collected ++ []).filter (fun tx => Verified host tx) =
        processed ls :=
    (List.append_nil _).trans (List.append_nil _)
  exact hnone ▸ hqueued

/-- Wherever the loop stands, it can go on until nothing is left to be taken. -/
theorem Serves.drains (h : Serves host rpc faucetPubkey ls s) (hrun : s.banking ≠ .stopped) :
    ∃ t, LoopsTo host rpc s t ∧ t.Drained := by
  generalize hn : s.pending.length = n
  induction n generalizing s ls with
  | zero =>
    have hnone := List.length_eq_zero_iff.mp hn
    cases hb : s.banking with
    | collecting batch =>
      by_cases hne : batch = []
      · exact ⟨s,.refl s,⟨hne ▸ hb,hnone⟩⟩
      · obtain ⟨t,hto,ht,hpending⟩ := h.completes hb ⟨hne,.inl hnone⟩
        exact ⟨t,hto,⟨ht,hpending.trans hnone⟩⟩
    | processing batch txs groups =>
      obtain ⟨t,hto,ht,hpending⟩ := h.finishes hb
      exact ⟨t,hto,⟨ht,hpending.trans hnone⟩⟩
    | stopped => exact absurd hb hrun
  | succ n ih =>
    obtain ⟨t,batch,hto,hb,hlt,hpending⟩ := h.ready hrun
    obtain ⟨tx,rest,htx⟩ := List.exists_cons_of_length_eq_add_one (hpending ▸ hn)
    have hstep : Step host rpc t (.take tx)
      { t with taken := t.taken+1, banking := .collecting (batch ++ [tx]) } := .take hb hlt htx
    obtain ⟨ls',h',-⟩ := h.after (hto.trans (.step hstep rfl))
    have hrest :
      ({ t with taken := t.taken+1, banking := .collecting (batch ++ [tx]) } : Node).pending =
        rest := by
      have hdrop := congrArg List.tail htx
      rw [pending,Channel.pending,List.tail_drop] at hdrop
      exact hdrop
    have hlen : rest.length = n := by
      rw [hpending] at htx
      rw [htx] at hn
      exact Nat.succ.inj hn
    obtain ⟨u,hto',hu⟩ := ih h' (by simp) (by rw [hrest,hlen])
    exact ⟨u,(hto.trans (.step hstep rfl)).trans hto',hu⟩

/-- From every state of a node that serves the client its banking task can go on, by itself, to one
where every verified transaction that was queued has been processed once, and where balances are as
these transfers make them. -/
theorem queue_can_be_drained (hr : Run (Step host rpc) (start faucetPubkey) ls s)
    (hclient : ∀ tx ∈ queued ls, FromClient tx) (hclock : .endService ∉ ls)
    (hrun : s.banking ≠ .stopped) :
    ∃ ls' t, Run (Step host rpc) s ls' t ∧ (∀ l ∈ ls', l.ofLoop = true) ∧
      (processed (ls ++ ls')).Perm ((queued ls).filter fun tx => Verified host tx) ∧
        ∀ k, ∃ balance, Client.getBalance host rpc k t.rpcState = (.ok balance,t.rpcState) ∧
          balance.toNat = Transfer.settle (firstLedger faucetPubkey)
            (transfers (processed (ls ++ ls'))) k := by
  have h : Serves host rpc faucetPubkey ls s := ⟨hr,hclient,hclock⟩
  obtain ⟨t,⟨ls',hr',hl⟩,hd⟩ := h.drains hrun
  obtain ⟨hafter,hsame⟩ := h.loop hr' hl
  have hledger := (shows_run hafter.run hafter.client).ledger
  exact ⟨ls',t,hr',hl,hsame ▸ hafter.processed_all hd,fun k =>
    ⟨_,Client.getBalance_run k,congrFun hledger k⟩⟩

theorem payment_can_be_drained : ∃ ls t, Run (Step default default) queuedNode ls t ∧
    (∀ l ∈ ls, l.ofLoop = true) ∧
      (processed ([.accept faucetPayment,.queue faucetPayment] ++ ls)).Perm
        ([faucetPayment].filter fun tx => Verified default tx) ∧
        ∀ k, ∃ balance, Client.getBalance default default k t.rpcState = (.ok balance,t.rpcState) ∧
          balance.toNat = Transfer.settle (firstLedger (.ofByte 1))
            (transfers (processed ([.accept faucetPayment,.queue faucetPayment] ++ ls))) k :=
  queue_can_be_drained queued_run (List.forall_mem_singleton.mpr faucetPayment_fromClient) (by simp)
    (nomatch ·)

end Node

end TinySolana
