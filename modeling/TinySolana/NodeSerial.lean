import TinySolana.Blockhashes
import TinySolana.LamportRuns
import TinySolana.NodeOutcomes
import TinySolana.ProgramCache
import TinySolana.SerialEquivalence

/-!
# The node as a serial machine

Members of one group are executed over the same store and their overlays are flushed together. Where
transactions declare what they share, nothing of this is to be seen from outside: the store of a
node is the one that the processed transactions leave behind one after another, each with the whole
node for itself.
-/

namespace TinySolana
open Foundations

namespace Bank

variable {host : Host} {tx : Transaction} {accounts : InMemoryAccountStore}

/-- The store after a transaction was processed alone, by an executor that has run no program
yet. -/
def settle (host : Host) (bank : Bank) (accounts : InMemoryAccountStore) (tx : Transaction) :
    InMemoryAccountStore :=
  commitOverlays (overlay? ({ bank with accounts }.processSingleTransaction host tx
    (CostModel.new.calculateCost tx).sum ∅).1).toList accounts

/-! ## Native transactions and the cache -/

theorem programCalls_native {keys : List Pubkey} {computeBudget : UInt64}
    {instructions : List Instruction}
    (hn : ∀ instruction ∈ instructions, instruction.programId ∈ nativePrograms)
    (m : Machine (Fin keys.length)) : programCalls host keys computeBudget instructions m = [] := by
  induction instructions generalizing m with
  | nil => rfl
  | cons instruction rest ih =>
    obtain ⟨hfirst,hrest⟩ := List.forall_mem_cons.mp hn
    have hcall : programCall instruction m = none := by
      unfold programCall
      cases prepareAccountInfos instruction m.cells with
      | ok infos => exact if_pos hfirst
      | error e => rfl
    unfold programCalls at ih ⊢
    rw [collect,hcall]
    cases executeInstruction host keys computeBudget instruction m with
    | mk r m' =>
      cases r with
      | ok u => exact ih hrest m'
      | err e => rfl
      | panic => rfl

theorem executeOnOverlay_result (computeBudget : UInt64) (cache : ProgramCache) :
    (executeOnOverlay host accounts tx computeBudget cache).1 =
      (executeLoaded host tx computeBudget
        (loadAndVerifyAccounts tx.message.accountKeys (OverlayStore.new.load accounts)) cache).1.map
          writeBack := by
  simp only [executeOnOverlay,Exec.bind_run]
  cases executeLoaded host tx computeBudget _ cache with
  | mk r cache' => cases r <;> rfl

/-- Whatever is in the cache, a native transaction ends the same way. -/
theorem executeOnOverlay_native (hn : tx.Native) (computeBudget : UInt64)
    (cache cache' : ProgramCache) :
    (executeOnOverlay host accounts tx computeBudget cache').1 =
      (executeOnOverlay host accounts tx computeBudget cache).1 := by
  have hcalls : loadedCalls host tx computeBudget
      (loadAndVerifyAccounts tx.message.accountKeys (OverlayStore.new.load accounts)) cache = [] :=
    programCalls_native hn _
  have hanswered : AnsweredFrom cache' (loadedCalls host tx computeBudget
      (loadAndVerifyAccounts tx.message.accountKeys (OverlayStore.new.load accounts)) cache) := by
    rw [hcalls]
    exact trivial
  rw [executeOnOverlay_result,executeOnOverlay_result,(executeLoaded_answered hanswered).2]

/-! ## One transaction after another -/

variable {bank : Bank}

theorem settle_of_passes (hp : bank.Passes tx) (hn : tx.Native) (cache : ProgramCache) :
    bank.settle host accounts tx = commitOverlays (overlay?
      (executeOnOverlay host accounts tx (CostModel.new.calculateCost tx).sum cache).1).toList
        accounts := by
  have hpa : { bank with accounts }.Passes tx := hp
  rw [settle,processSingleTransaction_of_passes hpa,executeOnOverlay_native hn _ cache ∅]

theorem settle_of_not_passes (hp : ¬bank.Passes tx) : bank.settle host accounts tx = accounts := by
  obtain ⟨e,he⟩ := processSingleTransaction_of_not_passes host hp
    (CostModel.new.calculateCost tx).sum
  rw [settle,he]
  rfl

/-- An account is stored under the key that it names, also by a transaction. -/
theorem settle_keyed (host : Host) (bank : Bank) (tx : Transaction) (hk : accounts.Keyed) :
    (bank.settle host accounts tx).Keyed := by
  unfold settle
  cases hr : { bank with accounts }.processSingleTransaction host tx
    (CostModel.new.calculateCost tx).sum ∅ with
  | mk r cache =>
    cases r with
    | err e => exact hk
    | panic => exact hk
    | ok o =>
      obtain ⟨-,ho⟩ := processSingleTransaction_ok hr
      exact flush_keyed (fun k _ a ha => hk k a ha) ho hk

theorem settleAll_keyed (host : Host) (bank : Bank) (txs : List Transaction) (hk : accounts.Keyed) :
    (txs.foldl (bank.settle host) accounts).Keyed := by
  induction txs generalizing accounts with
  | nil => exact hk
  | cons tx rest ih => exact ih (settle_keyed host bank tx hk)

/-- Serial execution of native transactions, whatever is in the cache, by a bank of the same
rules. -/
theorem processSerially_settle {rules : Bank} {group : List (ℕ × Transaction)}
    (hsame : ∀ tx, bank.checkPreflightRules tx = rules.checkPreflightRules tx)
    (hn : ∀ tx ∈ group, tx.2.Native) (cache : ProgramCache) (accounts : InMemoryAccountStore) :
    (processSerially host (fun tx => (CostModel.new.calculateCost tx.2).sum) { bank with accounts }
      cache group).2 = (group.map Prod.snd).foldl (rules.settle host) accounts := by
  induction group generalizing cache accounts with
  | nil => rfl
  | cons tx rest ih =>
    obtain ⟨hfirst,hrest⟩ := List.forall_mem_cons.mp hn
    have hpasses : bank.Passes tx.2 ↔ rules.Passes tx.2 := Eq.congr_left (hsame tx.2)
    have hstep : commitOverlays (overlay? ({ bank with accounts }.processSingleTransaction host tx.2
        (CostModel.new.calculateCost tx.2).sum cache).1).toList accounts =
          rules.settle host accounts tx.2 := by
      by_cases hp : rules.Passes tx.2
      · have hpa : { bank with accounts }.Passes tx.2 := hpasses.mpr hp
        rw [processSingleTransaction_of_passes hpa,settle_of_passes hp hfirst cache]
      · obtain ⟨e,he⟩ := processSingleTransaction_of_not_passes host (mt hpasses.mp hp)
          (CostModel.new.calculateCost tx.2).sum
        rw [settle_of_not_passes hp,he]
        rfl
    have ih := ih hrest ({ bank with accounts }.processSingleTransaction host tx.2
      (CostModel.new.calculateCost tx.2).sum cache).2 (rules.settle host accounts tx.2)
    rw [List.map_cons,List.foldl_cons,← ih,← hstep]
    rfl

end Bank

/-! ## A group -/

namespace BankingStage

variable {host : Host} {costModel : CostModel} {s t : BatchState}

/-- The overlay of a member that has succeeded. -/
def made (r : TransactionProcessResult) : Option OverlayStore := r.processingResult.toOption

/-- The overlays of a group are those of its members on the bank as it was before the group. -/
theorem executeGroup_overlays {admitted : List Admitted} {results : List TransactionProcessResult}
    {computeBudget : ℕ × Transaction → UInt64}
    (hcost : ∀ m ∈ admitted, m.cost.sum = computeBudget (m.originalIndex,m.transaction))
    (h : executeGroup host admitted s = (.ok results,t)) :
    results.filterMap made =
      (Bank.processMembers host computeBudget s.bank s.programCache
        (admitted.map fun m => (m.originalIndex,m.transaction))).filterMap overlay? := by
  induction admitted generalizing s results with
  | nil =>
    cases h
    rfl
  | cons member rest ih =>
    obtain ⟨hc,hcost⟩ := List.forall_mem_cons.mp hcost
    simp only [executeGroup,Exec.get_bind] at h
    obtain ⟨r,s₁,hx,h⟩ := Exec.bind_ok.mp h
    obtain ⟨results',s₂,hrest,h⟩ := Exec.bind_ok.mp h
    cases h
    rw [hc] at hx
    have hrun := Exec.attempt_ok hx
    have ih := ih hcost hrest
    rw [List.map_cons,Bank.processMembers]
    cases r with
    | ok o =>
      obtain ⟨h₁,rfl⟩ := Prod.mk.inj hrun
      have ho : overlay? (s.bank.processSingleTransaction host member.transaction
          (computeBudget (member.originalIndex,member.transaction)) s.programCache).1 = some o := by
        rw [h₁]
        rfl
      refine (List.filterMap_cons_some (f := made) (b := o) rfl).trans ?_
      rw [List.filterMap_cons_some ho]
      exact congrArg (o :: ·) ih
    | error e =>
      obtain ⟨h₁,rfl⟩ := Prod.mk.inj hrun
      have ho : overlay? (s.bank.processSingleTransaction host member.transaction
          (computeBudget (member.originalIndex,member.transaction)) s.programCache).1 = none := by
        rw [h₁]
        rfl
      refine (List.filterMap_cons_none (f := made) rfl).trans ?_
      rw [List.filterMap_cons_none ho]
      exact ih

/-- The store behind members that have returned is that of their serial execution. -/
theorem runGroup_serial {admitted : List Admitted} (computeBudget : ℕ × Transaction → UInt64)
    (hcost : ∀ m ∈ admitted, m.cost.sum = computeBudget (m.originalIndex,m.transaction))
    (hn : ∀ m ∈ admitted, m.transaction.Native) (hk : s.bank.accounts.Keyed)
    (hsep : s.bank.Separated (admitted.map fun m => (m.originalIndex,m.transaction)))
    (h : runGroup host admitted s = (.ok (),t)) :
    t.bank.accounts = (Bank.processSerially host computeBudget s.bank s.programCache
      (admitted.map fun m => (m.originalIndex,m.transaction))).2 := by
  obtain ⟨results,overlays,s₁,s₂,u,hx,-,hreach,hset,rfl⟩ := runGroup_ok h
  have hsame : SameBank s u := IsTrans.trans _ _ _ (hreach _ _ sameBank_across)
    ((settleGroup_keeps sameBank_across fun _ _ => trivial).of_run hset)
  have hoverlays : overlays.map Prod.snd = results.filterMap made := by
    rw [settleGroup_overlays hset,List.map_filterMap]
    refine List.filterMap_congr fun r _ => ?_
    unfold made
    cases r.processingResult <;> rfl
  let members := admitted.map fun m => (m.originalIndex,m.transaction)
  have hserial : Bank.processSerially host computeBudget s.bank s.programCache members =
      ((Bank.processMembers host computeBudget s.bank s.programCache members).map Outcome.verdict,
        commitOverlays
          ((Bank.processMembers host computeBudget s.bank s.programCache members).filterMap
          overlay?) s.bank.accounts) :=
    Bank.processSerially_eq (List.forall_mem_map.mpr hn) (fun _ _ k _ a ha => hk k a ha)
      hsep s.programCache fun _ _ _ _ _ => rfl
  have hlast : (commitGroup overlays u).2.bank.accounts =
      commitOverlays (overlays.map Prod.snd) s.bank.accounts := by
    rw [← hsame.accounts]
    rfl
  rw [hlast,hoverlays,executeGroup_overlays hcost hx]
  exact (congrArg Prod.snd hserial).symm

variable {transactions : List Transaction} {txs group : List (ℕ × Transaction)}
  {costs : Multiset TransactionCost}

/-- A group that nobody is in the way of and that returns comes to its admitted members, one after
another. -/
theorem processGroup_settle {rules : Bank} (hl : s.stage.accountLocks = AccountLocks.new)
    (h : StageSound s.stage costs) (hat : ∀ tx ∈ group, transactions[tx.1]? = some tx.2)
    (hnative : ∀ tx ∈ group, tx.2.Native)
    (hsep : group.Pairwise fun a b => ∀ k ∈ a.2.touchedKeys, k ∉ b.2.message.accountKeys)
    (hrules : ∀ tx, s.bank.checkPreflightRules tx = rules.checkPreflightRules tx)
    (hk : s.bank.accounts.Keyed) (hr : processGroup host .new txs group s = (.ok (),t)) :
    t.bank.accounts = (admittedOf .new group s).foldl (rules.settle host) s.bank.accounts := by
  obtain ⟨admitted,t₁,hrun,-⟩ := admitGroup_run CostModel.new transactions group h
  have hsame₁ : SameBank s t₁ := (admitGroup_keeps sameBank_across fun _ _ => trivial).of_run hrun
  rw [admittedOf,hrun]
  by_cases hn : admitted = []
  · rw [processGroup_eq host .new hrun,if_pos hn] at hr
    cases hr
    subst hn
    exact hsame₁.accounts
  have hlocks := ((admitGroup_quiet group).of_run hrun).accountLocks.trans hl
  rw [processGroup_unlocked h hat hrun hn hlocks] at hr
  obtain ⟨hok,rfl⟩ := Prod.mk.inj hr
  have hgroup : runGroup host admitted (lockedFor admitted t₁) =
      (.ok (),(runGroup host admitted (lockedFor admitted t₁)).2) := Prod.ext hok rfl
  have hsame : SameBank s (lockedFor admitted t₁) :=
    IsTrans.trans _ _ _ hsame₁ (reaches_lockedFor admitted t₁ _ _ sameBank_across)
  -- the members, as the pairs that were scheduled
  have hsub := admitGroup_sublist hrun
  have hmem : ∀ m ∈ admitted, m.transaction.Native := fun m hm =>
    hnative _ (hsub.subset (List.mem_map.mpr ⟨m,hm,rfl⟩))
  have hcost : ∀ m ∈ admitted, m.cost.sum =
      (CostModel.new.calculateCost (m.originalIndex,m.transaction).2).sum := fun m hm => by
    rw [admitGroup_cost hrun m hm]
  have hseparated : (lockedFor admitted t₁).bank.Separated
      (admitted.map fun m => (m.originalIndex,m.transaction)) :=
    (hsep.sublist hsub).imp fun h _ _ => h
  have hstore := runGroup_serial (fun tx => (CostModel.new.calculateCost tx.2).sum) hcost hmem
    (hsame.accounts ▸ hk) hseparated hgroup
  have hmembers : (admitted.map fun m => (m.originalIndex,m.transaction)).map Prod.snd =
      admitted.map Admitted.transaction := by
    rw [List.map_map]
    rfl
  have hall : ∀ tx ∈ admitted.map fun m => (m.originalIndex,m.transaction), tx.2.Native :=
    List.forall_mem_map.mpr hmem
  calc (runGroup host admitted (lockedFor admitted t₁)).2.bank.accounts
      = (Bank.processSerially host (fun tx => (CostModel.new.calculateCost tx.2).sum)
        (lockedFor admitted t₁).bank (lockedFor admitted t₁).programCache
        (admitted.map fun m => (m.originalIndex,m.transaction))).2 := hstore
    _ = ((admitted.map fun m => (m.originalIndex,m.transaction)).map Prod.snd).foldl
        (rules.settle host) (lockedFor admitted t₁).bank.accounts :=
        Bank.processSerially_settle (fun tx => (hsame.preflight tx).trans (hrules tx)) hall _ _
    _ = (admitted.map Admitted.transaction).foldl (rules.settle host) s.bank.accounts := by
        rw [hmembers,hsame.accounts]

end BankingStage

/-! ## The rules of the bank -/

/-- Nothing of the bank has changed that says which transactions it takes. -/
structure Bank.SameRules (bank used : Bank) : Prop extends InUse bank used where
  isFrozen : used.isFrozen = bank.isFrozen

theorem Bank.SameRules.preflight {bank used : Bank} (h : bank.SameRules used) (tx : Transaction) :
    used.checkPreflightRules tx = bank.checkPreflightRules tx := by
  unfold checkPreflightRules
  rw [h.isFrozen,h.blockhashQueue,h.slot]

theorem Bank.SameRules.getLatestBlockhash {bank used : Bank} (h : bank.SameRules used) :
    used.getLatestBlockhash = bank.getLatestBlockhash := by
  unfold Bank.getLatestBlockhash
  rw [h.blockhashQueue]

namespace BankingStage

def SameRules (s t : BatchState) : Prop := s.bank.SameRules t.bank

instance : Std.Refl SameRules := ⟨fun s => ⟨.refl s.bank,rfl⟩⟩

instance : IsTrans BatchState SameRules :=
  ⟨fun _ _ _ h h' => ⟨h.toInUse.trans h'.toInUse,h'.isFrozen.trans h.isFrozen⟩⟩

theorem sameRules_across : AcrossStages (fun _ => True) SameRules where
  locks s _ := ⟨.refl s.bank,rfl⟩
  tracker s _ := ⟨.refl s.bank,rfl⟩
  records s _ := ⟨.refl s.bank,rfl⟩
  cache s _ := ⟨.refl s.bank,rfl⟩
  metrics _ ok := by cases ok <;> exact ⟨⟨rfl,rfl,rfl⟩,rfl⟩
  freezeLock _ _ := ⟨⟨rfl,rfl,rfl⟩,rfl⟩
  recorded s _ := ⟨.refl s.bank,rfl⟩
  result s _ _ _ := ⟨.refl s.bank,rfl⟩
  requeued s tx _ := by
    unfold requeueTransaction
    rw [Exec.modify_run]
    cases s.stage.txSender.send tx.2 <;> exact ⟨⟨rfl,rfl,rfl⟩,rfl⟩

theorem processGroup_sameRules (host : Host) (costModel : CostModel)
    (txs group : List (ℕ × Transaction)) :
    Exec.Keeps SameRules (processGroup host costModel txs group) :=
  processGroup_keeps sameRules_across (fun _ _ _ => ⟨⟨rfl,rfl,rfl⟩,rfl⟩) (fun _ _ _ _ => trivial)
    fun _ _ => trivial

end BankingStage

/-! ## The node -/

namespace Node

variable {host : Host} {rpc : RpcHost} {faucetPubkey : Pubkey} {s t : Node} {l : Label}
  {ls : List Label}

/-- Whoever takes a turn, the bank has the rules that it began with. -/
theorem rules_step (h : (Bank.new ∅).SameRules s.state.bank) (hl : Step host rpc s l t) :
    (Bank.new ∅).SameRules t.state.bank := by
  have hgroup : ∀ {txs group r u}, BankingStage.processGroup host .new txs group s.state = (r,u) →
      (Bank.new ∅).SameRules u.bank := fun hr =>
    have hkeep := (BankingStage.processGroup_sameRules host .new _ _).of_run hr
    ⟨h.toInUse.trans hkeep.toInUse,hkeep.isFrozen.trans h.isFrozen⟩
  cases hl with
  | group hb hr => exact hgroup hr
  | groupError hb hr => exact hgroup hr
  | panic hb hr =>
    have hpanic := hgroup hr
    exact hpanic
  | _ => exact h

theorem rules_run (hr : Run (Step host rpc) (start faucetPubkey) ls s) :
    (Bank.new ∅).SameRules s.state.bank :=
  hr.invariant (fun _ _ _ h hl => rules_step h hl) ⟨⟨rfl,rfl,rfl⟩,rfl⟩

/-- What is left of the batch at hand was queued. -/
theorem mem_queued (hr : Run (Step host rpc) (start faucetPubkey) ls s) {batch : List Transaction}
    {txs : List (ℕ × Transaction)} {groups : List (List (ℕ × Transaction))}
    (hb : s.banking = .processing batch txs groups) : batch ⊆ queued ls := by
  have hlast := (atHand_run hr _ _ _ hb).last
  have ho := inOrder_run hr
  intro tx ht
  have hflat : tx ∈ (batches ls).flatten :=
    List.mem_flatten.mpr ⟨batch,List.mem_of_getLast? hlast,ht⟩
  rw [← ho.sent]
  refine List.mem_of_mem_take (i := s.taken) ?_
  rw [ho.taken]
  exact List.mem_append_left _ hflat

/-- The members of the next group were queued. As they declare what they share, none of them writes
what a later one lists. -/
theorem group_separated (hr : Run (Step host rpc) (start faucetPubkey) ls s)
    (hd : ∀ a ∈ queued ls, ∀ b ∈ queued ls, ∀ i j, DeclaresShared (i,a) (j,b))
    {batch : List Transaction} {txs group : List (ℕ × Transaction)}
    {groups : List (List (ℕ × Transaction))}
    (hb : s.banking = .processing batch txs (group :: groups)) : (∀ tx ∈ group, tx.2 ∈ queued ls) ∧
      group.Pairwise fun a b => ∀ k ∈ a.2.touchedKeys, k ∉ b.2.message.accountKeys := by
  obtain ⟨hsched,hmem⟩ := (sound_run hr).group hb
  have hqueued : ∀ tx ∈ group, tx.2 ∈ queued ls := fun tx ht =>
    mem_queued hr hb (List.mem_of_getElem? (hmem tx ht).2)
  refine ⟨hqueued,(TransactionScheduler.schedule_pairwise hsched).imp_of_mem ?_⟩
  intro a b ha hb hab k htouch hlist
  obtain ⟨hw,hname⟩ := hd a.2 (hqueued a ha) b.2 (hqueued b hb) a.1 b.1 k htouch hlist
  exact hab k hw hname

/-- The store of a node that has processed some transactions one after another. -/
def serialStore (host : Host) (faucetPubkey : Pubkey) (txs : List Transaction) :
    InMemoryAccountStore :=
  txs.foldl ((start faucetPubkey).state.bank.settle host) (start faucetPubkey).state.bank.accounts

theorem serialStore_append (host : Host) (faucetPubkey : Pubkey) (txs txs' : List Transaction) :
    serialStore host faucetPubkey (txs ++ txs') =
      txs'.foldl ((start faucetPubkey).state.bank.settle host)
        (serialStore host faucetPubkey txs) :=
  List.foldl_append

theorem keyed_start (faucetPubkey : Pubkey) : (start faucetPubkey).state.bank.accounts.Keyed :=
  InMemoryAccountStore.keyed_empty.store ⟨faucetPubkey,1000*lamportsPerSol,[],
    systemProgramId,false,0⟩

/-- Only a group that returns changes the store. -/
theorem store_kept (hs : s.Sound host) (hl : Step host rpc s l t)
    (hn : ∀ admitted, l ≠ .group admitted) :
    t.state.bank.accounts = s.state.bank.accounts := by
  cases hl with
  | group hb hg => exact absurd rfl (hn _)
  | groupError hb hg =>
    have hstore := (hs.alone hb).store
    rw [hg] at hstore
    exact hstore (by simp)
  | panic hb hg =>
    have hstore := (hs.alone hb).store
    rw [hg] at hstore
    exact hstore (by simp)
  | _ => rfl

theorem serial_step (hr : Run (Step host rpc) (start faucetPubkey) ls s)
    (hn : ∀ tx ∈ queued ls, tx.Native)
    (hd : ∀ a ∈ queued ls, ∀ b ∈ queued ls, ∀ i j, DeclaresShared (i,a) (j,b))
    (h : s.state.bank.accounts = serialStore host faucetPubkey (processed ls))
    (hl : Step host rpc s l t) :
    t.state.bank.accounts = serialStore host faucetPubkey (processed (ls ++ [l])) := by
  have hs := sound_run hr
  by_cases hgroup : ∃ admitted, l = .group admitted
  · obtain ⟨admitted,rfl⟩ := hgroup
    cases hl with
    | group hb hg =>
      obtain ⟨costs,hstage⟩ := hs.stage
      obtain ⟨hqueued,hsep⟩ := group_separated hr hd hb
      have hkeyed : s.state.bank.accounts.Keyed :=
        h ▸ Bank.settleAll_keyed host _ _ (keyed_start faucetPubkey)
      have hsettled := BankingStage.processGroup_settle hs.accountLocks hstage
        (fun tx ht => ((hs.group hb).2 tx ht).2) (fun tx ht => hn tx.2 (hqueued tx ht)) hsep
        (rules_run hr).preflight hkeyed hg
      rw [processed_snoc,serialStore_append,← h]
      exact hsettled
  · have hnone : ∀ admitted, l ≠ .group admitted := fun admitted he => hgroup ⟨admitted,he⟩
    rw [processed_idle hnone,store_kept hs hl hnone]
    exact h

theorem serial_run (hr : Run (Step host rpc) (start faucetPubkey) ls s)
    (hn : ∀ tx ∈ queued ls, tx.Native)
    (hd : ∀ a ∈ queued ls, ∀ b ∈ queued ls, ∀ i j, DeclaresShared (i,a) (j,b)) :
    s.state.bank.accounts = serialStore host faucetPubkey (processed ls) := by
  induction hr with
  | nil => rfl
  | @snoc t u ls l before last ih =>
    have hsub : queued ls ⊆ queued (ls ++ [l]) := fun tx ht => by
      rw [queued_snoc]
      exact List.mem_append_left _ ht
    have hn' : ∀ tx ∈ queued ls, tx.Native := fun tx ht => hn tx (hsub ht)
    have hd' : ∀ a ∈ queued ls, ∀ b ∈ queued ls, ∀ i j, DeclaresShared (i,a) (j,b) :=
      fun a ha b hb =>
      hd a (hsub ha) b (hsub hb)
    exact serial_step before hn' hd' (ih hn' hd') last

end Node

end TinySolana
