import TinySolana.Submissions

/-!
# Outcomes over runs of the node

When a batch is over, every transaction in it has met its end once: its overlay was committed a
single time and its result is empty, or nothing was committed and its result is an error. The steps
of the other tasks in between make no difference.
-/

namespace TinySolana
open Foundations

/-- A transaction that is over: committed, dropped, or refused for its cost. It is not queued
again. -/
def Standing.Over (st : Standing) : Prop := st.Meets .committed ∨ st.Meets .dropped ∨ st = .refused

variable {host : Host} {costModel : CostModel}

/-- Where nothing was sent back, no transaction was queued again. -/
theorem Logs.requeues_eq {s s' : BatchState} {txs : List (ℕ × Transaction)} (h : Logs host txs s s')
    (hsent : s'.stage.txSender.sent = s.stage.txSender.sent) (i : ℕ) :
    (standing s' i).requeues = (standing s i).requeues := by
  obtain ⟨events,hlog,hs,-⟩ := h
  have hnone : events.filterMap BatchEvent.transaction? = [] := by
    rw [hsent] at hs
    exact List.self_eq_append_right.mp hs
  have hzero : events.countP (BatchEvent.requeues i) = 0 := by
    rw [List.countP_eq_zero]
    intro event he hreq
    have ht := List.filterMap_eq_nil_iff.mp hnone event he
    cases event <;> simp_all [BatchEvent.requeues,BatchEvent.transaction?]
  simp only [standing,Standing.of,hlog,List.countP_append,hzero,Nat.add_zero]

namespace BankingStage

variable {s s' : BatchState} {txs group : List (ℕ × Transaction)}

/-- The members of a group that nobody is in the way of are over. -/
theorem processGroup_over (hnd : (group.map Prod.fst).Nodup) (hc : Connected s)
    (hlogs : Logs host txs s s') (hsent : s'.stage.txSender = s.stage.txSender)
    (h : processGroup host costModel txs group s = (.ok (),s')) {i : ℕ}
    (hi : i ∈ group.map Prod.fst) (hfresh : standing s i = .fresh) : (standing s' i).Over := by
  obtain ⟨admitted,s₁,-,hm⟩ := processGroup_member hnd hc h
  have hreq := Logs.requeues_eq hlogs (congrArg Channel.sent hsent) i
  rw [hfresh] at hreq
  have hst := hm i hi hfresh
  split at hst
  · obtain ⟨fate,hf⟩ := hst
    cases fate with
    | committed => exact .inl hf
    | dropped => exact .inr (.inl hf)
    | queuedAgain =>
      obtain ⟨e,-,-,-,hone⟩ := hf
      rw [hone] at hreq
      cases hreq
  · exact .inr (.inr hst)

end BankingStage

/-- The members of the groups that are left of the batch at hand. -/
def BankingTask.remaining : BankingTask → List Transaction
  | processing _ _ groups => groups.flatten.map Prod.snd
  | _ => []

namespace BankingStage

/-- What is scheduled of a batch, without the positions. -/
theorem txsToSchedule_map (valid : Ed25519) (batch : List Transaction) :
    (txsToSchedule valid batch).map Prod.snd =
      batch.filter fun tx => tx.verifySignaturesSync valid = .ok () := by
  have hfilter : ∀ l : List (Transaction × ℕ), (l.filterMap fun p =>
      if p.1.verifySignaturesSync valid = .ok () then some (p.2,p.1) else none).map Prod.snd =
        (l.map Prod.fst).filter fun tx => tx.verifySignaturesSync valid = .ok () := by
    intro l
    induction l with
    | nil => rfl
    | cons p l ih =>
      rw [List.filterMap_cons,List.map_cons,List.filter_cons]
      by_cases hv : p.1.verifySignaturesSync valid = .ok ()
      · simp only [hv,if_true,decide_true,List.map_cons,ih]
      · simp only [hv,if_false,decide_false,Bool.false_eq_true,ih]
  have hall := hfilter batch.zipIdx
  rw [List.zipIdx_map_fst] at hall
  exact hall

theorem txsToSchedule_sublist (valid : Ed25519) (batch : List Transaction) :
    ((txsToSchedule valid batch).map Prod.snd).Sublist batch := by
  rw [txsToSchedule_map]
  exact List.filter_sublist

theorem admittedOf_sublist (costModel : CostModel) (group : List (ℕ × Transaction))
    (s : BatchState) :
    (admittedOf costModel group s).Sublist (group.map Prod.snd) := by
  unfold admittedOf
  split
  · next admitted t h =>
    have hsub := (admitGroup_sublist h).map Prod.snd
    rw [List.map_map] at hsub
    exact hsub
  · exact List.nil_sublist _

end BankingStage

namespace Node

variable {rpc : RpcHost} {faucetPubkey : Pubkey} {s t : Node} {l : Label} {ls : List Label}

/-- Where the transactions of a batch stand while the groups are processed that are left of it. -/
structure Underway (ls : List Label) (batch : List Transaction)
    (groups : List (List (ℕ × Transaction))) (s : BatchState) : Prop where
  last : (batches ls).getLast? = some batch
  length : s.finalResults.length = batch.length
  nodup : (groups.flatten.map Prod.fst).Nodup
  fresh : ∀ i ∈ groups.flatten.map Prod.fst, standing s i = .fresh
  settled : ∀ i < batch.length, i ∉ groups.flatten.map Prod.fst → (standing s i).Over

/-- The batch at hand, if there is one, is underway. -/
def AtHand (ls : List Label) (s : Node) : Prop :=
  ∀ batch txs groups, s.banking = .processing batch txs groups → Underway ls batch groups s.state

theorem AtHand.idle (h : AtHand ls s) (hl : l.batches = []) (hb : t.banking = s.banking)
    (hresults : t.state.finalResults = s.state.finalResults) (hlog : t.state.log = s.state.log) :
    AtHand (ls ++ [l]) t := by
  intro batch txs groups hp
  have hu := h batch txs groups (hb ▸ hp)
  have hst : ∀ i, standing t.state i = standing s.state i := fun i => by
    rw [standing,standing,hresults,hlog]
  refine ⟨?_,by rw [hresults,hu.length],hu.nodup,fun i hi => (hst i).trans (hu.fresh i hi),?_⟩
  · rw [batches_snoc,hl,List.append_nil]
    exact hu.last
  · intro i hi hn
    rw [hst]
    exact hu.settled i hi hn

theorem AtHand.none
    (hb : ∀ batch txs groups, t.banking ≠ .processing batch txs groups) : AtHand ls t :=
  fun batch txs groups hp => absurd hp (hb batch txs groups)

theorem underway_schedule (ls : List Label) (batch : List Transaction) (s : Node)
    (hv : ∀ tx ∈ batch, tx.verifySignaturesSync host.ed25519 ≠ .panic) :
    Underway (ls ++ [.schedule batch]) batch
      (TransactionScheduler.schedule (BankingStage.txsToSchedule host.ed25519 batch))
      (BankingStage.verified host.ed25519 batch s.state) := by
  have hperm := (TransactionScheduler.schedule_flatten_perm
    (BankingStage.txsToSchedule host.ed25519 batch)).map Prod.fst
  refine ⟨?_,?_,hperm.nodup_iff.mpr (BankingStage.txsToSchedule_nodup _ _),fun i hi => ?_,
    fun i hi hn => ?_⟩
  · rw [batches_snoc]
    exact List.getLast?_concat
  · exact List.length_map _
  · obtain ⟨tx,ht,rfl⟩ := List.mem_map.mp (hperm.mem_iff.mp hi)
    exact BankingStage.verified_scheduled ht
  · -- what was not scheduled has not passed verification
    have hget := List.getElem?_eq_getElem hi
    cases hx : batch[i].verifySignaturesSync host.ed25519 with
    | ok u =>
      have hm := BankingStage.mem_txsToSchedule.mpr ⟨hget,hx⟩
      exact absurd (hperm.mem_iff.mpr (List.mem_map_of_mem hm)) hn
    | err e => exact .inr (.inl (BankingStage.verified_dropped hget hx))
    | panic => exact absurd hx (hv _ (List.getElem_mem hi))

theorem Underway.group {batch : List Transaction} {txs group : List (ℕ × Transaction)}
    {groups : List (List (ℕ × Transaction))} {s s' : BatchState} {admitted : List Transaction}
    (h : Underway ls batch (group :: groups) s) (hc : Connected s) (hmem : ∀ tx ∈ group, tx ∈ txs)
    (hsent : s'.stage.txSender = s.stage.txSender)
    (hr : BankingStage.processGroup host costModel txs group s = (.ok (),s')) :
    Underway (ls ++ [.group admitted]) batch groups s' := by
  have hlogs : Logs host txs s s' := (BankingStage.processGroup_keeps BankingStage.logs_across
    BankingStage.logs_commits (fun t ht _ _ => ht) hmem).of_run hr
  have hnd := h.nodup
  rw [List.flatten_cons,List.map_append] at hnd
  obtain ⟨hndg,hndr,hdisj⟩ := List.nodup_append.mp hnd
  have hother : ∀ i ∉ group.map Prod.fst, standing s' i = standing s i := fun i hi =>
    BankingStage.processGroup_standing hi hr
  have hpos : ∀ i, i ∈ (group :: groups).flatten.map Prod.fst ↔
      i ∈ group.map Prod.fst ∨ i ∈ groups.flatten.map Prod.fst := fun i => by
    rw [List.flatten_cons,List.map_append,List.mem_append]
  refine ⟨?_,?_,hndr,fun i hi => ?_,fun i hi hn => ?_⟩
  · have hbatches : batches (ls ++ [.group admitted]) = batches ls :=
      (batches_snoc ls _).trans (List.append_nil _)
    rw [hbatches]
    exact h.last
  · obtain ⟨_,-,-,-,-,-,hlen⟩ := hlogs
    exact hlen.trans h.length
  · rw [hother i fun hg => hdisj i hg i hi rfl]
    exact h.fresh i ((hpos i).mpr (.inr hi))
  · by_cases hg : i ∈ group.map Prod.fst
    · exact BankingStage.processGroup_over hndg hc hlogs hsent hr hg
        (h.fresh i ((hpos i).mpr (.inl hg)))
    · rw [hother i hg]
      exact h.settled i hi fun hm => ((hpos i).mp hm).elim hg hn

theorem atHand_step (hs : s.Sound host) (ho : InOrder ls s) (h : AtHand ls s)
    (hl : Step host rpc s l t) :
    AtHand (ls ++ [l]) t := by
  cases hl with
  | answer hm hr => exact h.idle rfl rfl rfl rfl
  | accept hm hr => exact h.idle rfl rfl rfl rfl
  | refuse hm hr hn => exact h.idle rfl rfl rfl rfl
  | queue ha hr => exact h.idle rfl rfl rfl rfl
  | unsent ha hr => exact h.idle rfl rfl rfl rfl
  | take hb hn hp => exact .none fun _ _ _ => by simp
  | schedule hb hc hv =>
    rintro batch txs groups hp
    cases hp
    exact underway_schedule ls _ s hv
  | joinError hb hc hv => exact .none fun _ _ _ => by simp [goTo]
  | group hb hr =>
    have halone := hs.alone hb
    rw [hr] at halone
    rintro batch txs groups hp
    cases hp
    exact (h _ _ _ hb).group (ho.connected (by simp [hb])) (fun tx ht => ((hs.group hb).2 tx ht).1)
      halone.txSender hr
  | groupError hb hr => exact .none fun _ _ _ => by simp
  | panic hb hr => exact .none fun _ _ _ => by simp [stopBanking]
  | finish hb => exact .none fun _ _ _ => by simp [finish]
  | leave he hb => exact .none fun _ _ _ => by simp [stopBanking]
  | turn hs hr => exact h.idle rfl rfl rfl rfl
  | endService hs hr hn => exact h.idle rfl rfl rfl rfl
  | leaveService he hs => exact h.idle rfl rfl rfl rfl
  | exit => exact h.idle rfl rfl rfl rfl

theorem atHand_run (hr : Run (Step host rpc) (start faucetPubkey) ls s) : AtHand ls s := by
  induction hr with
  | nil => exact .none fun _ _ _ => by simp [start]
  | snoc before last ih => exact atHand_step (sound_run before) (inOrder_run before) ih last

/-- The results of a batch that is over say for every transaction what has become of it. -/
theorem batch_settled_once {results : List (Option TransactionError)}
    (hr : Run (Step host rpc) (start faucetPubkey) (ls ++ [.finish results]) s) :
    ∃ batch, (batches ls).getLast? = some batch ∧ results.length = batch.length ∧
      ∀ i < batch.length, (Standing.of results s.state.log i).Over := by
  obtain ⟨t,before,last⟩ := hr.snoc_inv
  generalize hl : Label.finish results = l at last
  cases last with
  | finish hb =>
    cases hl
    have hu := atHand_run before _ _ _ hb
    exact ⟨_,hu.last,hu.length,fun i hi => hu.settled i hi (by simp)⟩
  | _ => cases hl

theorem payment_settled : ∃ batch, (batches paidLabels).getLast? = some batch ∧ 1 = batch.length ∧
    ∀ i < batch.length, (Standing.of [none] processedNode.finish.state.log i).Over :=
  batch_settled_once finished_run

/-! ### What is processed -/

/-- The admitted members of a processed group. -/
def Label.processed : Label → List Transaction
  | group admitted => admitted
  | _ => []

/-- The transactions that were processed, in the order of the groups. -/
def processed (ls : List Label) : List Transaction := ls.flatMap Label.processed

theorem processed_snoc (ls : List Label) (l : Label) :
    processed (ls ++ [l]) = processed ls ++ l.processed := by
  rw [processed,List.flatMap_append,List.flatMap_singleton]
  rfl

/-- Only groups process. -/
theorem processed_idle (h : ∀ admitted, l ≠ .group admitted) :
    processed (ls ++ [l]) = processed ls := by
  have hnone : l.processed = [] := by
    cases l with
    | group admitted => exact absurd rfl (h admitted)
    | _ => rfl
  rw [processed_snoc,hnone,List.append_nil]

/-- What was processed and what is left of the batch at hand was in the batches, each transaction as
often at least. What was processed has passed verification. -/
structure Spent (host : Host) (ls : List Label) (s : Node) : Prop where
  within : (processed ls ++ s.banking.remaining).Subperm (batches ls).flatten
  verified : ∀ tx ∈ processed ls ++ s.banking.remaining,
    tx.verifySignaturesSync host.ed25519 = .ok ()

theorem Spent.idle (h : Spent host ls s) (hp : l.processed = [])
    (hr : t.banking.remaining.Sublist s.banking.remaining) : Spent host (ls ++ [l]) t := by
  have hsub : (processed (ls ++ [l]) ++ t.banking.remaining).Sublist
      (processed ls ++ s.banking.remaining) := by
    rw [processed_snoc,hp,List.append_nil]
    exact List.Sublist.append_left hr _
  refine ⟨hsub.subperm.trans (h.within.trans ?_),fun tx ht => h.verified tx (hsub.subset ht)⟩
  rw [batches_snoc,List.flatten_append]
  exact (List.sublist_append_left _ _).subperm

theorem Spent.schedule {batch : List Transaction} (h : Spent host ls s)
    (hb : s.banking = .collecting batch) :
    Spent host (ls ++ [.schedule batch]) (s.schedule host batch) := by
  let txs := BankingStage.txsToSchedule host.ed25519 batch
  have hperm : ((TransactionScheduler.schedule txs).flatten.map Prod.snd).Perm (txs.map Prod.snd) :=
    (TransactionScheduler.schedule_flatten_perm txs).map Prod.snd
  have hremaining : (s.schedule host batch).banking.remaining =
      (TransactionScheduler.schedule txs).flatten.map Prod.snd := rfl
  have hnone : processed ls ++ s.banking.remaining = processed ls := by
    rw [hb]
    exact List.append_nil _
  have hbefore := hnone ▸ h.within
  have hverified := hnone ▸ h.verified
  have hprocessed : processed (ls ++ [.schedule batch]) = processed ls :=
    (processed_snoc ls _).trans (List.append_nil _)
  have hbatches : Node.batches (ls ++ [.schedule batch]) = Node.batches ls ++ [batch] :=
    batches_snoc ls _
  refine ⟨?_,?_⟩
  · rw [hprocessed,hbatches,List.flatten_append,List.flatten_singleton,hremaining]
    exact hbefore.append (hperm.subperm.trans (BankingStage.txsToSchedule_sublist _ _).subperm)
  · rw [hprocessed,hremaining]
    intro tx ht
    rcases List.mem_append.mp ht with ht | ht
    · exact hverified tx ht
    · obtain ⟨p,hp,rfl⟩ := List.mem_map.mp (hperm.subset ht)
      exact (BankingStage.mem_txsToSchedule.mp hp).2

theorem Spent.group {batch : List Transaction} {txs group : List (ℕ × Transaction)}
    {groups : List (List (ℕ × Transaction))} (h : Spent host ls s)
    (hb : s.banking = .processing batch txs (group :: groups)) {admitted : List Transaction}
    (ha : admitted.Sublist (group.map Prod.snd)) (ht : t.banking = .processing batch txs groups) :
    Spent host (ls ++ [.group admitted]) t := by
  have hsub : (processed (ls ++ [.group admitted]) ++ t.banking.remaining).Sublist
      (processed ls ++ s.banking.remaining) := by
    have hprocessed : processed (ls ++ [.group admitted]) = processed ls ++ admitted :=
      processed_snoc ls _
    rw [hprocessed,ht,hb,BankingTask.remaining,BankingTask.remaining,List.flatten_cons,
      List.map_append,List.append_assoc]
    exact List.Sublist.append_left (ha.append_right _) _
  have hbatches : Node.batches (ls ++ [.group admitted]) = Node.batches ls :=
    (batches_snoc ls _).trans (List.append_nil _)
  refine ⟨?_,fun tx hm => h.verified tx (hsub.subset hm)⟩
  rw [hbatches]
  exact hsub.subperm.trans h.within

theorem spent_step (h : Spent host ls s) (hl : Step host rpc s l t) : Spent host (ls ++ [l]) t := by
  cases hl with
  | schedule hb hc hv => exact h.schedule hb
  | group hb hr => exact h.group hb (BankingStage.admittedOf_sublist _ _ _) rfl
  | joinError hb hc hv => exact h.idle rfl (List.nil_sublist _)
  | take hb hn hp => exact h.idle rfl (List.nil_sublist _)
  | groupError hb hr => exact h.idle rfl (List.nil_sublist _)
  | panic hb hr => exact h.idle rfl (List.nil_sublist _)
  | finish hb => exact h.idle rfl (List.nil_sublist _)
  | leave he hb => exact h.idle rfl (List.nil_sublist _)
  | _ => exact h.idle rfl (List.Sublist.refl _)

theorem spent_run (hr : Run (Step host rpc) (start faucetPubkey) ls s) : Spent host ls s := by
  induction hr with
  | nil => exact ⟨List.Subperm.refl _,fun _ ht => absurd ht List.not_mem_nil⟩
  | snoc before last ih => exact spent_step ih last

theorem within_queued (hr : Run (Step host rpc) (start faucetPubkey) ls s) :
    (processed ls).Subperm (queued ls) ∧
      ∀ tx ∈ processed ls, tx.verifySignaturesSync host.ed25519 = .ok () := by
  have h := spent_run hr
  have ho := inOrder_run hr
  refine ⟨?_,fun tx ht => h.verified tx (List.mem_append_left _ ht)⟩
  have hqueued : (batches ls).flatten.Sublist (queued ls) := by
    rw [← ho.sent]
    refine List.Sublist.trans ?_ (List.take_sublist s.taken _)
    rw [ho.taken]
    exact List.sublist_append_left _ _
  exact (List.sublist_append_left _ _).subperm.trans (h.within.trans hqueued.subperm)

/-- What is processed was queued and verified, and it is not processed more often than it was
queued. -/
theorem processed_once_per_submission (hr : Run (Step host rpc) (start faucetPubkey) ls s) :
    (∀ tx, (processed ls).count tx ≤ (queued ls).count tx) ∧
      ∀ tx ∈ processed ls, tx.verifySignaturesSync host.ed25519 = .ok () := by
  obtain ⟨hsub,hverified⟩ := within_queued hr
  exact ⟨hsub.count_le,hverified⟩

theorem payment_processed_once :
    (∀ tx, (processed paidLabels).count tx ≤ [faucetPayment].count tx) ∧
    ∀ tx ∈ processed paidLabels, tx.verifySignaturesSync (default : Host).ed25519 = .ok () :=
  processed_once_per_submission processed_run

end Node

end TinySolana
