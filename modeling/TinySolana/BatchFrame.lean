import TinySolana.BatchAccounting
import TinySolana.Overlays

/-!
# Frame and atomicity of a batch

A batch overwrites the store with the overlays of the transactions whose result is empty, group
after group, and with nothing else. Every overlay holds the accounts of its transaction's keys,
computed over the store that the groups before have left.
-/

namespace TinySolana
open Foundations Exec

/-- A sublist that keeps everything a filter lets through is filtered alike. -/
theorem filter_eq_of_sublist {α : Type} {p : α → Bool} {l l' : List α} (h : l'.Sublist l)
    (hnd : l.Nodup) (hp : ∀ a ∈ l, p a = true → a ∈ l') : l'.filter p = l.filter p := by
  induction h with
  | slnil => rfl
  | @cons l' l a h ih =>
    obtain ⟨hn,hnd⟩ := List.nodup_cons.mp hnd
    have ha : p a ≠ true := fun ha => hn (h.subset (hp a List.mem_cons_self ha))
    rw [List.filter_cons_of_neg ha]
    exact ih hnd fun b hb => hp b (List.mem_cons_of_mem a hb)
  | @cons_cons l' l a h ih =>
    obtain ⟨hn,hnd⟩ := List.nodup_cons.mp hnd
    have hrest : l'.filter p = l.filter p := ih hnd fun b hb hpb => by
      rcases List.mem_cons.mp (hp b (List.mem_cons_of_mem a hb) hpb) with rfl | hb'
      · exact absurd hb hn
      · exact hb'
    rw [List.filter_cons,List.filter_cons,hrest]

namespace BankingStage

variable {host : Host} {costModel : CostModel} {s s' : BatchState}

/-- The store of the bank is left alone. -/
def SameStore (s s' : BatchState) : Prop := s'.bank.accounts = s.bank.accounts

instance : Std.Refl SameStore := ⟨fun _ => rfl⟩

instance : IsTrans BatchState SameStore := ⟨fun _ _ _ h h' => h'.trans h⟩

theorem sameStore_across : AcrossStages (fun _ => True) SameStore where
  locks _ _ := rfl
  tracker _ _ := rfl
  records _ _ := rfl
  cache _ _ := rfl
  metrics _ ok := by cases ok <;> rfl
  freezeLock _ _ := rfl
  recorded _ _ := rfl
  result _ _ _ _ := rfl
  requeued s tx _ := by
    unfold requeueTransaction
    rw [Exec.modify_run]
    cases s.stage.txSender.send tx.2 <;> rfl

/-- Index `i` has an empty result. -/
def Succeeded (s : BatchState) (i : ℕ) : Prop := s.finalResults[i]? = some none

instance (s : BatchState) (i : ℕ) : Decidable (Succeeded s i) := inferInstanceAs (Decidable (_ = _))

theorem succeeded_iff (s : BatchState) (i : ℕ) :
    Succeeded s i ↔ (standing s i).result = some none :=
  Iff.rfl

theorem not_succeeded_fail {st : Standing} {e : TransactionError} {i : ℕ}
    (h : (standing s i).result = (st.fail e).result) : ¬Succeeded s i := by
  rw [succeeded_iff,h,Standing.fail]
  cases st.result <;> simp

/-- Overlay `o` is what the transaction with its index makes of the store. -/
def MadeFrom (host : Host) (costModel : CostModel) (group : List (ℕ × Transaction))
    (store : InMemoryAccountStore) (o : ℕ × OverlayStore) : Prop :=
  ∃ tx cache cache', (o.1,tx) ∈ group ∧ Bank.executeOnOverlay host store tx
    (costModel.calculateCost tx).sum cache = (.ok o.2,cache')

/-- What a group has committed: the overlays of its members with an empty result, in its order. -/
structure GroupCommits (host : Host) (costModel : CostModel) (group : List (ℕ × Transaction))
    (s s' : BatchState) (overlays : List (ℕ × OverlayStore)) : Prop where
  indices : overlays.map Prod.fst = (group.map Prod.fst).filter fun i => Succeeded s' i
  made : ∀ o ∈ overlays, MadeFrom host costModel group s.bank.accounts o
  store : s'.bank.accounts = commitOverlays (overlays.map Prod.snd) s.bank.accounts

/-- A group of which nothing succeeds commits nothing. -/
theorem GroupCommits.nothing {group : List (ℕ × Transaction)} (hs : SameStore s s')
    (hfail : ∀ i ∈ group.map Prod.fst, ¬Succeeded s' i) :
      GroupCommits host costModel group s s' [] where
  indices := by
    symm
    rw [List.map_nil,List.filter_eq_nil_iff]
    exact fun i hi => by simpa using hfail i hi
  made := by simp
  store := hs

section settled

variable {results : List TransactionProcessResult} {overlays : List (ℕ × OverlayStore)}

/-- A member whose result is settled succeeds exactly when it has an overlay. -/
theorem settled_succeeds (hnd : (results.map fun r => r.member.originalIndex).Nodup)
    (hfresh : ∀ r ∈ results, Succeeded s r.member.originalIndex)
    (h : settleGroup results s = (.ok overlays,s')) {r : TransactionProcessResult}
    (hr : r ∈ results) :
    Succeeded (commitGroup overlays s').2 r.member.originalIndex ↔
      r.processingResult.isOk = true := by
  have hst := settleGroup_result hnd h hr
  have hfr : (standing s r.member.originalIndex).result = some none := hfresh r hr
  rw [succeeded_iff,standing_commit]
  change (standing s' _).result = _ ↔ _
  rw [hst]
  cases r.processingResult with
  | ok o => exact iff_of_true hfr rfl
  | error e =>
    refine iff_of_false ?_ (by simp [Except.isOk,Except.toBool])
    simp only [Standing.settle,Standing.fail]
    split <;> simp [Standing.requeue,hfr]

/-- The overlays to commit are those of the members that succeed. -/
theorem settled_indices (hnd : (results.map fun r => r.member.originalIndex).Nodup)
    (hfresh : ∀ r ∈ results, Succeeded s r.member.originalIndex)
    (h : settleGroup results s = (.ok overlays,s')) : overlays.map Prod.fst =
      (results.map fun r => r.member.originalIndex).filter
        fun i => Succeeded (commitGroup overlays s').2 i := by
  have hsucc := fun r (hr : r ∈ results) => settled_succeeds hnd hfresh h hr
  rw [settleGroup_overlays h] at hsucc ⊢
  rw [List.map_filterMap,List.filter_map,← List.filterMap_eq_map,List.filterMap_filter]
  refine List.filterMap_congr fun r hr => ?_
  have hiff := hsucc r hr
  cases hp : r.processingResult with
  | ok o =>
    rw [hp] at hiff
    exact (if_pos (decide_eq_true (hiff.mpr rfl))).symm
  | error e =>
    rw [hp] at hiff
    exact (if_neg (by simpa using fun hc => by cases hiff.mp hc)).symm

end settled

theorem runGroup_commits {admitted : List Admitted}
    (hnd : (admitted.map Admitted.originalIndex).Nodup)
    (hcost : ∀ m ∈ admitted, m.cost = costModel.calculateCost m.transaction)
    (hfresh : ∀ i ∈ admitted.map Admitted.originalIndex, Succeeded s i)
    (h : runGroup host admitted s = (.ok (),s')) : ∃ overlays,
      GroupCommits host costModel (admitted.map fun m => (m.originalIndex,m.transaction)) s
        s' overlays := by
  obtain ⟨results,overlays,s₁,s₂,u,hx,-,hreach,hset,rfl⟩ := runGroup_ok h
  have hstore : u.bank.accounts = s.bank.accounts :=
    ((settleGroup_keeps sameStore_across fun _ _ => trivial).of_run hset).trans
      (hreach _ _ sameStore_across)
  obtain ⟨rfl,hrun⟩ := executeGroup_results hx
  rw [List.map_map] at hnd
  have hfresh₂ : ∀ r ∈ results, Succeeded (logEvents [.recorded ((results.map
      TransactionProcessResult.member).map Admitted.originalIndex)] s₂).2
        r.member.originalIndex := by
    intro r hr
    rw [succeeded_iff,hreach _ _ (sameStanding_across r.member.originalIndex)]
    exact hfresh _ (List.mem_map_of_mem (List.mem_map_of_mem hr))
  refine ⟨overlays,?_,fun o ho => ?_,?_⟩
  · rw [settled_indices hnd hfresh₂ hset,List.map_map,List.map_map]
    rfl
  · obtain ⟨r,hr,hi,hok⟩ := settleGroup_made hset ho
    obtain ⟨cache,cache',hproc⟩ := hrun r hr o.2 hok
    have hmem : r.member ∈ results.map TransactionProcessResult.member := List.mem_map_of_mem hr
    rw [hcost _ hmem] at hproc
    exact ⟨r.member.transaction,cache,cache',List.mem_map.mpr ⟨r.member,hmem,by rw [hi]⟩,
      (Bank.processSingleTransaction_ok hproc).2⟩
  · change commitOverlays _ u.bank.accounts = _
    rw [hstore]

section admitted

variable {group : List (ℕ × Transaction)} {admitted : List Admitted}

theorem admitted_nodup (hnd : (group.map Prod.fst).Nodup)
    (ha : admitGroup costModel group s = (.ok admitted,s')) :
    (admitted.map Admitted.originalIndex).Sublist (group.map Prod.fst) ∧
      (admitted.map Admitted.originalIndex).Nodup := by
  have hsub := (admitGroup_sublist ha).map Prod.fst
  rw [List.map_map] at hsub
  exact ⟨hsub,hsub.nodup hnd⟩

/-- A member that is not admitted has an error for its result. -/
theorem succeeded_admitted (hnd : (group.map Prod.fst).Nodup)
    (hfresh : ∀ i ∈ group.map Prod.fst, Succeeded s i)
    (ha : admitGroup costModel group s = (.ok admitted,s')) {i : ℕ} (hi : i ∈ group.map Prod.fst) :
    Succeeded s' i ↔ i ∈ admitted.map Admitted.originalIndex := by
  have hfr : (standing s i).result = some none := hfresh i hi
  rw [succeeded_iff,admitGroup_member hnd ha hi]
  split
  · next him => exact iff_of_true hfr him
  · next him => exact iff_of_false (by simp [Standing.fail,hfr]) him

/-- No member succeeds whose group is given up. -/
theorem rolledBack_fails {txs : List (ℕ × Transaction)}
    (hnd : (admitted.map Admitted.originalIndex).Nodup)
    (h : rollBackGroup txs admitted s = (.ok (),s')) {i : ℕ}
    (hi : Succeeded s i ↔ i ∈ admitted.map Admitted.originalIndex) : ¬Succeeded s' i := by
  intro hs
  by_cases him : i ∈ admitted.map Admitted.originalIndex
  · exact not_succeeded_fail (rollBackGroup_result hnd h him) hs
  · have hk := (rollBackGroup_keeps (sameStanding_across i) (lookupClosed_ne _ i)
      fun m hm he => him (List.mem_map.mpr ⟨m,hm,he⟩)).of_run h
    rw [succeeded_iff,hk] at hs
    exact him (hi.mp hs)

end admitted

theorem processGroup_commits {txs group : List (ℕ × Transaction)} (hnd : (group.map Prod.fst).Nodup)
    (hfresh : ∀ i ∈ group.map Prod.fst, Succeeded s i)
    (h : processGroup host costModel txs group s = (.ok (),s')) :
    ∃ overlays, GroupCommits host costModel group s s' overlays := by
  obtain ⟨admitted,t,ha,h⟩ := processGroup_ok h
  have hsub := admitGroup_sublist ha
  obtain ⟨hsubi,hnd'⟩ := admitted_nodup hnd ha
  have hst := fun i hi => succeeded_admitted hnd hfresh ha (i := i) hi
  have ht : SameStore s t := (admitGroup_keeps sameStore_across fun _ _ => trivial).of_run ha
  obtain ⟨rfl,rfl⟩ | ⟨u,hu,h⟩ | ⟨u,v,hu,hrun,hv⟩ := h
  · exact ⟨[],.nothing ht fun i hi hs => List.not_mem_nil ((hst i hi).mp hs)⟩
  · have hstore : SameStore s u := IsTrans.trans _ _ _ ht (hu _ _ sameStore_across)
    refine ⟨[],.nothing (IsTrans.trans _ _ _ hstore ((rollBackGroup_keeps sameStore_across
      (fun _ _ _ _ => trivial) fun _ _ => trivial).of_run h)) fun i hi => ?_⟩
    refine rolledBack_fails hnd' h ?_
    rw [succeeded_iff,hu _ _ (sameStanding_across i)]
    exact hst i hi
  · have hstore : u.bank.accounts = s.bank.accounts :=
      Eq.trans (hu _ _ sameStore_across) ht
    have hstore' : s'.bank.accounts = v.bank.accounts := hv _ _ sameStore_across
    have hsu : ∀ i, standing u i = standing t i := fun i => hu _ _ (sameStanding_across i)
    have hsv : ∀ i, standing s' i = standing v i := fun i => hv _ _ (sameStanding_across i)
    obtain ⟨overlays,hc⟩ := runGroup_commits hnd' (admitGroup_cost ha) (fun i him => by
      rw [succeeded_iff,hsu]
      exact (hst i (hsubi.subset him)).mpr him) hrun
    refine ⟨overlays,?_,fun o ho => ?_,?_⟩
    · have hsame : ∀ i, Succeeded v i ↔ Succeeded s' i := fun i => by
        rw [succeeded_iff,succeeded_iff,hsv]
      rw [hc.indices,List.map_map]
      simp only [hsame]
      refine filter_eq_of_sublist hsubi hnd fun i hi hp => ?_
      by_contra him
      have hk := (runGroup_keeps (sameStanding_across i) (sameStanding_commits host i)
        fun m hm he => him (List.mem_map.mpr ⟨m,hm,he⟩)).of_run hrun
      have hsucc : Succeeded s' i := of_decide_eq_true hp
      rw [succeeded_iff,hsv,hk,hsu] at hsucc
      exact him ((hst i hi).mp hsucc)
    · obtain ⟨tx,cache,cache',hm,hx⟩ := hc.made o ho
      rw [hstore] at hx
      exact ⟨tx,cache,cache',hsub.subset hm,hx⟩
    · rw [hstore',hc.store,hstore]

/-- The overlays that a list of groups commits to a store: for every group in turn those of its
members that succeed, each made from the store as the groups before have left it. -/
def Commits (host : Host) (costModel : CostModel) (succeeded : ℕ → Prop) [DecidablePred succeeded] :
    List (List (ℕ × Transaction)) → InMemoryAccountStore → List (ℕ × OverlayStore) → Prop
  | [], _, overlays => overlays = []
  | group :: rest, store, overlays => ∃ own others, overlays = own ++ others ∧
      own.map Prod.fst = (group.map Prod.fst).filter (fun i => succeeded i) ∧
      (∀ o ∈ own, MadeFrom host costModel group store o) ∧
      Commits host costModel succeeded rest (commitOverlays (own.map Prod.snd) store) others

theorem processGroups_commits {txs : List (ℕ × Transaction)}
    {groups : List (List (ℕ × Transaction))} (hnd : (groups.flatten.map Prod.fst).Nodup)
    (hfresh : ∀ i ∈ groups.flatten.map Prod.fst, Succeeded s i)
    (h : processGroups host costModel txs groups s = (.ok (),s')) : ∃ overlays,
      Commits host costModel (Succeeded s') groups s.bank.accounts overlays ∧
        s'.bank.accounts = commitOverlays (overlays.map Prod.snd) s.bank.accounts := by
  induction groups generalizing s with
  | nil =>
    cases h
    exact ⟨[],rfl,rfl⟩
  | cons group rest ih =>
    simp only [processGroups] at h
    obtain ⟨_,s₁,hg,hr⟩ := Exec.bind_ok.mp h
    rw [List.flatten_cons,List.map_append] at hnd hfresh
    obtain ⟨hndg,hndr,hdisj⟩ := List.nodup_append.mp hnd
    obtain ⟨own,hown⟩ := processGroup_commits hndg
      (fun i hi => hfresh i (List.mem_append_left _ hi)) hg
    obtain ⟨others,hothers,hstore⟩ := ih hndr (fun i hi => by
      rw [succeeded_iff,processGroup_standing (fun hi' => hdisj i hi' i hi rfl) hg]
      exact hfresh i (List.mem_append_right _ hi)) hr
    rw [hown.store] at hothers hstore
    refine ⟨own ++ others,⟨own,others,rfl,?_,hown.made,hothers⟩,?_⟩
    · rw [hown.indices]
      refine List.filter_congr fun i hi => ?_
      -- The groups behind leave the results of this one alone.
      have hlater : standing s' i = standing s₁ i :=
        processGroups_standing (fun hi' => hdisj i hi i hi' rfl) hr
      simp only [succeeded_iff,hlater]
    · rw [hstore,List.map_append,commitOverlays_append]

namespace Commits

variable {succeeded : ℕ → Prop} [DecidablePred succeeded] {groups : List (List (ℕ × Transaction))}
  {store : InMemoryAccountStore} {overlays : List (ℕ × OverlayStore)}

theorem indices (h : Commits host costModel succeeded groups store overlays) :
    overlays.map Prod.fst = (groups.flatten.map Prod.fst).filter fun i => succeeded i := by
  induction groups generalizing store overlays with
  | nil =>
    obtain rfl : overlays = [] := h
    rfl
  | cons group rest ih =>
    obtain ⟨own,others,rfl,hown,-,hrest⟩ := h
    rw [List.map_append,hown,ih hrest,List.flatten_cons,List.map_append,List.filter_append]

/-- The dirty keys of an overlay are the keys of its transaction, and each account names its key. -/
theorem dirty_keys (hk : store.Keyed) (h : Commits host costModel succeeded groups store overlays) :
    (commitOverlays (overlays.map Prod.snd) store).Keyed ∧
      ∀ o ∈ overlays, ∃ tx, (o.1,tx) ∈ groups.flatten ∧ ∀ k, k ∈ o.2.dirty ↔
        k ∈ tx.message.accountKeys := by
  induction groups generalizing store overlays with
  | nil =>
    obtain rfl : overlays = [] := h
    exact ⟨hk,fun o ho => absurd ho List.not_mem_nil⟩
  | cons group rest ih =>
    obtain ⟨own,others,rfl,-,hmade,hrest⟩ := h
    -- All overlays of the group come from the same store, which stays keyed as they are flushed.
    have hkeys : ∀ (os : List (ℕ × OverlayStore)),
      (∀ o ∈ os, MadeFrom host costModel group store o) →
        ∀ p : InMemoryAccountStore, p.Keyed → (commitOverlays (os.map Prod.snd) p).Keyed := by
      intro os
      induction os with
      | nil => exact fun _ p hp => hp
      | cons o os ihos =>
        intro hos p hp
        obtain ⟨tx,_,_,-,hx⟩ := hos o List.mem_cons_self
        exact ihos (fun o' ho' => hos o' (List.mem_cons_of_mem _ ho')) _
          (Bank.flush_keyed (fun k _ => hk k) hx hp)
    obtain ⟨hkeyed,hothers⟩ := ih (hkeys own hmade store hk) hrest
    refine ⟨?_,fun o ho => ?_⟩
    · rwa [List.map_append,commitOverlays_append]
    rw [List.flatten_cons]
    rcases List.mem_append.mp ho with ho | ho
    · obtain ⟨tx,_,_,hm,hx⟩ := hmade o ho
      refine ⟨tx,List.mem_append_left _ hm,fun k => ?_⟩
      rw [Finmap.mem_iff]
      by_cases hkm : k ∈ tx.message.accountKeys
      · obtain ⟨a,ha,-⟩ := Bank.overlay_entry (fun k _ => hk k) hx hkm
        exact iff_of_true ⟨a,ha⟩ hkm
      · refine iff_of_false ?_ hkm
        rintro ⟨a,ha⟩
        rw [Bank.overlay_other (fun k _ => hk k) hx hkm] at ha
        cases ha
    · obtain ⟨tx,hm,hdirty⟩ := hothers o ho
      exact ⟨tx,List.mem_append_right _ hm,hdirty⟩

end Commits

/-- A key that no overlay holds keeps its entry. -/
theorem commitOverlays_load_of_clean {overlays : List OverlayStore} {k : Pubkey}
    (h : ∀ o ∈ overlays, k ∉ o.dirty) (p : InMemoryAccountStore) :
    (commitOverlays overlays p).load k = p.load k := by
  rw [commitOverlays_load,List.findSome?_eq_none_iff.mpr fun o ho =>
    Finmap.lookup_eq_none.mpr (h o (List.mem_reverse.mp ho)),Option.none_or]

/-- What a batch that returns has done to the store. -/
structure Framed (host : Host) (costModel : CostModel) (transactions : List Transaction)
    (before : BatchState) (results : List (Option TransactionError)) (after : BatchState)
    (overlays : List (ℕ × OverlayStore)) : Prop where
  /-- Every transaction with an empty result has one overlay, and no other transaction has any. -/
  succeeded : ∀ i : ℕ, (overlays.map Prod.fst).count i = if results[i]? = some none then 1 else 0
  /-- The overlays stand in the order of the groups, each made by its transaction. -/
  commits : Commits host costModel (fun i => results[i]? = some none)
    (TransactionScheduler.schedule (txsToSchedule host.ed25519 transactions))
      before.bank.accounts overlays
  store : after.bank.accounts = commitOverlays (overlays.map Prod.snd) before.bank.accounts
  /-- A key has the account of the last overlay that holds it, or the entry it had. -/
  loads : ∀ k, after.bank.accounts.load k =
    ((overlays.map Prod.snd).reverse.findSome? fun o => o.dirty.lookup k).or
    (before.bank.accounts.load k)
  keyed : before.bank.accounts.Keyed → after.bank.accounts.Keyed
  dirty : before.bank.accounts.Keyed → ∀ (i : ℕ) (o : OverlayStore), (i,o) ∈ overlays →
    ∃ tx : Transaction, transactions[i]? = some tx ∧ ∀ k, k ∈ o.dirty ↔ k ∈ tx.message.accountKeys
  frame : before.bank.accounts.Keyed → ∀ k,
    (∀ (i : ℕ) (tx : Transaction), transactions[i]? = some tx → results[i]? = some none →
      k ∉ tx.message.accountKeys) →
      after.bank.accounts.load k = before.bank.accounts.load k

end BankingStage

namespace BankingStage

/-- A transaction that was not scheduled has the error of its verification. -/
theorem succeeded_scheduled {host : Host} {costModel : CostModel} {transactions : List Transaction}
    {s s' : BatchState} {results : List (Option TransactionError)}
    (h : processBatch host costModel transactions s = (.ok results,s')) {i : ℕ}
    (hi : results[i]? = some none) : i ∈ (TransactionScheduler.schedule
      (txsToSchedule host.ed25519 transactions)).flatten.map Prod.fst := by
  have hlen : results.length = transactions.length := by
    obtain ⟨_,-,-,-,-,-,hl⟩ := processBatch_logs h
    obtain ⟨-,-,-,-,rfl⟩ := processBatch_ok h
    rw [hl]
    simp [verified,verificationResults]
  obtain ⟨hp,s₁,hg,rfl,rfl⟩ := processBatch_ok h
  by_contra hn
  have hlt : i < transactions.length := by
    rw [← hlen]
    exact (List.getElem?_eq_some_iff.mp hi).1
  have hget := List.getElem?_eq_getElem hlt
  have hst := processGroups_standing hn hg
  cases hv : transactions[i].verifySignaturesSync host.ed25519 with
  | panic => exact hp _ (List.getElem_mem hlt) hv
  | ok u =>
    refine hn (List.mem_map.mpr ⟨(i,transactions[i]),?_,rfl⟩)
    exact (TransactionScheduler.schedule_flatten_perm _).mem_iff.mpr
      (mem_txsToSchedule.mpr ⟨hget,hv⟩)
  | err e =>
    obtain ⟨e',he',-⟩ := verified_dropped (s := s) hget hv
    have hnone : (standing s₁ i).result = some none := hi
    rw [hst,he'] at hnone
    cases hnone

end BankingStage

/-- A batch that returns overwrites the store with the overlays of the transactions whose result is
empty, in the order of their groups, and leaves every other entry as it was. -/
theorem batch_framed {host : Host} {costModel : CostModel} {transactions : List Transaction}
    {s s' : BatchState} {results : List (Option TransactionError)}
    (h : BankingStage.processBatch host costModel transactions s = (.ok results,s')) :
    ∃ overlays, BankingStage.Framed host costModel transactions s results s' overlays := by
  have hscheduled := fun i => BankingStage.succeeded_scheduled h (i := i)
  obtain ⟨hp,s₁,hg,rfl,rfl⟩ := BankingStage.processBatch_ok h
  have hperm := (TransactionScheduler.schedule_flatten_perm
    (BankingStage.txsToSchedule host.ed25519 transactions))
  have hnd : ((TransactionScheduler.schedule (BankingStage.txsToSchedule host.ed25519
      transactions)).flatten.map Prod.fst).Nodup :=
    (hperm.map Prod.fst).nodup_iff.mpr (BankingStage.txsToSchedule_nodup _ _)
  have hmem : ∀ i tx, (i,tx) ∈
    (TransactionScheduler.schedule (BankingStage.txsToSchedule host.ed25519
      transactions)).flatten → transactions[i]? = some tx ∧
        tx.verifySignaturesSync host.ed25519 = .ok () :=
    fun i tx hm => BankingStage.mem_txsToSchedule.mp (hperm.subset hm)
  obtain ⟨overlays,hc,hstore⟩ := BankingStage.processGroups_commits hnd (fun i hi => by
    obtain ⟨tx,ht,rfl⟩ := List.mem_map.mp hi
    have hfresh := BankingStage.verified_scheduled (s := s) (hperm.subset ht)
    rw [BankingStage.succeeded_iff,hfresh]
    rfl) hg
  have hindices := hc.indices
  refine ⟨overlays,?_,hc,hstore,fun k => ?_,?_,?_,?_⟩
  · intro i
    rw [hindices]
    by_cases hi : BankingStage.Succeeded s₁ i
    · have hcount := List.count_filter (p := fun i => decide (BankingStage.Succeeded s₁ i))
        (l := (TransactionScheduler.schedule (BankingStage.txsToSchedule host.ed25519
          transactions)).flatten.map Prod.fst) (decide_eq_true hi)
      rw [List.count_eq_one_of_mem hnd (hscheduled i hi)] at hcount
      exact hcount.trans (if_pos hi).symm
    · refine (List.count_eq_zero.mpr fun hm => hi ?_).trans (if_neg hi).symm
      exact of_decide_eq_true (List.mem_filter.mp hm).2
  · exact (congrArg (InMemoryAccountStore.load · k) hstore).trans (commitOverlays_load _ _ k)
  · intro hk
    change InMemoryAccountStore.Keyed s₁.bank.accounts
    rw [hstore]
    exact (hc.dirty_keys hk).1
  · intro hk i o ho
    obtain ⟨tx,hm,hdirty⟩ := (hc.dirty_keys hk).2 (i,o) ho
    exact ⟨tx,(hmem i tx hm).1,hdirty⟩
  · intro hk k hkeys
    change InMemoryAccountStore.load s₁.bank.accounts k = _
    rw [hstore]
    refine BankingStage.commitOverlays_load_of_clean (fun o ho => ?_) _
    obtain ⟨e,he,rfl⟩ := List.mem_map.mp ho
    obtain ⟨tx,hm,hdirty⟩ := (hc.dirty_keys hk).2 e he
    have hi : e.1 ∈ overlays.map Prod.fst := List.mem_map_of_mem he
    rw [hindices] at hi
    rw [hdirty]
    exact hkeys e.1 tx (hmem e.1 tx hm).1 (of_decide_eq_true (List.mem_filter.mp hi).2)

/-- The second payment overdraws the wallet and leaves the store to the first one. -/
theorem payment_framed :
    let s := BatchState.new ((∅ : InMemoryAccountStore).store (.ofByte 1) (wallet 1 10))
    let batch := [payment [blankSignature] 3,payment [blankSignature] 30]
    let results := [none,some (.programError .insufficientFunds)]
    let run := BankingStage.processBatch default .new batch s
    run.1 = .ok results ∧ s.bank.accounts.Keyed ∧
      ∃ overlays, BankingStage.Framed default .new batch s results run.2 overlays := by
  intro s batch results run
  have hok : run.1 = .ok results := by decide +kernel
  have hrun : run = (.ok results,run.2) := by rw [← hok]
  exact ⟨hok,InMemoryAccountStore.keyed_empty.store (wallet 1 10),batch_framed hrun⟩

end TinySolana
