import Mathlib.Data.List.ReduceOption
import TinySolana.BatchFrame
import TinySolana.NodeLedger

/-!
# The node while it flushes

A group is flushed entry by entry, and handlers of requests read the store in between. What they are
told of an account is what it was before the group or what it is behind it, as long as transactions
declare what they share. Behind the last entry the node is where the step of the group has put it.
-/

namespace TinySolana
open Foundations

/-! ## The overlays of a group -/

namespace BankingStage

variable {host : Host} {costModel : CostModel} {s t u : BatchState}

/-- The overlays that the log says were flushed since. -/
def flushedSince (s t : BatchState) : List OverlayStore :=
  (t.log.drop s.log.length).filterMap BatchEvent.overlay?

/-- The new part of the log flushes these overlays. -/
def LogsFlushed (overlays : List OverlayStore) (s t : BatchState) : Prop :=
  ∃ events, t.log = s.log ++ events ∧ events.filterMap BatchEvent.overlay? = overlays

theorem LogsFlushed.since {overlays : List OverlayStore} (h : LogsFlushed overlays s t) :
    flushedSince s t = overlays := by
  obtain ⟨events,hlog,hevents⟩ := h
  rw [flushedSince,hlog,List.drop_left,hevents]

theorem LogsFlushed.append {overlays overlays' : List OverlayStore} (h : LogsFlushed overlays s t)
    (h' : LogsFlushed overlays' t u) : LogsFlushed (overlays ++ overlays') s u := by
  obtain ⟨events,hlog,rfl⟩ := h
  obtain ⟨events',hlog',rfl⟩ := h'
  exact ⟨events ++ events',by rw [hlog',hlog,List.append_assoc],List.filterMap_append⟩

/-- A step that logs nothing. -/
theorem LogsFlushed.none (h : t.log = s.log) : LogsFlushed [] s t :=
  ⟨[],by rw [h,List.append_nil],rfl⟩

instance : Std.Refl (LogsFlushed []) := ⟨fun _ => .none rfl⟩

instance : IsTrans BatchState (LogsFlushed []) := ⟨fun _ _ _ h h' => h.append h'⟩

/-- Only a commit flushes. -/
theorem unflushed_across : AcrossStages (fun _ => True) (LogsFlushed []) where
  locks _ _ := .none rfl
  tracker _ _ := .none rfl
  records _ _ := .none rfl
  cache _ _ := .none rfl
  metrics _ ok := .none (by cases ok <;> rfl)
  freezeLock _ _ := .none rfl
  recorded _ indices := ⟨[.recorded indices],rfl,rfl⟩
  result _ _ _ _ := .none rfl
  requeued s tx _ := by
    unfold requeueTransaction
    rw [Exec.modify_run]
    cases s.stage.txSender.send tx.2 with
    | none => exact .none rfl
    | some c => exact ⟨[.requeued tx.1 tx.2],rfl,rfl⟩

theorem logsFlushed_commit (overlays : List (ℕ × OverlayStore)) (s : BatchState) :
    LogsFlushed (overlays.map Prod.snd) s (commitGroup overlays s).2 := by
  refine ⟨overlays.map fun o => .flushed o.1 o.2,rfl,?_⟩
  rw [List.filterMap_map,← List.filterMap_eq_map]
  rfl

/-- The overlays of some of the transactions, in their order, each made over the same store. -/
def MadeInOrder (host : Host) (accounts : InMemoryAccountStore) (txs : List Transaction)
    (overlays : List OverlayStore) : Prop :=
  ∃ made : List (Transaction × OverlayStore), (made.map Prod.fst).Sublist txs ∧
    made.map Prod.snd = overlays ∧ ∀ m ∈ made, ∃ computeBudget cache cache',
      Bank.executeOnOverlay host accounts m.1 computeBudget cache = (.ok m.2,cache')

theorem executeGroup_made {admitted : List Admitted} {results : List TransactionProcessResult}
    (h : executeGroup host admitted s = (.ok results,t)) :
    MadeInOrder host s.bank.accounts (admitted.map Admitted.transaction)
      (results.filterMap fun r => r.processingResult.toOption) := by
  obtain ⟨rfl,hrun⟩ := executeGroup_results h
  refine ⟨results.filterMap fun r =>
      r.processingResult.toOption.map fun o => (r.member.transaction,o),
    ?_,?_,?_⟩
  · -- Members that fail are left out.
    rw [List.map_filterMap,List.map_map]
    clear h hrun
    induction results with
    | nil => exact .slnil
    | cons r rest ih =>
      cases hr : r.processingResult with
      | ok o =>
        rw [List.filterMap_cons_some (b := r.member.transaction) (by rw [hr]; rfl)]
        exact ih.cons_cons _
      | error e =>
        rw [List.filterMap_cons_none (by rw [hr]; rfl)]
        exact ih.cons _
  · rw [List.map_filterMap]
    refine List.filterMap_congr fun r _ => ?_
    cases r.processingResult <;> rfl
  · intro m hm
    obtain ⟨r,hr,hm⟩ := List.mem_filterMap.mp hm
    obtain ⟨o,ho,rfl⟩ := Option.map_eq_some_iff.mp hm
    have hok : r.processingResult = .ok o := by
      cases hp : r.processingResult with
      | ok o' =>
        rw [hp] at ho
        cases ho
        rfl
      | error e =>
        rw [hp] at ho
        cases ho
    obtain ⟨cache,cache',hproc⟩ := hrun r hr o hok
    exact ⟨_,cache,cache',(Bank.processSingleTransaction_ok hproc).2⟩

/-- A group that runs flushes nothing before its commit, and that flushes what its members made. -/
theorem runGroup_flushed {admitted : List Admitted} (h : runGroup host admitted s = (.ok (),t)) :
    ∃ overlays, MadeInOrder host s.bank.accounts (admitted.map Admitted.transaction) overlays ∧
      LogsFlushed overlays s t ∧
      t.bank.accounts = commitOverlays overlays s.bank.accounts := by
  obtain ⟨results,overlays,s₁,s₂,s₃,hx,-,hreach,hset,rfl⟩ := runGroup_ok h
  have hstore : s₃.bank.accounts = s.bank.accounts :=
    ((settleGroup_keeps sameStore_across fun _ _ => trivial).of_run hset).trans
      (hreach _ _ sameStore_across)
  have hbefore : LogsFlushed [] s s₃ := IsTrans.trans _ _ _ (hreach _ _ unflushed_across)
    ((settleGroup_keeps unflushed_across fun _ _ => trivial).of_run hset)
  have hoverlays : overlays.map Prod.snd =
      results.filterMap fun r => r.processingResult.toOption := by
    rw [settleGroup_overlays hset,List.map_filterMap]
    refine List.filterMap_congr fun r _ => ?_
    cases r.processingResult <;> rfl
  refine ⟨overlays.map Prod.snd,hoverlays ▸ executeGroup_made hx,?_,?_⟩
  · exact hbefore.append (logsFlushed_commit overlays s₃)
  · rw [← hstore]
    rfl

/-- What a group that returns has flushed is made by its members. -/
theorem processGroup_flushed {txs group : List (ℕ × Transaction)}
    (h : processGroup host costModel txs group s = (.ok (),t)) :
    MadeInOrder host s.bank.accounts (group.map Prod.snd) (flushedSince s t) ∧
      t.bank.accounts = commitOverlays (flushedSince s t) s.bank.accounts := by
  obtain ⟨admitted,u,ha,h⟩ := processGroup_ok h
  have hlog : LogsFlushed [] s u := (admitGroup_keeps unflushed_across fun _ _ => trivial).of_run ha
  have hstore : SameStore s u := (admitGroup_keeps sameStore_across fun _ _ => trivial).of_run ha
  have hnothing : LogsFlushed [] s t → SameStore s t →
      MadeInOrder host s.bank.accounts (group.map Prod.snd) (flushedSince s t) ∧
        t.bank.accounts = commitOverlays (flushedSince s t) s.bank.accounts := fun hl hs => by
    rw [hl.since]
    exact ⟨⟨[],List.nil_sublist _,rfl,fun _ hm => absurd hm List.not_mem_nil⟩,hs⟩
  obtain ⟨-,rfl⟩ | ⟨v,hv,hroll⟩ | ⟨v,w,hv,hrun,hw⟩ := h
  · exact hnothing hlog hstore
  · -- The locks are refused, and the group is rolled back.
    refine hnothing (IsTrans.trans _ _ _ hlog (IsTrans.trans _ _ _ (hv _ _ unflushed_across)
      ((rollBackGroup_keeps unflushed_across (fun _ _ _ _ => trivial)
        fun _ _ => trivial).of_run hroll)))
      (IsTrans.trans _ _ _ hstore (IsTrans.trans _ _ _ (hv _ _ sameStore_across)
        ((rollBackGroup_keeps sameStore_across (fun _ _ _ _ => trivial)
          fun _ _ => trivial).of_run hroll)))
  · -- The group runs between its locks and their release.
    obtain ⟨overlays,⟨made,hsub,hmade,hruns⟩,hflushed,hcommit⟩ := runGroup_flushed hrun
    have hv₁ : v.bank.accounts = s.bank.accounts := (hv _ _ sameStore_across).trans hstore
    have hbefore : LogsFlushed [] s v := IsTrans.trans _ _ _ hlog (hv _ _ unflushed_across)
    have hall : LogsFlushed overlays s t := by
      have happended := (hbefore.append hflushed).append (hw _ _ unflushed_across)
      rwa [List.append_nil,List.nil_append] at happended
    rw [hall.since]
    refine ⟨⟨made,?_,hmade,hv₁ ▸ hruns⟩,?_⟩
    · have hmembers := (admitGroup_sublist ha).map Prod.snd
      rw [List.map_map] at hmembers
      exact hsub.trans hmembers
    · have hlast : t.bank.accounts = w.bank.accounts := hw _ _ sameStore_across
      rw [hlast,hcommit,hv₁]

end BankingStage

/-! ## Entries -/

/-- The entries of some overlays in an order in which their loops may store them. -/
def Enumerates (overlays : List OverlayStore) (entries : List (List (Pubkey × Account))) : Prop :=
  List.Forall₂ (fun o es => FiniteMap.Lists o.dirty es) overlays entries

theorem exists_enumerates (overlays : List OverlayStore) :
    ∃ entries, Enumerates overlays entries := by
  induction overlays with
  | nil => exact ⟨[],.nil⟩
  | cons o rest ih =>
    obtain ⟨entries,h⟩ := ih
    obtain ⟨es,hes⟩ := FiniteMap.exists_lists o.dirty
    exact ⟨es :: entries,.cons hes h⟩

theorem Enumerates.exists_overlay {overlays : List OverlayStore}
    {entries : List (List (Pubkey × Account))} (h : Enumerates overlays entries)
    {es : List (Pubkey × Account)} (hes : es ∈ entries) :
    ∃ o ∈ overlays, FiniteMap.Lists o.dirty es := by
  induction h with
  | nil => exact absurd hes List.not_mem_nil
  | @cons o es' overlays entries ho hrest ih =>
    rcases List.mem_cons.mp hes with rfl | hes
    · exact ⟨o,List.mem_cons_self,ho⟩
    · obtain ⟨o',ho',hlists⟩ := ih hes
      exact ⟨o',List.mem_cons_of_mem _ ho',hlists⟩

/-- Storing all of them commits the overlays. -/
theorem Enumerates.insertAll {overlays : List OverlayStore}
    {entries : List (List (Pubkey × Account))} (h : Enumerates overlays entries)
    (accounts : InMemoryAccountStore) :
    FiniteMap.insertAll accounts entries.flatten = commitOverlays overlays accounts := by
  induction h generalizing accounts with
  | nil => rfl
  | @cons o es overlays entries ho hrest ih =>
    have hsplit : FiniteMap.insertAll accounts (es :: entries).flatten =
        FiniteMap.insertAll (FiniteMap.insertAll accounts es) entries.flatten := List.foldl_append
    rw [hsplit,ho.insertAll,ih]
    rfl

/-- An entry that a later one replaces holds the account as a transaction loads it. -/
def WrittenOnce (accounts : InMemoryAccountStore) (entries : List (Pubkey × Account)) : Prop :=
  entries.Pairwise fun e e' => e.1 = e'.1 → e.2 = accounts.loaded e.1

namespace Bank

variable {host : Host} {accounts : InMemoryAccountStore} {txs : List Transaction}
  {overlays : List OverlayStore}

/-- Where no transaction writes what a later one lists, an overlay has the account as it is loaded
for every key that a later overlay has too. -/
theorem overlays_writtenOnce (hn : ∀ tx ∈ txs, tx.Native) (hk : accounts.Keyed)
    (hs : txs.Pairwise fun a b => ∀ k ∈ a.touchedKeys, k ∉ b.message.accountKeys)
    (h : BankingStage.MadeInOrder host accounts txs overlays) :
    overlays.Pairwise fun o o' => ∀ k a a', o.dirty.lookup k = some a →
      o'.dirty.lookup k = some a' → a = accounts.loaded k := by
  obtain ⟨made,hsub,rfl,hmade⟩ := h
  rw [List.pairwise_map]
  refine ((List.pairwise_map.mp (hs.sublist hsub)).imp_of_mem ?_)
  intro m m' hm hm' hsep k a a' ha ha'
  obtain ⟨b,cache,cache',hx⟩ := hmade m hm
  obtain ⟨b',cache₁,cache₁',hx'⟩ := hmade m' hm'
  have hkeyed : ∀ keys, accounts.KeyedOn keys := fun _ k _ a ha => hk k a ha
  -- The later transaction lists the key, so the earlier one does not write it.
  have hlisted : k ∈ m'.1.message.accountKeys := by
    by_contra hnot
    rw [overlay_other (hkeyed _) hx' hnot] at ha'
    cases ha'
  have hclean : k ∉ m.1.touchedKeys := fun ht => hsep k ht hlisted
  rw [overlay_lookup (hn _ (hsub.subset (List.mem_map_of_mem hm))) (hkeyed _) hx hclean] at ha
  exact (Option.some.inj (Option.ite_none_right_eq_some.mp ha).2).symm

end Bank

theorem Enumerates.writtenOnce {accounts : InMemoryAccountStore} {overlays : List OverlayStore}
    {entries : List (List (Pubkey × Account))} (h : Enumerates overlays entries)
    (ho : overlays.Pairwise fun o o' => ∀ k a a', o.dirty.lookup k = some a →
      o'.dirty.lookup k = some a' → a = accounts.loaded k) :
    WrittenOnce accounts entries.flatten := by
  induction h with
  | nil => exact .nil
  | @cons o es overlays entries hes hrest ih =>
    obtain ⟨hfirst,hothers⟩ := List.pairwise_cons.mp ho
    refine List.pairwise_append.mpr ⟨?_,ih hothers,?_⟩
    · -- The entries of one overlay have different keys.
      exact (List.pairwise_map.mp hes.nodup).imp fun hne heq => absurd heq hne
    · rintro ⟨k,a⟩ he ⟨k',a'⟩ he' hkey
      obtain rfl : k = k' := hkey
      obtain ⟨es',hes',hm⟩ := List.mem_flatten.mp he'
      obtain ⟨o',ho',hlists⟩ := Enumerates.exists_overlay hrest hes'
      exact hfirst o' ho' k a a' (hes.mem.mp he) (hlists.mem.mp hm)

/-! ## The node -/

/-- A node whose last group may not be in the store yet. -/
structure FlushingNode where
  /-- The node behind that group. -/
  node : Node
  /-- The admitted members of the group. -/
  group : List Transaction
  /-- What the store holds. -/
  accounts : InMemoryAccountStore
  /-- The entries of the group that are still to be stored, in the order of the loops. -/
  unwritten : List (Pubkey × Account)

/-- The banking task takes this step, and does not take it while it flushes. -/
def Node.Label.ofBanking : Node.Label → Bool
  | take _ | schedule _ | joinError _ | group _ | groupError | panic | finish _ | leave => true
  | _ => false

namespace FlushingNode

def start (faucetPubkey : Pubkey) : FlushingNode where
  node := .start faucetPubkey
  group := []
  accounts := (Node.start faucetPubkey).state.bank.accounts
  unwritten := []

/-- What handlers of requests share with the banking task. -/
def rpcState (s : FlushingNode) : RpcState := s.node.found s.accounts s.node.state.programCache

/-- One step of one task, or one entry stored. -/
inductive Step (host : Host) (rpc : RpcHost) :
    FlushingNode → Option Node.Label → FlushingNode → Prop where
  | store {s : FlushingNode} {entry : Pubkey × Account} {rest : List (Pubkey × Account)} :
      s.unwritten = entry :: rest → Step host rpc s none
        { s with accounts := s.accounts.store entry.1 entry.2, unwritten := rest }
  | group {s : FlushingNode} {admitted : List Transaction} {t : Node}
      {entries : List (List (Pubkey × Account))} :
      s.unwritten = [] → Node.Step host rpc s.node (.group admitted) t →
      Enumerates (BankingStage.flushedSince s.node.state t.state) entries →
      Step host rpc s (some (.group admitted)) ⟨t,admitted,s.accounts,entries.flatten⟩
  | task {s : FlushingNode} {l : Node.Label} {t : Node} :
      (∀ admitted, l ≠ .group admitted) → (l.ofBanking = true → s.unwritten = []) →
      Node.Step host rpc s.node l t → Step host rpc s (some l) { s with node := t }

variable {host : Host} {rpc : RpcHost} {faucetPubkey : Pubkey} {s t : FlushingNode}
  {ls : List (Option Node.Label)}

/-- Without the entries the run is one of the node. -/
theorem node_run (hr : Run (Step host rpc) s ls t) :
    Run (Node.Step host rpc) s.node ls.reduceOption t.node := by
  induction hr with
  | nil => exact .nil
  | snoc before last ih =>
    rw [List.reduceOption_append]
    cases last with
    | store hs => simpa using ih
    | group hs hg he => exact ih.snoc hg
    | task hn hs hl => exact ih.snoc hl

/-- The loops can go on to the last entry. -/
theorem flush_run (s : FlushingNode) : ∃ ls, ls.reduceOption = [] ∧ Run (Step host rpc) s ls
    { s with accounts := FiniteMap.insertAll s.accounts s.unwritten, unwritten := [] } := by
  obtain ⟨node,group,accounts,unwritten⟩ := s
  induction unwritten generalizing accounts with
  | nil => exact ⟨[],rfl,.nil⟩
  | cons entry rest ih =>
    obtain ⟨ls,hls,hr⟩ := ih (accounts.store entry.1 entry.2)
    exact ⟨none :: ls,hls,(Run.single (.store rfl)).append hr⟩

/-- Every run of the node is what a run with its entries comes to. -/
theorem exists_run {u : Node} {ls : List Node.Label} (hr : Run (Node.Step host rpc) s.node ls u) :
    ∃ ls' t, Run (Step host rpc) s ls' t ∧ ls'.reduceOption = ls ∧ t.node = u ∧
      t.unwritten = [] := by
  induction hr with
  | nil =>
    obtain ⟨ls,hls,hr⟩ := @flush_run host rpc s
    exact ⟨ls,_,hr,hls,rfl,rfl⟩
  | @snoc u v ls l before last ih =>
    obtain ⟨ls',t,hr,hls,rfl,hdone⟩ := ih
    by_cases hl : ∃ admitted, l = .group admitted
    · -- The entries of the group are stored as soon as it is processed.
      obtain ⟨admitted,rfl⟩ := hl
      obtain ⟨entries,he⟩ := exists_enumerates (BankingStage.flushedSince t.node.state v.state)
      obtain ⟨ls'',hls'',hflush⟩ := @flush_run host rpc
        ⟨v,admitted,t.accounts,entries.flatten⟩
      refine ⟨_,_,(hr.snoc (.group hdone last he)).append hflush,?_,rfl,rfl⟩
      rw [List.reduceOption_append,List.reduceOption_append,hls,hls'']
      exact List.append_nil _
    · refine ⟨_,_,hr.snoc (.task (fun admitted h => hl ⟨admitted,h⟩) (fun _ => hdone) last),
        ?_,rfl,hdone⟩
      rw [List.reduceOption_append,hls]
      rfl

/-- With the entries that are still to be stored the store is the one behind the group. -/
def Whole (s : FlushingNode) : Prop :=
  FiniteMap.insertAll s.accounts s.unwritten = s.node.state.bank.accounts

theorem whole_step (hs : s.node.Sound host) (h : s.Whole) {l : Option Node.Label}
    (hl : Step host rpc s l t) : t.Whole := by
  unfold Whole at h ⊢
  cases hl with
  | store hs =>
    rw [hs] at h
    exact h
  | group hd hg he =>
    rw [hd,FiniteMap.insertAll_nil] at h
    rw [he.insertAll,h]
    -- What the group has committed is what all its entries come to.
    cases hg with
    | group hb hg => exact (BankingStage.processGroup_flushed hg).2.symm
  | task hn hd hl => exact h.trans (Node.store_kept hs hl hn).symm

theorem whole_run (hr : Run (Step host rpc) (start faucetPubkey) ls s) : s.Whole := by
  induction hr with
  | nil => rfl
  | snoc before last ih => exact whole_step (Node.sound_run (node_run before)) ih last

open Node (queued processed serialStore serial_run)

/-- The store is on its way from one serial store to the next: some entries of the group are stored,
the others are still to be. -/
structure Progress (host : Host) (faucetPubkey : Pubkey) (ls : List Node.Label) (s : FlushingNode)
    (before : List Transaction) (written : List (Pubkey × Account)) : Prop where
  processed : processed ls = before ++ s.group
  accounts : s.accounts = FiniteMap.insertAll (serialStore host faucetPubkey before) written
  done : serialStore host faucetPubkey (before ++ s.group) =
    FiniteMap.insertAll s.accounts s.unwritten
  once : WrittenOnce (serialStore host faucetPubkey before) (written ++ s.unwritten)

namespace Progress

variable {before : List Transaction} {written : List (Pubkey × Account)} {ls : List Node.Label}

theorem flushed (h : Progress host faucetPubkey ls s before written) (hd : s.unwritten = []) :
    s.accounts = serialStore host faucetPubkey (Node.processed ls) := by
  rw [h.processed,h.done,hd]
  rfl

/-- What a transaction would load is what it would load behind the group, or as long as there are
entries to be stored what it would load before the group. -/
theorem loaded (h : Progress host faucetPubkey ls s before written) (k : Pubkey) :
    s.accounts.loaded k = (serialStore host faucetPubkey (Node.processed ls)).loaded k ∨
      s.unwritten ≠ [] ∧ s.accounts.loaded k = (serialStore host faucetPubkey before).loaded k := by
  by_cases hd : s.unwritten = []
  · exact .inl (congrArg (InMemoryAccountStore.loaded · k) (h.flushed hd))
  have hsplit : FiniteMap.insertAll (serialStore host faucetPubkey before)
    (written ++ s.unwritten) =
      FiniteMap.insertAll (FiniteMap.insertAll (serialStore host faucetPubkey before) written)
        s.unwritten := List.foldl_append
  have hlast : serialStore host faucetPubkey (Node.processed ls) =
      FiniteMap.insertAll (serialStore host faucetPubkey before) (written ++ s.unwritten) := by
    rw [hsplit,← h.accounts,h.processed,h.done]
  have hlookup :=
    FiniteMap.lookup_insertAll_append (m := serialStore host faucetPubkey before) h.once k
  rw [← h.accounts,← hlast] at hlookup
  -- No entry has changed the key so far, it was stored as loaded, or its last entry is in.
  unfold InMemoryAccountStore.loaded InMemoryAccountStore.load at hlookup ⊢
  obtain hold | hloaded | hnew := hlookup
  · exact .inr ⟨hd,by rw [hold]⟩
  · exact .inr ⟨hd,by rw [hloaded]; rfl⟩
  · exact .inl (by rw [hnew])

/-- One more entry is stored. -/
theorem store (h : Progress host faucetPubkey ls s before written) {entry : Pubkey × Account}
    {rest : List (Pubkey × Account)} (hs : s.unwritten = entry :: rest) :
    Progress host faucetPubkey ls
      { s with accounts := s.accounts.store entry.1 entry.2, unwritten := rest }
      before (written ++ [entry]) where
  processed := h.processed
  accounts := by
    rw [FiniteMap.insertAll_concat,← h.accounts]
    rfl
  done := by
    rw [h.done,hs]
    rfl
  once := by
    have honce := h.once
    rwa [hs,List.append_cons] at honce

/-- A step that is no group leaves the store as it is. -/
theorem task (h : Progress host faucetPubkey ls s before written) {l : Node.Label} {t : Node}
    (hl : ∀ admitted, l ≠ .group admitted) :
    Progress host faucetPubkey (ls ++ [l]) { s with node := t } before written where
  processed := (Node.processed_idle hl).trans h.processed
  accounts := h.accounts
  done := h.done
  once := h.once

end Progress

theorem progress_start (host : Host) (faucetPubkey : Pubkey) :
    Progress host faucetPubkey [] (start faucetPubkey) [] [] :=
  ⟨rfl,rfl,rfl,.nil⟩

/-- A group is executed over the store that the entries of the one before have made. -/
theorem progress_group {ls : List Node.Label} {s t : Node} {admitted : List Transaction}
    {entries : List (List (Pubkey × Account))}
    (hr : Run (Node.Step host rpc) (.start faucetPubkey) ls s) (hn : ∀ tx ∈ queued ls, tx.Native)
    (hd : ∀ a ∈ queued ls, ∀ b ∈ queued ls, ∀ i j, DeclaresShared (i,a) (j,b))
    (hl : Node.Step host rpc s (.group admitted) t)
    (he : Enumerates (BankingStage.flushedSince s.state t.state) entries) :
    Progress host faucetPubkey (ls ++ [.group admitted])
      ⟨t,admitted,serialStore host faucetPubkey (processed ls),entries.flatten⟩
        (processed ls) [] := by
  have hbefore := serial_run hr hn hd
  have hafter := Node.serial_step hr hn hd hbefore hl
  have hprocessed : processed (ls ++ [.group admitted]) = processed ls ++ admitted :=
    Node.processed_snoc ls _
  cases hl with
  | group hb hg =>
    obtain ⟨hmade,hstore⟩ := BankingStage.processGroup_flushed hg
    obtain ⟨hqueued,hsep⟩ := Node.group_separated hr hd hb
    have hkeyed : s.state.bank.accounts.Keyed :=
      hbefore ▸ Bank.settleAll_keyed host _ _ (Node.keyed_start faucetPubkey)
    refine ⟨hprocessed,rfl,?_,he.writtenOnce ?_⟩
    · rw [he.insertAll,← hprocessed,← hafter,← hbefore]
      exact hstore
    · rw [← hbefore]
      exact Bank.overlays_writtenOnce (List.forall_mem_map.mpr fun tx ht =>
        hn tx.2 (hqueued tx ht)) hkeyed (List.pairwise_map.mpr hsep) hmade

theorem progress_run (hr : Run (Step host rpc) (start faucetPubkey) ls s)
    (hn : ∀ tx ∈ queued ls.reduceOption, tx.Native)
    (hd : ∀ a ∈ queued ls.reduceOption, ∀ b ∈ queued ls.reduceOption, ∀ i j,
      DeclaresShared (i,a) (j,b)) :
    ∃ before written, Progress host faucetPubkey ls.reduceOption s before written := by
  induction hr with
  | nil => exact ⟨[],[],progress_start host faucetPubkey⟩
  | @snoc t u ls l hr last ih =>
    have hsub : queued ls.reduceOption ⊆ queued (ls ++ [l]).reduceOption := fun tx ht => by
      rw [List.reduceOption_append,queued,List.flatMap_append]
      exact List.mem_append_left _ ht
    have hn' : ∀ tx ∈ queued ls.reduceOption, tx.Native := fun tx ht => hn tx (hsub ht)
    have hd' : ∀ a ∈ queued ls.reduceOption, ∀ b ∈ queued ls.reduceOption, ∀ i j,
        DeclaresShared (i,a) (j,b) := fun a ha b hb => hd a (hsub ha) b (hsub hb)
    obtain ⟨before,written,h⟩ := ih hn' hd'
    rw [List.reduceOption_append]
    cases last with
    | store hs => exact ⟨before,_,(List.append_nil ls.reduceOption).symm ▸ h.store hs⟩
    | @group admitted u entries hs hl he =>
      have hgroup := progress_group (node_run hr) hn' hd' hl he
      rw [← h.flushed hs] at hgroup
      exact ⟨_,_,hgroup⟩
    | task hg hs hl => exact ⟨before,written,h.task hg⟩

/-- The transfer of the faucet is processed and none of its entries is stored yet. -/
theorem payment_flushing : ∃ ls s, Run (Step default default) (start (.ofByte 1)) ls s ∧
    ls.reduceOption = Node.paidLabels ∧ s.unwritten ≠ [] := by
  obtain ⟨ls,s,hr,hls,hs,hdone⟩ := exists_run (s := start (.ofByte 1)) Node.scheduled_run
  obtain ⟨entries,he⟩ := exists_enumerates
    (BankingStage.flushedSince Node.scheduledNode.state Node.processedNode.state)
  have hgroup : Step default default s (some (.group [Node.faucetPayment]))
      ⟨Node.processedNode,[Node.faucetPayment],s.accounts,entries.flatten⟩ :=
    .group hdone (hs ▸ Node.group_faucetPayment) (hs ▸ he)
  refine ⟨_,_,hr.snoc hgroup,?_,fun hnone => ?_⟩
  · rw [List.reduceOption_append,hls]
    rfl
  · -- the receiver has an account in the overlay, and none before
    have hcommit := he.insertAll ∅
    have hempty : entries.flatten = [] := hnone
    rw [hempty] at hcommit
    have hlookup := congrArg (Finmap.lookup (.ofByte 2 : Pubkey)) hcommit
    rw [FiniteMap.insertAll_nil,Finmap.lookup_empty] at hlookup
    exact absurd hlookup (by decide +kernel)

/-- As long as clients submit native transactions that declare what they share, the store of a node
is that of a serial execution of transactions that were submitted, each as often at most as it was.
While a group is flushed, each balance that is told is the serial one without that group or with
it. -/
theorem store_is_serial (hr : Run (Step host rpc) (start faucetPubkey) ls s)
    (hn : ∀ tx ∈ queued ls.reduceOption, tx.Native)
    (hd : ∀ a ∈ queued ls.reduceOption, ∀ b ∈ queued ls.reduceOption, ∀ i j,
      DeclaresShared (i,a) (j,b)) :
    (processed ls.reduceOption).Subperm (queued ls.reduceOption) ∧
      (s.unwritten = [] → s.accounts = serialStore host faucetPubkey (processed ls.reduceOption)) ∧
      ∃ before, processed ls.reduceOption = before ++ s.group ∧ ∀ k, ∃ balance,
        Client.getBalance host rpc k s.rpcState = (.ok balance,s.rpcState) ∧
          (balance =
              ((serialStore host faucetPubkey (processed ls.reduceOption)).loaded k).lamports ∨
            s.unwritten ≠ [] ∧
              balance = ((serialStore host faucetPubkey before).loaded k).lamports) := by
  obtain ⟨before,written,h⟩ := progress_run hr hn hd
  refine ⟨(Node.within_queued (node_run hr)).1,h.flushed,before,h.processed,fun k =>
    ⟨_,Client.getBalance_run k,?_⟩⟩
  exact (h.loaded k).imp (congrArg Account.lamports) (And.imp_right (congrArg Account.lamports))

theorem payment_is_serial : ∃ (ls : List (Option Node.Label)) (s : FlushingNode),
    ls.reduceOption = Node.paidLabels ∧ s.unwritten ≠ [] ∧
      (processed ls.reduceOption).Subperm (queued ls.reduceOption) ∧
      (s.unwritten = [] →
        s.accounts = serialStore default (.ofByte 1) (processed ls.reduceOption)) ∧
      ∃ before, processed ls.reduceOption = before ++ s.group ∧ ∀ k, ∃ balance,
        Client.getBalance default default k s.rpcState = (.ok balance,s.rpcState) ∧
          (balance =
              ((serialStore default (.ofByte 1) (processed ls.reduceOption)).loaded k).lamports ∨
            s.unwritten ≠ [] ∧
              balance = ((serialStore default (.ofByte 1) before).loaded k).lamports) := by
  have hwrites : ∀ k ∈ Node.faucetPayment.touchedKeys,
      ∃ m ∈ Node.faucetPayment.metas, m.isWritable = true ∧ m.pubkey = k := by decide
  have hd : ∀ i j, DeclaresShared (i,Node.faucetPayment) (j,Node.faucetPayment) := by
    intro i j k hk _
    obtain ⟨m,hm,hw,rfl⟩ := hwrites k hk
    exact ⟨⟨m,hm,hw,rfl⟩,⟨m,hm,rfl⟩⟩
  have hqueued : ∀ tx ∈ queued Node.paidLabels, tx = Node.faucetPayment := fun tx ht =>
    List.mem_singleton.mp ht
  obtain ⟨ls,s,hr,hls,hs⟩ := payment_flushing
  refine ⟨ls,s,hls,hs,store_is_serial hr ?_ ?_⟩
  · rw [hls]
    exact fun tx ht => hqueued tx ht ▸ by decide
  · rw [hls]
    exact fun a ha b hb => hqueued a ha ▸ hqueued b hb ▸ hd

/-- Whatever the order of steps, the balances are those of the transfers that were processed, and
together they are what the faucet began with. While a group is flushed, each balance that is told is
that of the transfers without the group or with it. -/
theorem balances_settle_transfers (hr : Run (Step host rpc) (start faucetPubkey) ls s)
    (hclient : ∀ tx ∈ queued ls.reduceOption, FromClient tx) :
    (s.unwritten = [] → s.accounts.totalLamports = Node.supply) ∧
      ∃ before, processed ls.reduceOption = before ++ s.group ∧ ∀ k, ∃ balance,
        Client.getBalance host rpc k s.rpcState = (.ok balance,s.rpcState) ∧
          (balance.toNat = Transfer.settle (Node.firstLedger faucetPubkey)
              (transfers (processed ls.reduceOption)) k ∨
            s.unwritten ≠ [] ∧ balance.toNat =
              Transfer.settle (Node.firstLedger faucetPubkey) (transfers before) k) := by
  have hnative : ∀ tx ∈ queued ls.reduceOption, tx.Native := fun tx ht => by
    obtain ⟨_,h⟩ := hclient tx ht
    exact h.systemOnly.native
  obtain ⟨before,written,h⟩ := progress_run hr hnative fun a ha b hb =>
    ClientTransfer.declaresShared (hclient a ha) (hclient b hb)
  have hprocessed : ∀ tx ∈ processed ls.reduceOption, FromClient tx := fun tx ht =>
    hclient tx ((Node.within_queued (node_run hr)).1.subset ht)
  have hbefore : ∀ tx ∈ before, FromClient tx := fun tx ht =>
    hprocessed tx (h.processed ▸ List.mem_append_left _ ht)
  have hshows := Node.serialStore_shows host faucetPubkey hprocessed
  have hshows' := Node.serialStore_shows host faucetPubkey hbefore
  refine ⟨fun hd => (congrArg _ (h.flushed hd)).trans hshows.total,before,h.processed,fun k =>
    ⟨_,Client.getBalance_run k,?_⟩⟩
  obtain hnew | ⟨hd,hold⟩ := h.loaded k
  · exact .inl ((congrArg (fun a => a.lamports.toNat) hnew).trans (congrFun hshows.ledger k))
  · exact .inr ⟨hd,(congrArg (fun a => a.lamports.toNat) hold).trans (congrFun hshows'.ledger k)⟩

theorem payment_settles : ∃ (ls : List (Option Node.Label)) (s : FlushingNode),
    ls.reduceOption = Node.paidLabels ∧ s.unwritten ≠ [] ∧
      (s.unwritten = [] → s.accounts.totalLamports = Node.supply) ∧
      ∃ before, processed ls.reduceOption = before ++ s.group ∧ ∀ k, ∃ balance,
        Client.getBalance default default k s.rpcState = (.ok balance,s.rpcState) ∧
          (balance.toNat = Transfer.settle (Node.firstLedger (.ofByte 1))
              (transfers (processed ls.reduceOption)) k ∨
            s.unwritten ≠ [] ∧ balance.toNat =
              Transfer.settle (Node.firstLedger (.ofByte 1)) (transfers before) k) := by
  obtain ⟨ls,s,hr,hls,hs⟩ := payment_flushing
  refine ⟨ls,s,hls,hs,balances_settle_transfers hr ?_⟩
  rw [hls]
  exact List.forall_mem_singleton.mpr Node.faucetPayment_fromClient

end FlushingNode

end TinySolana
