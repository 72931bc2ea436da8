import TinySolana.NodeRuns

/-!
# Submissions

Whatever the order of steps, the transactions that handlers have queued are, in the order in which
they were queued, those of the batches so far, those that the banking task has taken since, and
those that it has yet to take. No transaction is lost, taken twice, overtaken or queued a second
time.
-/

namespace TinySolana
open Foundations

/-- What was taken for the next batch. -/
def BankingTask.collected : BankingTask → List Transaction
  | collecting batch => batch
  | _ => []

namespace Node

def Label.queued : Label → List Transaction
  | queue tx => [tx]
  | _ => []

/-- The batch that verification has returned for, or has not. -/
def Label.batches : Label → List (List Transaction)
  | schedule batch => [batch]
  | joinError batch => [batch]
  | _ => []

/-- The transactions that were queued, in their order. -/
def queued (ls : List Label) : List Transaction := ls.flatMap Label.queued

def batches (ls : List Label) : List (List Transaction) := ls.flatMap Label.batches

variable {host : Host} {rpc : RpcHost} {faucetPubkey : Pubkey} {s t : Node} {l : Label}
  {ls : List Label}

theorem queued_snoc (ls : List Label) (l : Label) : queued (ls ++ [l]) = queued ls ++ l.queued := by
  rw [queued,List.flatMap_append,List.flatMap_singleton]
  rfl

theorem batches_snoc (ls : List Label) (l : Label) :
    batches (ls ++ [l]) = batches ls ++ l.batches := by
  rw [batches,List.flatMap_append,List.flatMap_singleton]
  rfl

/-- The channel to the banking task holds what was queued, and what was taken of it is in the
batches. -/
structure InOrder (ls : List Label) (s : Node) : Prop where
  sent : s.state.stage.txSender.sent = queued ls
  taken : s.state.stage.txSender.sent.take s.taken = (batches ls).flatten ++ s.banking.collected
  bound : s.taken ≤ s.state.stage.txSender.sent.length
  sizes : ∀ batch ∈ batches ls, batch ≠ [] ∧ batch.length ≤ batchSizeLimit
  collected : s.banking.collected.length ≤ batchSizeLimit
  connected : s.banking ≠ .stopped → Connected s.state

theorem inOrder_start (faucetPubkey : Pubkey) : InOrder [] (start faucetPubkey) :=
  ⟨rfl,rfl,le_rfl,by simp [batches],Nat.zero_le _,fun _ => rfl⟩

/-- A step that neither queues nor takes. -/
theorem InOrder.idle (h : InOrder ls s) (hqueued : l.queued = []) (hbatches : l.batches = [])
    (hsent : t.state.stage.txSender.sent = s.state.stage.txSender.sent) (htaken : t.taken = s.taken)
    (hcollected : t.banking.collected = s.banking.collected)
    (hconnected : t.banking ≠ .stopped → Connected t.state) : InOrder (ls ++ [l]) t where
  sent := by rw [queued_snoc,hqueued,List.append_nil,hsent,h.sent]
  taken := by rw [batches_snoc,hbatches,List.append_nil,hsent,htaken,hcollected,h.taken]
  bound := by
    rw [hsent,htaken]
    exact h.bound
  sizes := by
    rw [batches_snoc,hbatches,List.append_nil]
    exact h.sizes
  collected := by
    rw [hcollected]
    exact h.collected
  connected := hconnected

/-- What was collected becomes a batch. -/
theorem InOrder.batch (h : InOrder ls s) {batch : List Transaction}
    (hb : s.banking = .collecting batch) (hn : batch ≠ []) (hqueued : l.queued = [])
    (hbatches : l.batches = [batch]) (hsent : t.state.stage.txSender = s.state.stage.txSender)
    (htaken : t.taken = s.taken)
    (hcollected : t.banking.collected = []) : InOrder (ls ++ [l]) t where
  sent := by rw [queued_snoc,hqueued,List.append_nil,hsent,h.sent]
  taken := by
    rw [batches_snoc,hbatches,hsent,htaken,h.taken,hb,hcollected,List.flatten_append,
      List.append_nil,List.flatten_singleton]
    rfl
  bound := by
    rw [hsent,htaken]
    exact h.bound
  sizes := by
    rw [batches_snoc,hbatches]
    refine List.forall_mem_append.mpr ⟨h.sizes,List.forall_mem_singleton.mpr ⟨hn,?_⟩⟩
    have hlen := h.collected
    rw [hb] at hlen
    exact hlen
  collected := by
    rw [hcollected]
    exact Nat.zero_le _
  connected _ := by
    rw [Connected,hsent]
    exact h.connected (by simp [hb])

open BankingStage in
theorem inOrder_step (hs : s.Sound host) (h : InOrder ls s) (hl : Step host rpc s l t) :
    InOrder (ls ++ [l]) t := by
  cases hl with
  | answer hm hr =>
    have hkeep := (Rpc.handleRpcRequest_keeps hm).of_run hr
    have htx := congrArg RpcState.txSender hkeep
    exact h.idle rfl rfl (congrArg Channel.sent htx) rfl rfl fun hb =>
      (congrArg Channel.remaining htx).trans (h.connected hb)
  | accept hm hr =>
    have htx := ((Rpc.acceptTransaction_keeps _).of_run hr).txSender
    exact h.idle rfl rfl (congrArg Channel.sent htx) rfl rfl fun hb =>
      (congrArg Channel.remaining htx).trans (h.connected hb)
  | refuse hm hr hn =>
    have htx := ((Rpc.acceptTransaction_keeps _).of_run hr).txSender
    exact h.idle rfl rfl (congrArg Channel.sent htx) rfl rfl fun hb =>
      (congrArg Channel.remaining htx).trans (h.connected hb)
  | @queue tx rest v r ha hr =>
    obtain ⟨-,c,hc,rfl⟩ := Rpc.queueTransaction_ok.mp hr
    have hsent : c.sent = s.state.stage.txSender.sent ++ [tx] := Channel.sent_of_send hc
    have hbatches : batches (ls ++ [.queue tx]) = batches ls :=
      (batches_snoc ls _).trans (List.append_nil _)
    refine ⟨?_,?_,?_,?_,h.collected,fun hb => ?_⟩
    · rw [queued_snoc,← h.sent]
      exact hsent
    · rw [hbatches]
      change c.sent.take s.taken = _
      rw [hsent,List.take_append_of_le_length h.bound,h.taken]
      rfl
    · change s.taken ≤ c.sent.length
      rw [hsent,List.length_append]
      exact h.bound.trans (Nat.le_add_right _ _)
    · rw [hbatches]
      exact h.sizes
    · have hsend := send_connected (h.connected hb) tx
      cases hsend.symm.trans hc
      rfl
  | unsent ha hr =>
    obtain rfl := Rpc.queueTransaction_err hr
    exact h.idle rfl rfl rfl rfl rfl h.connected
  | @take batch tx rest hb hn hp =>
    have hdrop : s.state.stage.txSender.sent.drop s.taken = tx :: rest := hp
    have hlt : s.taken < s.state.stage.txSender.sent.length := by
      by_contra hge
      rw [List.drop_of_length_le (not_lt.mp hge)] at hdrop
      cases hdrop
    have hget : s.state.stage.txSender.sent[s.taken] = tx := by
      have hcons := List.drop_eq_getElem_cons hlt
      rw [hdrop] at hcons
      exact (List.cons.inj hcons).1.symm
    have hqueued : queued (ls ++ [.take tx]) = queued ls :=
      (queued_snoc ls _).trans (List.append_nil _)
    have hbatches : batches (ls ++ [.take tx]) = batches ls :=
      (batches_snoc ls _).trans (List.append_nil _)
    refine ⟨?_,?_,hlt,?_,?_,fun _ => h.connected (by simp [hb])⟩
    · rw [hqueued,← h.sent]
    · rw [hbatches]
      change s.state.stage.txSender.sent.take (s.taken+1) = _
      rw [List.take_succ_eq_append_getElem hlt,h.taken,hget,hb,List.append_assoc]
      rfl
    · rw [hbatches]
      exact h.sizes
    · change (batch ++ [tx]).length ≤ _
      rw [List.length_append]
      exact hn
  | schedule hb hc hv => exact h.batch hb hc.1 rfl rfl rfl rfl rfl
  | joinError hb hc hv => exact h.batch hb hc.1 rfl rfl rfl rfl rfl
  | group hb hr =>
    have halone := hs.alone hb
    rw [hr] at halone
    exact h.idle rfl rfl (congrArg Channel.sent halone.txSender) rfl (by rw [hb]; rfl) fun _ =>
      (congrArg Channel.remaining halone.txSender).trans (h.connected (by simp [hb]))
  | groupError hb hr =>
    have halone := hs.alone hb
    rw [hr] at halone
    exact h.idle rfl rfl (congrArg Channel.sent halone.txSender) rfl (by rw [hb]; rfl) fun _ =>
      (congrArg Channel.remaining halone.txSender).trans (h.connected (by simp [hb]))
  | panic hb hr =>
    have halone := hs.alone hb
    rw [hr] at halone
    have hsent := congrArg Channel.sent halone.txSender
    exact h.idle rfl rfl hsent rfl (by rw [hb]; rfl) fun hn => absurd rfl hn
  | finish hb => exact h.idle rfl rfl rfl rfl (by rw [hb]; rfl) fun _ => h.connected (by simp [hb])
  | leave he hb => exact h.idle rfl rfl rfl rfl (by rw [hb]; rfl) fun hn => absurd rfl hn
  | turn hs hr => exact h.idle rfl rfl rfl rfl rfl h.connected
  | endService hs hr hn => exact h.idle rfl rfl rfl rfl rfl h.connected
  | leaveService he hs => exact h.idle rfl rfl rfl rfl rfl h.connected
  | exit => exact h.idle rfl rfl rfl rfl rfl h.connected

theorem inOrder_run (hr : Run (Step host rpc) (start faucetPubkey) ls s) : InOrder ls s := by
  induction hr with
  | nil => exact inOrder_start faucetPubkey
  | snoc before last ih => exact inOrder_step (sound_run before) ih last

/-- Batches, what was collected and what is pending are together what was queued, in its order. -/
theorem submissions_in_order (hr : Run (Step host rpc) (start faucetPubkey) ls s) :
    (batches ls).flatten ++ s.banking.collected ++ s.pending = queued ls ∧
      ∀ batch ∈ batches ls, batch ≠ [] ∧ batch.length ≤ batchSizeLimit := by
  have h := inOrder_run hr
  refine ⟨?_,h.sizes⟩
  rw [← h.taken,← h.sent]
  exact List.take_append_drop _ _

theorem payment_in_order :
    (batches paidLabels).flatten ++ processedNode.banking.collected ++ processedNode.pending =
        [faucetPayment] ∧
      ∀ batch ∈ batches paidLabels, batch ≠ [] ∧ batch.length ≤ batchSizeLimit :=
  submissions_in_order processed_run

end Node

end TinySolana
