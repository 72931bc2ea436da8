import TinySolana.BatchAccounting
import TinySolana.ScheduleOrder

/-!
# Order of commits

The groups of a batch are processed one after another, so that the log of a batch follows the order
of its groups. A transaction that is put off reserves nothing: a later one may overtake it.
-/

namespace TinySolana
open Foundations Exec

namespace BankingStage

variable {host : Host} {costModel : CostModel} {txs : List (ℕ × Transaction)}

theorem processGroups_append (earlier later : List (List (ℕ × Transaction))) :
    processGroups host costModel txs (earlier ++ later) =
      processGroups host costModel txs earlier >>= fun _ =>
        processGroups host costModel txs later := by
  induction earlier with
  | nil => rfl
  | cons group rest ih =>
    rw [List.cons_append,processGroups,processGroups,ih,Exec.bind_assoc]

/-- Processing some of the groups of a batch concerns their members only. -/
theorem processGroups_logs {groups : List (List (ℕ × Transaction))} (hsub : groups.flatten ⊆ txs)
    (hnd : (txs.map Prod.fst).Nodup) :
    Keeps (Logs host groups.flatten) (processGroups host costModel txs groups) := by
  refine processGroups_keeps logs_across logs_commits (fun t ht tx htx => ?_)
    fun group hg tx ht => List.mem_flatten.mpr ⟨group,hg,ht⟩
  have heq : t = (t.1,tx) := List.inj_on_of_nodup_map hnd ht (hsub htx) rfl
  rwa [heq]

/-- Whatever became of verification, the log ends as processing the groups leaves it. -/
theorem processBatch_log (host : Host) (costModel : CostModel) (transactions : List Transaction)
    (s : BatchState) :
    processBatch host costModel transactions s = (.err .joinError,s) ∨
      (processBatch host costModel transactions s).2.log =
        (processGroups host costModel (txsToSchedule host.ed25519 transactions)
          (TransactionScheduler.schedule (txsToSchedule host.ed25519 transactions))
          (verified host.ed25519 transactions s)).2.log := by
  unfold processBatch
  by_cases hp : ∃ tx ∈ transactions, tx.verifySignaturesSync host.ed25519 = .panic
  · rw [failIf_true hp]
    exact .inl rfl
  · rw [failIf_false hp,Exec.pure_bind,modify_bind,Exec.bind_run]
    right
    change _ = (processGroups host costModel (txsToSchedule host.ed25519 transactions)
      (TransactionScheduler.schedule (txsToSchedule host.ed25519 transactions))
      { s with finalResults := verificationResults host.ed25519 transactions, log := [] }).2.log
    cases processGroups host costModel (txsToSchedule host.ed25519 transactions)
      (TransactionScheduler.schedule (txsToSchedule host.ed25519 transactions))
      { s with finalResults := verificationResults host.ed25519 transactions, log := [] } with
    | mk r t => cases r <;> rfl

/-- The group of the first transaction is processed before that of the second, and the overlay of
the first is flushed before that of the second. -/
structure InOrder (host : Host) (costModel : CostModel) (transactions : List Transaction)
    (s : BatchState) (a b : ℕ × Transaction) : Prop where
  executed : ∃ earlier later, a ∈ earlier.flatten ∧ b ∈ later.flatten ∧
    processGroups host costModel (txsToSchedule host.ed25519 transactions)
      (TransactionScheduler.schedule (txsToSchedule host.ed25519 transactions)) =
    processGroups host costModel (txsToSchedule host.ed25519 transactions) earlier >>= fun _ =>
      processGroups host costModel (txsToSchedule host.ed25519 transactions) later
  committed : processBatch host costModel transactions s = (.err .joinError,s) ∨
    ∃ before after, (processBatch host costModel transactions s).2.log = before ++ after ∧
      (∀ overlay, .flushed b.1 overlay ∉ before) ∧ ∀ overlay, .flushed a.1 overlay ∉ after

theorem inOrder_of_schedule {transactions : List Transaction} {s : BatchState}
    {a b : ℕ × Transaction} {earlier later : List (List (ℕ × Transaction))}
    (hs : TransactionScheduler.schedule (txsToSchedule host.ed25519 transactions) =
      earlier ++ later) (ha : a ∈ earlier.flatten) (hb : b ∈ later.flatten) :
    InOrder host costModel transactions s a b := by
  refine ⟨⟨earlier,later,ha,hb,?_⟩,?_⟩
  · rw [hs,processGroups_append]
  rcases processBatch_log host costModel transactions s with hp | hlog
  · exact .inl hp
  right
  have hperm := TransactionScheduler.schedule_flatten_perm (txsToSchedule host.ed25519 transactions)
  rw [hs,List.flatten_append] at hperm
  have hnd := txsToSchedule_nodup host.ed25519 transactions
  have hdisj := hnd
  rw [← (hperm.map Prod.fst).nodup_iff,List.map_append,List.nodup_append] at hdisj
  have he : Keeps (Logs host earlier.flatten)
      (processGroups host costModel (txsToSchedule host.ed25519 transactions) earlier) :=
    processGroups_logs (fun _ h => hperm.subset (List.mem_append_left _ h)) hnd
  have hl : Keeps (Logs host later.flatten)
      (processGroups host costModel (txsToSchedule host.ed25519 transactions) later) :=
    processGroups_logs (fun _ h => hperm.subset (List.mem_append_right _ h)) hnd
  -- The positions of both parts are different.
  have hapart : ∀ i, (∃ tx, (i,tx) ∈ earlier.flatten) → ¬∃ tx, (i,tx) ∈ later.flatten := by
    rintro i ⟨tx,ht⟩ ⟨tx',ht'⟩
    exact hdisj.2.2 i (List.mem_map_of_mem ht) i (List.mem_map_of_mem ht') rfl
  rw [hlog,hs,processGroups_append]
  -- The log is cut where the earlier groups end, which may be where the batch ends.
  refine Keeps.bind_final (P := fun t => ∃ before after, t.log = before ++ after ∧
    (∀ overlay, .flushed b.1 overlay ∉ before) ∧ ∀ overlay, .flushed a.1 overlay ∉ after) he ?_ ?_
  · rintro t ⟨events,hev,-,-,-,hflush,-⟩
    refine ⟨events,[],hev.trans (List.append_nil events).symm,fun o ho => ?_,by simp⟩
    obtain ⟨tx,htx,-⟩ := hflush b.1 o ho
    exact hapart b.1 ⟨tx,htx⟩ ⟨b.2,hb⟩
  · rintro _ t - ⟨events,hev,-,-,-,hflush,-⟩
    obtain ⟨events',hev',-,-,-,hflush',-⟩ := hl t
    refine ⟨events,events',?_,fun o ho => ?_,fun o ho => ?_⟩
    · rw [hev',hev]
      rfl
    · obtain ⟨tx,htx,-⟩ := hflush b.1 o ho
      exact hapart b.1 ⟨tx,htx⟩ ⟨b.2,hb⟩
    · obtain ⟨tx,htx,-⟩ := hflush' a.1 o ho
      exact hapart a.1 ⟨a.2,ha⟩ ⟨tx,htx⟩

end BankingStage

namespace TransactionScheduler

/-- A transaction and a later one that names a key which it writes come into different groups. The
earlier one is first exactly when no group before its own takes the later one in, and is then
executed and committed first. -/
theorem schedule_submission_order (txs : List (ℕ × Transaction)) :
    ∃ g, FirstFit.Placement Blocks txs g ∧
      schedule txs = (List.range (schedule txs).length).map (FirstFit.members txs g) ∧
      ∀ i j, i < j → Blocks (txs.get i) (txs.get j) →
        g i ≠ g j ∧
        (g i < g j ↔ ∀ m < g i, ∃ h < j, g h = m ∧ Blocks (txs.get h) (txs.get j)) ∧
        (g i < g j → ∀ host costModel transactions s,
          BankingStage.txsToSchedule host.ed25519 transactions = txs →
            BankingStage.InOrder host costModel transactions s (txs.get i) (txs.get j)) := by
  obtain ⟨g,hg,hlt,hgroups⟩ := FirstFit.exists_placement Blocks txs
  rw [← schedule_eq_groups] at hlt hgroups
  refine ⟨g,hg,hgroups,fun i j hij hb => ⟨placed_apart hg hij hb,?_,?_⟩⟩
  · rw [placed_behind hg]
    constructor
    · intro h m hm
      exact h m hm.le
    · intro h m hm
      rcases hm.lt_or_eq with hm | rfl
      · exact h m hm
      · exact ⟨i,hij,rfl,hb⟩
  · rintro hgij host costModel transactions s rfl
    obtain ⟨earlier,later,hcut,hi,hj⟩ := hg.split hgij
    exact BankingStage.inOrder_of_schedule (by rw [schedule_eq_groups,hcut]) hi hj

/-- The second transaction waits for the first, and the third overtakes it, although it names a key
that the second writes. -/
theorem schedule_overtakes :
    let first := (0,accessing [⟨.ofByte 1,false,true⟩])
    let second := (1,accessing [⟨.ofByte 1,false,true⟩,⟨.ofByte 2,false,true⟩])
    let third := (2,accessing [⟨.ofByte 2,false,true⟩])
    Blocks second third ∧ schedule [first,second,third] = [[first,third],[second]] := by decide

end TransactionScheduler

end TinySolana
