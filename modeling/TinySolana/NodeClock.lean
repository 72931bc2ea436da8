import TinySolana.Submissions

/-!
# The clock of the node

The service takes the records of the processed groups in their order, between the batches of hashes
that make its ticks. Its entries can be replayed from the hash it began with, and they publish the
groups one after another as the banking task has processed them. Counting the turns of the service
gives every number that its recorder keeps.
-/

namespace TinySolana
open Foundations

namespace PohService

variable {sha256 : List UInt8 → Hash} {p p' : PohRecorder}

/-- A turn that goes on publishes the record that it has taken, if there was one. -/
theorem iterate_publishes {received : Except TryRecvError PohRecord} {ticksPerSlot : UInt64}
    (hk : 0 < ticksPerSlot.toNat) (hi : p.InSlot ticksPerSlot)
    (h : iterate sha256 received p = (.ok true,p')) :
    (∃ calls, Run (PohStep sha256) p calls p' ∧ entries calls = (entry sha256 received p).toList) ∧
      (entry sha256 received p).toList.map PoHEntry.transactionsHash =
        received.toOption.toList.map PohRecord.batchHash := by
  match received with
  | .ok record =>
    obtain ⟨r,q,hq,h⟩ := Exec.bind_ok.mp h
    cases h
    have hr := Exec.attempt_ok hq
    cases r with
    | ok e =>
      have he : entry sha256 (.ok record) p = some e := by
        simp only [entry,hr]
      obtain ⟨-,-,-,hentry,-⟩ := PohRecorder.record_advances hr
      rw [he]
      refine ⟨⟨_,.single (.record hr),rfl⟩,?_⟩
      rw [hentry]
      rfl
    | error e => exact absurd (congrArg Prod.fst hr) (hi.record_ne_err hk _ e)
  | .error .disconnected => cases h
  | .error .empty =>
    refine ⟨?_,rfl⟩
    rw [iterate] at h
    obtain ⟨_,q,hq,h⟩ := Exec.bind_ok.mp h
    rw [Exec.get_bind] at h
    have hbatch : Run (PohStep sha256) p [(.hash 128,none)] q := .single (.hash hq)
    split at h
    · obtain ⟨_,t,ht,h⟩ := Exec.bind_ok.mp h
      cases h
      exact ⟨_,hbatch.snoc (.tick ht),rfl⟩
    · cases h
      exact ⟨_,hbatch,rfl⟩

/-- Where a batch fills a tick, every turn without a record makes one. -/
theorem iterate_ticks {goesOn : Bool} (hshort : p.hashesPerTick.toNat ≤ hashesPerBatch)
    (h : iterate sha256 (.error .empty) p = (.ok goesOn,p')) :
    p'.hashesPerTick = p.hashesPerTick ∧ p'.tickCount.toNat = p.tickCount.toNat+1 ∧
      p'.numHashes.toNat = p.numHashes.toNat+hashesPerBatch := by
  rw [iterate] at h
  obtain ⟨_,q,hq,h⟩ := Exec.bind_ok.mp h
  rw [Exec.get_bind] at h
  have ha : Advances p q hashesPerBatch := .hash hq
  have hfull : q.hashesPerTick.toNat ≤ q.hashesSinceLastTick.toNat := by
    rw [ha.hashesPerTick_eq,ha.since_eq]
    omega
  have htick : q.shouldTick = true := decide_eq_true (UInt64.le_iff_toNat_le.mpr hfull)
  rw [if_pos htick] at h
  obtain ⟨_,t,ht,h⟩ := Exec.bind_ok.mp h
  cases h
  obtain ⟨r,hr,hcount,hcross⟩ := PohRecorder.tick_ok ht
  rw [Nat.sub_eq_zero_of_le hfull] at hr
  cases hr
  have hnext : (q.tickCount+1).toNat = p.tickCount.toNat+1 := by
    rw [UInt64.toNat_add,ha.tickCount_eq]
    exact Nat.mod_eq_of_lt (ha.tickCount_eq ▸ hcount)
  obtain ⟨-,⟨-,-,-,rfl⟩ | ⟨-,rfl⟩⟩ := PohRecorder.crossSlot_ok hcross
  · exact ⟨ha.hashesPerTick_eq,hnext,ha.numHashes_eq⟩
  · exact ⟨ha.hashesPerTick_eq,hnext,ha.numHashes_eq⟩

end PohService

namespace Node

/-- The records that a processed group is sent as. -/
def Label.records (sha256 : List UInt8 → Hash) : Label → List PohRecord
  | group admitted => BankingStage.recordsOf sha256 admitted
  | _ => []

def Label.entries : Label → List PoHEntry
  | turn entry => entry.toList
  | _ => []

/-- The records of the processed groups, in their order. -/
def records (sha256 : List UInt8 → Hash) (ls : List Label) : List PohRecord :=
  ls.flatMap (Label.records sha256)

/-- The entries that the service has made, in their order. -/
def published (ls : List Label) : List PoHEntry := ls.flatMap Label.entries

variable {host : Host} {rpc : RpcHost} {faucetPubkey : Pubkey} {s t : Node} {l : Label}
  {ls : List Label}

theorem records_snoc (sha256 : List UInt8 → Hash) (ls : List Label) (l : Label) :
    records sha256 (ls ++ [l]) = records sha256 ls ++ l.records sha256 := by
  rw [records,List.flatMap_append,List.flatMap_singleton]
  rfl

theorem published_snoc (ls : List Label) (l : Label) :
    published (ls ++ [l]) = published ls ++ l.entries := by
  rw [published,List.flatMap_append,List.flatMap_singleton]
  rfl

/-- The recorder at the start of the service. -/
def firstRecorder : PohRecorder :=
  .new default mainPohConfig.ticksPerSlot mainPohConfig.hashesPerTick

/-- What was taken of the channel to the service is in the entries, and the recorder has come to
where it is by the calls that have made them. -/
structure Audited (sha256 : List UInt8 → Hash) (ls : List Label) (s : Node) : Prop where
  sent : s.state.stage.pohRecordSender.sent = records sha256 ls
  taken : (s.state.stage.pohRecordSender.sent.take s.takenRecords).map PohRecord.batchHash =
    (published ls).map PoHEntry.transactionsHash
  bound : s.takenRecords ≤ s.state.stage.pohRecordSender.sent.length
  clock : ∃ calls p, Run (PohStep sha256) firstRecorder calls p ∧ entries calls = published ls ∧
    ∀ q, s.service = some q → q = p

theorem audited_start (sha256 : List UInt8 → Hash) (faucetPubkey : Pubkey) :
    Audited sha256 [] (start faucetPubkey) :=
  ⟨rfl,rfl,le_rfl,[],firstRecorder,.nil,rfl,fun _ h => (Option.some.inj h).symm⟩

/-- A step of another task, which may send records but does not take any. -/
theorem Audited.sending {sha256 : List UInt8 → Hash} (h : Audited sha256 ls s)
    (hentries : l.entries = []) (hsent : t.state.stage.pohRecordSender.sent =
      s.state.stage.pohRecordSender.sent ++ l.records sha256)
    (htaken : t.takenRecords = s.takenRecords)
    (hservice : t.service = s.service ∨ t.service = none) :
    Audited sha256 (ls ++ [l]) t := by
  have hpublished : published (ls ++ [l]) = published ls := by
    rw [published_snoc,hentries,List.append_nil]
  refine ⟨?_,?_,?_,?_⟩
  · rw [records_snoc,hsent,h.sent]
  · rw [hpublished,hsent,htaken,List.take_append_of_le_length h.bound,h.taken]
  · rw [hsent,htaken,List.length_append]
    exact h.bound.trans (Nat.le_add_right _ _)
  · obtain ⟨calls,p,hrun,hcalls,hp⟩ := h.clock
    refine ⟨calls,p,hrun,hcalls.trans hpublished.symm,fun q hq => ?_⟩
    obtain hs | hs := hservice
    · exact hp q (hs ▸ hq)
    · rw [hs] at hq
      cases hq

/-- A step that sends no record. -/
theorem Audited.idle {sha256 : List UInt8 → Hash} (h : Audited sha256 ls s)
    (hentries : l.entries = []) (hrecords : l.records sha256 = [])
    (hsent : t.state.stage.pohRecordSender.sent = s.state.stage.pohRecordSender.sent)
    (htaken : t.takenRecords = s.takenRecords)
    (hservice : t.service = s.service ∨ t.service = none) :
    Audited sha256 (ls ++ [l]) t :=
  h.sending hentries (by rw [hrecords,List.append_nil,hsent]) htaken hservice

/-- What the service receives is what comes next in its channel. -/
theorem received_pending (s : Node) : s.received.toOption.toList = s.pendingRecords.take 1 := by
  unfold received
  cases s.pendingRecords with
  | cons record rest => rfl
  | nil => cases s.banking <;> rfl

theorem Audited.turn {p p' : PohRecorder} (h : Audited host.sha256 ls s) (hs : s.service = some p)
    (hr : PohService.iterate host.sha256 s.received p = (.ok true,p')) :
    Audited host.sha256 (ls ++ [.turn (PohService.entry host.sha256 s.received p)]) { s with
      service := some p'
      takenRecords := s.takenRecords+s.received.toOption.toList.length } := by
  obtain ⟨calls,q,hrun,hcalls,hq⟩ := h.clock
  obtain rfl := hq p hs
  have hslot := (PohRecorder.InSlot.new default mainPohConfig.ticksPerSlot
    mainPohConfig.hashesPerTick).run hrun
  obtain ⟨⟨more,hmore,hentry⟩,hhash⟩ := PohService.iterate_publishes (by decide) hslot hr
  have htake : s.pendingRecords.take s.received.toOption.toList.length =
      s.received.toOption.toList := by
    rw [received_pending,List.length_take]
    cases s.pendingRecords <;> simp
  have hrecords : records host.sha256 (ls ++ [.turn (PohService.entry host.sha256 s.received p)]) =
      records host.sha256 ls := (records_snoc _ ls _).trans (List.append_nil _)
  refine ⟨hrecords ▸ h.sent,?_,?_,calls ++ more,p',hrun.append hmore,?_,fun _ he =>
    (Option.some.inj he).symm⟩
  · rw [published_snoc,List.map_append,← h.taken]
    change (s.state.stage.pohRecordSender.sent.take
      (s.takenRecords+s.received.toOption.toList.length)).map PohRecord.batchHash = _ ++
        (PohService.entry host.sha256 s.received p).toList.map PoHEntry.transactionsHash
    rw [hhash,List.take_add,List.map_append]
    congr 2
  · have hlen := congrArg List.length htake
    rw [List.length_take,pendingRecords,Channel.pending,List.length_drop] at hlen
    have hb := h.bound
    dsimp only
    omega
  · rw [published_snoc,entries,List.filterMap_append]
    exact congrArg₂ (· ++ ·) hcalls hentry

theorem audited_step (hs : s.Sound host) (h : Audited host.sha256 ls s) (hl : Step host rpc s l t) :
    Audited host.sha256 (ls ++ [l]) t := by
  cases hl with
  | answer hm hr =>
    exact h.idle rfl rfl rfl rfl (.inl rfl)
  | accept hm hr => exact h.idle rfl rfl rfl rfl (.inl rfl)
  | refuse hm hr hn => exact h.idle rfl rfl rfl rfl (.inl rfl)
  | queue ha hr => exact h.idle rfl rfl rfl rfl (.inl rfl)
  | unsent ha hr => exact h.idle rfl rfl rfl rfl (.inl rfl)
  | take hb hn hp => exact h.idle rfl rfl rfl rfl (.inl rfl)
  | schedule hb hc hv => exact h.idle rfl rfl rfl rfl (.inl rfl)
  | joinError hb hc hv => exact h.idle rfl rfl rfl rfl (.inl rfl)
  | group hb hr =>
    have hsent := (hs.alone hb).sent
    rw [hr] at hsent
    exact h.sending rfl hsent rfl (.inl rfl)
  | groupError hb hr =>
    have hsent := (hs.alone hb).sent
    rw [hr] at hsent
    exact h.sending rfl hsent rfl (.inl rfl)
  | panic hb hr =>
    have hsent := (hs.alone hb).sent
    rw [hr] at hsent
    exact h.sending rfl hsent rfl (.inl rfl)
  | finish hb => exact h.idle rfl rfl rfl rfl (.inl rfl)
  | leave he hb => exact h.idle rfl rfl rfl rfl (.inl rfl)
  | turn hsv hr => exact h.turn hsv hr
  | endService hsv hr hn => exact h.idle rfl rfl rfl rfl (.inr rfl)
  | leaveService he hsv => exact h.idle rfl rfl rfl rfl (.inr rfl)
  | exit => exact h.idle rfl rfl rfl rfl (.inl rfl)

theorem audited_run (hr : Run (Step host rpc) (start faucetPubkey) ls s) :
    Audited host.sha256 ls s := by
  induction hr with
  | nil => exact audited_start host.sha256 faucetPubkey
  | snoc before last ih => exact audited_step (sound_run before) ih last

/-- The entries replay from the first hash, and with the records still on their way they are the
processed groups in their order. -/
theorem groups_published_in_order (hr : Run (Step host rpc) (start faucetPubkey) ls s) :
    PoHEntry.replays host.sha256 (.start default) (published ls) = true ∧
      (published ls).map PoHEntry.transactionsHash ++ s.pendingRecords.map PohRecord.batchHash =
        (records host.sha256 ls).map PohRecord.batchHash := by
  have h := audited_run hr
  obtain ⟨calls,p,hrun,hcalls,-⟩ := h.clock
  refine ⟨?_,?_⟩
  · rw [← hcalls]
    exact PoHEntry.replays_iff.mpr (entries_chain hrun ⟨0,rfl,rfl⟩).1
  · rw [← h.taken,← List.map_append,pendingRecords,Channel.pending,List.take_append_drop,h.sent]

/-- The service has taken the record of the faucet's transfer. -/
theorem published_run : ∃ entry s,
    Run (Step default default) (start (.ofByte 1)) (paidLabels ++ [.turn (some entry)]) s := by
  have hok : (PohService.iterate (default : Host).sha256 processedNode.received firstRecorder).1 =
      .ok true := by
    decide +kernel
  have hentry :
      (PohService.entry (default : Host).sha256 processedNode.received firstRecorder).isSome =
      true := by
    decide +kernel
  obtain ⟨entry,he⟩ := Option.isSome_iff_exists.mp hentry
  have hservice : processedNode.service = some firstRecorder := rfl
  have hturn : Step default default processedNode
      (.turn (PohService.entry (default : Host).sha256 processedNode.received firstRecorder)) _ :=
    .turn hservice (Exec.run_of_result hok)
  exact ⟨entry,_,processed_run.snoc (he ▸ hturn)⟩

theorem payment_published : ∃ (entry : PoHEntry) (s : Node),
    PoHEntry.replays (default : Host).sha256 (.start default)
        (published (paidLabels ++ [.turn (some entry)])) = true ∧
      [entry.transactionsHash] ++ s.pendingRecords.map PohRecord.batchHash =
        (records (default : Host).sha256 (paidLabels ++ [.turn (some entry)])).map
          PohRecord.batchHash := by
  obtain ⟨entry,s,hr⟩ := published_run
  exact ⟨entry,s,groups_published_in_order hr⟩

/-! ### Counting turns -/

/-- A turn of the service that has not taken a record. -/
def Label.isTick : Label → Bool
  | turn none => true
  | _ => false

/-- How many turns were without a record. -/
def ticks (ls : List Label) : ℕ := ls.countP Label.isTick

theorem ticks_snoc (ls : List Label) (l : Label) :
    ticks (ls ++ [l]) = ticks ls+if l.isTick then 1 else 0 := by
  rw [ticks,List.countP_append,List.countP_singleton]
  rfl

/-- The hashes that are made in some turns. -/
def hashes (ls : List Label) : ℕ := PohService.hashesPerBatch*ticks ls+(published ls).length

/-- The counters of a running service and the numbers of its entries say how many turns there
were. -/
structure Clocked (ls : List Label) (s : Node) : Prop where
  recorder : ∀ p, s.service = some p → p.hashesPerTick = mainPohConfig.hashesPerTick ∧
    p.tickCount.toNat = ticks ls ∧ p.numHashes.toNat = hashes ls
  entries : ∀ before entry after, ls = before ++ .turn (some entry) :: after →
    entry.numHashes.toNat = hashes before+1

theorem clocked_start (faucetPubkey : Pubkey) : Clocked [] (start faucetPubkey) where
  recorder p hp := by
    cases hp
    exact ⟨rfl,rfl,rfl⟩
  entries before entry after h := by simp at h

theorem Clocked.snoc (h : Clocked ls s)
    (hentry : ∀ entry, l = .turn (some entry) → entry.numHashes.toNat = hashes ls+1)
    (hrecorder : ∀ p, t.service = some p → p.hashesPerTick = mainPohConfig.hashesPerTick ∧
      p.tickCount.toNat = ticks (ls ++ [l]) ∧ p.numHashes.toNat = hashes (ls ++ [l])) :
    Clocked (ls ++ [l]) t where
  recorder := hrecorder
  entries before entry after he := by
    -- the entry was there before, or it is of the last step
    rcases List.eq_nil_or_concat after with rfl | ⟨after,l',rfl⟩
    · obtain ⟨rfl,hl⟩ := List.append_inj' he rfl
      exact hentry entry (List.cons.inj hl).1
    · rw [List.concat_eq_append,← List.cons_append,← List.append_assoc] at he
      exact h.entries before entry after (List.append_inj' he rfl).1

theorem Clocked.idle (h : Clocked ls s) (hl : l.entries = []) (htick : l.isTick = false)
    (hservice : t.service = s.service ∨ t.service = none) : Clocked (ls ++ [l]) t := by
  have hticks : ticks (ls ++ [l]) = ticks ls := by rw [ticks_snoc,htick]; rfl
  have hhashes : hashes (ls ++ [l]) = hashes ls := by
    rw [hashes,hticks,published_snoc,hl,List.append_nil]
    rfl
  refine h.snoc (fun entry he => ?_) fun p hp => ?_
  · subst he
    cases hl
  · rw [hticks,hhashes]
    obtain hs | hs := hservice
    · exact h.recorder p (hs ▸ hp)
    · rw [hs] at hp
      cases hp

theorem Clocked.turn {p p' : PohRecorder} (h : Clocked ls s)
    (hslot : p.InSlot mainPohConfig.ticksPerSlot) (hs : s.service = some p)
    (hr : PohService.iterate host.sha256 s.received p = (.ok true,p')) (ht : t.service = some p') :
    Clocked (ls ++ [.turn (PohService.entry host.sha256 s.received p)]) t := by
  obtain ⟨hper,htick,hhash⟩ := h.recorder p hs
  match hrec : s.received with
  | .error .disconnected =>
    rw [hrec] at hr
    cases hr
  | .error .empty =>
    rw [hrec] at hr
    obtain ⟨hper',htick',hhash'⟩ := PohService.iterate_ticks (by rw [hper]; decide) hr
    have hlast : ticks (ls ++ [.turn none]) = ticks ls+1 := ticks_snoc ls (.turn none)
    have hpublished : published (ls ++ [.turn none]) = published ls :=
      (published_snoc ls _).trans (List.append_nil _)
    refine h.snoc (fun _ he => by cases he) fun q hq => ?_
    cases ht.symm.trans hq
    refine ⟨hper'.trans hper,htick'.trans ((congrArg (· + 1) htick).trans hlast.symm),?_⟩
    change p'.numHashes.toNat = hashes (ls ++ [.turn none])
    rw [hhash',hhash,hashes,hashes,hlast,hpublished,Nat.mul_succ]
    omega
  | .ok record =>
    rw [hrec] at hr
    obtain ⟨r,q,hq,hr⟩ := Exec.bind_ok.mp hr
    cases hr
    have hrun := Exec.attempt_ok hq
    cases r with
    | error e => exact absurd (congrArg Prod.fst hrun) (hslot.record_ne_err (by decide) _ e)
    | ok e =>
      have he : PohService.entry host.sha256 (.ok record) p = some e := by
        simp only [PohService.entry,hrun]
      obtain ⟨-,hn,-,hentry,hp'⟩ := PohRecorder.record_advances hrun
      have hcount : (p.numHashes+1).toNat = hashes ls+1 := by
        rw [UInt64.toNat_add,← hhash]
        exact Nat.mod_eq_of_lt hn
      have hlast : ticks (ls ++ [.turn (some e)]) = ticks ls := ticks_snoc ls (.turn (some e))
      have hpublished : published (ls ++ [.turn (some e)]) = published ls ++ [e] :=
        published_snoc ls _
      rw [he]
      refine h.snoc (fun entry heq => ?_) fun q hq => ?_
      · cases heq
        rw [hentry]
        exact hcount
      · cases ht.symm.trans hq
        rw [hp']
        refine ⟨hper,htick.trans hlast.symm,hcount.trans ?_⟩
        rw [hashes,hashes,hlast,hpublished,List.length_append]
        rfl

theorem clocked_step (ha : Audited host.sha256 ls s) (h : Clocked ls s) (hl : Step host rpc s l t) :
    Clocked (ls ++ [l]) t := by
  cases hl with
  | turn hs hr =>
    obtain ⟨calls,q,hrun,-,hq⟩ := ha.clock
    obtain rfl := hq _ hs
    exact h.turn ((PohRecorder.InSlot.new default mainPohConfig.ticksPerSlot
      mainPohConfig.hashesPerTick).run hrun) hs hr rfl
  | endService hs hr hn => exact h.idle rfl rfl (.inr rfl)
  | leaveService he hs => exact h.idle rfl rfl (.inr rfl)
  | _ => exact h.idle rfl rfl (.inl rfl)

theorem clocked_run (hr : Run (Step host rpc) (start faucetPubkey) ls s) : Clocked ls s := by
  induction hr with
  | nil => exact clocked_start faucetPubkey
  | snoc before last ih => exact clocked_step (audited_run before) ih last

/-- Every turn without a record is a batch and a tick, and every other turn is one hash. So the
turns give the ticks, the slot and the hashes of the recorder and the number of every entry. -/
theorem clock_counts_turns (hr : Run (Step host rpc) (start faucetPubkey) ls s) :
    (∀ p, s.service = some p → p.tickCount.toNat = ticks ls ∧ p.slot.toNat = ticks ls/16 ∧
        p.numHashes.toNat = 128*ticks ls+(published ls).length) ∧
      ∀ before entry after, ls = before ++ .turn (some entry) :: after →
        entry.numHashes.toNat = 128*ticks before+(published before).length+1 := by
  have h := clocked_run hr
  refine ⟨fun p hp => ?_,h.entries⟩
  obtain ⟨-,hticks,hhashes⟩ := h.recorder p hp
  obtain ⟨calls,q,hrun,-,hq⟩ := (audited_run hr).clock
  obtain rfl := hq p hp
  have hslot := ((PohRecorder.InSlot.new default mainPohConfig.ticksPerSlot
    mainPohConfig.hashesPerTick).run hrun).slot_eq
  exact ⟨hticks,hslot.trans (by rw [hticks]; rfl),hhashes⟩

theorem payment_counted : ∃ (entry : PoHEntry) (s : Node),
    (∀ p, s.service = some p → p.tickCount.toNat = 0 ∧ p.slot.toNat = 0/16 ∧
      p.numHashes.toNat = 128*0+1) ∧
      ∀ before entry' after, paidLabels ++ [.turn (some entry)] = before ++
        .turn (some entry') :: after →
        entry'.numHashes.toNat = 128*ticks before+(published before).length+1 := by
  obtain ⟨entry,s,hr⟩ := published_run
  exact ⟨entry,s,clock_counts_turns hr⟩

end Node

end TinySolana
