import TinySolana.PohSlots
import TinySolana.BankingStage

/-!
# The tick loop

The service hashes in batches of a fixed size and looks for a tick only behind a batch. A tick fills
up to the hashes of a tick but takes nothing back: what a batch hashed beyond them is forgotten when
the count starts again, so ticks are evenly spaced as long as every batch still fits.
-/

namespace TinySolana
open Foundations

structure PohConfig where
  hashesPerTick : UInt64
  ticksPerSlot : UInt64
  /-- In nanoseconds. -/
  tickRate : ℕ

/-- What a channel without a record answers. -/
inductive TryRecvError where
  | empty
  | disconnected

namespace PohService

def hashesPerBatch : ℕ := 128

/-- The time for a batch at the rate of the ticks. Only the waiting depends on it. -/
def idealNsPerBatch (config : PohConfig) : Poh UInt64 := do
  let tickRateNs := UInt64.ofNat config.tickRate
  Exec.panicIf (2^64 ≤ tickRateNs.toNat*hashesPerBatch)
  Exec.panicIf (config.hashesPerTick = 0)
  return tickRateNs*UInt64.ofNat hashesPerBatch/config.hashesPerTick

/-- One turn of the loop on what the channel holds; tells whether the loop goes on. -/
def iterate (sha256 : List UInt8 → Hash) : Except TryRecvError PohRecord → Poh Bool
  | .ok record => do
    -- a refused record is only logged, and no tick is looked for either way
    let _ ← Exec.attempt (PohRecorder.record sha256 record.batchHash)
    return true
  | .error .empty => do
    PohRecorder.hash sha256 hashesPerBatch
    let p ← Exec.get
    if p.shouldTick then PohRecorder.tick sha256 else pure ()
    return true
  | .error .disconnected => return false

/-- The loop until it is told to exit. Returns the recorder behind every tick. -/
def loop (sha256 : List UInt8 → Hash) :
    List (Except TryRecvError PohRecord) → Poh (List PohRecorder)
  | [] => return []
  | received :: rest => do
    let before ← Exec.get
    let goesOn ← iterate sha256 received
    let after ← Exec.get
    let ticks ← if goesOn then loop sha256 rest else pure []
    return if after.tickCount = before.tickCount then ticks else after :: ticks

/-- The thread of the service. -/
def new (sha256 : List UInt8 → Hash) (config : PohConfig)
    (received : List (Except TryRecvError PohRecord)) : Poh (List PohRecorder) := do
  let _ ← idealNsPerBatch config
  loop sha256 received

end PohService

/-- Each recorder is the hashes of one tick behind the one before it. -/
def EvenlySpaced (hashesPerTick : UInt64) (ticks : List PohRecorder) : Prop :=
  ticks.IsChain fun p q => q.numHashes.toNat = p.numHashes.toNat+hashesPerTick.toNat

/-- Whenever the loop is about to hash a batch, the current tick has room for all of it. -/
def PohService.HasRoom (sha256 : List UInt8 → Hash) :
    List (Except TryRecvError PohRecord) → PohRecorder → Prop
  | [],_ => True
  | .ok record :: rest,p => HasRoom sha256 rest (iterate sha256 (.ok record) p).2
  | .error .empty :: rest,p =>
    p.hashesSinceLastTick.toNat+hashesPerBatch ≤ p.hashesPerTick.toNat ∧
      HasRoom sha256 rest (iterate sha256 (.error .empty) p).2
  | .error .disconnected :: _,_ => True

namespace PohService

variable {sha256 : List UInt8 → Hash} {p p' : PohRecorder} {goesOn : Bool}

/-- The call leaves the count of ticks alone and counts its hashes for the current one. -/
structure Advances (p p' : PohRecorder) (n : ℕ) : Prop where
  hashesPerTick_eq : p'.hashesPerTick = p.hashesPerTick
  tickCount_eq : p'.tickCount = p.tickCount
  numHashes_eq : p'.numHashes.toNat = p.numHashes.toNat+n
  since_eq : p'.hashesSinceLastTick.toNat = p.hashesSinceLastTick.toNat+n

theorem Advances.hash {n : ℕ} (h : PohRecorder.hash sha256 n p = (.ok (),p')) :
    Advances p p' n := by
  obtain ⟨hp,hn,hs⟩ := PohRecorder.hash_ok h
  exact ⟨by rw [hp],by rw [hp],hn,hs⟩

theorem Advances.record {transactionsHash : Hash} {entry : PoHEntry}
    (h : PohRecorder.record sha256 transactionsHash p = (.ok entry,p')) : Advances p p' 1 := by
  obtain ⟨-,hn,hs,-,rfl⟩ := PohRecorder.record_advances h
  exact ⟨rfl,rfl,(UInt64.toNat_add ..).trans (Nat.mod_eq_of_lt hn),
    (UInt64.toNat_add ..).trans (Nat.mod_eq_of_lt hs)⟩

/-- A record is one hash, or none when it is refused. -/
theorem iterate_record {record : PohRecord} (h : iterate sha256 (.ok record) p = (.ok goesOn,p')) :
    goesOn = true ∧ ∃ n, Advances p p' n := by
  rw [iterate] at h
  obtain ⟨r,q,hq,h⟩ := Exec.bind_ok.mp h
  cases h
  refine ⟨rfl,?_⟩
  have hr := Exec.attempt_ok hq
  cases r with
  | ok entry => exact ⟨1,.record hr⟩
  | error e =>
    obtain ⟨-,rfl⟩ := PohRecorder.record_refused hr
    exact ⟨0,rfl,rfl,rfl,rfl⟩

/-- A tick that nothing is missing for hashes nothing and starts the count again. -/
theorem tick_full (hfull : p.hashesPerTick.toNat ≤ p.hashesSinceLastTick.toNat)
    (h : PohRecorder.tick sha256 p = (.ok (),p')) :
    p'.hashesPerTick = p.hashesPerTick ∧ p'.tickCount ≠ p.tickCount ∧
      p'.numHashes = p.numHashes ∧ p'.hashesSinceLastTick = 0 := by
  obtain ⟨q,hq,hcount,hcross⟩ := PohRecorder.tick_ok h
  rw [Nat.sub_eq_zero_of_le hfull] at hq
  cases hq
  have hne : p.tickCount+1 ≠ p.tickCount := by
    intro he
    have ht := (UInt64.toNat_add p.tickCount 1).trans (Nat.mod_eq_of_lt hcount)
    rw [he] at ht
    exact absurd ht (Nat.succ_ne_self _).symm
  obtain ⟨-,⟨-,-,-,rfl⟩ | ⟨-,rfl⟩⟩ := PohRecorder.crossSlot_ok hcross
  · exact ⟨rfl,hne,rfl,rfl⟩
  · exact ⟨rfl,hne,rfl,rfl⟩

/-- A batch is hashed for the current tick; where it fills the tick, the tick is made behind all of
the batch and the next one starts from nothing. -/
theorem iterate_empty (h : iterate sha256 (.error .empty) p = (.ok goesOn,p')) :
    goesOn = true ∧
      ((p.hashesSinceLastTick.toNat+hashesPerBatch < p.hashesPerTick.toNat ∧
          Advances p p' hashesPerBatch) ∨
        (p.hashesPerTick.toNat ≤ p.hashesSinceLastTick.toNat+hashesPerBatch ∧
          p'.hashesPerTick = p.hashesPerTick ∧ p'.tickCount ≠ p.tickCount ∧
          p'.numHashes.toNat = p.numHashes.toNat+hashesPerBatch ∧ p'.hashesSinceLastTick = 0)) := by
  rw [iterate] at h
  obtain ⟨_,q,hq,h⟩ := Exec.bind_ok.mp h
  rw [Exec.get_bind] at h
  have ha : Advances p q hashesPerBatch := .hash hq
  have hfull : q.shouldTick = true ↔
      p.hashesPerTick.toNat ≤ p.hashesSinceLastTick.toNat+hashesPerBatch := by
    rw [PohRecorder.shouldTick,decide_eq_true_iff,UInt64.le_iff_toNat_le,ha.hashesPerTick_eq,
      ha.since_eq]
  split at h
  · next hs =>
    obtain ⟨_,t,ht,h⟩ := Exec.bind_ok.mp h
    cases h
    obtain ⟨hk,hcount,hn,hzero⟩ :=
      tick_full (UInt64.le_iff_toNat_le.mp (decide_eq_true_iff.mp hs)) ht
    rw [ha.hashesPerTick_eq] at hk
    rw [ha.tickCount_eq] at hcount
    rw [← ha.numHashes_eq,hn]
    exact ⟨rfl,.inr ⟨hfull.mp hs,hk,hcount,rfl,hzero⟩⟩
  · next hs =>
    cases h
    exact ⟨rfl,.inl ⟨not_le.mp (mt hfull.mpr hs),ha⟩⟩

/-- The hashes since the last tick are those that the recorder counts. -/
def Counts (last p : PohRecorder) : Prop :=
  p.numHashes.toNat = last.numHashes.toNat+p.hashesSinceLastTick.toNat

theorem Advances.counts {last : PohRecorder} {n : ℕ} (h : Advances p p' n) (hc : Counts last p) :
    Counts last p' := by
  unfold Counts at hc ⊢
  rw [h.numHashes_eq,h.since_eq,hc,Nat.add_assoc]

/-- Taking the loop apart by its first turn. -/
theorem loop_cons {received : Except TryRecvError PohRecord}
    {rest : List (Except TryRecvError PohRecord)} {out : List PohRecorder}
    (h : loop sha256 (received :: rest) p = (.ok out,p')) :
    ∃ goesOn q ticks, iterate sha256 received p = (.ok goesOn,q) ∧
      (if goesOn then loop sha256 rest else pure []) q = (.ok ticks,p') ∧
      out = if q.tickCount = p.tickCount then ticks else q :: ticks := by
  rw [loop,Exec.get_bind] at h
  obtain ⟨goesOn,q,hq,h⟩ := Exec.bind_ok.mp h
  rw [Exec.get_bind] at h
  refine ⟨goesOn,q,?_⟩
  split at h
  · next hg =>
    obtain ⟨ticks,t,ht,h⟩ := Exec.bind_ok.mp h
    cases h
    exact ⟨ticks,hq,by rwa [if_pos hg],rfl⟩
  · next hg =>
    cases h
    exact ⟨[],hq,by rw [if_neg hg]; rfl,rfl⟩

/-- A turn of the loop is a few calls of the recorder. -/
theorem iterate_run {received : Except TryRecvError PohRecord}
    (h : iterate sha256 received p = (.ok goesOn,p')) : ∃ ls, Run (PohStep sha256) p ls p' := by
  match received with
  | .ok record =>
    obtain ⟨r,q,hq,h⟩ := Exec.bind_ok.mp h
    cases h
    have hr := Exec.attempt_ok hq
    cases r with
    | ok entry => exact ⟨_,.single (.record hr)⟩
    | error e => exact ⟨_,.single (.refused hr)⟩
  | .error .disconnected =>
    cases h
    exact ⟨[],.nil⟩
  | .error .empty =>
    rw [iterate] at h
    obtain ⟨_,q,hq,h⟩ := Exec.bind_ok.mp h
    rw [Exec.get_bind] at h
    have hbatch : Run (PohStep sha256) p [(.hash 128,none)] q := .single (.hash hq)
    split at h
    · obtain ⟨_,t,ht,h⟩ := Exec.bind_ok.mp h
      cases h
      exact ⟨_,hbatch.snoc (.tick ht)⟩
    · cases h
      exact ⟨_,hbatch⟩

/-- The service is one user of the recorder: what holds along all runs of calls holds along its
loop. -/
theorem loop_run {received : List (Except TryRecvError PohRecord)} {ticks : List PohRecorder}
    (h : loop sha256 received p = (.ok ticks,p')) : ∃ ls, Run (PohStep sha256) p ls p' := by
  induction received generalizing p ticks with
  | nil =>
    cases h
    exact ⟨[],.nil⟩
  | cons r rest ih =>
    obtain ⟨goesOn,q,ticks,hq,hrest,rfl⟩ := loop_cons h
    obtain ⟨ls,hfirst⟩ := iterate_run hq
    cases goesOn with
    | false =>
      cases hrest
      exact ⟨ls,hfirst⟩
    | true =>
      obtain ⟨ms,hlast⟩ := ih hrest
      exact ⟨ls ++ ms,hfirst.append hlast⟩

/-- Behind any number of turns the recorder is in its slot and takes the next record: the service
never has an error to log. -/
theorem loop_records {received : List (Except TryRecvError PohRecord)} {ticks : List PohRecorder}
    {ticksPerSlot : UInt64} (hk : 0 < ticksPerSlot.toNat) (hi : p.InSlot ticksPerSlot)
    (h : loop sha256 received p = (.ok ticks,p')) :
    p'.InSlot ticksPerSlot ∧ ∀ transactionsHash e,
      (p'.record sha256 transactionsHash).1 ≠ .err e := by
  obtain ⟨ls,hr⟩ := loop_run h
  exact ⟨hi.run hr,(hi.run hr).record_ne_err hk⟩

/-- Counted from the last tick on, the ticks of a run are evenly spaced exactly when every batch had
room. -/
theorem loop_spaced {received : List (Except TryRecvError PohRecord)} {last : PohRecorder}
    {ticks : List PohRecorder} (h : loop sha256 received p = (.ok ticks,p')) (hc : Counts last p) :
    EvenlySpaced p.hashesPerTick (last :: ticks) ↔ HasRoom sha256 received p := by
  induction received generalizing last p ticks with
  | nil =>
    cases h
    exact iff_of_true (.singleton last) trivial
  | cons r rest ih =>
    obtain ⟨goesOn,q,ticks,hq,hrest,rfl⟩ := loop_cons h
    match r with
    | .ok record =>
      obtain ⟨rfl,n,ha⟩ := iterate_record hq
      rw [if_pos ha.tickCount_eq,← ha.hashesPerTick_eq,ih hrest (ha.counts hc),HasRoom,hq]
    | .error .disconnected =>
      cases hq
      cases hrest
      rw [if_pos rfl]
      exact iff_of_true (.singleton last) trivial
    | .error .empty =>
      rw [HasRoom,hq]
      obtain ⟨rfl,⟨hroom,ha⟩ | ⟨hfull,hk,hcount,hn,hzero⟩⟩ := iterate_empty hq
      · rw [if_pos ha.tickCount_eq,← ha.hashesPerTick_eq,ih hrest (ha.counts hc),
          ha.hashesPerTick_eq]
        exact (and_iff_right hroom.le).symm
      · -- the tick comes at its place only if the batch ends there
        have hq₀ : Counts q q := by
          rw [Counts,hzero]
          rfl
        have hlast : q.numHashes.toNat = last.numHashes.toNat+p.hashesPerTick.toNat ↔
            p.hashesSinceLastTick.toNat+hashesPerBatch ≤ p.hashesPerTick.toNat := by
          unfold Counts at hc
          omega
        rw [if_neg hcount,EvenlySpaced,List.isChain_cons_cons,hlast,← ih hrest hq₀,hk]
        rfl

/-- The ticks of a service, counted from its start, are evenly spaced exactly when no batch ever
runs past the end of a tick. -/
theorem evenly_spaced_iff (sha256 : List UInt8 → Hash) (initialHash : Hash) (config : PohConfig)
    (received : List (Except TryRecvError PohRecord)) {ticks : List PohRecorder}
    (h : PohService.new sha256 config received
      (.new initialHash config.ticksPerSlot config.hashesPerTick) = (.ok ticks,p)) :
    EvenlySpaced config.hashesPerTick
        (.new initialHash config.ticksPerSlot config.hashesPerTick :: ticks) ↔
      HasRoom sha256 received (.new initialHash config.ticksPerSlot config.hashesPerTick) := by
  rw [PohService.new,idealNsPerBatch] at h
  obtain ⟨_,q,hq,h⟩ := Exec.bind_ok.mp h
  obtain ⟨-,hq⟩ := Exec.panicIf_bind_ok.mp hq
  obtain ⟨-,hq⟩ := Exec.panicIf_bind_ok.mp hq
  cases hq
  exact loop_spaced h rfl

deriving instance DecidableEq for PohRecorder

/-- One record and one batch make a tick of 129 hashes. -/
theorem recorded_ticks_spaced :
    let sha256 : List UInt8 → Hash := fun _ => default
    let received : List (Except TryRecvError PohRecord) :=
      [.ok ⟨default⟩,.error .empty,.ok ⟨default⟩,.error .empty]
    let p := PohRecorder.new default 16 129
    let p₁ : PohRecorder := { p with numHashes := 129, tickCount := 1 }
    let p₂ : PohRecorder := { p with numHashes := 258, tickCount := 2 }
    (PohService.new sha256 ⟨129,16,50000000⟩ received p).1 = .ok [p₁,p₂] ∧
      EvenlySpaced 129 [p,p₁,p₂] ∧
      (EvenlySpaced 129 [p,p₁,p₂] ↔ HasRoom sha256 received p) := by
  intro sha256 received p p₁ p₂
  have hr : (PohService.new sha256 ⟨129,16,50000000⟩ received p).1 = .ok [p₁,p₂] := by
    decide +kernel
  have hspaced : EvenlySpaced 129 [p,p₁,p₂] := by
    unfold EvenlySpaced
    decide
  refine ⟨hr,hspaced,?_⟩
  exact evenly_spaced_iff sha256 default ⟨129,16,50000000⟩ received (Exec.run_of_result hr)

/-- Eight hashes to a tick are fewer than a batch: the first tick comes after a whole batch. -/
theorem batch_overruns_tick :
    ¬∀ (sha256 : List UInt8 → Hash) (initialHash : Hash) (config : PohConfig)
      (received : List (Except TryRecvError PohRecord)) (ticks : List PohRecorder)
      (p : PohRecorder), 1 ≤ config.hashesPerTick →
      PohService.new sha256 config received
        (.new initialHash config.ticksPerSlot config.hashesPerTick) = (.ok ticks,p) →
      EvenlySpaced config.hashesPerTick
        (.new initialHash config.ticksPerSlot config.hashesPerTick :: ticks) := by
  intro h
  have hr : (PohService.new (fun _ => default) ⟨8,16,50000000⟩ [.error .empty]
      (.new default 16 8)).1 =
        .ok [{ PohRecorder.new default 16 8 with numHashes := 128, tickCount := 1 }] := by
    decide +kernel
  exact absurd (h _ _ _ _ _ _ (by decide) (Exec.run_of_result hr)) (by unfold EvenlySpaced; decide)

end PohService

end TinySolana
