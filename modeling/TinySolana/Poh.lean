import TinySolana.Types
import TinySolana.Foundations.Exec
import TinySolana.Foundations.Runs
import TinySolana.Foundations.Saturating
import Mathlib.Data.List.Chain

/-!
# Proof of history

The recorder hashes its hash over and over and mixes records in. Every entry carries the number of
hashes so far, so the entries of a run can be replayed from the hash it began with: ticks change the
counters of the slot and advance the hash like any other call.
-/

namespace TinySolana
open Foundations

structure PoHEntry where
  hash : Hash
  numHashes : UInt64
  transactionsHash : Hash
  deriving DecidableEq

inductive PohError where
  | maxHeightReached
  deriving DecidableEq

structure PohRecorder where
  currentHash : Hash
  numHashes : UInt64
  ticksPerSlot : UInt64
  hashesPerTick : UInt64
  maxTickHeight : UInt64
  hashesSinceLastTick : UInt64
  tickCount : UInt64
  slot : UInt64

abbrev Poh := Exec PohRecorder PohError

/-- The hash of a hash. -/
def rehash (sha256 : List UInt8 → Hash) (h : Hash) : Hash := sha256 h.bytes

/-- The hash of a hash and the hash of some transactions. -/
def mixIn (sha256 : List UInt8 → Hash) (h transactionsHash : Hash) : Hash :=
  sha256 (h.bytes ++ transactionsHash.bytes)

namespace PohRecorder

def new (initialHash : Hash) (ticksPerSlot hashesPerTick : UInt64) : PohRecorder where
  currentHash := initialHash
  numHashes := 0
  ticksPerSlot := ticksPerSlot
  hashesPerTick := hashesPerTick
  maxTickHeight := ticksPerSlot
  hashesSinceLastTick := 0
  tickCount := 0
  slot := 0

/-- Replace the hash and count that; the counters may overflow. -/
def advance (next : Hash → Hash) : Poh Unit := do
  Exec.modify fun p => { p with currentHash := next p.currentHash }
  let p ← Exec.get
  Exec.panicIf (2^64 ≤ p.numHashes.toNat+1)
  Exec.panicIf (2^64 ≤ p.hashesSinceLastTick.toNat+1)
  Exec.modify fun p => { p with
    numHashes := p.numHashes+1
    hashesSinceLastTick := p.hashesSinceLastTick+1 }

def hash (sha256 : List UInt8 → Hash) : ℕ → Poh Unit
  | 0 => pure ()
  | n+1 => do
    advance (rehash sha256)
    hash sha256 n

/-- Begin the next slot once all its ticks have been counted. -/
def crossSlot : Poh Unit := do
  let p ← Exec.get
  Exec.panicIf (p.ticksPerSlot = 0)
  if p.tickCount % p.ticksPerSlot = 0 then do
    Exec.panicIf (2^64 ≤ p.slot.toNat+2)
    Exec.panicIf (2^64 ≤ (p.slot.toNat+2)*p.ticksPerSlot.toNat)
    Exec.modify fun p => { p with
      slot := p.slot+1
      maxTickHeight := (p.slot+1+1)*p.ticksPerSlot }
  else pure ()

def tick (sha256 : List UInt8 → Hash) : Poh Unit := do
  let p ← Exec.get
  hash sha256 (satSub p.hashesPerTick p.hashesSinceLastTick).toNat
  let p ← Exec.get
  Exec.panicIf (2^64 ≤ p.tickCount.toNat+1)
  Exec.modify fun p => { p with hashesSinceLastTick := 0, tickCount := p.tickCount+1 }
  crossSlot

def shouldTick (p : PohRecorder) : Bool := p.hashesPerTick ≤ p.hashesSinceLastTick

def record (sha256 : List UInt8 → Hash) (transactionsHash : Hash) : Poh PoHEntry := do
  let p ← Exec.get
  Exec.failIf (p.maxTickHeight ≤ p.tickCount) .maxHeightReached
  advance fun h => mixIn sha256 h transactionsHash
  let p ← Exec.get
  return ⟨p.currentHash,p.numHashes,transactionsHash⟩

variable {sha256 : List UInt8 → Hash} {p p' : PohRecorder} {u : Unit}

/-! ## What the calls do -/

theorem advance_ok {next : Hash → Hash} : advance next p = (.ok u,p') ↔
    p.numHashes.toNat+1 < 2^64 ∧ p.hashesSinceLastTick.toNat+1 < 2^64 ∧
      p' = { p with
        currentHash := next p.currentHash
        numHashes := p.numHashes+1
        hashesSinceLastTick := p.hashesSinceLastTick+1 } := by
  rw [advance,Exec.modify_bind,Exec.get_bind,Exec.panicIf_bind_ok,Exec.panicIf_bind_ok,
    not_le,not_le]
  refine and_congr_right fun _ => and_congr_right fun _ => ?_
  constructor
  · intro h
    cases h
    rfl
  · rintro rfl
    rfl

/-- Only the hash and the two counters of hashes change. -/
theorem hash_ok {n : ℕ} (h : hash sha256 n p = (.ok u,p')) :
    p' = { p with
      currentHash := (rehash sha256)^[n] p.currentHash
      numHashes := p'.numHashes
      hashesSinceLastTick := p'.hashesSinceLastTick } ∧
    p'.numHashes.toNat = p.numHashes.toNat+n ∧
    p'.hashesSinceLastTick.toNat = p.hashesSinceLastTick.toNat+n := by
  induction n generalizing p with
  | zero =>
    cases h
    exact ⟨rfl,rfl,rfl⟩
  | succ n ih =>
    obtain ⟨_,q,hq,h⟩ := Exec.bind_ok.mp h
    obtain ⟨hn,hs,rfl⟩ := advance_ok.mp hq
    obtain ⟨hp,hcount,hsince⟩ := ih h
    have hn' : (p.numHashes+1).toNat = p.numHashes.toNat+1 :=
      (UInt64.toNat_add ..).trans (Nat.mod_eq_of_lt hn)
    have hs' : (p.hashesSinceLastTick+1).toNat = p.hashesSinceLastTick.toNat+1 :=
      (UInt64.toNat_add ..).trans (Nat.mod_eq_of_lt hs)
    refine ⟨hp,?_,?_⟩
    · rw [hcount,hn']
      omega
    · rw [hsince,hs']
      omega

/-- The slot moves on when its last tick was counted. -/
theorem crossSlot_ok (h : crossSlot p = (.ok u,p')) : p.ticksPerSlot ≠ 0 ∧
    ((p.tickCount % p.ticksPerSlot = 0 ∧ p.slot.toNat+2 < 2^64 ∧
        (p.slot.toNat+2)*p.ticksPerSlot.toNat < 2^64 ∧
        p' = { p with slot := p.slot+1, maxTickHeight := (p.slot+1+1)*p.ticksPerSlot }) ∨
      (p.tickCount % p.ticksPerSlot ≠ 0 ∧ p' = p)) := by
  rw [crossSlot,Exec.get_bind] at h
  obtain ⟨hz,h⟩ := Exec.panicIf_bind_ok.mp h
  refine ⟨hz,?_⟩
  split at h
  · next hc =>
    obtain ⟨hslot,h⟩ := Exec.panicIf_bind_ok.mp h
    obtain ⟨hheight,h⟩ := Exec.panicIf_bind_ok.mp h
    cases h
    exact .inl ⟨hc,not_le.mp hslot,not_le.mp hheight,rfl⟩
  · next hc =>
    cases h
    exact .inr ⟨hc,rfl⟩

theorem crossSlot_hashes (h : crossSlot p = (.ok u,p')) :
    p'.currentHash = p.currentHash ∧ p'.numHashes = p.numHashes := by
  obtain ⟨-,⟨-,-,-,rfl⟩ | ⟨-,rfl⟩⟩ := crossSlot_ok h
  · exact ⟨rfl,rfl⟩
  · exact ⟨rfl,rfl⟩

/-- A tick hashes what is missing, counts itself and may begin the next slot. -/
theorem tick_ok (h : tick sha256 p = (.ok u,p')) :
    ∃ q, hash sha256 (p.hashesPerTick.toNat-p.hashesSinceLastTick.toNat) p = (.ok (),q) ∧
      q.tickCount.toNat+1 < 2^64 ∧
      crossSlot { q with hashesSinceLastTick := 0, tickCount := q.tickCount+1 } = (.ok u,p') := by
  rw [tick,Exec.get_bind,satSub_toNat] at h
  obtain ⟨_,q,hq,h⟩ := Exec.bind_ok.mp h
  rw [Exec.get_bind] at h
  obtain ⟨hcount,h⟩ := Exec.panicIf_bind_ok.mp h
  exact ⟨q,hq,not_le.mp hcount,h⟩

theorem tick_hashes (h : tick sha256 p = (.ok u,p')) :
    ∃ n, p'.currentHash = (rehash sha256)^[n] p.currentHash ∧
      p'.numHashes.toNat = p.numHashes.toNat+n := by
  obtain ⟨q,hq,-,h⟩ := tick_ok h
  obtain ⟨hp,hcount,-⟩ := hash_ok hq
  obtain ⟨hh,hn⟩ := crossSlot_hashes h
  refine ⟨p.hashesPerTick.toNat-p.hashesSinceLastTick.toNat,hh.trans ?_,?_⟩
  · rw [hp]
  · rw [hn,← hcount]

/-- A record that is let in is one hash; it leaves the counters of the slot alone. -/
theorem record_advances {transactionsHash : Hash} {entry : PoHEntry}
    (h : record sha256 transactionsHash p = (.ok entry,p')) :
    p.tickCount < p.maxTickHeight ∧ p.numHashes.toNat+1 < 2^64 ∧
      p.hashesSinceLastTick.toNat+1 < 2^64 ∧
      entry = ⟨mixIn sha256 p.currentHash transactionsHash,p.numHashes+1,transactionsHash⟩ ∧
      p' = { p with
        currentHash := entry.hash
        numHashes := p.numHashes+1
        hashesSinceLastTick := p.hashesSinceLastTick+1 } := by
  rw [record,Exec.get_bind] at h
  obtain ⟨hm,h⟩ := Exec.failIf_bind_ok.mp h
  obtain ⟨_,q,hq,h⟩ := Exec.bind_ok.mp h
  obtain ⟨hn,hs,rfl⟩ := advance_ok.mp hq
  cases h
  exact ⟨UInt64.not_le.mp hm,hn,hs,rfl,rfl⟩

theorem record_ok {transactionsHash : Hash} {entry : PoHEntry}
    (h : record sha256 transactionsHash p = (.ok entry,p')) :
    p.numHashes.toNat+1 < 2^64 ∧
      entry = ⟨mixIn sha256 p.currentHash transactionsHash,p.numHashes+1,transactionsHash⟩ ∧
      p'.currentHash = entry.hash ∧ p'.numHashes = entry.numHashes := by
  obtain ⟨-,hn,-,rfl,rfl⟩ := record_advances h
  exact ⟨hn,rfl,rfl,rfl⟩

theorem advance_ne_err (next : Hash → Hash) (p : PohRecorder) (e : PohError) :
    (advance next p).1 ≠ .err e := by
  rw [advance,Exec.modify_bind,Exec.get_bind]
  unfold Exec.panicIf
  split
  · simp
  · rw [Exec.pure_bind]
    split <;> simp

/-- A record is only refused at the height of the slot, before anything is done. -/
theorem record_refused {transactionsHash : Hash} {e : PohError}
    (h : record sha256 transactionsHash p = (.err e,p')) :
      p.maxTickHeight ≤ p.tickCount ∧ p' = p := by
  rw [record,Exec.get_bind] at h
  by_cases hm : p.maxTickHeight ≤ p.tickCount
  · rw [Exec.failIf_true hm] at h
    cases h
    exact ⟨hm,rfl⟩
  · rw [Exec.failIf_false hm,Exec.pure_bind,Exec.bind_run] at h
    cases ha : advance (fun h => mixIn sha256 h transactionsHash) p with
    | mk r q =>
      rw [ha] at h
      cases r with
      | ok u => cases h
      | err e' => exact absurd (congrArg Prod.fst ha) (advance_ne_err _ p e')
      | panic => cases h

theorem record_err {transactionsHash : Hash} {e : PohError}
    (h : record sha256 transactionsHash p = (.err e,p')) : p' = p := (record_refused h).2

end PohRecorder

/-! ## Entries -/

inductive PohCall where
  | hash (numHashes : UInt64)
  | tick
  | record (transactionsHash : Hash)

/-- A call that returns, with the entry that a successful record hands out. -/
inductive PohStep (sha256 : List UInt8 → Hash) :
    PohRecorder → PohCall × Option PoHEntry → PohRecorder → Prop where
  | hash {p p' : PohRecorder} {n : UInt64} : p.hash sha256 n.toNat = (.ok (),p') →
      PohStep sha256 p (.hash n,none) p'
  | tick {p p' : PohRecorder} : p.tick sha256 = (.ok (),p') → PohStep sha256 p (.tick,none) p'
  | record {p p' : PohRecorder} {transactionsHash : Hash} {entry : PoHEntry} :
      p.record sha256 transactionsHash = (.ok entry,p') →
      PohStep sha256 p (.record transactionsHash,some entry) p'
  | refused {p p' : PohRecorder} {transactionsHash : Hash} {e : PohError} :
      p.record sha256 transactionsHash = (.err e,p') →
      PohStep sha256 p (.record transactionsHash,none) p'

/-- What the successful records of a run return, in order. -/
def entries (ls : List (PohCall × Option PoHEntry)) : List PoHEntry := ls.filterMap Prod.snd

namespace PoHEntry

/-- What a verifier knows before the first entry. There are no transactions behind it. -/
def start (initialHash : Hash) : PoHEntry := ⟨initialHash,0,initialHash⟩

/-- The later entry is the earlier one hashed as often as the counts differ, the last time together
with its transactions. This is what a verifier computes, in terms of the hash function only. -/
def Links (sha256 : List UInt8 → Hash) (e₁ e₂ : PoHEntry) : Prop :=
  e₁.numHashes < e₂.numHashes ∧
    e₂.hash = sha256
      (((fun h : Hash => sha256 h.bytes)^[e₂.numHashes.toNat-e₁.numHashes.toNat-1] e₁.hash).bytes ++
        e₂.transactionsHash.bytes)

instance (sha256 : List UInt8 → Hash) (e₁ e₂ : PoHEntry) : Decidable (e₁.Links sha256 e₂) :=
  inferInstanceAs (Decidable (_ ∧ _))

/-- A verifier that sees nothing but the entries. -/
def replays (sha256 : List UInt8 → Hash) (e : PoHEntry) : List PoHEntry → Bool
  | [] => true
  | e' :: rest => decide (e.Links sha256 e') && replays sha256 e' rest

theorem replays_iff {sha256 : List UInt8 → Hash} {e : PoHEntry} {rest : List PoHEntry} :
    replays sha256 e rest = true ↔ (e :: rest).IsChain (Links sha256) := by
  induction rest generalizing e with
  | nil => exact iff_of_true rfl (.singleton e)
  | cons e' rest ih => rw [replays,Bool.and_eq_true,decide_eq_true_iff,ih,List.isChain_cons_cons]

end PoHEntry

/-- The recorder has only hashed on since the entry. -/
def PohRecorder.Since (sha256 : List UInt8 → Hash) (e : PoHEntry) (p : PohRecorder) : Prop :=
  ∃ n, p.currentHash = (rehash sha256)^[n] e.hash ∧ p.numHashes.toNat = e.numHashes.toNat+n

section runs

variable {sha256 : List UInt8 → Hash} {p p' : PohRecorder} {e : PoHEntry}

theorem PohRecorder.Since.more {n : ℕ} (h : p.Since sha256 e)
    (hh : p'.currentHash = (rehash sha256)^[n] p.currentHash)
    (hn : p'.numHashes.toNat = p.numHashes.toNat+n) : p'.Since sha256 e := by
  obtain ⟨m,hm,hcount⟩ := h
  refine ⟨n+m,?_,by omega⟩
  rw [hh,hm,Function.iterate_add_apply]

/-- A step hands out no entry and the recorder hashes on, or an entry that links to the last one. -/
theorem PohStep.since {l : PohCall × Option PoHEntry} (hs : PohStep sha256 p l p')
    (h : p.Since sha256 e) :
    (l.2 = none ∧ p'.Since sha256 e) ∨
      ∃ e', l.2 = some e' ∧ e.Links sha256 e' ∧ p'.Since sha256 e' := by
  cases hs with
  | hash hrun =>
    obtain ⟨hp,hcount,-⟩ := PohRecorder.hash_ok hrun
    exact .inl ⟨rfl,h.more (by rw [hp]) hcount⟩
  | tick hrun =>
    obtain ⟨n,hh,hcount⟩ := PohRecorder.tick_hashes hrun
    exact .inl ⟨rfl,h.more hh hcount⟩
  | refused hrun =>
    rw [PohRecorder.record_err hrun]
    exact .inl ⟨rfl,h⟩
  | record hrun =>
    obtain ⟨hlt,rfl,hh,hn⟩ := PohRecorder.record_ok hrun
    obtain ⟨m,hm,hcount⟩ := h
    have hnext : (p.numHashes+1).toNat = p.numHashes.toNat+1 :=
      (UInt64.toNat_add ..).trans (Nat.mod_eq_of_lt hlt)
    refine .inr ⟨_,rfl,⟨?_,?_⟩,0,hh,congrArg UInt64.toNat hn⟩
    · rw [UInt64.lt_iff_toNat_lt]
      dsimp only
      omega
    · -- the published count leaves out exactly the hash that mixes the transactions in
      have hgap : (p.numHashes+1).toNat-e.numHashes.toNat-1 = m := by omega
      dsimp only
      rw [hgap,hm]
      rfl

/-- The entries so far form a chain and the recorder has hashed on since the last one. -/
theorem entries_chain {first : PoHEntry} {ls : List (PohCall × Option PoHEntry)}
    (hr : Run (PohStep sha256) p ls p') (h : p.Since sha256 first) :
    (first :: entries ls).IsChain (PoHEntry.Links sha256) ∧
      ∃ e ∈ (first :: entries ls).getLast?, p'.Since sha256 e := by
  induction hr with
  | nil => exact ⟨.singleton first,first,rfl,h⟩
  | @snoc t u ls l before last ih =>
    obtain ⟨hchain,e,he,ht⟩ := ih
    have hsplit : first :: entries (ls ++ [l]) = (first :: entries ls) ++ l.2.toList := by
      rw [entries,List.filterMap_append,List.cons_append]
      cases hl : l.2 <;> simp [hl,entries]
    rw [hsplit]
    obtain ⟨hl,hu⟩ | ⟨e',hl,hlink,hu⟩ := last.since ht
    · rw [hl,Option.toList_none,List.append_nil]
      exact ⟨hchain,e,he,hu⟩
    · rw [hl,Option.toList_some]
      refine ⟨hchain.append (.singleton e') ?_,e',List.getLast?_concat ..,hu⟩
      intro x hx y hy
      cases hy
      rwa [Option.mem_unique hx he]

/-- However ticks fall between them, the entries of a run replay from the hash it began with. -/
theorem entries_verifiable (sha256 : List UInt8 → Hash) (initialHash : Hash)
    (ticksPerSlot hashesPerTick : UInt64) {ls : List (PohCall × Option PoHEntry)}
    (hr : Run (PohStep sha256) (.new initialHash ticksPerSlot hashesPerTick) ls p) :
    (PoHEntry.start initialHash :: entries ls).IsChain (PoHEntry.Links sha256) ∧
      PoHEntry.replays sha256 (.start initialHash) (entries ls) = true := by
  have hstart : (PohRecorder.new initialHash ticksPerSlot hashesPerTick).Since sha256
      (.start initialHash) := ⟨0,rfl,rfl⟩
  have hchain := (entries_chain hr hstart).1
  exact ⟨hchain,PoHEntry.replays_iff.mpr hchain⟩

/-- A record goes on from the recorder that it leaves. -/
theorem PohStep.recorded {sha256 : List UInt8 → Hash} {p : PohRecorder} {transactionsHash : Hash}
    {entry : PoHEntry} (h : (p.record sha256 transactionsHash).1 = .ok entry) :
    PohStep sha256 p (.record transactionsHash,some entry) (p.record sha256 transactionsHash).2 :=
  .record (Exec.run_of_result h)

/-- So does a tick. -/
theorem PohStep.ticked {sha256 : List UInt8 → Hash} {p : PohRecorder}
    (h : (p.tick sha256).1 = .ok ()) : PohStep sha256 p (.tick,none) (p.tick sha256).2 :=
  .tick (Exec.run_of_result h)

/-- Two records with a tick between them. -/
theorem ticked_entries_verifiable :
    let sha256 : List UInt8 → Hash :=
      fun bs => ⟨leBytes 32 (bs.map UInt8.toNat).sum,leBytes_length _ _⟩
    let p := PohRecorder.new default 4 3
    let p₁ := (p.hash sha256 1).2
    let p₂ := (p₁.record sha256 default).2
    let p₃ := (p₂.tick sha256).2
    let p₄ := (p₃.record sha256 (sha256 [7])).2
    let e₂ : PoHEntry := ⟨p₂.currentHash,2,default⟩
    let e₄ : PoHEntry := ⟨p₄.currentHash,4,sha256 [7]⟩
    let ls := [(.hash 1,none),(.record default,some e₂),(.tick,none),(.record (sha256 [7]),some e₄)]
    Run (PohStep sha256) p ls p₄ ∧
      (.start default :: entries ls).IsChain (PoHEntry.Links sha256) ∧
        PoHEntry.replays sha256 (.start default) [e₂,e₄] = true := by
  intro sha256 p p₁ p₂ p₃ p₄ e₂ e₄ ls
  have h₁ : PohStep sha256 p (.hash 1,none) p₁ := .hash rfl
  have h₂ : PohStep sha256 p₁ (.record default,some e₂) p₂ := PohStep.recorded (by decide +kernel)
  have h₃ : PohStep sha256 p₂ (.tick,none) p₃ := PohStep.ticked (by decide +kernel)
  have h₄ : PohStep sha256 p₃ (.record (sha256 [7]),some e₄) p₄ :=
    PohStep.recorded (by decide +kernel)
  have hr : Run (PohStep sha256) p ls p₄ := (((Run.single h₁).snoc h₂).snoc h₃).snoc h₄
  exact ⟨hr,entries_verifiable sha256 default 4 3 hr⟩

end runs

end TinySolana
