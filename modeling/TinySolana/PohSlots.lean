import TinySolana.Poh

/-!
# The slots of a recorder

The recorder counts its slots up one by one and only looks at the remainder of its ticks. The
quotient is the slot all the same, and the height at which records would be refused stays one slot
ahead of the ticks.
-/

namespace TinySolana
open Foundations

/-- Every slot has its ticks, and the height is where the next slot begins. -/
structure PohRecorder.InSlot (ticksPerSlot : UInt64) (p : PohRecorder) : Prop where
  ticksPerSlot_eq : p.ticksPerSlot = ticksPerSlot
  slot_eq : p.slot.toNat = p.tickCount.toNat/ticksPerSlot.toNat
  maxTickHeight_eq : p.maxTickHeight.toNat = (p.slot.toNat+1)*ticksPerSlot.toNat

namespace PohRecorder.InSlot

variable {sha256 : List UInt8 → Hash} {ticksPerSlot : UInt64} {p p' : PohRecorder}

theorem new (initialHash : Hash) (ticksPerSlot hashesPerTick : UInt64) :
    (PohRecorder.new initialHash ticksPerSlot hashesPerTick).InSlot ticksPerSlot :=
  ⟨rfl,(Nat.zero_div _).symm,(Nat.one_mul _).symm⟩

/-- The height is never reached. -/
theorem below (h : p.InSlot ticksPerSlot) (hk : 0 < ticksPerSlot.toNat) :
    p.tickCount < p.maxTickHeight := by
  rw [UInt64.lt_iff_toNat_lt,h.maxTickHeight_eq,h.slot_eq]
  exact Nat.lt_mul_of_div_lt (Nat.lt_succ_self _) hk

/-- So no record is refused. -/
theorem record_ne_err (h : p.InSlot ticksPerSlot) (hk : 0 < ticksPerSlot.toNat)
    (transactionsHash : Hash) (e : PohError) : (p.record sha256 transactionsHash).1 ≠ .err e := by
  intro he
  obtain ⟨hle,-⟩ := PohRecorder.record_refused (Exec.run_of_result he)
  exact UInt64.not_le.mpr (h.below hk) hle

/-- Counting a tick and crossing into the next slot where it is the last of its slot. -/
theorem crossSlot {q : PohRecorder} (h : q.InSlot ticksPerSlot)
    (hcount : q.tickCount.toNat+1 < 2^64)
    (hr : PohRecorder.crossSlot { q with hashesSinceLastTick := 0, tickCount := q.tickCount+1 } =
      (.ok (),p')) : p'.InSlot ticksPerSlot := by
  have ht : (q.tickCount+1).toNat = q.tickCount.toNat+1 :=
    (UInt64.toNat_add ..).trans (Nat.mod_eq_of_lt hcount)
  have hm : (q.tickCount+1) % q.ticksPerSlot = 0 ↔ ticksPerSlot.toNat ∣ q.tickCount.toNat+1 := by
    rw [← UInt64.toNat_inj,UInt64.toNat_mod,ht,h.ticksPerSlot_eq,UInt64.toNat_zero,
      Nat.dvd_iff_mod_eq_zero]
  obtain ⟨-,⟨hc,hs,hh,rfl⟩ | ⟨hc,rfl⟩⟩ := PohRecorder.crossSlot_ok hr
  · have hslot : (q.slot+1).toNat = q.slot.toNat+1 :=
      (UInt64.toNat_add ..).trans (Nat.mod_eq_of_lt ((Nat.lt_succ_self _).trans hs))
    have hnext : (q.slot+1+1).toNat = q.slot.toNat+2 := by
      rw [UInt64.toNat_add,hslot]
      exact Nat.mod_eq_of_lt hs
    refine ⟨h.ticksPerSlot_eq,?_,?_⟩
    · dsimp only
      rw [hslot,ht,Nat.succ_div,if_pos (hm.mp hc),h.slot_eq]
    · dsimp only at hh ⊢
      rw [UInt64.toNat_mul,hnext,Nat.mod_eq_of_lt hh,hslot,h.ticksPerSlot_eq]
  · refine ⟨h.ticksPerSlot_eq,?_,h.maxTickHeight_eq⟩
    dsimp only
    rw [ht,Nat.succ_div,if_neg fun hd => hc (hm.mpr hd),Nat.add_zero,h.slot_eq]

theorem step {l : PohCall × Option PoHEntry} (h : p.InSlot ticksPerSlot)
    (hs : PohStep sha256 p l p') : p'.InSlot ticksPerSlot := by
  cases hs with
  | hash hrun =>
    obtain ⟨hp,-⟩ := PohRecorder.hash_ok hrun
    rw [hp]
    exact ⟨h.ticksPerSlot_eq,h.slot_eq,h.maxTickHeight_eq⟩
  | tick hrun =>
    obtain ⟨q,hq,hcount,hcross⟩ := PohRecorder.tick_ok hrun
    obtain ⟨hp,-⟩ := PohRecorder.hash_ok hq
    have hbefore : q.InSlot ticksPerSlot := by
      rw [hp]
      exact ⟨h.ticksPerSlot_eq,h.slot_eq,h.maxTickHeight_eq⟩
    exact hbefore.crossSlot hcount hcross
  | refused hrun =>
    rw [PohRecorder.record_err hrun]
    exact h
  | record hrun =>
    obtain ⟨-,-,-,-,rfl⟩ := PohRecorder.record_advances hrun
    exact ⟨h.ticksPerSlot_eq,h.slot_eq,h.maxTickHeight_eq⟩

theorem run {ls : List (PohCall × Option PoHEntry)} (h : p.InSlot ticksPerSlot)
    (hr : Run (PohStep sha256) p ls p') : p'.InSlot ticksPerSlot :=
  Run.invariant (fun _ _ _ h hs => h.step hs) hr h

end PohRecorder.InSlot

section runs

variable {sha256 : List UInt8 → Hash} {p : PohRecorder} {ls : List (PohCall × Option PoHEntry)}

/-- The slot is the number of full slots of ticks, so that no record is ever refused. -/
theorem slot_accounting (sha256 : List UInt8 → Hash) (initialHash : Hash)
    (ticksPerSlot hashesPerTick : UInt64) (hk : 1 ≤ ticksPerSlot)
    (hr : Run (PohStep sha256) (.new initialHash ticksPerSlot hashesPerTick) ls p) :
    p.slot.toNat = p.tickCount.toNat/ticksPerSlot.toNat ∧
      p.maxTickHeight.toNat = (p.slot.toNat+1)*ticksPerSlot.toNat ∧
      p.tickCount < p.maxTickHeight ∧
      ∀ transactionsHash, (p.record sha256 transactionsHash).1 ≠ .err .maxHeightReached := by
  have hi := (PohRecorder.InSlot.new initialHash ticksPerSlot hashesPerTick).run hr
  have hpos := UInt64.le_iff_toNat_le.mp hk
  exact ⟨hi.slot_eq,hi.maxTickHeight_eq,hi.below hpos,fun _ => hi.record_ne_err hpos _ _⟩

/-- Two ticks to a slot: the third tick falls into the second slot. -/
theorem third_tick_accounted :
    let sha256 : List UInt8 → Hash := fun _ => default
    let p := PohRecorder.new default 2 1
    let p₁ := (p.tick sha256).2
    let p₂ := (p₁.tick sha256).2
    let p₃ := (p₂.tick sha256).2
    Run (PohStep sha256) p [(.tick,none),(.tick,none),(.tick,none)] p₃ ∧
      p₃.slot = 1 ∧ p₃.tickCount = 3 ∧ p₃.maxTickHeight = 4 ∧
      p₃.slot.toNat = p₃.tickCount.toNat/2 ∧
      p₃.maxTickHeight.toNat = (p₃.slot.toNat+1)*2 ∧
      p₃.tickCount < p₃.maxTickHeight ∧
      ∀ transactionsHash, (p₃.record sha256 transactionsHash).1 ≠ .err .maxHeightReached := by
  intro sha256 p p₁ p₂ p₃
  have h₁ : PohStep sha256 p (.tick,none) p₁ := .ticked (by decide +kernel)
  have h₂ : PohStep sha256 p₁ (.tick,none) p₂ := .ticked (by decide +kernel)
  have h₃ : PohStep sha256 p₂ (.tick,none) p₃ := .ticked (by decide +kernel)
  have hr : Run (PohStep sha256) p [(.tick,none),(.tick,none),(.tick,none)] p₃ :=
    ((Run.single h₁).snoc h₂).snoc h₃
  exact ⟨hr,by decide +kernel,by decide +kernel,by decide +kernel,
    slot_accounting sha256 default 2 1 (by decide) hr⟩

end runs

end TinySolana
