import Mathlib.Data.List.DropRight
import TinySolana.Bank
import TinySolana.Foundations.Runs

/-!
# Blockhashes

A chain of banks keeps the hashes of its last slots, and a transaction is accepted while the hash
that it names is among them. What `getLatestBlockhash` promises about the newest hash holds but for
the hash that a chain starts with.
-/

namespace TinySolana
open Foundations

/-- A queue that holds the end of a history and drops its front when it gets too long does so
again. -/
theorem rtake_push {α : Type} (l : List α) (depth : ℕ) (a : α) :
    (if depth < (l.rtake depth ++ [a]).length then (l.rtake depth ++ [a]).tail
      else l.rtake depth ++ [a]) = (l ++ [a]).rtake depth := by
  rw [← List.rtake_concat_succ]
  unfold List.rtake
  rw [List.length_drop,List.tail_drop]
  split <;> congr 1 <;> omega

theorem rtake_cons_length {α : Type} (a : α) {l : List α} {n : ℕ} (h : l.length = n) :
    (a :: l).rtake n = l := by
  subst h
  simp [List.rtake]

theorem rtake_map {α β : Type} (f : α → β) (l : List α) (n : ℕ) :
    (l.rtake n).map f = (l.map f).rtake n := by
  rw [List.rtake,List.rtake,List.map_drop,List.length_map]

namespace Bank

/-- The same bank later on. Its slot, its queue and its parent's hash are never assigned. -/
structure InUse (bank used : Bank) : Prop where
  slot : used.slot = bank.slot
  blockhashQueue : used.blockhashQueue = bank.blockhashQueue
  parentHash : used.parentHash = bank.parentHash

theorem InUse.refl (bank : Bank) : bank.InUse bank := ⟨rfl,rfl,rfl⟩

theorem InUse.trans {a b c : Bank} (h : a.InUse b) (h' : b.InUse c) : a.InUse c :=
  ⟨h'.slot.trans h.slot,h'.blockhashQueue.trans h.blockhashQueue,h'.parentHash.trans h.parentHash⟩

theorem freeze_inUse {rootHash : Option Hash} {bank frozen : Bank}
    (h : bank.freeze rootHash = some frozen) : bank.InUse frozen := by
  unfold freeze at h
  split at h
  · cases h
    exact .refl bank
  · split at h <;> cases h <;> exact ⟨rfl,rfl,rfl⟩

/-- A child is made of a bank that may have been in use, which is left as the label says. -/
def Advances (bank parent child : Bank) : Prop :=
  ∃ used rootHash, bank.InUse used ∧ newFromParent rootHash used = some (parent,child)

/-- What a child's queue says of its parent. -/
def info (bank : Bank) : BlockhashInfo := ⟨bank.hash,bank.slot⟩

theorem advances_spec {bank parent child : Bank} (h : Advances bank parent child) :
    parent.slot = bank.slot ∧ child.slot.toNat = bank.slot.toNat+1 ∧
      child.blockhashQueue =
        if maxBlockhashQueueDepth < (bank.blockhashQueue ++ [parent.info]).length then
          (bank.blockhashQueue ++ [parent.info]).tail
        else bank.blockhashQueue ++ [parent.info] := by
  obtain ⟨used,rootHash,hu,h⟩ := h
  obtain ⟨frozen,hf,h⟩ := Option.bind_eq_some_iff.mp h
  have hin := hu.trans (freeze_inUse hf)
  dsimp only at h
  split at h
  · next hlt =>
    cases h
    refine ⟨hin.slot,?_,by rw [← hin.blockhashQueue]; rfl⟩
    rw [← hin.slot,UInt64.toNat_add,UInt64.toNat_one,Nat.mod_eq_of_lt hlt]
  · cases h

/-! ## The window -/

/-- The hash that a chain starts with and those of its banks, each with the slot that it stands
for. -/
def history (banks : List Bank) : List BlockhashInfo := ⟨default,0⟩ :: banks.map info

/-- The bank comes behind the banks given, from slot 0 on, and keeps the end of their history. -/
structure Follows (banks : List Bank) (bank : Bank) : Prop where
  slots : banks.map (fun p => p.slot.toNat) = List.range banks.length
  slot : bank.slot.toNat = banks.length
  queue : bank.blockhashQueue = (history banks).rtake maxBlockhashQueueDepth

variable {accounts : InMemoryAccountStore} {banks : List Bank} {bank used : Bank}

theorem follows_of_run (h : Run Advances (new accounts) banks bank) : Follows banks bank := by
  induction h with
  | nil => exact ⟨rfl,rfl,rfl⟩
  | @snoc t u ls p before last ih =>
    obtain ⟨hp,hs,hq⟩ := advances_spec last
    refine ⟨?_,?_,?_⟩
    · rw [List.map_append,ih.slots,List.length_append,List.length_singleton,List.range_succ,
        List.map_singleton,hp,ih.slot]
    · rw [hs,ih.slot,List.length_append,List.length_singleton]
    · rw [hq,ih.queue,rtake_push,history,history,List.map_append]
      rfl

/-- The hash that a chain starts with and the hash of slot 0 stand for the same slot. -/
theorem Follows.createdAtSlot (h : Follows banks bank) {i : ℕ} {info : BlockhashInfo}
    (hi : (history banks)[i]? = some info) : info.createdAtSlot.toNat = i-1 := by
  cases i with
  | zero =>
    cases hi
    rfl
  | succ k =>
    rw [history,List.getElem?_cons_succ,List.getElem?_map] at hi
    obtain ⟨p,hp,rfl⟩ := Option.map_eq_some_iff.mp hi
    have hk : (banks.map fun p => p.slot.toNat)[k]? = some p.slot.toNat := by
      rw [List.getElem?_map,hp]
      rfl
    rw [h.slots,List.getElem?_range (List.getElem?_eq_some_iff.mp hp).1,Option.some.injEq] at hk
    exact hk.symm

theorem length_history (banks : List Bank) : (history banks).length = banks.length+1 := by
  simp [history]

/-- Hashes leave the queue before they expire. -/
theorem Follows.age (h : Follows banks bank) {info : BlockhashInfo}
    (hm : info ∈ bank.blockhashQueue) :
    bank.slot.toNat ≤ info.createdAtSlot.toNat+maxBlockhashQueueDepth := by
  obtain ⟨i,hi⟩ := List.mem_iff_getElem?.mp hm
  rw [h.queue,List.rtake,length_history,List.getElem?_drop] at hi
  rw [h.slot,h.createdAtSlot hi]
  omega

/-- A bank that is not frozen accepts exactly the transactions that name a hash of its queue. -/
theorem Follows.checkPreflightRules_eq (h : Follows banks bank) (hu : bank.InUse used)
    (hz : used.isFrozen = false) (tx : Transaction) :
    used.checkPreflightRules tx =
      if tx.message.recentBlockhash ∈ bank.blockhashQueue.map BlockhashInfo.hash then .ok ()
      else .error .blockhashNotFound := by
  unfold checkPreflightRules
  rw [if_neg (by simp [hz]),hu.blockhashQueue]
  cases hf : bank.blockhashQueue.find? fun info => info.hash = tx.message.recentBlockhash with
  | none =>
    have hn : ¬tx.message.recentBlockhash ∈ bank.blockhashQueue.map BlockhashInfo.hash := by
      intro hm
      obtain ⟨info,hm,he⟩ := List.mem_map.mp hm
      have := List.find?_eq_none.mp hf info hm
      simp [he] at this
    rw [if_neg hn]
  | some info =>
    have hm := List.mem_of_find?_eq_some hf
    have he : info.hash = tx.message.recentBlockhash := by simpa using List.find?_some hf
    rw [if_pos (he ▸ List.mem_map_of_mem hm)]
    -- Whichever entry is found first, it has not expired.
    have hage := h.age hm
    refine if_neg ?_
    rw [hu.slot,UInt64.lt_iff_toNat_lt,satAdd_toNat,maxBlockhashQueueDepth]
    rw [maxBlockhashQueueDepth] at hage
    have := bank.slot.toNat_lt
    simp only [UInt64.reduceOfNat,UInt64.reduceToNat]
    omega

/-- The hashes of a chain, from the one it starts with on. -/
theorem history_hashes (banks : List Bank) :
    (history banks).map BlockhashInfo.hash = default :: banks.map hash := by
  rw [history,List.map_cons,List.map_map]
  rfl

theorem Follows.hashes (h : Follows banks bank) :
    bank.blockhashQueue.map BlockhashInfo.hash =
      (default :: banks.map hash).rtake maxBlockhashQueueDepth := by
  rw [h.queue,rtake_map,history_hashes]

/-- The bank at slot `n` of a chain holds the last `n+1` hashes of the chain, 150 of them at most,
and accepts exactly the transactions that name one of these. -/
theorem blockhash_window (h : Run Advances (new accounts) banks bank) :
    banks.map (fun p => p.slot.toNat) = List.range banks.length ∧ bank.slot.toNat = banks.length ∧
      let window := (default :: banks.map hash).rtake (min (bank.slot.toNat+1) 150)
      bank.blockhashQueue.map BlockhashInfo.hash = window ∧
        ∀ used, bank.InUse used → used.isFrozen = false → ∀ tx, used.checkPreflightRules tx =
          if tx.message.recentBlockhash ∈ window then .ok () else .error .blockhashNotFound := by
  have hf := follows_of_run h
  have hwindow : bank.blockhashQueue.map BlockhashInfo.hash =
      (default :: banks.map hash).rtake (min (bank.slot.toNat+1) 150) := by
    have hmin : banks.length+1-150 = banks.length+1-min (banks.length+1) 150 := by omega
    rw [hf.hashes,hf.slot,maxBlockhashQueueDepth,List.rtake,List.rtake,List.length_cons,
      List.length_map,hmin]
  refine ⟨hf.slots,hf.slot,hwindow,fun used hu hz tx => ?_⟩
  rw [hf.checkPreflightRules_eq hu hz,hwindow]

/-! ## The answer to `getLatestBlockhash` -/

/-- `handle_get_latest_blockhash`: the newest hash and its `lastValidBlockHeight`, whose addition
may overflow. -/
def getLatestBlockhash (bank : Bank) : Option (Hash × UInt64) :=
  match bank.blockhashQueue.getLast? with
  | some info =>
    if info.createdAtSlot.toNat+maxBlockhashQueueDepth < 2^64 then
      some (info.hash,info.createdAtSlot+UInt64.ofNat maxBlockhashQueueDepth)
    else none
  | none => some (default,0)

/-- The newest hash of a chain is that of its last bank, and its last slot counts from there. -/
theorem Follows.getLatestBlockhash_spec (h : Follows banks bank) {blockhash : Hash}
    {lastValid : UInt64} (hl : bank.getLatestBlockhash = some (blockhash,lastValid)) :
    (default :: banks.map hash)[banks.length]? = some blockhash ∧
      lastValid.toNat = banks.length-1+maxBlockhashQueueDepth := by
  have hlast : bank.blockhashQueue.getLast? = (history banks)[banks.length]? := by
    rw [h.queue,List.rtake,length_history,List.getLast?_drop,length_history,if_neg (by
      rw [maxBlockhashQueueDepth]
      omega),List.getLast?_eq_getElem?,length_history,Nat.add_sub_cancel]
  have hlt : banks.length < (history banks).length := by rw [length_history]; omega
  have hinfo := List.getElem?_eq_getElem hlt
  unfold getLatestBlockhash at hl
  rw [hlast,hinfo] at hl
  dsimp only at hl
  split at hl
  · next hfits =>
    cases hl
    constructor
    · rw [← history_hashes,List.getElem?_map,hinfo]
      rfl
    · rw [UInt64.toNat_add,UInt64.toNat_ofNat_of_lt' (by decide),Nat.mod_eq_of_lt hfits,
        h.createdAtSlot hinfo]
  · cases hl

variable {later : List Bank} {d : Bank} {blockhash : Hash} {lastValid : UInt64}

/-- A bank accepts a hash when no transaction that names it is turned away. -/
theorem Follows.accepts_iff (h : Follows banks bank) (hu : bank.InUse used)
    (hz : used.isFrozen = false) :
    (∀ tx : Transaction, tx.message.recentBlockhash = blockhash →
      used.checkPreflightRules tx = .ok ()) ↔
      blockhash ∈ (default :: banks.map hash).rtake maxBlockhashQueueDepth := by
  rw [← h.hashes]
  constructor
  · intro hall
    have hok := hall ⟨[],[],blockhash,[]⟩ rfl
    rw [h.checkPreflightRules_eq hu hz] at hok
    by_contra hn
    rw [if_neg hn] at hok
    cases hok
  · rintro hm tx rfl
    rw [h.checkPreflightRules_eq hu hz,if_pos hm]

/-- The newest hash of a bank is accepted up to its last slot by every descendant, but for the hash
that a chain starts with: at slot 150 it is gone unless a bank of the chain has the same hash. -/
theorem latest_blockhash_honoured_iff (h : Run Advances (new accounts) banks bank)
    (hl : bank.getLatestBlockhash = some (blockhash,lastValid)) (h' : Run Advances bank later d)
    (hu : d.InUse used) (hz : used.isFrozen = false) (hle : used.slot ≤ lastValid) :
    (∀ tx : Transaction, tx.message.recentBlockhash = blockhash →
      used.checkPreflightRules tx = .ok ()) ↔
      ¬(bank.slot = 0 ∧ used.slot = 150 ∧ default ∉ later.map hash) := by
  have hf := follows_of_run h
  have hd := follows_of_run (h.append h')
  obtain ⟨hnewest,hlast⟩ := hf.getLatestBlockhash_spec hl
  have hslot : used.slot.toNat = banks.length+later.length := by
    rw [hu.slot,hd.slot,List.length_append]
  rw [UInt64.le_iff_toNat_le,hslot,hlast,maxBlockhashQueueDepth] at hle
  have hzero : bank.slot = 0 ↔ banks.length = 0 := by
    rw [← hf.slot,← UInt64.toNat_inj]
    rfl
  have hend : used.slot = 150 ↔ banks.length+later.length = 150 := by
    rw [← hslot,← UInt64.toNat_inj]
    rfl
  rw [hd.accepts_iff hu hz,hzero,hend,List.rtake,List.length_cons,List.length_map,
    List.length_append,maxBlockhashQueueDepth]
  by_cases hin : banks.length+later.length+1-150 ≤ banks.length
  · -- The newest hash is still in the window.
    refine iff_of_true ?_ (by omega)
    refine List.mem_iff_getElem?.mpr ⟨banks.length-(banks.length+later.length+1-150),?_⟩
    rw [List.getElem?_drop,Nat.add_sub_cancel' hin,List.map_append,← List.cons_append,
      List.getElem?_append_left (by simp)]
    exact hnewest
  · -- It was pushed out, by a chain of 150 banks from the first one.
    have hn : banks.length = 0 := by omega
    have hm : later.length = 150 := by omega
    obtain rfl := List.length_eq_zero_iff.mp hn
    obtain rfl : default = blockhash := by simpa using hnewest
    rw [hm]
    simp

/-! ## A chain of any length -/

theorem newFromParent_of_fresh {rootHash : Hash} (hz : bank.isFrozen = false)
    (hn : bank.finalizedHash = none) (hs : bank.slot.toNat+1 < 2^64) :
    ∃ parent child, newFromParent (some rootHash) bank = some (parent,child) ∧
      parent.hash = rootHash ∧ child.isFrozen = false ∧ child.finalizedHash = none := by
  have hf : bank.freeze (some rootHash) =
      some { bank with isFrozen := true, finalizedHash := some rootHash } := by
    simp [freeze,hz,hn]
  unfold newFromParent
  rw [hf]
  exact ⟨_,_,if_pos hs,rfl,rfl,rfl⟩

/-- Below the last slot there are chains of any length, whose banks all have one hash. -/
theorem exists_chain (accounts : InMemoryAccountStore) (rootHash : Hash) {n : ℕ} (hn : n < 2^64) :
    ∃ banks bank, Run Advances (new accounts) banks bank ∧
      banks.map hash = List.replicate n rootHash ∧
      bank.isFrozen = false ∧ bank.finalizedHash = none := by
  induction n with
  | zero => exact ⟨[],_,.nil,rfl,rfl,rfl⟩
  | succ n ih =>
    obtain ⟨banks,bank,hr,hh,hz,hnone⟩ := ih (by omega)
    have hlen : banks.length = n := by simpa using congrArg List.length hh
    have hslot : bank.slot.toNat+1 < 2^64 := by rw [(follows_of_run hr).slot,hlen]; exact hn
    obtain ⟨parent,child,hc,hph,hcz,hcn⟩ := newFromParent_of_fresh hz hnone hslot
    refine ⟨banks ++ [parent],child,hr.snoc ⟨bank,some rootHash,.refl bank,hc⟩,?_,hcz,hcn⟩
    rw [List.map_append,hh,List.replicate_succ',List.map_singleton,hph]

/-- A hash unlike the one that a chain starts with. -/
def hashOfOnes : Hash := ⟨List.replicate 32 1,List.length_replicate⟩

theorem default_ne_hashOfOnes : (default : Hash) ≠ hashOfOnes := by decide

theorem window_of_ones : ∃ banks bank, Run Advances (new ∅) banks bank ∧
    bank.blockhashQueue.map BlockhashInfo.hash = List.replicate 150 hashOfOnes := by
  obtain ⟨banks,bank,hr,hh,-,-⟩ := exists_chain ∅ hashOfOnes (n := 150) (by decide)
  obtain ⟨-,hslot,hwindow,-⟩ := blockhash_window hr
  refine ⟨banks,bank,hr,?_⟩
  have hlen : banks.length = 150 := by simpa using congrArg List.length hh
  rw [hwindow,hslot,hlen,hh]
  exact rtake_cons_length _ List.length_replicate

/-- A bank at slot 150 turns away the hash that the first bank gave out for up to this slot. -/
theorem genesis_blockhash_lost : ∃ later d, Run Advances (new ∅) later d ∧
    later.map hash = List.replicate 150 hashOfOnes ∧
    (new ∅).getLatestBlockhash = some (default,150) ∧ d.slot = 150 ∧ d.isFrozen = false ∧
    d.checkPreflightRules ⟨[],[],default,[]⟩ = .error .blockhashNotFound := by
  obtain ⟨later,d,hr,hh,hz,-⟩ := exists_chain ∅ hashOfOnes (n := 150) (by decide)
  have hd := follows_of_run hr
  have hlen : later.length = 150 := by simpa using congrArg List.length hh
  refine ⟨later,d,hr,hh,rfl,?_,hz,?_⟩
  · apply UInt64.toNat_inj.mp
    rw [hd.slot,hlen]
    rfl
  · rw [hd.checkPreflightRules_eq (.refl d) hz,hd.hashes,hh,maxBlockhashQueueDepth,
      rtake_cons_length _ List.length_replicate]
    exact if_neg fun hm => default_ne_hashOfOnes (List.eq_of_mem_replicate hm)

theorem genesis_blockhash_kept : ∃ later d, Run Advances (new ∅) later d ∧ d.slot = 149 ∧
    ∀ tx : Transaction, tx.message.recentBlockhash = default →
      d.checkPreflightRules tx = .ok () := by
  obtain ⟨later,d,hr,hh,hz,-⟩ := exists_chain ∅ hashOfOnes (n := 149) (by decide)
  have hlen : later.length = 149 := by simpa using congrArg List.length hh
  have hslot : d.slot = 149 := by
    apply UInt64.toNat_inj.mp
    rw [(follows_of_run hr).slot,hlen]
    rfl
  have hl : (new ∅).getLatestBlockhash = some (default,150) := rfl
  refine ⟨later,d,hr,hslot,?_⟩
  refine (latest_blockhash_honoured_iff .nil hl hr (.refl d) hz ?_).mpr ?_
  · rw [hslot]
    decide
  · rw [hslot]
    rintro ⟨-,hc,-⟩
    cases hc

end Bank

end TinySolana
