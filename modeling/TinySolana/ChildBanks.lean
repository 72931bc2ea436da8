import TinySolana.Freeze

/-!
# Children of one bank

Callers of `Bank::new_from_parent` freeze the parent and then read its hash twice, for the queue of
the child and for its parent hash. A caller that finds the flag set returns from freezing at once;
where the hash is not written by then, it reads the hash of the parent's own parent.
-/

namespace TinySolana
open Foundations

namespace Bank

/-- The queue of a child, with the first reading of the parent's hash. -/
def pushHash (parent : Bank) : List BlockhashInfo :=
  let blockhashQueue := parent.blockhashQueue ++ [⟨parent.hash,parent.slot⟩]
  if maxBlockhashQueueDepth < blockhashQueue.length then blockhashQueue.tail else blockhashQueue

/-- The child with a queue, and the second reading of the parent's hash. -/
def childWith (parent : Bank) (blockhashQueue : List BlockhashInfo) : Bank where
  slot := parent.slot+1
  accounts := parent.accounts
  blockhashQueue := blockhashQueue
  parentHash := parent.hash
  isFrozen := false
  freezeLockCount := 0
  finalizedHash := none
  processedTransactions := 0
  failedTransactions := 0

theorem newFromParent_eq_some {rootHash : Option Hash} {bank parent child : Bank} :
    newFromParent rootHash bank = some (parent,child) ↔ bank.freeze rootHash = some parent ∧
      parent.slot.toNat+1 < 2^64 ∧ child = parent.childWith parent.pushHash := by
  unfold newFromParent
  rw [Option.bind_eq_bind,Option.bind_eq_some_iff]
  constructor
  · rintro ⟨frozen,hf,h⟩
    obtain ⟨hs,h⟩ := Option.ite_none_right_eq_some.mp h
    cases h
    exact ⟨hf,hs,rfl⟩
  · rintro ⟨hf,hs,rfl⟩
    exact ⟨parent,hf,if_pos hs⟩

/-- The newest entry of the queue is that of the parent. -/
theorem pushHash_getLast (parent : Bank) :
    parent.pushHash.getLast? = some ⟨parent.hash,parent.slot⟩ := by
  simp only [pushHash]
  split
  · next h =>
    have hl : (parent.blockhashQueue ++ [BlockhashInfo.mk parent.hash parent.slot]).length ≠ 1 := by
      rw [maxBlockhashQueueDepth] at h
      omega
    rw [List.getLast?_tail,if_neg hl,List.getLast?_concat]
  · rw [List.getLast?_concat]

end Bank

namespace FreezeSystem

variable {host : Host} {s t : FreezeSystem} {l : Label} {f : ℕ}

/-! ## What a step does to the hash -/

theorem Step.slot (h : Step host s l t) : t.bank.slot = s.bank.slot := by
  cases h <;> rfl

/-- The hash is only ever written by a caller that finds none, as the root hash of the store. -/
theorem Step.finalizedHash (h : Step host s l t) : t.bank.finalizedHash = s.bank.finalizedHash ∨
    ∃ f hash, l = .computeHash f ∧ s.bank.finalizedHash = none ∧
      s.bank.accounts.getRootHash host.sha256 = some hash ∧ t.bank.finalizedHash = some hash := by
  cases h with
  | computeHash hf hn hr => exact .inr ⟨_,_,rfl,hn,hr,rfl⟩
  | _ => exact .inl rfl

theorem Step.finalizedHash_kept (h : Step host s l t) {hash : Hash}
    (hs : s.bank.finalizedHash = some hash) : t.bank.finalizedHash = some hash := by
  rcases h.finalizedHash with hk | ⟨_,_,-,hn,-⟩
  · rw [hk,hs]
  · rw [hs] at hn
    cases hn

/-- A caller returns with the hash written, or because it finds the flag set. -/
theorem Step.returned (h : Step host s l t) (hf : t.freezers f = .returned) :
    s.freezers f = .returned ∨ t.bank.finalizedHash ≠ none ∨ l = .swap f ∧
      s.bank.isFrozen = true := by
  cases h with
  | load hl hc => exact .inl ((eq_or_of_update hf).resolve_right (by simp))
  | swap hl hz => exact .inl ((eq_or_of_update hf).resolve_right (by simp))
  | hashFails hl hn hr => exact .inl ((eq_or_of_update hf).resolve_right (by simp))
  | swapAgain hl hz =>
    rcases eq_or_of_update hf with hs | ⟨rfl,-⟩
    · exact .inl hs
    · exact .inr (.inr ⟨rfl,hz⟩)
  | computeHash hl hn hr => exact .inr (.inl (by simp [setBank]))
  | hashKept hl hn => exact .inr (.inl hn)
  | _ => exact .inl hf

end FreezeSystem

/-! ## Callers of new_from_parent -/

/-- Where a caller is in `Bank::new_from_parent` once its call of `freeze` has returned. A caller of
`freeze` alone goes no further; `panicked` is the overflow of the slot. -/
inductive ChildPhase where
  | freezing
  | queued (blockhashQueue : List BlockhashInfo)
  | made (child : Bank)
  | panicked

structure ChildSystem where
  parent : FreezeSystem
  children : ℕ → ChildPhase

namespace ChildSystem

inductive Label where
  | freeze (l : FreezeSystem.Label)
  | pushHash (f : ℕ)
  | make (f : ℕ)
  deriving DecidableEq

def setChild (s : ChildSystem) (f : ℕ) (p : ChildPhase) : ChildSystem :=
  { s with children := Function.update s.children f p }

/-- The steps around the parent's flag, and the two readings of its hash by callers that are past
it. -/
inductive Step (host : Host) : ChildSystem → Label → ChildSystem → Prop where
  | freeze {s : ChildSystem} {l : FreezeSystem.Label} {parent : FreezeSystem} :
      FreezeSystem.Step host s.parent l parent → Step host s (.freeze l) { s with parent }
  | pushHash {s : ChildSystem} {f : ℕ} : s.parent.freezers f = .returned →
      s.children f = .freezing →
      Step host s (.pushHash f) (s.setChild f (.queued s.parent.bank.pushHash))
  | make {s : ChildSystem} {f : ℕ} {blockhashQueue : List BlockhashInfo} :
      s.children f = .queued blockhashQueue → s.parent.bank.slot.toNat+1 < 2^64 →
      Step host s (.make f) (s.setChild f (.made (s.parent.bank.childWith blockhashQueue)))
  | slotOverflows {s : ChildSystem} {f : ℕ} {blockhashQueue : List BlockhashInfo} :
      s.children f = .queued blockhashQueue → 2^64 ≤ s.parent.bank.slot.toNat+1 →
      Step host s (.make f) (s.setChild f .panicked)

/-- No call has begun. -/
structure Initial (s : ChildSystem) : Prop where
  parent : s.parent.Initial
  freezing : ∀ f, s.children f = .freezing

variable {host : Host} {s s₀ t : ChildSystem} {l : Label} {ls : List Label} {f : ℕ}

theorem run_freeze {parent : FreezeSystem} {ls : List FreezeSystem.Label}
    (h : Run (FreezeSystem.Step host) s.parent ls parent) :
    Run (Step host) s (ls.map .freeze) { s with parent } := by
  induction h with
  | nil => exact .nil
  | snoc before last ih =>
    rw [List.map_append]
    exact ih.snoc (.freeze last)

/-- A caller that finds no freeze lock held and is not interrupted does what `new_from_parent`
does. -/
theorem newFromParent_uninterrupted {parent child : Bank} (hf : s.parent.freezers f = .loading)
    (hs : s.children f = .freezing) (hc : s.parent.bank.freezeLockCount = 0)
    (hb : s.parent.bank.newFromParent (s.parent.bank.accounts.getRootHash host.sha256) =
      some (parent,child)) :
    ∃ ls t, Run (Step host) s ls t ∧ t.parent.bank = parent ∧ t.children f = .made child := by
  obtain ⟨hfreeze,hslot,rfl⟩ := Bank.newFromParent_eq_some.mp hb
  obtain ⟨ls,u,hr,hu,rfl⟩ := FreezeSystem.freeze_uninterrupted hf hc hfreeze
  have r := (run_freeze hr).snoc (.pushHash hu hs)
  have r := r.snoc (.make (Function.update_self ..) hslot)
  exact ⟨_,_,r,rfl,Function.update_self ..⟩

/-! ## Published hashes -/

/-- A caller that finds the flag set finds the hash written, too. -/
def HashedSwap (s : ChildSystem) (l : Label) : Prop :=
  (∃ f, l = .freeze (.swap f)) → s.parent.bank.isFrozen = true → s.parent.bank.finalizedHash ≠ none

/-- Whoever is past freezing can read the hash, and whoever has read it got this one. -/
structure Published (s : ChildSystem) : Prop where
  returned : ∀ f, s.parent.freezers f = .returned → s.parent.bank.finalizedHash ≠ none
  queued : ∀ f blockhashQueue, s.children f = .queued blockhashQueue → ∃ hash,
    s.parent.bank.finalizedHash = some hash ∧
      blockhashQueue.getLast? = some ⟨hash,s.parent.bank.slot⟩
  made : ∀ f child, s.children f = .made child → ∃ hash, s.parent.bank.finalizedHash = some hash ∧
    child.parentHash = hash ∧ child.blockhashQueue.getLast? = some ⟨hash,s.parent.bank.slot⟩

/-- The hash was computed by a caller of `freeze` on the way, from the store as it was then. -/
def ComputedIn (host : Host) (s₀ : ChildSystem) (ls : List Label) (hash : Hash) : Prop :=
  ∃ ls₁ f ls₂ s₁, ls = ls₁ ++ .freeze (.computeHash f) :: ls₂ ∧ Run (Step host) s₀ ls₁ s₁ ∧
    s₁.parent.bank.accounts.getRootHash host.sha256 = some hash

theorem published_initial (h : Initial s) : Published s where
  returned f hf := by
    rw [h.parent.loading f] at hf
    cases hf
  queued f _ hf := by
    rw [h.freezing f] at hf
    cases hf
  made f _ hf := by
    rw [h.freezing f] at hf
    cases hf

theorem Published.hash (hs : Published s) (hf : s.parent.freezers f = .returned) :
    s.parent.bank.finalizedHash = some s.parent.bank.hash := by
  obtain ⟨hash,hh⟩ := Option.ne_none_iff_exists'.mp (hs.returned f hf)
  rw [hh,Bank.hash,hh,Option.getD_some]

/-- Steps around the flag keep what was read, and let a caller past freezing only with the hash
written. -/
theorem Published.freeze (hs : Published s) {l : FreezeSystem.Label} {parent : FreezeSystem}
    (hq : HashedSwap s (.freeze l)) (h : FreezeSystem.Step host s.parent l parent) :
    Published { s with parent } where
  returned f hf := by
    have hkeep : s.parent.bank.finalizedHash ≠ none → parent.bank.finalizedHash ≠ none :=
      fun hn => by
      obtain ⟨hash,hh⟩ := Option.ne_none_iff_exists'.mp hn
      rw [h.finalizedHash_kept hh]
      exact Option.some_ne_none hash
    rcases h.returned hf with hr | hn | ⟨rfl,hz⟩
    · exact hkeep (hs.returned f hr)
    · exact hn
    · exact hkeep (hq ⟨f,rfl⟩ hz)
  queued f queue hf := by
    obtain ⟨hash,hh,hl⟩ := hs.queued f queue hf
    exact ⟨hash,h.finalizedHash_kept hh,by rw [hl,h.slot]⟩
  made f child hf := by
    obtain ⟨hash,hh,hp,hl⟩ := hs.made f child hf
    exact ⟨hash,h.finalizedHash_kept hh,hp,by rw [hl,h.slot]⟩

theorem published_step (hs : Published s) (hq : HashedSwap s l) (h : Step host s l t) :
    Published t := by
  cases h with
  | freeze h => exact hs.freeze hq h
  | @pushHash f hr hf =>
    refine ⟨hs.returned,fun j queue hj => ?_,fun j child hj => ?_⟩
    · rcases eq_or_of_update hj with hj | ⟨-,hj⟩
      · exact hs.queued j queue hj
      · cases hj
        exact ⟨_,hs.hash hr,Bank.pushHash_getLast _⟩
    · exact hs.made j child ((eq_or_of_update hj).resolve_right fun hj => by cases hj.2)
  | @make f queue hf hslot =>
    refine ⟨hs.returned,fun j queue hj => ?_,fun j child hj => ?_⟩
    · exact hs.queued j queue ((eq_or_of_update hj).resolve_right fun hj => by cases hj.2)
    · rcases eq_or_of_update hj with hj | ⟨-,hj⟩
      · exact hs.made j child hj
      · cases hj
        obtain ⟨hash,hh,hl⟩ := hs.queued f queue hf
        refine ⟨hash,hh,?_,hl⟩
        rw [Bank.childWith,Bank.hash,hh,Option.getD_some]
  | slotOverflows hf hslot =>
    refine ⟨hs.returned,fun j queue hj => ?_,fun j child hj => ?_⟩
    · exact hs.queued j queue ((eq_or_of_update hj).resolve_right fun hj => by cases hj.2)
    · exact hs.made j child ((eq_or_of_update hj).resolve_right fun hj => by cases hj.2)

/-- A hash that is found at the end of a run was computed in it. -/
theorem computedIn_of_run (h₀ : s₀.parent.bank.finalizedHash = none) (hr : Run (Step host) s₀ ls s)
    {hash : Hash} (hh : s.parent.bank.finalizedHash = some hash) : ComputedIn host s₀ ls hash := by
  induction hr with
  | nil =>
    rw [h₀] at hh
    cases hh
  | @snoc u v ls l before last ih =>
    -- Either the hash was there before the last step, or this step has written it.
    have hlater : u.parent.bank.finalizedHash = some hash →
        ComputedIn host s₀ (ls ++ [l]) hash := by
      intro hu
      obtain ⟨ls₁,f,ls₂,s₁,rfl,hr,hroot⟩ := ih hu
      exact ⟨ls₁,f,ls₂ ++ [l],s₁,by simp,hr,hroot⟩
    cases last with
    | freeze h =>
      rcases h.finalizedHash with hk | ⟨f,hash',rfl,-,hroot,hw⟩
      · exact hlater (hk ▸ hh)
      · cases hw.symm.trans hh
        exact ⟨ls,f,[],u,rfl,before,hroot⟩
    | pushHash hr hf => exact hlater hh
    | make hf hslot => exact hlater hh
    | slotOverflows hf hslot => exact hlater hh

/-- In runs in which no caller finds the flag set before the hash is written, whoever has returned
from `freeze` reads the hash that was computed, and all children agree on it. A caller that does
find the flag set before returns to the hash of the parent's own parent. -/
theorem hash_published (host : Host) :
    (∀ (s₀ s : ChildSystem) (ls : List Label), Initial s₀ →
      Run.Always (Step host) HashedSwap s₀ ls s →
      (∀ f, s.parent.freezers f = .returned →
        s.parent.bank.finalizedHash = some s.parent.bank.hash ∧
          ComputedIn host s₀ ls s.parent.bank.hash) ∧
      ∀ f g child child', s.children f = .made child → s.children g = .made child' →
        child.parentHash = child'.parentHash ∧
          child.blockhashQueue.getLast? = child'.blockhashQueue.getLast?) ∧
    ∀ (s t : ChildSystem) (f : ℕ), Step host s (.freeze (.swap f)) t →
      ¬HashedSwap s (.freeze (.swap f)) →
      t.parent.freezers f = .returned ∧ t.parent.bank.finalizedHash = none ∧
        t.parent.bank.hash = t.parent.bank.parentHash := by
  refine ⟨fun s₀ s ls h₀ hr => ?_,fun s t f hst hn => ?_⟩
  · have hs : Published s :=
      hr.invariant (fun _ _ _ ha hq hl => published_step ha hq hl) (published_initial h₀)
    refine ⟨fun f hf => ⟨hs.hash hf,computedIn_of_run h₀.parent.noHash hr.run (hs.hash hf)⟩,?_⟩
    intro f g child child' hc hc'
    obtain ⟨hash,hh,hp,hl⟩ := hs.made f child hc
    obtain ⟨hash',hh',hp',hl'⟩ := hs.made g child' hc'
    cases hh.symm.trans hh'
    exact ⟨hp.trans hp'.symm,hl.trans hl'.symm⟩
  · obtain ⟨-,hn⟩ := Classical.not_imp.mp hn
    obtain ⟨hz,hnone⟩ := Classical.not_imp.mp hn
    rw [not_not] at hnone
    cases hst with
    | freeze h =>
      cases h with
      | swap hf hnz =>
        rw [hz] at hnz
        cases hnz
      | swapAgain hf _ =>
        refine ⟨Function.update_self ..,hnone,?_⟩
        change s.parent.bank.finalizedHash.getD s.parent.bank.parentHash = s.parent.bank.parentHash
        rw [hnone,Option.getD_none]

/-! ## A child without its parent's hash -/

def beforeChildren : ChildSystem := ⟨FreezeSystem.beforePayment,fun _ => .freezing⟩

/-- Caller 0 is about to compute the hash, and caller 1 has found the flag set. -/
def flagBeforeHash : ChildSystem where
  parent :=
    { beforeChildren.parent with
      bank := { beforeChildren.parent.bank with isFrozen := true }
      freezers := Function.update (Function.update (Function.update (Function.update
        beforeChildren.parent.freezers 0 .swapping) 1 .swapping) 0 .hashing) 1 .returned }
  children := beforeChildren.children

theorem beforeChildren_initial : Initial beforeChildren :=
  ⟨FreezeSystem.beforePayment_initial,fun _ => rfl⟩

theorem root_ne_default :
    leafHash (default : Host).sha256 (wallet 1 10) ≠ (default : Hash) := by decide +kernel

/-- Two callers load the count, and one sets the flag; the other one finds it set and makes its
child before the hash is written. -/
theorem child_before_hash :
    Run (Step default) beforeChildren [.freeze (.load 0),.freeze (.load 1),.freeze (.swap 0),
      .freeze (.swap 1)] flagBeforeHash ∧
    flagBeforeHash.parent.freezers 1 = .returned ∧
    flagBeforeHash.parent.bank.hash = flagBeforeHash.parent.bank.parentHash ∧
    ∃ t child child', Run (Step default) flagBeforeHash
      [.pushHash 1,.make 1,.freeze (.computeHash 0),.pushHash 0,.make 0] t ∧
      t.children 0 = .made child ∧ t.children 1 = .made child' ∧
      child.parentHash ≠ child'.parentHash ∧
      child.blockhashQueue.getLast? ≠ child'.blockhashQueue.getLast? := by
  have r : Run (Step default) beforeChildren [] beforeChildren := .nil
  have r := r.snoc (.freeze (.load (f := 0) rfl rfl))
  have r := r.snoc (.freeze (.load (f := 1) rfl rfl))
  have r := r.snoc (.freeze (.swap (f := 0) rfl rfl))
  have r := r.snoc (.freeze (.swapAgain (f := 1) rfl rfl))
  have q : Run (Step default) flagBeforeHash [] flagBeforeHash := .nil
  have q := q.snoc (.pushHash (f := 1) rfl rfl)
  have q := q.snoc (.make (f := 1) rfl (by decide))
  have q := q.snoc (.freeze (.computeHash (f := 0) rfl rfl FreezeSystem.beforePayment_root))
  have q := q.snoc (.pushHash (f := 0) rfl rfl)
  have q := q.snoc (.make (f := 0) rfl (by decide))
  refine ⟨r,rfl,rfl,_,_,_,q,rfl,rfl,root_ne_default,?_⟩
  intro h
  have h₀ := Bank.pushHash_getLast { flagBeforeHash.parent.bank with
    finalizedHash := some (leafHash (default : Host).sha256 (wallet 1 10)) }
  have h₁ := Bank.pushHash_getLast flagBeforeHash.parent.bank
  exact root_ne_default (congrArg BlockhashInfo.hash (Option.some.inj (h₀.symm.trans (h.trans h₁))))

/-- A caller that comes after the hash was written makes a child that agrees with the first one. -/
theorem children_after_hash_agree : ∃ s child child',
    Run.Always (Step default) HashedSwap beforeChildren [.freeze (.load 0),.freeze (.load 1),
      .freeze (.swap 0),.freeze (.computeHash 0),.freeze (.swap 1),.pushHash 1,.pushHash 0,.make 0,
      .make 1] s ∧
    s.children 0 = .made child ∧ s.children 1 = .made child' ∧
    child.parentHash = child'.parentHash ∧
    child.blockhashQueue.getLast? = child'.blockhashQueue.getLast? := by
  have r : Run.Always (Step default) HashedSwap beforeChildren [] beforeChildren := .nil
  have r := r.snoc ⟨by rintro ⟨_,⟨⟩⟩,.freeze (.load (f := 0) rfl rfl)⟩
  have r := r.snoc ⟨by rintro ⟨_,⟨⟩⟩,.freeze (.load (f := 1) rfl rfl)⟩
  have r := r.snoc ⟨fun _ hz => (by cases hz),.freeze (.swap (f := 0) rfl rfl)⟩
  have r := r.snoc ⟨by rintro ⟨_,⟨⟩⟩,
    .freeze (.computeHash (f := 0) rfl rfl FreezeSystem.beforePayment_root)⟩
  have r := r.snoc ⟨fun _ _ hn => (by cases hn),.freeze (.swapAgain (f := 1) rfl rfl)⟩
  have r := r.snoc ⟨by rintro ⟨_,⟨⟩⟩,.pushHash (f := 1) rfl rfl⟩
  have r := r.snoc ⟨by rintro ⟨_,⟨⟩⟩,.pushHash (f := 0) rfl rfl⟩
  have r := r.snoc ⟨by rintro ⟨_,⟨⟩⟩,.make (f := 0) rfl (by decide)⟩
  have r := r.snoc ⟨by rintro ⟨_,⟨⟩⟩,.make (f := 1) rfl (by decide)⟩
  exact ⟨_,_,_,r,rfl,rfl,
    ((hash_published default).1 _ _ _ beforeChildren_initial r).2 0 1 _ _ rfl rfl⟩

end ChildSystem

end TinySolana
