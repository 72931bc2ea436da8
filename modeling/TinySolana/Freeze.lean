import TinySolana.Bank
import TinySolana.RootHash
import TinySolana.Foundations.Runs
import Mathlib.Data.List.ReduceOption

/-!
# Freezing a bank

Callers of `Bank::freeze` against group executions on the same bank. A caller waits until no freeze
lock is held, sets the flag and computes the root hash, in three atomic steps. A group execution
takes a freeze lock, checks the flag and executes for each of its transactions, flushes the overlays
one after another and gives the lock back.
-/

namespace TinySolana
open Foundations

/-- After an update an index has its old value or is the one that was updated. -/
theorem eq_or_of_update {α : Type} {g : ℕ → α} {i j : ℕ} {a b : α}
    (h : Function.update g i a j = b) :
    g j = b ∨ j = i ∧ a = b := by
  by_cases hj : j = i
  · subst hj
    rw [Function.update_self] at h
    exact .inr ⟨rfl,h⟩
  · rw [Function.update_of_ne hj] at h
    exact .inl h

/-- How far a transaction of a group is: waiting, past the preflight check, or executed. -/
inductive Slot where
  | pending (tx : Transaction) (computeBudget : UInt64)
  | admitted (tx : Transaction) (computeBudget : UInt64)
  | finished (overlay : Option OverlayStore)

inductive GroupPhase where
  | waiting (txs : List (Transaction × UInt64))
  | executing (slots : List Slot)
  | committing (overlays : List OverlayStore)
  | dropped

/-- Where a call of `Bank::freeze` is; `panicked` is the `expect` on the root hash. -/
inductive FreezePhase where
  | loading
  | swapping
  | hashing
  | returned
  | panicked

structure FreezeSystem where
  bank : Bank
  programCache : ProgramCache
  freezers : ℕ → FreezePhase
  groups : ℕ → GroupPhase

namespace FreezeSystem

inductive Label where
  | load (f : ℕ)
  | swap (f : ℕ)
  | computeHash (f : ℕ)
  | acquire (g : ℕ)
  | check (g i : ℕ)
  | execute (g i : ℕ)
  | commit (g : ℕ)
  | flush (g : ℕ)
  | drop (g : ℕ)
  deriving DecidableEq

def setFreezer (s : FreezeSystem) (f : ℕ) (p : FreezePhase) : FreezeSystem :=
  { s with freezers := Function.update s.freezers f p }

def setGroup (s : FreezeSystem) (g : ℕ) (p : GroupPhase) : FreezeSystem :=
  { s with groups := Function.update s.groups g p }

def setBank (s : FreezeSystem) (bank : Bank) : FreezeSystem := { s with bank }

/-- A transaction behind the preflight check, which compares the flag. -/
def checked (bank : Bank) (tx : Transaction) (computeBudget : UInt64) : Slot :=
  match bank.checkPreflightRules tx with
  | .ok _ => .admitted tx computeBudget
  | .error _ => .finished none

def lock (bank : Bank) : Bank := { bank with freezeLockCount := bank.freezeLockCount+1 }

def unlock (bank : Bank) : Bank := { bank with freezeLockCount := bank.freezeLockCount-1 }

/-- The atomic steps of callers of `Bank::freeze` and of group executions, in any order. -/
inductive Step (host : Host) : FreezeSystem → Label → FreezeSystem → Prop where
  | load {s : FreezeSystem} {f : ℕ} : s.freezers f = .loading → s.bank.freezeLockCount = 0 →
      Step host s (.load f) (s.setFreezer f .swapping)
  | spin {s : FreezeSystem} {f : ℕ} : s.freezers f = .loading → 0 < s.bank.freezeLockCount →
      Step host s (.load f) s
  | swap {s : FreezeSystem} {f : ℕ} : s.freezers f = .swapping → s.bank.isFrozen = false →
      Step host s (.swap f) ((s.setFreezer f .hashing).setBank { s.bank with isFrozen := true })
  | swapAgain {s : FreezeSystem} {f : ℕ} : s.freezers f = .swapping → s.bank.isFrozen = true →
      Step host s (.swap f) (s.setFreezer f .returned)
  | computeHash {s : FreezeSystem} {f : ℕ} {hash : Hash} : s.freezers f = .hashing →
      s.bank.finalizedHash = none → s.bank.accounts.getRootHash host.sha256 = some hash →
      Step host s (.computeHash f)
        ((s.setFreezer f .returned).setBank { s.bank with finalizedHash := some hash })
  | hashFails {s : FreezeSystem} {f : ℕ} : s.freezers f = .hashing →
      s.bank.finalizedHash = none → s.bank.accounts.getRootHash host.sha256 = none →
      Step host s (.computeHash f) (s.setFreezer f .panicked)
  | hashKept {s : FreezeSystem} {f : ℕ} : s.freezers f = .hashing →
      s.bank.finalizedHash ≠ none → Step host s (.computeHash f) (s.setFreezer f .returned)
  | acquire {s : FreezeSystem} {g : ℕ} {txs : List (Transaction × UInt64)} :
      s.groups g = .waiting txs → Step host s (.acquire g)
        ((s.setGroup g (.executing (txs.map fun t => .pending t.1 t.2))).setBank (lock s.bank))
  | check {s : FreezeSystem} {g i : ℕ} {slots : List Slot} {tx : Transaction} {b : UInt64} :
      s.groups g = .executing slots → slots[i]? = some (.pending tx b) →
      Step host s (.check g i) (s.setGroup g (.executing (slots.set i (checked s.bank tx b))))
  | execute {s : FreezeSystem} {g i : ℕ} {slots : List Slot} {tx : Transaction} {b : UInt64}
      {overlay : OverlayStore} {cache : ProgramCache} :
      s.groups g = .executing slots → slots[i]? = some (.admitted tx b) →
      Bank.executeOnOverlay host s.bank.accounts tx b s.programCache = (.ok overlay,cache) →
      Step host s (.execute g i)
        { s.setGroup g (.executing (slots.set i (.finished (some overlay)))) with
          programCache := cache }
  | executeFails {s : FreezeSystem} {g i : ℕ} {slots : List Slot} {tx : Transaction} {b : UInt64}
      {e : TransactionError} {cache : ProgramCache} :
      s.groups g = .executing slots → slots[i]? = some (.admitted tx b) →
      Bank.executeOnOverlay host s.bank.accounts tx b s.programCache = (.err e,cache) →
      Step host s (.execute g i)
        { s.setGroup g (.executing (slots.set i (.finished none))) with programCache := cache }
  | executePanics {s : FreezeSystem} {g i : ℕ} {slots : List Slot} {tx : Transaction} {b : UInt64}
      {cache : ProgramCache} :
      s.groups g = .executing slots → slots[i]? = some (.admitted tx b) →
      Bank.executeOnOverlay host s.bank.accounts tx b s.programCache = (.panic,cache) →
      Step host s (.execute g i)
        { (s.setGroup g .dropped).setBank (unlock s.bank) with programCache := cache }
  | commit {s : FreezeSystem} {g : ℕ} {results : List (Option OverlayStore)} :
      s.groups g = .executing (results.map .finished) →
      Step host s (.commit g) (s.setGroup g (.committing results.reduceOption))
  /-- Recording failed: the guard is dropped and nothing is committed. -/
  | abort {s : FreezeSystem} {g : ℕ} {results : List (Option OverlayStore)} :
      s.groups g = .executing (results.map .finished) →
      Step host s (.drop g) ((s.setGroup g .dropped).setBank (unlock s.bank))
  | flush {s : FreezeSystem} {g : ℕ} {overlay : OverlayStore} {rest : List OverlayStore} :
      s.groups g = .committing (overlay :: rest) →
      Step host s (.flush g) ((s.setGroup g (.committing rest)).setBank
        { s.bank with accounts := overlay.flush s.bank.accounts })
  | drop {s : FreezeSystem} {g : ℕ} : s.groups g = .committing [] →
      Step host s (.drop g) ((s.setGroup g .dropped).setBank (unlock s.bank))

/-- No freeze has begun to set the flag and no group execution has begun. -/
structure Initial (s : FreezeSystem) : Prop where
  notFrozen : s.bank.isFrozen = false
  noHash : s.bank.finalizedHash = none
  loading : ∀ f, s.freezers f = .loading
  waiting : ∀ g, ∃ txs, s.groups g = .waiting txs

/-- A caller that finds no freeze lock held and is not interrupted does what `Bank::freeze` does. -/
theorem freeze_uninterrupted {host : Host} {s : FreezeSystem} {f : ℕ} {bank : Bank}
    (hf : s.freezers f = .loading) (hc : s.bank.freezeLockCount = 0)
    (hb : s.bank.freeze (s.bank.accounts.getRootHash host.sha256) = some bank) :
    ∃ ls t, Run (Step host) s ls t ∧ t.freezers f = .returned ∧ t.bank = bank := by
  have hset : ∀ (t : FreezeSystem) (p : FreezePhase), (t.setFreezer f p).freezers f = p := by
    intro t p
    exact Function.update_self ..
  have r : Run (Step host) s _ _ := .single (.load hf hc)
  unfold Bank.freeze at hb
  cases hz : s.bank.isFrozen with
  | true =>
    rw [if_pos hz] at hb
    cases hb
    exact ⟨_,_,r.snoc (.swapAgain (hset s _) hz),hset _ _,rfl⟩
  | false =>
    rw [if_neg (by simp [hz])] at hb
    have r := r.snoc (.swap (hset s _) hz)
    cases hh : s.bank.finalizedHash with
    | some h =>
      rw [hh] at hb
      cases hb
      refine ⟨_,_,r.snoc (.hashKept (hset _ _) ?_),hset _ _,?_⟩
      · change s.bank.finalizedHash ≠ none
        simp [hh]
      · rw [← hh]
        rfl
    | none =>
      rw [hh] at hb
      cases hr : s.bank.accounts.getRootHash host.sha256 with
      | none => simp [hr] at hb
      | some hash =>
        rw [hr] at hb
        cases hb
        exact ⟨_,_,r.snoc (.computeHash (hset _ _) hh hr),hset _ _,rfl⟩

/-! ## The hash is final when nothing was left to commit -/

/-- No transaction of the group that passed the check of the flag is still to be flushed. -/
def NoCommitAhead : GroupPhase → Prop
  | .executing slots => ∀ slot ∈ slots, (∃ tx b, slot = .pending tx b) ∨ slot = .finished none
  | .committing overlays => overlays = []
  | _ => True

/-- The flag is only set when no group has a commit ahead. -/
def QuietSwap (s : FreezeSystem) (l : Label) : Prop :=
  (∃ f, l = .swap f) → ∀ g, NoCommitAhead (s.groups g)

/-- Once the flag is set no commit is ahead, and the hash that is computed stays the root hash. -/
structure Sealed (host : Host) (s : FreezeSystem) : Prop where
  hashing : ∀ f, s.freezers f = .hashing → s.bank.isFrozen = true
  hash : ∀ h, s.bank.finalizedHash = some h → s.bank.isFrozen = true ∧
    s.bank.accounts.getRootHash host.sha256 = some h
  quiet : s.bank.isFrozen = true → ∀ g, NoCommitAhead (s.groups g)

variable {host : Host} {s t : FreezeSystem} {l : Label}

theorem sealed_initial (hs : Initial s) : Sealed host s where
  hashing f h := by
    rw [hs.loading f] at h
    cases h
  hash h hh := by
    rw [hs.noHash] at hh
    cases hh
  quiet h := by
    rw [hs.notFrozen] at h
    cases h

theorem Sealed.setFreezer (hs : Sealed host s) {f : ℕ} {p : FreezePhase}
    (hp : p = .hashing → s.bank.isFrozen = true) : Sealed host (s.setFreezer f p) where
  hashing j hj := by
    rcases eq_or_of_update hj with hj | ⟨-,hpj⟩
    · exact hs.hashing j hj
    · exact hp hpj
  hash := hs.hash
  quiet := hs.quiet

/-- A group may move on as long as it does not begin to commit under the flag. -/
theorem Sealed.setGroup (hs : Sealed host s) {g : ℕ} {p : GroupPhase}
    (hp : s.bank.isFrozen = true → NoCommitAhead p) : Sealed host (s.setGroup g p) where
  hashing := hs.hashing
  hash := hs.hash
  quiet hf j := by
    change NoCommitAhead (Function.update s.groups g p j)
    by_cases h : j = g
    · subst h
      rw [Function.update_self]
      exact hp hf
    · rw [Function.update_of_ne h]
      exact hs.quiet hf j

theorem Sealed.setCache (hs : Sealed host s) (programCache : ProgramCache) :
    Sealed host { s with programCache } := ⟨hs.hashing,hs.hash,hs.quiet⟩

theorem Sealed.setCount (hs : Sealed host s) (freezeLockCount : ℕ) :
    Sealed host (s.setBank { s.bank with freezeLockCount }) := ⟨hs.hashing,hs.hash,hs.quiet⟩

theorem NoCommitAhead.set {slots : List Slot} {i : ℕ} {slot : Slot}
    (h : NoCommitAhead (.executing slots))
    (hs : (∃ tx b, slot = .pending tx b) ∨ slot = .finished none) :
    NoCommitAhead (.executing (slots.set i slot)) := by
  intro x hx
  rcases List.mem_or_eq_of_mem_set hx with hx | rfl
  · exact h x hx
  · exact hs

/-- Under the flag no transaction is past the check. -/
theorem Sealed.not_admitted (hs : Sealed host s) {g i : ℕ} {slots : List Slot} {tx : Transaction}
    {b : UInt64} (hg : s.groups g = .executing slots) (hi : slots[i]? = some (.admitted tx b)) :
    s.bank.isFrozen = false := by
  by_contra hf
  have hq := hs.quiet (by simpa using hf) g
  rw [hg] at hq
  rcases hq _ (List.mem_of_getElem? hi) with ⟨tx',b',h⟩ | h <;> cases h

theorem Sealed.not_committing (hs : Sealed host s) {g : ℕ} {overlay : OverlayStore}
    {rest : List OverlayStore} (hg : s.groups g = .committing (overlay :: rest)) :
    s.bank.isFrozen = false := by
  by_contra hf
  have hq := hs.quiet (by simpa using hf) g
  rw [hg] at hq
  cases hq

theorem sealed_step (hs : Sealed host s) (hq : QuietSwap s l) (h : Step host s l t) :
    Sealed host t := by
  cases h with
  | load hf hc => exact hs.setFreezer (by simp)
  | spin hf hc => exact hs
  | swap hf hn =>
    constructor
    · exact fun _ _ => rfl
    · exact fun h hh => ⟨rfl,(hs.hash h hh).2⟩
    · exact fun _ => hq ⟨_,rfl⟩
  | swapAgain hf hn => exact hs.setFreezer (by simp)
  | @computeHash f hash hf hn hr =>
    have hz := hs.hashing f hf
    have hs' : Sealed host (s.setFreezer f .returned) := hs.setFreezer (by simp)
    refine ⟨hs'.hashing,?_,hs'.quiet⟩
    rintro h hh
    cases hh
    exact ⟨hz,hr⟩
  | hashFails hf hn hr => exact hs.setFreezer (by simp)
  | hashKept hf hn => exact hs.setFreezer (by simp)
  | acquire hg =>
    refine (hs.setGroup ?_).setCount _
    intro _ slot hslot
    obtain ⟨t,-,rfl⟩ := List.mem_map.mp hslot
    exact .inl ⟨t.1,t.2,rfl⟩
  | check hg hi =>
    refine hs.setGroup fun hf => ?_
    have hold := hs.quiet hf
    refine (hg ▸ hold _).set (.inr ?_)
    simp [checked,Bank.checkPreflightRules,hf]
  | execute hg hi he =>
    have hf := hs.not_admitted hg hi
    exact (hs.setGroup (by simp [hf])).setCache _
  | executeFails hg hi he =>
    have hf := hs.not_admitted hg hi
    exact (hs.setGroup (by simp [hf])).setCache _
  | executePanics hg hi he =>
      exact ((hs.setGroup (p := .dropped) fun _ => trivial).setCount _).setCache _
  | @commit g results hg =>
    refine hs.setGroup fun hf => ?_
    have hold := hs.quiet hf g
    rw [hg] at hold
    apply List.eq_nil_iff_forall_not_mem.mpr
    intro overlay ho
    rcases hold _ (List.mem_map.mpr ⟨_,List.reduceOption_mem_iff.mp ho,rfl⟩) with ⟨_,_,h⟩ | h <;>
      cases h
  | abort hg => exact (hs.setGroup (p := .dropped) fun _ => trivial).setCount _
  | @flush g overlay rest hg =>
    have hf := hs.not_committing hg
    have hs' : Sealed host (s.setGroup g (.committing rest)) := hs.setGroup (by simp [hf])
    refine ⟨hs'.hashing,?_,hs'.quiet⟩
    intro h hh
    rw [(hs.hash h hh).1] at hf
    cases hf
  | drop hg => exact (hs.setGroup (p := .dropped) fun _ => trivial).setCount _

/-- If the flag is only ever set while no commit is ahead, then in every state with a computed hash
the hash is the root hash of the store and no flush can come. -/
theorem no_flush_after_hash {s₀ : FreezeSystem} {ls : List Label} (h₀ : Initial s₀)
    (hr : Run.Always (Step host) QuietSwap s₀ ls s) {hash : Hash}
    (hh : s.bank.finalizedHash = some hash) :
    s.bank.accounts.getRootHash host.sha256 = some hash ∧ ∀ g t, ¬Step host s (.flush g) t := by
  have hs : Sealed host s :=
    hr.invariant (fun _ _ _ ha hc hl => sealed_step ha hc hl) (sealed_initial h₀)
  obtain ⟨hf,hroot⟩ := hs.hash hash hh
  refine ⟨hroot,?_⟩
  rintro g t ⟨⟩
  rename_i hg
  rw [hs.not_committing hg] at hf
  cases hf

/-! ## A commit that freezing misses -/

/-- A freeze that is about to begin, beside one group that is. -/
def beforePayment : FreezeSystem where
  bank := .new (Finmap.singleton (.ofByte 1) (wallet 1 10))
  programCache := ∅
  freezers _ := .loading
  groups g := .waiting (if g = 0 then [(payment [] 3,300)] else [])

theorem beforePayment_initial : Initial beforePayment :=
  ⟨rfl,rfl,fun _ => rfl,fun _ => ⟨_,rfl⟩⟩

/-- The overlay of the payment. -/
def paymentOverlay : OverlayStore :=
  (OverlayStore.new.store (.ofByte 1) (wallet 1 7)).store (.ofByte 2) (wallet 2 3)

theorem payment_executes :
    Bank.executeOnOverlay default (Finmap.singleton (.ofByte 1) (wallet 1 10))
      (payment [] 3) 300 ∅ = (.ok paymentOverlay,∅) := by decide

theorem beforePayment_root :
    beforePayment.bank.accounts.getRootHash (default : Host).sha256 =
      some (leafHash (default : Host).sha256 (wallet 1 10)) := by decide +kernel

theorem afterPayment_root :
    (paymentOverlay.flush beforePayment.bank.accounts).getRootHash (default : Host).sha256 ≠
      some (leafHash (default : Host).sha256 (wallet 1 10)) := by decide +kernel

/-- A group that takes its freeze lock after the count was read as zero, and passes the check of
the flag before it is set, is committed after the root hash was computed. -/
theorem commit_after_hash : ∃ s t hash,
    Run (Step default) beforePayment [.load 0,.acquire 0,.check 0 0,.execute 0 0,.swap 0,
      .computeHash 0,.commit 0] s ∧
    s.bank.finalizedHash = some hash ∧ Step default s (.flush 0) t ∧
    t.bank.accounts.getRootHash (default : Host).sha256 ≠ some hash := by
  have r : Run (Step default) beforePayment [] beforePayment := .nil
  have r := r.snoc (.load (f := 0) rfl rfl)
  have r := r.snoc (.acquire (g := 0) rfl)
  have r := r.snoc (.check (g := 0) (i := 0) rfl rfl)
  have r := r.snoc (.execute (g := 0) (i := 0) rfl rfl payment_executes)
  have r := r.snoc (.swap (f := 0) rfl rfl)
  have r := r.snoc (.computeHash (f := 0) rfl rfl beforePayment_root)
  have r := r.snoc (.commit (g := 0)
    (show _ = GroupPhase.executing ([some paymentOverlay].map .finished) from rfl))
  exact ⟨_,_,_,r,rfl,.flush rfl,afterPayment_root⟩

theorem no_flush_after_quiet_swap : ∃ s hash,
    Run.Always (Step default) QuietSwap beforePayment
      [.load 0,.acquire 0,.swap 0,.computeHash 0] s ∧
    s.bank.finalizedHash = some hash ∧
    s.bank.accounts.getRootHash (default : Host).sha256 = some hash ∧
    ∀ g t, ¬Step default s (.flush g) t := by
  have r : Run.Always (Step default) QuietSwap beforePayment [] beforePayment := .nil
  have r := r.snoc ⟨by simp [QuietSwap],.load (f := 0) rfl rfl⟩
  have r := r.snoc ⟨by simp [QuietSwap],.acquire (g := 0) rfl⟩
  have hq : ∀ g, NoCommitAhead (Function.update beforePayment.groups 0
      (.executing [.pending (payment [] 3) 300]) g) := by
    intro g
    by_cases hg : g = 0
    · subst hg
      rw [Function.update_self]
      exact fun slot hs => .inl ⟨payment [] 3,300,List.mem_singleton.mp hs⟩
    · rw [Function.update_of_ne hg]
      trivial
  have r := r.snoc ⟨fun _ => hq,.swap (f := 0) rfl rfl⟩
  have r := r.snoc ⟨by simp [QuietSwap],.computeHash (f := 0) rfl rfl beforePayment_root⟩
  exact ⟨_,_,r,rfl,no_flush_after_hash beforePayment_initial r rfl⟩

end FreezeSystem

end TinySolana
