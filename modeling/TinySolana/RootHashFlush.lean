import TinySolana.ChildBanks
import TinySolana.RootCommitment
import TinySolana.StoreRuns

/-!
# Root hashes across a flush

An overlay and the parent it is flushed into hash the same accounts, in whatever order they list
them. They part where there is no account at all: the overlay has the default hash then and the
parent has none, and a bank over it panics when it is frozen.
-/

namespace TinySolana
open Foundations

/-! ## Empty stores -/

/-- Only an empty list of accounts has no hash. -/
theorem hashAccounts_eq_none {sha256 : List UInt8 → Hash} {accounts : List Account} :
    hashAccounts sha256 accounts = none ↔ accounts = [] := by
  constructor
  · intro h
    by_contra hne
    have hleaves : (accounts.map (leafHash sha256)).insertionSort (· ≤ ·) ≠ [] := by
      rw [ne_eq,← List.length_eq_zero_iff,List.length_insertionSort,List.length_map,
        List.length_eq_zero_iff]
      exact hne
    obtain ⟨-,r,hr,-⟩ := MerkleTree.exists_root (nodeHash sha256) hleaves
    rw [hashAccounts_eq,hashAccountsWith,hr] at h
    cases h
  · rintro rfl
    rfl

theorem ListsValues.eq_nil_iff {m : FiniteMap Pubkey Account} {all : List Account}
    (h : ListsValues m all) : all = [] ↔ m = ∅ := by
  obtain ⟨es,hes,rfl⟩ := h
  have hinsert := hes.insertAll ∅
  rw [Finmap.union_empty] at hinsert
  rw [List.map_eq_nil_iff,← hinsert,FiniteMap.insertAll_eq_empty]
  exact ⟨fun h => ⟨rfl,h⟩,And.right⟩

theorem ListsValues.getRootHash {sha256 : List UInt8 → Hash} {s : InMemoryAccountStore}
    {all : List Account} (h : ListsValues s all) :
      s.getRootHash sha256 = hashAccounts sha256 all := by
  have hroot : AccountStore.GetRootHash sha256 s (hashAccounts sha256 all) := ⟨all,h,rfl⟩
  exact (InMemoryAccountStore.getRootHash_iff.mp hroot).symm

/-- A store without accounts is the only one without a root hash. -/
theorem getRootHash_eq_none {sha256 : List UInt8 → Hash} {s : InMemoryAccountStore} :
    s.getRootHash sha256 = none ↔ s = ∅ := by
  obtain ⟨all,hall⟩ := exists_listsValues s
  rw [hall.getRootHash,hashAccounts_eq_none,hall.eq_nil_iff]

/-! ## Stores into an overlay -/

section Stores

variable {sha256 : List UInt8 → Hash} {parent : InMemoryAccountStore}
  {stores : List (Pubkey × Account)}

/-- The overlay over a parent after some stores. -/
def storedOver (parent : InMemoryAccountStore) (stores : List (Pubkey × Account)) :
    OverlayStoreGeneric InMemoryAccountStore :=
  stores.foldl (fun o e => o.store e.1 e.2) (.new parent)

theorem refines_foldl {P direct : InMemoryAccountStore}
    {o : OverlayStoreGeneric InMemoryAccountStore} (h : Refines P o direct)
    (hs : ∀ e ∈ stores, e.2.pubkey = e.1) :
    Refines P (stores.foldl (fun o e => o.store e.1 e.2) o)
      (FiniteMap.insertAll direct stores) := by
  induction stores generalizing o direct with
  | nil => exact h
  | cons e stores ih =>
    have hstep := h.store (hs e List.mem_cons_self)
    exact ih hstep fun e' he' => hs e' (List.mem_cons_of_mem _ he')

variable (hp : parent.Keyed) (hs : ∀ e ∈ stores, e.2.pubkey = e.1)

include hp hs

theorem refines_storedOver :
    Refines parent (storedOver parent stores) (FiniteMap.insertAll parent stores) :=
  refines_foldl (refines_new hp) hs

/-- The overlay lists the accounts that its parent has after the flush. -/
theorem overlay_perm {all all' : List Account} (h : (storedOver parent stores).AllAccounts all)
    (h' : ListsValues (FiniteMap.insertAll parent stores) all') : all.Perm all' := by
  have href := refines_storedOver hp hs
  have hsame : Same (storedOver parent stores) (FiniteMap.insertAll parent stores) :=
    ⟨href.validOverlay,href.validDirect,href.loads⟩
  exact hsame.allAccounts h h'

/-- The root hash of the overlay is that of the flushed parent, and the default one where there are
no accounts. -/
theorem overlay_rootHash_iff {r : Option Hash} :
    (storedOver parent stores).GetRootHash sha256 r ↔
      r = some ((InMemoryAccountStore.getRootHash sha256 (FiniteMap.insertAll parent stores)).getD
        default) := by
  have hroot : ∀ all, (storedOver parent stores).AllAccounts all →
      (if all = [] then some default else hashAccounts sha256 all) =
        some ((InMemoryAccountStore.getRootHash sha256 (FiniteMap.insertAll parent stores)).getD
          default) := by
    intro all hall
    obtain ⟨all',hall'⟩ := exists_listsValues (FiniteMap.insertAll parent stores)
    rw [hall'.getRootHash,← hashAccounts_perm sha256 (overlay_perm hp hs hall hall')]
    split
    · next hnil =>
      rw [hnil]
      rfl
    · next hne =>
      obtain ⟨hash,hsome⟩ := Option.ne_none_iff_exists'.mp (mt hashAccounts_eq_none.mp hne)
      rw [hsome,Option.getD_some]
  constructor
  · rintro ⟨all,hall,rfl⟩
    exact hroot all hall
  · rintro rfl
    obtain ⟨all,hall⟩ := OverlayStoreGeneric.Valid.exists_allAccounts
      (refines_storedOver hp hs).validOverlay
    exact ⟨all,hall,(hroot all hall).symm⟩

end Stores

/-! ## Freezing -/

namespace Bank

variable {bank : Bank} {rootHash : Option Hash}

/-- Freezing panics where there is neither a hash from before nor one to be computed. -/
theorem freeze_eq_none :
    bank.freeze rootHash = none ↔ bank.isFrozen = false ∧ bank.finalizedHash = none ∧
      rootHash = none := by
  unfold freeze
  cases bank.isFrozen <;> cases bank.finalizedHash <;> cases rootHash <;> simp

theorem freeze_slot {frozen : Bank} (h : bank.freeze rootHash = some frozen) :
    frozen.slot = bank.slot := by
  unfold freeze at h
  split at h
  · cases h
    rfl
  · split at h <;> cases h <;> rfl

/-- A bank that can be frozen has a child as long as there is a slot for it. -/
theorem newFromParent_eq_none (h : bank.freeze rootHash ≠ none) :
    bank.newFromParent rootHash = none ↔ 2^64 ≤ bank.slot.toNat+1 := by
  obtain ⟨frozen,hf⟩ := Option.ne_none_iff_exists'.mp h
  rw [newFromParent,hf]
  dsimp only [bind,Option.bind]
  rw [freeze_slot hf,← Nat.not_lt]
  split <;> simp_all

end Bank

/-! ## Root hashes before and after -/

/-- The overlay and the parent after the flush have one root hash, and no bank over the flushed
parent panics for want of it. -/
structure RootHashKept (sha256 : List UInt8 → Hash) (parent : InMemoryAccountStore)
    (stores : List (Pubkey × Account)) : Prop where
  root : ∀ flushed, (storedOver parent stores).Flushes flushed → ∃ hash,
    (∀ r, (storedOver parent stores).GetRootHash sha256 r ↔ r = some hash) ∧
      ∀ r, AccountStore.GetRootHash sha256 flushed.parent r ↔ r = some hash
  freeze : ∀ flushed, (storedOver parent stores).Flushes flushed → ∀ bank : Bank,
    bank.accounts = flushed.parent → bank.freeze (flushed.parent.getRootHash sha256) ≠ none
  newFromParent : ∀ flushed, (storedOver parent stores).Flushes flushed → ∀ bank : Bank,
    bank.accounts = flushed.parent →
      (bank.newFromParent (flushed.parent.getRootHash sha256) = none ↔ 2^64 ≤ bank.slot.toNat+1)

section Flush

variable {sha256 : List UInt8 → Hash} {parent : InMemoryAccountStore}
  {stores : List (Pubkey × Account)} (hp : parent.Keyed) (hs : ∀ e ∈ stores, e.2.pubkey = e.1)

include hp hs

theorem flushed_parent {flushed : OverlayStoreGeneric InMemoryAccountStore}
    (h : (storedOver parent stores).Flushes flushed) :
    flushed.parent = FiniteMap.insertAll parent stores :=
  ((refines_storedOver hp hs).flushes h).1

theorem rootHashKept_iff_ne :
    RootHashKept sha256 parent stores ↔ FiniteMap.insertAll parent stores ≠ ∅ := by
  obtain ⟨entries,hentries⟩ := FiniteMap.exists_lists (storedOver parent stores).dirty
  constructor
  · intro h hempty
    obtain ⟨hash,-,hroot⟩ := h.root _ ⟨entries,hentries,rfl⟩
    have hparent := flushed_parent hp hs ⟨entries,hentries,rfl⟩
    have hnone := (hroot none).mp
    rw [hparent,hempty,InMemoryAccountStore.getRootHash_iff,getRootHash_eq_none.mpr rfl] at hnone
    cases hnone rfl
  · intro hne
    have hsome : InMemoryAccountStore.getRootHash sha256 (FiniteMap.insertAll parent stores) ≠
      none :=
      mt getRootHash_eq_none.mp hne
    obtain ⟨hash,hhash⟩ := Option.ne_none_iff_exists'.mp hsome
    have hfreeze : ∀ bank : Bank, bank.freeze (some hash) ≠ none := by
      intro bank h
      cases (Bank.freeze_eq_none.mp h).2.2
    refine ⟨fun flushed hf => ⟨hash,fun r => ?_,fun r => ?_⟩,fun flushed hf bank _ => ?_,
      fun flushed hf bank _ => ?_⟩
    · rw [overlay_rootHash_iff hp hs,hhash,Option.getD_some]
    · rw [InMemoryAccountStore.getRootHash_iff,flushed_parent hp hs hf,hhash]
    · rw [flushed_parent hp hs hf,hhash]
      exact hfreeze bank
    · rw [flushed_parent hp hs hf,hhash]
      exact Bank.newFromParent_eq_none (hfreeze bank)

end Flush

/-- The root hash is there before and after the flush, and is the same, exactly when the parent has
an account or some account was stored. -/
theorem root_hash_kept_iff (sha256 : List UInt8 → Hash) (parent : InMemoryAccountStore)
    (hp : parent.Keyed) (stores : List (Pubkey × Account)) (hs : ∀ e ∈ stores, e.2.pubkey = e.1) :
    RootHashKept sha256 parent stores ↔ parent ≠ ∅ ∨ stores ≠ [] := by
  rw [rootHashKept_iff_ne hp hs,ne_eq,FiniteMap.insertAll_eq_empty,not_and_or]

/-- The overlay over a store with one account has the root hash of that store. -/
theorem one_account_root_kept :
    RootHashKept (fun _ => default) (∅ : InMemoryAccountStore) [(.ofByte 1,sampleAccount)] :=
  (root_hash_kept_iff _ _ InMemoryAccountStore.keyed_empty _ (by
    simp [sampleAccount])).mpr (.inr (List.cons_ne_nil _ _))

/-- Over an empty store the overlay has the default hash, the flushed store has none, and freezing
its bank panics. -/
theorem empty_store_panics :
    ∃ flushed, (storedOver ∅ []).Flushes flushed ∧
      (storedOver ∅ []).GetRootHash (fun _ => default) (some default) ∧
      AccountStore.GetRootHash (fun _ => default) flushed.parent none ∧
      (Bank.new flushed.parent).freeze (flushed.parent.getRootHash fun _ => default) = none ∧
      ¬RootHashKept (fun _ => default) ∅ [] := by
  have hp := InMemoryAccountStore.keyed_empty
  have hs : ∀ e ∈ ([] : List (Pubkey × Account)), e.2.pubkey = e.1 := fun e he => by cases he
  have hnone : InMemoryAccountStore.getRootHash (fun _ => default) ∅ = none :=
    getRootHash_eq_none.mpr rfl
  obtain ⟨entries,hentries⟩ := FiniteMap.exists_lists (storedOver ∅ []).dirty
  have hparent := flushed_parent hp hs ⟨entries,hentries,rfl⟩
  refine ⟨_,⟨entries,hentries,rfl⟩,(overlay_rootHash_iff hp hs).mpr ?_,?_,?_,
    fun h => (rootHashKept_iff_ne hp hs).mp h rfl⟩
  · rw [FiniteMap.insertAll_nil,hnone,Option.getD_none]
  · rw [InMemoryAccountStore.getRootHash_iff,hparent,FiniteMap.insertAll_nil,hnone]
  · rw [hparent,FiniteMap.insertAll_nil,hnone]
    rfl

end TinySolana
