import TinySolana.Accounts
import Mathlib.Data.List.Sort

/-!
# Root hash

The hash of an account store: the sorted hashes of its accounts are paired up level by level until
one is left. The entries of a store come in no particular order; sorting makes that irrelevant.
-/

namespace TinySolana
open Foundations

def Account.codec : Codec Account :=
  (Pubkey.codec.seq
    (Codec.u64.seq ((Codec.vec .u8).seq (Pubkey.codec.seq (Codec.bool.seq .u64))))).iso
  { toFun p := ⟨p.1,p.2.1,p.2.2.1,p.2.2.2.1,p.2.2.2.2.1,p.2.2.2.2.2⟩
    invFun a := (a.pubkey,a.lamports,a.data,a.owner,a.executable,a.rentEpoch)
    left_inv _ := rfl
    right_inv _ := rfl }

variable (sha256 : List UInt8 → Hash)

def leafHash (account : Account) : Hash :=
  sha256 (Pubkey.codec.encode account.pubkey ++ Account.codec.encode account)

/-- Hash the entries of a level in pairs; an odd last one is paired with itself. -/
def nextLevel : List Hash → List Hash
  | [] => []
  | [a] => [sha256 (a.bytes ++ a.bytes)]
  | a :: b :: rest => sha256 (a.bytes ++ b.bytes) :: nextLevel rest

/-- The rounds of `hash_accounts` while more than one hash is left, at most `fuel` of them. -/
def reduceLevels : ℕ → List Hash → List Hash
  | fuel+1, a :: b :: rest => reduceLevels fuel (nextLevel sha256 (a :: b :: rest))
  | _, level => level

def hashAccounts (accounts : List Account) : Option Hash :=
  let leaves := (accounts.map (leafHash sha256)).insertionSort (· ≤ ·)
  (reduceLevels sha256 leaves.length leaves).head?

theorem sorted_leaves_perm {δ : Type} [LinearOrder δ] (leaf : Account → δ) {as bs : List Account}
    (h : as.Perm bs) :
    (as.map leaf).insertionSort (· ≤ ·) = (bs.map leaf).insertionSort (· ≤ ·) := by
  apply List.Perm.eq_of_pairwise' (List.pairwise_insertionSort _ _)
    (List.pairwise_insertionSort _ _)
  exact ((List.perm_insertionSort _ _).trans (h.map _)).trans (List.perm_insertionSort _ _).symm

/-- The order in which the accounts are listed does not matter. -/
theorem hashAccounts_perm {as bs : List Account} (h : as.Perm bs) :
    hashAccounts sha256 as = hashAccounts sha256 bs := by
  rw [hashAccounts,hashAccounts,sorted_leaves_perm (leafHash sha256) h]

/-- `get_root_hash` of an in-memory store: its entries are listed in some order; a store without
accounts has no root hash. -/
def InMemoryAccountStore.getRootHash (s : InMemoryAccountStore) : Option Hash :=
  Quotient.liftOn s.entries (fun es => hashAccounts sha256 (es.map Sigma.snd))
    fun _ _ h => hashAccounts_perm sha256 (h.map _)

end TinySolana
