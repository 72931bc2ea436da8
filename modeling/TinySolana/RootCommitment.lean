import TinySolana.Foundations.MerkleTree
import TinySolana.RootHash
import Mathlib.Data.List.Lex

/-!
# What a root hash commits to

`hash_accounts` over hashes of any kind. When leaves determine their accounts, nodes their children,
and no leaf is a node, accounts with different keys have one root only in one order or another.
-/

namespace TinySolana
open Foundations

/-- `hash_accounts` with hashes of any type that has an order. -/
def hashAccountsWith {δ : Type} [LinearOrder δ] (leaf : Account → δ) (node : δ → δ → δ)
    (accounts : List Account) : Option δ :=
  MerkleTree.root node ((accounts.map leaf).insertionSort (· ≤ ·))

/-- The hash of two children of a node. -/
def nodeHash (sha256 : List UInt8 → Hash) (a b : Hash) : Hash := sha256 (a.bytes ++ b.bytes)

theorem nextLevel_eq (sha256 : List UInt8 → Hash) (level : List Hash) :
    nextLevel sha256 level = MerkleTree.nextLevel (nodeHash sha256) level := by
  induction level using nextLevel.induct with
  | case1 => rfl
  | case2 a => rfl
  | case3 a b rest ih =>
    rw [nextLevel,MerkleTree.nextLevel,ih]
    rfl

theorem reduceLevels_eq (sha256 : List UInt8 → Hash) (fuel : ℕ) (level : List Hash) :
    reduceLevels sha256 fuel level = MerkleTree.reduceLevels (nodeHash sha256) fuel level := by
  induction fuel generalizing level with
  | zero => rfl
  | succ fuel ih =>
    rcases level with _ | ⟨a,_ | ⟨b,rest⟩⟩
    · rfl
    · rfl
    · rw [reduceLevels,MerkleTree.reduceLevels,ih,nextLevel_eq]

/-- `hash_accounts` is the case of 32-byte digests. -/
theorem hashAccounts_eq (sha256 : List UInt8 → Hash) (accounts : List Account) :
    hashAccounts sha256 accounts = hashAccountsWith (leafHash sha256) (nodeHash sha256)
      accounts := by
  rw [hashAccounts,reduceLevels_eq]
  rfl

section Commitment

variable {δ : Type} [LinearOrder δ]

/-- The root hash is that of a tree over sorted leaves. The levels come to an end; and when hashes
do not collide, accounts with different keys have the same root exactly when they are the same
accounts. -/
theorem hashAccounts_commits (leaf : Account → δ) (node : δ → δ → δ) :
    (∀ sha256 accounts, hashAccounts sha256 accounts =
      hashAccountsWith (leafHash sha256) (nodeHash sha256) accounts) ∧
    (∀ level : List δ, ((MerkleTree.nextLevel node)^[level.length] level).length ≤ 1) ∧
      (Function.Injective leaf → (∀ a b c d, node a b = node c d → a = c ∧ b = d) →
        (∀ x a b, leaf x ≠ node a b) → ∀ as bs : List Account, as ≠ [] → bs ≠ [] →
          (as.map Account.pubkey).Nodup → (bs.map Account.pubkey).Nodup →
            (hashAccountsWith leaf node as = hashAccountsWith leaf node bs ↔ as.Perm bs)) := by
  refine ⟨hashAccounts_eq,fun level => MerkleTree.iterate_nextLevel_length node (Nat.le_succ _),?_⟩
  intro hleaf hnode hdisj as bs ha hb hka hkb
  constructor
  · intro h
    have hsorted : ∀ cs : List Account, ((cs.map leaf).insertionSort (· ≤ ·)).Perm (cs.map leaf) :=
      fun cs => List.perm_insertionSort _ _
    have hnodup : ∀ cs : List Account, (cs.map Account.pubkey).Nodup →
        ((cs.map leaf).insertionSort (· ≤ ·)).Nodup := fun cs hc =>
      (hsorted cs).nodup_iff.mpr (hc.of_map.map hleaf)
    have hleaves : ∀ cs : List Account, ∀ a ∈ (cs.map leaf).insertionSort (· ≤ ·), ∃ x,
        a = leaf x := by
      intro cs a hm
      obtain ⟨x,-,rfl⟩ := List.mem_map.mp ((hsorted cs).mem_iff.mp hm)
      exact ⟨x,rfl⟩
    have hne : ∀ cs : List Account, cs ≠ [] → (cs.map leaf).insertionSort (· ≤ ·) ≠ [] := by
      intro cs hc hn
      have hnil := hn ▸ hsorted cs
      exact hc (List.map_eq_nil_iff.mp hnil.nil_eq.symm)
    have heq := MerkleTree.root_injective hnode (fun a b ⟨x,hx⟩ => hdisj x a b hx.symm)
      (hnodup as hka) (hnodup bs hkb) (hleaves as) (hleaves bs) (hne as ha) (hne bs hb) h
    exact (List.map_perm_map_iff hleaf).mp ((heq ▸ hsorted as).symm.trans (hsorted bs))
  · intro h
    rw [hashAccountsWith,hashAccountsWith,sorted_leaves_perm leaf h]

end Commitment

/-! ## Hashes without collisions -/

/-- A leaf as what it stands for: a mark and the fields of the account. -/
def symbolicLeaf (a : Account) : List ℕ :=
  0 :: a.lamports.toNat :: a.rentEpoch.toNat :: a.executable.toNat ::
    (a.pubkey.bytes ++ (a.owner.bytes ++ a.data)).map UInt8.toNat

/-- A node as what it stands for: a mark, where the first child ends, and both children. -/
def symbolicNode (a b : List ℕ) : List ℕ := 1 :: a.length :: (a ++ b)

theorem symbolicLeaf_injective : Function.Injective symbolicLeaf := by
  intro a b h
  obtain ⟨-,h⟩ := List.cons.inj h
  obtain ⟨hl,h⟩ := List.cons.inj h
  obtain ⟨hr,h⟩ := List.cons.inj h
  obtain ⟨he,h⟩ := List.cons.inj h
  have hbytes := List.map_injective_iff.mpr (fun _ _ => UInt8.toNat_inj.mp) h
  obtain ⟨hp,hrest⟩ := List.append_inj hbytes (a.pubkey.size.trans b.pubkey.size.symm)
  obtain ⟨ho,hd⟩ := List.append_inj hrest (a.owner.size.trans b.owner.size.symm)
  have hexec : a.executable = b.executable := by
    revert he
    cases a.executable <;> cases b.executable <;> decide
  cases a
  cases b
  cases Pubkey.ext hp
  cases Pubkey.ext ho
  cases hd
  cases hexec
  cases UInt64.toNat_inj.mp hl
  cases UInt64.toNat_inj.mp hr
  rfl

theorem symbolicNode_injective (a b c d : List ℕ) (h : symbolicNode a b = symbolicNode c d) :
    a = c ∧ b = d := by
  obtain ⟨-,h⟩ := List.cons.inj h
  obtain ⟨hl,h⟩ := List.cons.inj h
  exact List.append_inj h hl

/-- Two wallets have one root in either order, and another root than the first one alone. -/
theorem wallets_committed :
    let a : Account := ⟨.ofByte 1,10,[],default,false,0⟩
    let b : Account := ⟨.ofByte 2,5,[],default,false,0⟩
    hashAccountsWith symbolicLeaf symbolicNode [a,b] = hashAccountsWith symbolicLeaf
      symbolicNode [b,a] ∧
      hashAccountsWith symbolicLeaf symbolicNode [a,b] ≠
        hashAccountsWith symbolicLeaf symbolicNode [a] := by
  intro a b
  have hc := (hashAccounts_commits symbolicLeaf symbolicNode).2.2 symbolicLeaf_injective
    symbolicNode_injective (fun x c d h => by cases h)
  constructor
  · exact (hc [a,b] [b,a] (by simp) (by simp) (by decide) (by decide)).mpr (.swap b a [])
  · intro h
    exact absurd ((hc [a,b] [a] (by simp) (by simp) (by decide) (by decide)).mp h).length_eq
      (by decide)

end TinySolana
