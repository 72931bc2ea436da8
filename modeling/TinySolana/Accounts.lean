import TinySolana.Foundations.FiniteMap
import TinySolana.Types

/-!
# Accounts and account stores

The in-memory store is a finite map from keys to accounts. An overlay keeps its own writes in a
map of the same kind; its parent is shared, so the operations take the parent's present contents.
-/

namespace TinySolana
open Foundations

structure Account where
  pubkey : Pubkey
  lamports : UInt64
  data : List UInt8
  owner : Pubkey
  executable : Bool
  rentEpoch : UInt64
  deriving DecidableEq

/-- `Account::default()`. -/
instance : Inhabited Account := ⟨default,0,[],default,false,0⟩

inductive AccountError where
  | notFound (pubkey : Pubkey)
  deriving DecidableEq

abbrev InMemoryAccountStore := FiniteMap Pubkey Account

namespace InMemoryAccountStore

def load (s : InMemoryAccountStore) (pubkey : Pubkey) : Option Account := s.lookup pubkey

def store (s : InMemoryAccountStore) (pubkey : Pubkey) (account : Account) : InMemoryAccountStore :=
  s.insert pubkey account

/-- Every entry is stored under the key it names. -/
def Keyed (s : InMemoryAccountStore) : Prop := ∀ k a, s.load k = some a → a.pubkey = k

/-- The lamports of all stored accounts together. -/
def totalLamports (s : InMemoryAccountStore) : ℕ := FiniteMap.total (fun a => a.lamports.toNat) s

theorem keyed_empty : Keyed ∅ := by
  intro k a h
  simp [load] at h

theorem Keyed.store {s : InMemoryAccountStore} (h : s.Keyed) (a : Account) :
    Keyed (s.store a.pubkey a) := by
  intro k b hb
  by_cases hk : k = a.pubkey
  · subst hk
    rw [load,InMemoryAccountStore.store,Finmap.lookup_insert] at hb
    cases hb
    rfl
  · rw [load,InMemoryAccountStore.store,Finmap.lookup_insert_of_ne _ hk] at hb
    exact h k b hb

end InMemoryAccountStore

structure OverlayStore where
  dirty : FiniteMap Pubkey Account
  deriving DecidableEq

namespace OverlayStore

def new : OverlayStore := ⟨∅⟩

def load (o : OverlayStore) (parent : InMemoryAccountStore) (pubkey : Pubkey) : Option Account :=
  match o.dirty.lookup pubkey with
  | some account => some account
  | none => parent.load pubkey

def store (o : OverlayStore) (pubkey : Pubkey) (account : Account) : OverlayStore :=
  ⟨o.dirty.insert pubkey account⟩

/-- Store every dirty entry into the parent. The entries come in an unspecified order, which makes
no difference (`flush_eq_loop`); the overlay itself is dropped afterwards. -/
def flush (o : OverlayStore) (parent : InMemoryAccountStore) : InMemoryAccountStore :=
  o.dirty ∪ parent

/-- The loop of `flush` over the dirty entries, in any order. -/
theorem flush_eq_loop (o : OverlayStore) (parent : InMemoryAccountStore)
    (entries : List (Pubkey × Account)) (h : FiniteMap.Lists o.dirty entries) :
    entries.foldl (fun p e => p.store e.1 e.2) parent = o.flush parent := h.insertAll parent

theorem flush_load (o : OverlayStore) (parent : InMemoryAccountStore) (k : Pubkey) :
    (o.flush parent).load k = o.load parent k := by
  unfold flush InMemoryAccountStore.load load
  rw [FiniteMap.lookup_union]
  cases o.dirty.lookup k <;> rfl

end OverlayStore

/-- `Committer::commit_overlays`: flush the overlays one after another. -/
def commitOverlays (overlays : List OverlayStore) (parent : InMemoryAccountStore) :
    InMemoryAccountStore :=
  overlays.foldl (fun p o => o.flush p) parent

@[simp] theorem commitOverlays_nil (p : InMemoryAccountStore) : commitOverlays [] p = p := rfl

@[simp] theorem commitOverlays_cons (o : OverlayStore) (os : List OverlayStore)
    (p : InMemoryAccountStore) : commitOverlays (o :: os) p = commitOverlays os (o.flush p) := rfl

theorem commitOverlays_append (os ps : List OverlayStore) (p : InMemoryAccountStore) :
    commitOverlays (os ++ ps) p = commitOverlays ps (commitOverlays os p) :=
  List.foldl_append

/-- A key loads what the last overlay that holds it has for it, and else what the parent has. -/
theorem commitOverlays_load (os : List OverlayStore) (p : InMemoryAccountStore) (k : Pubkey) :
    (commitOverlays os p).load k =
      (os.reverse.findSome? fun o => o.dirty.lookup k).or (p.load k) := by
  induction os generalizing p with
  | nil => rfl
  | cons o os ih =>
    rw [commitOverlays_cons,ih,OverlayStore.flush_load,OverlayStore.load,List.reverse_cons,
      List.findSome?_append,Option.or_assoc]
    congr 1
    simp only [List.findSome?_cons,List.findSome?_nil]
    cases o.dirty.lookup k <;> rfl

end TinySolana
