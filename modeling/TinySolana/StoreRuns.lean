import TinySolana.AccountStores
import Mathlib.Data.List.Forall2

/-!
# Runs of account stores

An overlay answers as its parent would if everything were stored there directly, which is what a
flush comes to. The in-memory map and the database answer alike.
-/

namespace TinySolana
open Foundations

inductive StoreCall where
  | store (pubkey : Pubkey) (account : Account)
  | load (pubkey : Pubkey)
  | allAccounts
  | getRootHash

inductive StoreAnswer where
  | stored
  | loaded (account : Option Account)
  | accounts (all : List Account)
  | rootHash (hash : Option Hash)

variable {σ τ : Type} [AccountStore σ] [AccountStore τ]

/-- A store serves a call. -/
inductive Serves (sha256 : List UInt8 → Hash) : σ → StoreCall × StoreAnswer → σ → Prop where
  | store (s : σ) (k : Pubkey) (a : Account) :
      Serves sha256 s (.store k a,.stored) (AccountStore.store s k a)
  | load (s : σ) (k : Pubkey) : Serves sha256 s (.load k,.loaded (AccountStore.load s k)) s
  | allAccounts {s : σ} {all : List Account} : AccountStore.AllAccounts s all →
      Serves sha256 s (.allAccounts,.accounts all) s
  | getRootHash {s : σ} {hash : Option Hash} : AccountStore.GetRootHash sha256 s hash →
      Serves sha256 s (.getRootHash,.rootHash hash) s

variable [LawfulAccountStore σ] [LawfulAccountStore τ] {sha256 : List UInt8 → Hash}

/-- What the call stores is what the store is made for. -/
def StoreCall.Proper (σ : Type) [AccountStore σ] [LawfulAccountStore σ] : StoreCall → Prop
  | .store k a => LawfulAccountStore.Storable (σ := σ) k a
  | _ => True

/-- The call stores or loads one account. -/
def StoreCall.Access : StoreCall → Prop
  | .store _ _ | .load _ => True
  | _ => False

/-! ## Overlays -/

/-- The overlay over `P` has been given what was stored into `direct` directly. -/
structure Refines (P : σ) (o : OverlayStoreGeneric σ) (direct : σ) : Prop where
  parent : o.parent = P
  validOverlay : LawfulAccountStore.Valid o
  validDirect : LawfulAccountStore.Valid direct
  stores : ∃ l : List (Pubkey × Account), o.dirty = FiniteMap.insertAll ∅ l ∧
    direct = l.foldl (fun s e => AccountStore.store s e.1 e.2) P
  loads : ∀ k, o.load k = AccountStore.load direct k

variable {P direct : σ} {o o' : OverlayStoreGeneric σ}

theorem refines_new (hP : LawfulAccountStore.Valid P) : Refines P (.new P) P where
  parent := rfl
  validOverlay := ⟨hP,fun k a h => by
    rw [OverlayStoreGeneric.new,Finmap.lookup_empty] at h
    cases h⟩
  validDirect := hP
  stores := ⟨[],rfl,rfl⟩
  loads k := by
    rw [OverlayStoreGeneric.load_eq_or,OverlayStoreGeneric.new,Finmap.lookup_empty]
    rfl

theorem Refines.store (h : Refines P o direct) {k : Pubkey} {a : Account}
    (ha : LawfulAccountStore.Storable (σ := σ) k a) :
    Refines P (o.store k a) (AccountStore.store direct k a) where
  parent := h.parent
  validOverlay := OverlayStoreGeneric.Valid.store h.validOverlay ha
  validDirect := LawfulAccountStore.valid_store h.validDirect ha
  stores := by
    obtain ⟨l,hd,rfl⟩ := h.stores
    refine ⟨l ++ [(k,a)],?_,?_⟩
    · rw [FiniteMap.insertAll_concat,← hd]
      rfl
    · rw [List.foldl_append]
      rfl
  loads j := by
    rw [o.load_store,LawfulAccountStore.load_store h.validDirect ha,h.loads]

/-- The parent, used directly, gives the answers of the overlay. -/
theorem refines_run (hP : LawfulAccountStore.Valid P) {ls : List (StoreCall × StoreAnswer)}
    (hr : Run (Serves sha256) (OverlayStoreGeneric.new P) ls o)
    (hc : ∀ l ∈ ls, l.1.Access ∧ l.1.Proper σ) :
    ∃ direct, Run (Serves sha256) P ls direct ∧ Refines P o direct := by
  induction hr with
  | nil => exact ⟨P,.nil,refines_new hP⟩
  | @snoc t u ls l before last ih =>
    obtain ⟨direct,hrun,href⟩ := ih fun l hl => hc l (List.mem_append_left _ hl)
    obtain ⟨hacc,hprop⟩ := hc l (List.mem_append_right _ List.mem_cons_self)
    cases last with
    | store k a => exact ⟨_,hrun.snoc (.store direct k a),href.store hprop⟩
    | load k =>
      refine ⟨direct,hrun.snoc ?_,href⟩
      have hload : Serves sha256 direct (.load k,.loaded (AccountStore.load direct k)) direct :=
        .load direct k
      rw [← href.loads k] at hload
      exact hload
    | allAccounts h => exact hacc.elim
    | getRootHash h => exact hacc.elim

theorem Refines.flushes (h : Refines P o direct) (hf : o.Flushes o') :
    o'.parent = direct ∧ o'.dirty = ∅ ∧ ∀ k, o'.load k = AccountStore.load direct k := by
  obtain ⟨entries,he,rfl⟩ := hf
  obtain ⟨l,hd,hdirect⟩ := h.stores
  -- The dirty entries and the calls leave the same value under every key.
  have heq : FiniteMap.insertAll ∅ entries = FiniteMap.insertAll ∅ l := by
    rw [he.insertAll,hd]
    exact Finmap.union_empty
  have hparent : entries.foldl (fun parent e => AccountStore.store parent e.1 e.2) o.parent =
      direct := by
    rw [h.parent,hdirect]
    exact LawfulAccountStore.store_congr P heq
  refine ⟨hparent,rfl,fun k => ?_⟩
  rw [OverlayStoreGeneric.load_eq_or,Finmap.lookup_empty,hparent]
  rfl

/-- An overlay answers every store and every load as its parent would, if it were used directly. It
lists the accounts that the parent would then hold, leaves the parent alone, and a flush makes it
what it would be then. -/
theorem overlay_refines (sha256 : List UInt8 → Hash) (hP : LawfulAccountStore.Valid P)
    {ls : List (StoreCall × StoreAnswer)}
    (hr : Run (Serves sha256) (OverlayStoreGeneric.new P) ls o)
    (hc : ∀ l ∈ ls, l.1.Access ∧ l.1.Proper σ) :
    ∃ direct, Run (Serves sha256) P ls direct ∧ o.parent = P ∧
      (∀ k, o.load k = AccountStore.load direct k) ∧
      (∀ all, o.AllAccounts all → (all.map Account.pubkey).Nodup ∧
        ∀ k a, AccountStore.load direct k = some a ↔ a ∈ all ∧ a.pubkey = k) ∧
      (∃ all, o.AllAccounts all) ∧
      (∀ o', o.Flushes o' →
        o'.parent = direct ∧ o'.dirty = ∅ ∧ ∀ k, o'.load k = AccountStore.load direct k) ∧
      ∃ o', o.Flushes o' := by
  obtain ⟨direct,hrun,href⟩ := refines_run hP hr hc
  refine ⟨direct,hrun,href.parent,href.loads,fun all hall => ?_,
    LawfulAccountStore.exists_allAccounts href.validOverlay,fun o' hf => href.flushes hf,?_⟩
  · obtain ⟨hn,hmem⟩ := OverlayStoreGeneric.Valid.allAccounts href.validOverlay hall
    refine ⟨hn,fun k a => ?_⟩
    constructor
    · intro ha
      have hk := LawfulAccountStore.load_key href.validDirect ha
      refine ⟨(hmem a).mpr ?_,hk⟩
      rw [href.loads,hk,ha]
    · rintro ⟨ha,rfl⟩
      rw [← href.loads]
      exact (hmem a).mp ha
  · obtain ⟨entries,he⟩ := FiniteMap.exists_lists o.dirty
    exact ⟨_,entries,he,rfl⟩

/-- An account to be stored. -/
def sampleAccount : Account := ⟨.ofByte 1,10,[7],default,false,0⟩

/-- What was stored into an overlay over an overlay is in the lower one after a flush. -/
theorem stacked_overlay_flushed :
    let parent := OverlayStoreGeneric.new (∅ : InMemoryAccountStore)
    let o := (OverlayStoreGeneric.new parent).store (.ofByte 1) sampleAccount
    ∃ o', o.Flushes o' ∧ o'.dirty = ∅ ∧ o'.load (.ofByte 1) = some sampleAccount := by
  intro parent o
  have hP : LawfulAccountStore.Valid parent :=
    (refines_new InMemoryAccountStore.keyed_empty).validOverlay
  have hr : Run (Serves fun _ => default) (OverlayStoreGeneric.new parent)
      [(.store (.ofByte 1) sampleAccount,.stored)] o := .single (.store _ _ _)
  obtain ⟨direct,-,-,hloads,-,-,hflush,o',ho'⟩ := overlay_refines _ hP hr fun l hl => by
    obtain rfl := List.mem_singleton.mp hl
    exact ⟨trivial,rfl⟩
  obtain ⟨-,hdirty,hload⟩ := hflush o' ho'
  refine ⟨o',ho',hdirty,?_⟩
  rw [hload,← hloads,OverlayStoreGeneric.load_store,if_pos rfl]

/-! ## The two base stores -/

/-- Answers that do not differ but in the order of accounts. -/
inductive StoreAnswer.Agrees : StoreAnswer → StoreAnswer → Prop where
  | stored : Agrees .stored .stored
  | loaded (account : Option Account) : Agrees (.loaded account) (.loaded account)
  | accounts {all all' : List Account} : all.Perm all' → Agrees (.accounts all) (.accounts all')
  | rootHash (hash : Option Hash) : Agrees (.rootHash hash) (.rootHash hash)

/-- Both stores hold the same accounts. -/
structure Same (s : σ) (t : τ) : Prop where
  validLeft : LawfulAccountStore.Valid s
  validRight : LawfulAccountStore.Valid t
  loads : ∀ k, AccountStore.load s k = AccountStore.load t k

variable {s s' : σ} {t t' : τ}

theorem Same.allAccounts (h : Same s t) {all all' : List Account}
    (hs : AccountStore.AllAccounts s all) (ht : AccountStore.AllAccounts t all') :
      all.Perm all' := by
  obtain ⟨hn,hmem⟩ := LawfulAccountStore.allAccounts h.validLeft hs
  obtain ⟨hn',hmem'⟩ := LawfulAccountStore.allAccounts h.validRight ht
  refine (List.perm_ext_iff_of_nodup hn.of_map hn'.of_map).mpr fun a => ?_
  rw [hmem,hmem',h.loads]

/-- The root hash is that of all accounts, in whatever order they are listed. -/
def HashesAccounts (σ : Type) [AccountStore σ] : Prop :=
  ∀ sha256 (s : σ) hash, AccountStore.GetRootHash sha256 s hash ↔
    ∃ all, AccountStore.AllAccounts s all ∧ hash = hashAccounts sha256 all

theorem Same.serves (hσ : HashesAccounts σ) (hτ : HashesAccounts τ) (h : Same s t)
    {call : StoreCall} {x y : StoreAnswer} (hc : call.Proper σ) (hc' : call.Proper τ)
    (hs : Serves sha256 s (call,x) s') (ht : Serves sha256 t (call,y) t') :
    x.Agrees y ∧ Same s' t' := by
  cases hs with
  | store k a =>
    cases ht with
    | store k a =>
      refine ⟨.stored,LawfulAccountStore.valid_store h.validLeft hc,
        LawfulAccountStore.valid_store h.validRight hc',fun j => ?_⟩
      rw [LawfulAccountStore.load_store h.validLeft hc,
        LawfulAccountStore.load_store h.validRight hc',h.loads]
  | load k =>
    cases ht with
    | load k => exact ⟨h.loads k ▸ .loaded _,h⟩
  | allAccounts hall =>
    cases ht with
    | allAccounts hall' => exact ⟨.accounts (h.allAccounts hall hall'),h⟩
  | getRootHash hroot =>
    cases ht with
    | getRootHash hroot' =>
      obtain ⟨all,hall,rfl⟩ := (hσ sha256 s _).mp hroot
      obtain ⟨all',hall',rfl⟩ := (hτ sha256 t _).mp hroot'
      rw [hashAccounts_perm sha256 (h.allAccounts hall hall')]
      exact ⟨.rootHash _,h⟩

/-- Runs that make the same calls get answers that agree. -/
theorem Same.runs (hσ : HashesAccounts σ) (hτ : HashesAccounts τ) (h : Same s t)
    {ls ms : List (StoreCall × StoreAnswer)} (hs : Run (Serves sha256) s ls s')
    (ht : Run (Serves sha256) t ms t') (hcalls : ls.map Prod.fst = ms.map Prod.fst)
    (hc : ∀ l ∈ ls, l.1.Proper σ ∧ l.1.Proper τ) :
    List.Forall₂ (fun x y => x.1 = y.1 ∧ x.2.Agrees y.2) ls ms ∧ Same s' t' := by
  induction hs generalizing ms t' with
  | nil =>
    obtain rfl := List.map_eq_nil_iff.mp hcalls.symm
    rw [ht.nil_inv]
    exact ⟨.nil,h⟩
  | @snoc u u' ls l before last ih =>
    -- The other run ends with the same call.
    rw [List.map_append] at hcalls
    obtain ⟨ms',last',rfl,hms,hlast⟩ := List.map_eq_append_iff.mp hcalls.symm
    obtain ⟨m,rfl,hm⟩ := List.map_eq_singleton_iff.mp hlast
    obtain ⟨v,hbefore,hserves⟩ := ht.snoc_inv
    obtain ⟨hall,hsame⟩ := ih hbefore hms.symm fun l hl => hc l (List.mem_append_left _ hl)
    obtain ⟨hcσ,hcτ⟩ := hc l (List.mem_append_right _ List.mem_cons_self)
    rcases l with ⟨call,x⟩
    rcases m with ⟨call',y⟩
    obtain rfl : call' = call := hm
    obtain ⟨hagree,hnext⟩ := hsame.serves hσ hτ hcσ hcτ last hserves
    exact ⟨List.rel_append hall (.cons ⟨rfl,hagree⟩ .nil),hnext⟩

/-- A store can serve any sequence of calls. -/
theorem exists_run (sha256 : List UInt8 → Hash) (hσ : HashesAccounts σ)
    (hs : LawfulAccountStore.Valid s) {calls : List StoreCall}
    (hc : ∀ call ∈ calls, call.Proper σ) :
    ∃ ls s', Run (Serves sha256) s ls s' ∧ ls.map Prod.fst = calls ∧
      LawfulAccountStore.Valid s' := by
  induction calls using List.reverseRecOn with
  | nil => exact ⟨[],s,.nil,rfl,hs⟩
  | append_singleton calls call ih =>
    obtain ⟨ls,u,hr,rfl,hu⟩ := ih fun c h => hc c (List.mem_append_left _ h)
    have hproper := hc call (List.mem_append_right _ List.mem_cons_self)
    have hstep : ∃ x v, Serves sha256 u (call,x) v ∧ LawfulAccountStore.Valid v := by
      cases call with
      | store k a => exact ⟨_,_,.store u k a,LawfulAccountStore.valid_store hu hproper⟩
      | load k => exact ⟨_,_,.load u k,hu⟩
      | allAccounts =>
        obtain ⟨all,hall⟩ := LawfulAccountStore.exists_allAccounts hu
        exact ⟨_,_,.allAccounts hall,hu⟩
      | getRootHash =>
        obtain ⟨all,hall⟩ := LawfulAccountStore.exists_allAccounts hu
        exact ⟨_,_,.getRootHash ((hσ sha256 u _).mpr ⟨all,hall,rfl⟩),hu⟩
    obtain ⟨x,v,hv,hvalid⟩ := hstep
    exact ⟨ls ++ [(call,x)],v,hr.snoc hv,List.map_append,hvalid⟩

theorem same_empty : Same RocksDbAccountStore.empty (∅ : InMemoryAccountStore) where
  validLeft key value h := by
    rw [RocksDbAccountStore.empty,Finmap.lookup_empty] at h
    cases h
  validRight := InMemoryAccountStore.keyed_empty
  loads k := by
    change RocksDbAccountStore.empty.load k = InMemoryAccountStore.load ∅ k
    rw [RocksDbAccountStore.load,RocksDbAccountStore.empty,InMemoryAccountStore.load,
      Finmap.lookup_empty,Finmap.lookup_empty]
    rfl

/-- Started empty, the database and the in-memory map serve any sequence of calls, with answers that
agree whatever order the map is iterated in. -/
theorem base_stores_agree (sha256 : List UInt8 → Hash) (calls : List StoreCall)
    (hc : ∀ k a, .store k a ∈ calls → a.pubkey = k ∧ a.data.length < 2^64) :
    (∃ ls s, Run (Serves sha256) RocksDbAccountStore.empty ls s ∧ ls.map Prod.fst = calls) ∧
      (∃ ms t, Run (Serves sha256) (∅ : InMemoryAccountStore) ms t ∧ ms.map Prod.fst = calls) ∧
      ∀ ls s ms t, Run (Serves sha256) RocksDbAccountStore.empty ls s →
        Run (Serves sha256) (∅ : InMemoryAccountStore) ms t → ls.map Prod.fst = calls →
          ms.map Prod.fst = calls → List.Forall₂ (fun x y => x.1 = y.1 ∧ x.2.Agrees y.2) ls ms := by
  have hdb : HashesAccounts RocksDbAccountStore := fun _ _ _ => Iff.rfl
  have hmem : HashesAccounts InMemoryAccountStore := fun _ _ _ => Iff.rfl
  have hproper : ∀ call ∈ calls, call.Proper RocksDbAccountStore ∧
      call.Proper InMemoryAccountStore := by
    intro call h
    cases call with
    | store k a => exact ⟨hc k a h,(hc k a h).1⟩
    | load k => exact ⟨trivial,trivial⟩
    | allAccounts => exact ⟨trivial,trivial⟩
    | getRootHash => exact ⟨trivial,trivial⟩
  refine ⟨?_,?_,?_⟩
  · obtain ⟨ls,s,hr,hls,-⟩ := exists_run sha256 hdb same_empty.validLeft fun c h => (hproper c h).1
    exact ⟨ls,s,hr,hls⟩
  · obtain ⟨ms,t,hr,hms,-⟩ := exists_run sha256 hmem same_empty.validRight fun c h =>
      (hproper c h).2
    exact ⟨ms,t,hr,hms⟩
  · intro ls s ms t hs ht hls hms
    refine (same_empty.runs hdb hmem hs ht (hls.trans hms.symm) fun l hl => hproper l.1 ?_).1
    rw [← hls]
    exact List.mem_map_of_mem hl

theorem sample_stored_in_both :
    let calls : List StoreCall :=
      [.store (.ofByte 1) sampleAccount,.load (.ofByte 1),.allAccounts,.getRootHash]
    (∃ ls s, Run (Serves fun _ => default) RocksDbAccountStore.empty ls s ∧
      ls.map Prod.fst = calls) ∧
      ∀ ls s ms t, Run (Serves fun _ => default) RocksDbAccountStore.empty ls s →
        Run (Serves fun _ => default) (∅ : InMemoryAccountStore) ms t → ls.map Prod.fst = calls →
          ms.map Prod.fst = calls → List.Forall₂ (fun x y => x.1 = y.1 ∧ x.2.Agrees y.2) ls ms := by
  intro calls
  have hagree := base_stores_agree (fun _ => default) calls fun k a h => by
    have heq : k = .ofByte 1 ∧ a = sampleAccount := by simpa [calls] using h
    obtain ⟨rfl,rfl⟩ := heq
    exact ⟨rfl,by decide⟩
  exact ⟨hagree.1,hagree.2.2⟩

end TinySolana
