import TinySolana.Foundations.Runs
import TinySolana.RootHash

/-!
# Account stores

The trait `AccountStore` and its implementations: the in-memory map, the database of encoded
accounts and the overlay over a store of any kind. `LawfulAccountStore` says what its users rely on;
an overlay over a lawful store is lawful, so overlays may be stacked.
-/

namespace TinySolana
open Foundations

/-- `AccountStore`. Where the order of a map shows, a method has several results. -/
class AccountStore (σ : Type) where
  load : σ → Pubkey → Option Account
  store : σ → Pubkey → Account → σ
  AllAccounts : σ → List Account → Prop
  GetRootHash : (List UInt8 → Hash) → σ → Option Hash → Prop

/-! ## Implementations -/

/-- The values of a map in the order of some iteration. -/
def ListsValues (m : FiniteMap Pubkey Account) (all : List Account) : Prop :=
  ∃ es, FiniteMap.Lists m es ∧ all = es.map Prod.snd

instance : AccountStore InMemoryAccountStore where
  load := InMemoryAccountStore.load
  store := InMemoryAccountStore.store
  AllAccounts := ListsValues
  GetRootHash sha256 s hash := ∃ all, ListsValues s all ∧ hash = hashAccounts sha256 all

/-- Whatever the order of the map, its root hash is the one that freezing a bank computes. -/
theorem InMemoryAccountStore.getRootHash_iff {sha256 : List UInt8 → Hash} {s : InMemoryAccountStore}
    {hash : Option Hash} : AccountStore.GetRootHash sha256 s hash ↔
      hash = s.getRootHash sha256 := by
  have hroot : ∀ es, FiniteMap.Lists s es →
      s.getRootHash sha256 = hashAccounts sha256 (es.map Prod.snd) := by
    intro es hes
    unfold InMemoryAccountStore.getRootHash
    rw [← hes]
    have hmap : (es.map fun e => (⟨e.1,e.2⟩ : Σ _ : Pubkey, Account)).map (fun e => e.2) =
        es.map Prod.snd := by
      rw [List.map_map]
      rfl
    exact congrArg (hashAccounts sha256) hmap
  constructor
  · rintro ⟨all,⟨es,hes,rfl⟩,rfl⟩
    exact (hroot es hes).symm
  · rintro rfl
    obtain ⟨es,hes⟩ := FiniteMap.exists_lists s
    exact ⟨_,⟨es,hes,rfl⟩,hroot es hes⟩

/-- The database, a map from byte keys to byte values. -/
structure RocksDbAccountStore where
  db : FiniteMap (List UInt8) (List UInt8)

namespace RocksDbAccountStore

def empty : RocksDbAccountStore := ⟨∅⟩

/-- Values that cannot be decoded are passed over. -/
def load (s : RocksDbAccountStore) (pubkey : Pubkey) : Option Account :=
  (s.db.lookup pubkey.bytes).bind Account.codec.decodeAll

def store (s : RocksDbAccountStore) (pubkey : Pubkey) (account : Account) : RocksDbAccountStore :=
  ⟨s.db.insert pubkey.bytes (Account.codec.encode account)⟩

/-- The order of the keys. -/
def Below (a b : List UInt8 × List UInt8) : Prop := a.1.map UInt8.toNat ≤ b.1.map UInt8.toNat

def decodeValue (e : List UInt8 × List UInt8) : Option Account := Account.codec.decodeAll e.2

/-- The decoded values in the order of their keys. -/
def AllAccounts (s : RocksDbAccountStore) (all : List Account) : Prop :=
  ∃ es, FiniteMap.Lists s.db es ∧ es.Pairwise Below ∧ all = es.filterMap decodeValue

end RocksDbAccountStore

instance : AccountStore RocksDbAccountStore where
  load := RocksDbAccountStore.load
  store := RocksDbAccountStore.store
  AllAccounts := RocksDbAccountStore.AllAccounts
  GetRootHash sha256 s hash := ∃ all, s.AllAccounts all ∧ hash = hashAccounts sha256 all

/-- An overlay together with its parent. -/
structure OverlayStoreGeneric (σ : Type) where
  dirty : FiniteMap Pubkey Account
  parent : σ

namespace OverlayStoreGeneric

variable {σ : Type} [AccountStore σ]

def new (parent : σ) : OverlayStoreGeneric σ := ⟨∅,parent⟩

def load (o : OverlayStoreGeneric σ) (pubkey : Pubkey) : Option Account :=
  match o.dirty.lookup pubkey with
  | some account => some account
  | none => AccountStore.load o.parent pubkey

def store (o : OverlayStoreGeneric σ) (pubkey : Pubkey) (account : Account) :
    OverlayStoreGeneric σ :=
  { o with dirty := o.dirty.insert pubkey account }

/-- The accounts of the parent under the keys that they name, and the dirty entries over them. -/
def AllAccounts (o : OverlayStoreGeneric σ) (all : List Account) : Prop :=
  ∃ accounts entries, AccountStore.AllAccounts o.parent accounts ∧ FiniteMap.Lists o.dirty entries ∧
    ListsValues (FiniteMap.insertAll
      (FiniteMap.insertAll ∅ (accounts.map fun account => (account.pubkey,account))) entries) all

/-- An overlay without accounts has the default hash. -/
def GetRootHash (sha256 : List UInt8 → Hash) (o : OverlayStoreGeneric σ)
    (hash : Option Hash) : Prop :=
  ∃ all, o.AllAccounts all ∧ hash = if all = [] then some default else hashAccounts sha256 all

/-- `flush` stores the dirty entries into the parent in some order. -/
def Flushes (o o' : OverlayStoreGeneric σ) : Prop :=
  ∃ entries, FiniteMap.Lists o.dirty entries ∧
    o' = ⟨∅,entries.foldl (fun parent e => AccountStore.store parent e.1 e.2) o.parent⟩

end OverlayStoreGeneric

instance {σ : Type} [AccountStore σ] : AccountStore (OverlayStoreGeneric σ) where
  load := OverlayStoreGeneric.load
  store := OverlayStoreGeneric.store
  AllAccounts := OverlayStoreGeneric.AllAccounts
  GetRootHash := OverlayStoreGeneric.GetRootHash

/-- The overlay of a bank with the contents of the store it lies over. -/
def OverlayStore.over (o : OverlayStore) (parent : InMemoryAccountStore) :
    OverlayStoreGeneric InMemoryAccountStore := ⟨o.dirty,parent⟩

theorem OverlayStore.load_over (o : OverlayStore) (parent : InMemoryAccountStore) (k : Pubkey) :
    (o.over parent).load k = o.load parent k := rfl

theorem OverlayStore.store_over (o : OverlayStore) (parent : InMemoryAccountStore) (k : Pubkey)
    (a : Account) : (o.over parent).store k a = (o.store k a).over parent := rfl

/-- Flushing leaves an empty overlay over the store that `OverlayStore.flush` computes. -/
theorem OverlayStore.flushes_over {o : OverlayStore} {parent : InMemoryAccountStore}
    {o' : OverlayStoreGeneric InMemoryAccountStore} :
    (o.over parent).Flushes o' ↔ o' = OverlayStore.new.over (o.flush parent) := by
  have hflush : ∀ entries, FiniteMap.Lists o.dirty entries →
      entries.foldl (fun parent e => AccountStore.store parent e.1 e.2) parent = o.flush parent :=
    fun entries h => o.flush_eq_loop parent entries h
  constructor
  · rintro ⟨entries,h,rfl⟩
    rw [OverlayStore.over,new,← hflush entries h]
    rfl
  · rintro rfl
    obtain ⟨entries,h⟩ := FiniteMap.exists_lists o.dirty
    refine ⟨entries,h,?_⟩
    rw [OverlayStore.over,new,← hflush entries h]
    rfl

/-! ## What users rely on -/

/-- The states and entries a store is made for, and how it answers for them. -/
class LawfulAccountStore (σ : Type) [AccountStore σ] where
  Valid : σ → Prop
  Storable : Pubkey → Account → Prop
  key : ∀ {k a}, Storable k a → a.pubkey = k
  valid_store : ∀ {s k a}, Valid s → Storable k a → Valid (AccountStore.store s k a)
  load_store : ∀ {s k a}, Valid s → Storable k a → ∀ j,
    AccountStore.load (AccountStore.store s k a) j = if j = k then some a else AccountStore.load s j
  load_key : ∀ {s k a}, Valid s → AccountStore.load s k = some a → a.pubkey = k
  /-- Only what is stored last under a key counts. -/
  store_congr : ∀ (s : σ) {l l' : List (Pubkey × Account)},
    FiniteMap.insertAll ∅ l = FiniteMap.insertAll ∅ l' →
      l.foldl (fun s e => AccountStore.store s e.1 e.2) s =
        l'.foldl (fun s e => AccountStore.store s e.1 e.2) s
  allAccounts : ∀ {s all}, Valid s → AccountStore.AllAccounts s all →
    (all.map Account.pubkey).Nodup ∧ ∀ a, a ∈ all ↔ AccountStore.load s a.pubkey = some a
  exists_allAccounts : ∀ {s : σ}, Valid s → ∃ all, AccountStore.AllAccounts s all

theorem exists_listsValues (m : FiniteMap Pubkey Account) : ∃ all, ListsValues m all := by
  obtain ⟨es,h⟩ := FiniteMap.exists_lists m
  exact ⟨_,es,h,rfl⟩

/-- The values of a map whose entries stand under the keys they name. -/
theorem ListsValues.spec {m : FiniteMap Pubkey Account} {all : List Account} (h : ListsValues m all)
    (hk : ∀ k a, m.lookup k = some a → a.pubkey = k) :
    (all.map Account.pubkey).Nodup ∧ ∀ a, a ∈ all ↔ m.lookup a.pubkey = some a := by
  obtain ⟨es,hes,rfl⟩ := h
  constructor
  · have heq : (es.map Prod.snd).map Account.pubkey = es.map Prod.fst := by
      rw [List.map_map]
      exact List.map_congr_left fun e he => hk e.1 e.2 (hes.mem.mp he)
    rw [heq]
    exact hes.nodup
  · intro a
    rw [← hes.mem,List.mem_map]
    constructor
    · rintro ⟨e,he,rfl⟩
      rwa [hk e.1 e.2 (hes.mem.mp he)]
    · intro ha
      exact ⟨_,ha,rfl⟩

instance : LawfulAccountStore InMemoryAccountStore where
  Valid := InMemoryAccountStore.Keyed
  Storable k a := a.pubkey = k
  key h := h
  valid_store := by
    rintro s k a hs rfl
    exact hs.store a
  load_store {s k a} _ _ j := FiniteMap.lookup_insert s k a j
  load_key h := h _ _
  store_congr s l l' h := by
    change FiniteMap.insertAll s l = FiniteMap.insertAll s l'
    rw [FiniteMap.insertAll_eq_union,FiniteMap.insertAll_eq_union s l',h]
  allAccounts h hl := ListsValues.spec hl h
  exists_allAccounts {s} _ := exists_listsValues s

variable {σ : Type} [AccountStore σ] [LawfulAccountStore σ]

/-- A list of all accounts, put into a map, answers as the store does. -/
theorem lookup_allAccounts {s : σ} (hs : LawfulAccountStore.Valid s) {all : List Account}
    (h : AccountStore.AllAccounts s all) (k : Pubkey) :
    (FiniteMap.insertAll ∅ (all.map fun account => (account.pubkey,account))).lookup k =
      AccountStore.load s k := by
  obtain ⟨hn,hmem⟩ := LawfulAccountStore.allAccounts hs h
  have hnk : ((all.map fun account => (account.pubkey,account)).map Prod.fst).Nodup := by
    rw [List.map_map]
    exact hn
  apply Option.ext
  intro a
  rw [FiniteMap.lookup_insertAll_of_nodup hnk,List.mem_map]
  constructor
  · rintro ⟨b,hb,he⟩
    cases he
    exact (hmem a).mp hb
  · intro ha
    have hk := LawfulAccountStore.load_key hs ha
    exact ⟨a,(hmem a).mpr (hk ▸ ha),by rw [hk]⟩

namespace OverlayStoreGeneric

/-- Whatever the overlay and its parent hold may be stored. -/
def Valid (o : OverlayStoreGeneric σ) : Prop :=
  LawfulAccountStore.Valid o.parent ∧
    ∀ k a, o.dirty.lookup k = some a → LawfulAccountStore.Storable (σ := σ) k a

variable {o : OverlayStoreGeneric σ} {k : Pubkey} {a : Account}

theorem Valid.store (ho : o.Valid) (ha : LawfulAccountStore.Storable (σ := σ) k a) :
    (o.store k a).Valid := by
  refine ⟨ho.1,fun j b hb => ?_⟩
  rw [OverlayStoreGeneric.store,FiniteMap.lookup_insert] at hb
  split at hb
  · next hj =>
    cases hb
    exact hj ▸ ha
  · exact ho.2 j b hb

omit [LawfulAccountStore σ] in
theorem load_eq_or (o : OverlayStoreGeneric σ) (k : Pubkey) :
    o.load k = (o.dirty.lookup k).or (AccountStore.load o.parent k) := by
  unfold load
  cases o.dirty.lookup k <;> rfl

omit [LawfulAccountStore σ] in
theorem load_store (o : OverlayStoreGeneric σ) (k : Pubkey) (a : Account) (j : Pubkey) :
    (o.store k a).load j = if j = k then some a else o.load j := by
  rw [load_eq_or,load_eq_or,store,FiniteMap.lookup_insert]
  split <;> rfl

theorem Valid.load_key (ho : o.Valid) (h : o.load k = some a) : a.pubkey = k := by
  unfold load at h
  split at h
  · next b hb =>
    cases h
    exact LawfulAccountStore.key (ho.2 k a hb)
  · exact LawfulAccountStore.load_key ho.1 h

omit [AccountStore σ] [LawfulAccountStore σ] in
/-- The stores of an overlay end up in its map. -/
theorem foldl_store (o : OverlayStoreGeneric σ) (l : List (Pubkey × Account)) :
    l.foldl (fun o e => o.store e.1 e.2) o = ⟨FiniteMap.insertAll o.dirty l,o.parent⟩ := by
  induction l generalizing o with
  | nil => rfl
  | cons e l ih => exact ih (o.store e.1 e.2)

/-- The map from which the accounts are listed answers as the overlay does. -/
theorem Valid.allAccounts (ho : o.Valid) {all : List Account} (h : o.AllAccounts all) :
    (all.map Account.pubkey).Nodup ∧ ∀ a, a ∈ all ↔ o.load a.pubkey = some a := by
  obtain ⟨accounts,entries,ha,he,hl⟩ := h
  rw [he.insertAll] at hl
  have hlookup : ∀ k, (o.dirty ∪ FiniteMap.insertAll ∅
      (accounts.map fun account => (account.pubkey,account))).lookup k = o.load k := by
    intro k
    rw [FiniteMap.lookup_union,lookup_allAccounts ho.1 ha,load_eq_or]
  have hspec := hl.spec fun k a hk => ho.load_key (hlookup k ▸ hk)
  refine ⟨hspec.1,fun a => ?_⟩
  rw [hspec.2,hlookup]

theorem Valid.exists_allAccounts (ho : o.Valid) : ∃ all, o.AllAccounts all := by
  obtain ⟨accounts,ha⟩ := LawfulAccountStore.exists_allAccounts ho.1
  obtain ⟨entries,he⟩ := FiniteMap.exists_lists o.dirty
  obtain ⟨all,hl⟩ := exists_listsValues (FiniteMap.insertAll
    (FiniteMap.insertAll ∅ (accounts.map fun account => (account.pubkey,account))) entries)
  exact ⟨all,accounts,entries,ha,he,hl⟩

end OverlayStoreGeneric

/-- An overlay over a lawful store is a lawful store, with the same demands. -/
instance : LawfulAccountStore (OverlayStoreGeneric σ) where
  Valid := OverlayStoreGeneric.Valid
  Storable := LawfulAccountStore.Storable (σ := σ)
  key := LawfulAccountStore.key
  valid_store ho ha := ho.store ha
  load_store {o k a} _ _ j := o.load_store k a j
  load_key ho h := ho.load_key h
  store_congr o l l' h := by
    change l.foldl (fun o e => o.store e.1 e.2) o = l'.foldl (fun o e => o.store e.1 e.2) o
    rw [o.foldl_store,o.foldl_store,FiniteMap.insertAll_eq_union,
      FiniteMap.insertAll_eq_union o.dirty l',h]
  allAccounts ho h := ho.allAccounts h
  exists_allAccounts ho := ho.exists_allAccounts

/-! ## The database -/

/-- A `Vec` has fewer than 2^64 elements, so every account there is can be written. -/
theorem Account.fits_iff {a : Account} : Account.codec.Fits a ↔ a.data.length < 2^64 := by
  constructor
  · intro h
    exact h.2.2.1.1
  · intro h
    exact ⟨trivial,trivial,⟨h,fun _ _ => trivial⟩,trivial,trivial,trivial⟩

namespace RocksDbAccountStore

/-- The entry under which an account is stored. -/
def entry (a : Account) : List UInt8 × List UInt8 := (a.pubkey.bytes,Account.codec.encode a)

/-- Every entry is that of an account. -/
def Valid (s : RocksDbAccountStore) : Prop :=
  ∀ key value, s.db.lookup key = some value → ∃ a : Account, a.data.length < 2^64 ∧
    (key,value) = entry a

variable {s : RocksDbAccountStore} {k : Pubkey} {a : Account}

theorem decode_encode (h : a.data.length < 2^64) :
    Account.codec.decodeAll (Account.codec.encode a) = some a :=
  Account.codec.decodeAll_eq_some.mpr ⟨Account.fits_iff.mpr h,rfl⟩

theorem Valid.store (hs : s.Valid) (hk : a.pubkey = k) (ha : a.data.length < 2^64) :
    (s.store k a).Valid := by
  intro key value h
  rw [RocksDbAccountStore.store,FiniteMap.lookup_insert] at h
  split at h
  · next he =>
    cases h
    exact ⟨a,ha,by rw [entry,he,hk]⟩
  · exact hs key value h

theorem load_store (s : RocksDbAccountStore) (k : Pubkey) (ha : a.data.length < 2^64) (j : Pubkey) :
    (s.store k a).load j = if j = k then some a else s.load j := by
  rw [load,RocksDbAccountStore.store,FiniteMap.lookup_insert]
  by_cases hj : j = k
  · rw [if_pos hj,if_pos (congrArg Pubkey.bytes hj)]
    exact decode_encode ha
  · rw [if_neg hj,if_neg (fun hc => hj (Pubkey.ext hc))]
    rfl

/-- What is loaded was stored. -/
theorem Valid.load_iff (hs : s.Valid) :
    s.load k = some a ↔ a.pubkey = k ∧ a.data.length < 2^64 ∧
      s.db.lookup k.bytes = some (entry a).2 := by
  constructor
  · intro h
    obtain ⟨value,hv,hd⟩ := Option.bind_eq_some_iff.mp h
    obtain ⟨b,hb,he⟩ := hs _ _ hv
    obtain ⟨hkey,rfl⟩ := Prod.mk.inj he
    rw [decode_encode hb] at hd
    cases hd
    exact ⟨(Pubkey.ext hkey).symm,hb,hv⟩
  · rintro ⟨-,ha,hv⟩
    rw [load,hv]
    exact decode_encode ha

/-- The entries of a listing, and the accounts that are decoded from them. -/
theorem Valid.exists_entries (hs : s.Valid) {es : List (List UInt8 × List UInt8)}
    (h : ∀ e ∈ es, s.db.lookup e.1 = some e.2) :
    es = (es.filterMap decodeValue).map entry ∧
      ∀ a ∈ es.filterMap decodeValue, a.data.length < 2^64 := by
  induction es with
  | nil => exact ⟨rfl,by simp⟩
  | cons e es ih =>
    obtain ⟨hmap,hfits⟩ := ih fun e' he => h e' (List.mem_cons_of_mem e he)
    obtain ⟨a,ha,he⟩ := hs e.1 e.2 (h e List.mem_cons_self)
    have hd : decodeValue e = some a := by
      rw [decodeValue,(Prod.mk.inj he).2]
      exact decode_encode ha
    rw [List.filterMap_cons_some hd]
    constructor
    · rw [List.map_cons,← hmap]
      exact congrArg (· :: es) he
    · exact List.forall_mem_cons.mpr ⟨ha,hfits⟩

theorem Valid.allAccounts (hs : s.Valid) {all : List Account} (h : s.AllAccounts all) :
    (all.map Account.pubkey).Nodup ∧ ∀ a, a ∈ all ↔ s.load a.pubkey = some a := by
  obtain ⟨es,hes,-,rfl⟩ := h
  -- Every value decodes, so nothing is dropped from the listing.
  obtain ⟨hmap,hfits⟩ := hs.exists_entries fun e he => hes.mem.mp he
  generalize es.filterMap decodeValue = all at hmap hfits
  subst hmap
  constructor
  · have hn := hes.nodup
    rw [List.map_map] at hn
    refine List.Nodup.of_map Pubkey.bytes ?_
    rw [List.map_map]
    exact hn
  · intro a
    rw [hs.load_iff]
    constructor
    · intro ha
      exact ⟨rfl,hfits a ha,hes.mem.mp (List.mem_map_of_mem ha)⟩
    · rintro ⟨-,ha,hv⟩
      obtain ⟨b,hb,he⟩ := List.mem_map.mp (hes.mem.mpr hv)
      have hba := Account.codec.encode_inj (Account.fits_iff.mpr (hfits b hb))
        (Account.fits_iff.mpr ha) (Prod.mk.inj he).2
      exact hba ▸ hb

instance : DecidableRel Below := fun _ _ => inferInstanceAs (Decidable (_ ≤ _))

instance : Std.Total Below := ⟨fun a b => le_total (a.1.map UInt8.toNat) (b.1.map UInt8.toNat)⟩

instance : IsTrans _ Below := ⟨fun _ _ _ => le_trans⟩

theorem exists_allAccounts (s : RocksDbAccountStore) : ∃ all, s.AllAccounts all := by
  obtain ⟨es,hes⟩ := FiniteMap.exists_lists s.db
  exact ⟨_,es.insertionSort Below,hes.perm (List.perm_insertionSort _ es),
    List.pairwise_insertionSort _ es,rfl⟩

theorem bytes_injective : Function.Injective Pubkey.bytes := fun _ _ => Pubkey.ext

theorem foldl_store (s : RocksDbAccountStore) (l : List (Pubkey × Account)) :
    l.foldl (fun s e => s.store e.1 e.2) s =
      ⟨FiniteMap.insertAll s.db (l.map fun e => (e.1.bytes,Account.codec.encode e.2))⟩ := by
  induction l generalizing s with
  | nil => rfl
  | cons e l ih => exact ih (s.store e.1 e.2)

end RocksDbAccountStore

instance : LawfulAccountStore RocksDbAccountStore where
  Valid := RocksDbAccountStore.Valid
  Storable k a := a.pubkey = k ∧ a.data.length < 2^64
  key h := h.1
  valid_store hs ha := hs.store ha.1 ha.2
  load_store {s k _} _ ha j := s.load_store k ha.2 j
  load_key hs h := (hs.load_iff.mp h).1
  store_congr s l l' h := by
    change l.foldl (fun s e => s.store e.1 e.2) s = l'.foldl (fun s e => s.store e.1 e.2) s
    rw [s.foldl_store,s.foldl_store,FiniteMap.insertAll_eq_union,FiniteMap.insertAll_eq_union s.db,
      FiniteMap.insertAll_map_congr RocksDbAccountStore.bytes_injective Account.codec.encode h]
  allAccounts hs h := hs.allAccounts h
  exists_allAccounts {s} _ := s.exists_allAccounts

end TinySolana
