import TinySolana.FaithfulWriteBack
import TinySolana.ProgramCalls
import TinySolana.ReadOnlyAccounts
import TinySolana.RootHashFlush

/-!
# Accounts that are not written

A transaction loads an account for every key that it lists, an empty one where none is stored, and
it stores all of them again. The store has the same entries afterwards under keys that no
instruction names as writable only if it had them before. Where it had not, the root hash changes,
even if no instruction has changed any account.
-/

namespace TinySolana
open Foundations

/-! ## A hash that shows one key -/

/-- What is not the default hash. -/
def markedHash : Hash := ⟨1 :: List.replicate 31 0,rfl⟩

/-- Marks the leaves of a key and the nodes above them. -/
def marking (k : Pubkey) (bytes : List UInt8) : Hash :=
  if bytes.length = 64 then
    if bytes.take 32 = markedHash.bytes ∨ bytes.drop 32 = markedHash.bytes then markedHash
      else default
  else if bytes.take 32 = k.bytes then markedHash else default

theorem markedHash_ne_default : markedHash ≠ default := by decide

theorem nodeHash_marking (k : Pubkey) (a b : Hash) :
    nodeHash (marking k) a b = markedHash ↔ a = markedHash ∨ b = markedHash := by
  have hlen : (a.bytes ++ b.bytes).length = 64 := by rw [List.length_append,a.size,b.size]
  have hne : (default : Hash) ≠ markedHash := markedHash_ne_default.symm
  have hext : ∀ c : Hash, c = markedHash ↔ c.bytes = markedHash.bytes := fun c =>
    ⟨congrArg Hash.bytes,Hash.ext⟩
  rw [nodeHash,marking,if_pos hlen,List.take_left' a.size,List.drop_left' a.size,hext a,hext b]
  split
  · next h => exact iff_of_true rfl h
  · next h => exact iff_of_false hne h

theorem leafHash_marking (k : Pubkey) (a : Account) :
    leafHash (marking k) a = markedHash ↔ a.pubkey = k := by
  have hkey : Pubkey.codec.encode a.pubkey = a.pubkey.bytes := rfl
  -- A leaf is made from more than two hashes.
  have hlen : (Pubkey.codec.encode a.pubkey ++ Account.codec.encode a).length ≠ 64 := by
    have hfields : ∃ rest, Account.codec.encode a =
        a.pubkey.bytes ++ (leBytes 8 a.lamports.toNat ++ rest) := ⟨_,rfl⟩
    obtain ⟨rest,hrest⟩ := hfields
    rw [hkey,hrest]
    simp only [List.length_append,a.pubkey.size,leBytes_length]
    omega
  have hne : (default : Hash) ≠ markedHash := markedHash_ne_default.symm
  rw [leafHash,marking,if_neg hlen,hkey,List.take_left' a.pubkey.size]
  split
  · next h => exact iff_of_true rfl (Pubkey.ext h)
  · next h => exact iff_of_false hne fun hk => h (congrArg Pubkey.bytes hk)

/-- The root hash shows whether there is an account under the key. -/
theorem getRootHash_marking {s : InMemoryAccountStore} (hs : s.Keyed) (k : Pubkey) :
    s.getRootHash (marking k) = some markedHash ↔ s.load k ≠ none := by
  obtain ⟨all,hall⟩ := exists_listsValues s
  have hmem : (∃ a ∈ all, a.pubkey = k) ↔ s.load k ≠ none := by
    rw [Option.ne_none_iff_exists']
    constructor
    · rintro ⟨a,ha,rfl⟩
      exact ⟨a,((hall.spec hs).2 a).mp ha⟩
    · rintro ⟨a,ha⟩
      obtain rfl := hs k a ha
      exact ⟨a,((hall.spec hs).2 a).mpr ha,rfl⟩
  rw [hall.getRootHash,hashAccounts_eq,hashAccountsWith,← hmem]
  have hleaves : (∃ h ∈ (all.map (leafHash (marking k))).insertionSort (· ≤ ·), h = markedHash) ↔
      ∃ a ∈ all, a.pubkey = k := by
    simp only [List.mem_insertionSort,List.mem_map,exists_exists_and_eq_and,leafHash_marking]
  rw [← hleaves]
  cases hr : MerkleTree.root (nodeHash (marking k))
      ((all.map (leafHash (marking k))).insertionSort (· ≤ ·)) with
  | none =>
    refine iff_of_false (Option.some_ne_none markedHash).symm ?_
    rintro ⟨h,hm,-⟩
    obtain ⟨-,r,hsome,-⟩ := MerkleTree.exists_root (nodeHash (marking k)) (List.ne_nil_of_mem hm)
    rw [hr] at hsome
    cases hsome
  | some r =>
    rw [Option.some.injEq]
    exact MerkleTree.root_marked (P := fun h => h = markedHash) (nodeHash_marking k) hr

namespace Bank

variable {host : Host} {bank : Bank} {tx : Transaction} {computeBudget : UInt64}
  {cache cache' : ProgramCache} {o : OverlayStore}

/-! ## What is stored -/

/-- The accounts that a transaction loads. -/
def loadedCells (bank : Bank) (tx : Transaction) : Cells tx.message.accountKeys :=
  loadAndVerifyAccounts tx.message.accountKeys (OverlayStore.new.load bank.accounts)

/-- The instructions leave the loaded accounts like this. -/
def InstructionsLeave (host : Host) (bank : Bank) (tx : Transaction) (computeBudget : UInt64)
    (cache : ProgramCache) (cells : Cells tx.message.accountKeys) : Prop :=
  ∃ cache', executeLoaded host tx computeBudget (bank.loadedCells tx) cache = (.ok cells,cache')

/-- No later cell names the key that a cell names. -/
def NamedLast {keys : List Pubkey} (cells : Cells keys) (c : Fin keys.length) : Prop :=
  ∀ d, c < d → (cells d).pubkey ≠ (cells c).pubkey

/-- Flushing the overlay leaves the entries under keys that no instruction names as writable. -/
def EntriesKept (bank : Bank) (tx : Transaction) (o : OverlayStore) : Prop :=
  ∀ k, k ∉ metaKeys true tx.metas →
    InMemoryAccountStore.load (o.flush bank.accounts) k = bank.accounts.load k

/-- Flushing the overlay leaves these entries, and where the instructions have changed no account it
leaves the root hash, whatever the hash function is. -/
structure UntouchedKept (host : Host) (bank : Bank) (tx : Transaction) (computeBudget : UInt64)
    (cache : ProgramCache) (o : OverlayStore) : Prop where
  entries : bank.EntriesKept tx o
  rootHash : bank.accounts.Keyed →
    bank.InstructionsLeave host tx computeBudget cache (bank.loadedCells tx) → ∀ sha256,
      InMemoryAccountStore.getRootHash sha256 (o.flush bank.accounts) =
        bank.accounts.getRootHash sha256

/-- The instruction makes no difference to a cell, on the accounts that it finds. -/
def InstructionKeeps (host : Host) (computeBudget : UInt64) {keys : List Pubkey}
    (instruction : Instruction) (m : Machine (Fin keys.length)) (c : Fin keys.length) : Prop :=
  ∀ infos, prepareAccountInfos instruction m.cells = .ok infos →
    NativeKeeps host instruction.programId ⟨instruction.programId,instruction.data,
      computeBudget⟩ infos { m with computeMeter := 0 } c

/-- The cell is the one that is stored under a key which no instruction names as writable. -/
def Unwritten (bank : Bank) (tx : Transaction) (c : Fin tx.message.accountKeys.length) : Prop :=
  NamedLast (bank.loadedCells tx) c ∧ (bank.loadedCells tx c).pubkey ∉ metaKeys true tx.metas

/-- What is stored again without being named as writable was stored before, and no instruction makes
a difference to it. -/
structure StoredBefore (host : Host) (bank : Bank) (tx : Transaction) (computeBudget : UInt64)
    (cache : ProgramCache) : Prop where
  stored : ∀ c, bank.Unwritten tx c →
    bank.accounts.load (bank.loadedCells tx c).pubkey = some (bank.loadedCells tx c)
  kept : ∀ c, bank.Unwritten tx c → ∀ p ∈ bank.reachedBy host tx computeBudget cache,
    InstructionKeeps host computeBudget p.1 p.2 c

/-- No two instructions make a difference to one account without naming it as writable. -/
def AffectedOnce (host : Host) (bank : Bank) (tx : Transaction) (computeBudget : UInt64)
    (cache : ProgramCache) : Prop :=
  ∀ c, bank.Unwritten tx c → (bank.reachedBy host tx computeBudget cache).Pairwise fun p q =>
    InstructionKeeps host computeBudget p.1 p.2 c ∨ InstructionKeeps host computeBudget q.1 q.2 c

section Instructions

variable {keys : List Pubkey} {instruction : Instruction} {m m' : Machine (Fin keys.length)}

theorem executeInstruction_keeps_iff
    (h : executeInstruction host keys computeBudget instruction m = (.ok (),m'))
    (c : Fin keys.length) :
    m'.cells c = m.cells c ↔ InstructionKeeps host computeBudget instruction m c := by
  obtain ⟨infos,hp,hx⟩ := executeInstruction_ok h
  refine (execute_keeps_iff (ChainedProgramExecutor.native_of_ok hx) hx c).trans
    ⟨?_,fun hk => hk infos hp⟩
  intro hk infos' hp'
  obtain rfl := Except.ok.inj (hp.symm.trans hp')
  exact hk

/-- Every instruction that is reached in a run that succeeds has succeeded. -/
theorem reached_ok {instructions : List Instruction} {p : Instruction × Machine (Fin keys.length)}
    (h : executeInstructions host keys computeBudget instructions m = (.ok (),m'))
    (hp : p ∈ reached host keys computeBudget instructions m) :
    p.1 ∈ instructions ∧ ∃ m₁, executeInstruction host keys computeBudget p.1 p.2 =
      (.ok (),m₁) := by
  induction instructions generalizing m with
  | nil => cases hp
  | cons instruction rest ih =>
    obtain ⟨m₁,h₁,h₂⟩ := executeInstructions_cons_ok.mp h
    rw [reached_cons h₁] at hp
    rcases List.mem_cons.mp hp with rfl | hp
    · exact ⟨List.mem_cons_self,m₁,h₁⟩
    · obtain ⟨hm,hx⟩ := ih h₂ hp
      exact ⟨List.mem_cons_of_mem _ hm,hx⟩

/-- A cell to which none of the instructions makes a difference is left as it is. -/
theorem executeInstructions_kept {instructions : List Instruction} {c : Fin keys.length}
    (h : executeInstructions host keys computeBudget instructions m = (.ok (),m'))
    (hk : ∀ p ∈ reached host keys computeBudget instructions m,
      InstructionKeeps host computeBudget p.1 p.2 c) : m'.cells c = m.cells c := by
  induction instructions generalizing m with
  | nil =>
    cases h
    rfl
  | cons instruction rest ih =>
    obtain ⟨m₁,h₁,h₂⟩ := executeInstructions_cons_ok.mp h
    rw [reached_cons h₁,List.forall_mem_cons] at hk
    exact (ih h₂ hk.2).trans ((executeInstruction_keeps_iff h₁ c).mpr hk.1)

/-- A cell that is left as it is has been kept by all instructions, unless two make a difference to
it. -/
theorem executeInstructions_kept_iff {instructions : List Instruction} {c : Fin keys.length}
    (h : executeInstructions host keys computeBudget instructions m = (.ok (),m'))
    (honce : (reached host keys computeBudget instructions m).Pairwise fun p q =>
      InstructionKeeps host computeBudget p.1 p.2 c ∨
        InstructionKeeps host computeBudget q.1 q.2 c) :
    m'.cells c = m.cells c ↔ ∀ p ∈ reached host keys computeBudget instructions m,
      InstructionKeeps host computeBudget p.1 p.2 c := by
  refine ⟨fun hc => ?_,executeInstructions_kept h⟩
  induction instructions generalizing m with
  | nil =>
    intro p hp
    cases hp
  | cons instruction rest ih =>
    obtain ⟨m₁,h₁,h₂⟩ := executeInstructions_cons_ok.mp h
    rw [reached_cons h₁,List.pairwise_cons] at honce
    rw [reached_cons h₁,List.forall_mem_cons]
    by_cases hfirst : InstructionKeeps host computeBudget instruction m c
    · have hsame := (executeInstruction_keeps_iff h₁ c).mpr hfirst
      exact ⟨hfirst,ih h₂ honce.2 (hc.trans hsame.symm)⟩
    · -- The first instruction makes the only difference.
      have hrest := executeInstructions_kept h₂ fun p hp => (honce.1 p hp).resolve_left hfirst
      exact absurd ((executeInstruction_keeps_iff h₁ c).mp (hrest.symm.trans hc)) hfirst

end Instructions

/-- A transaction that returns has stored what its instructions leave, under the keys that the
loaded accounts name. -/
theorem exists_left
    (h : bank.processSingleTransaction host tx computeBudget cache = (.ok o,cache')) :
    ∃ m', executeInstructions host tx.message.accountKeys computeBudget tx.message.instructions
        ⟨bank.loadedCells tx,0,cache⟩ = (.ok (),m') ∧ writeBack m'.cells = o ∧
      (∀ c, (m'.cells c).pubkey = (bank.loadedCells tx c).pubkey) ∧
      ∀ cells, bank.InstructionsLeave host tx computeBudget cache cells ↔ cells = m'.cells := by
  obtain ⟨m',hx,rfl,hcache⟩ := executeOnOverlay_ok.mp (processSingleTransaction_ok h).2
  refine ⟨m',hx,rfl,executeInstructions_pubkey hx,fun cells => ⟨?_,?_⟩⟩
  · rintro ⟨cache₁,hl⟩
    obtain ⟨m₁,hx₁,rfl,-⟩ := executeLoaded_ok.mp hl
    cases hx.symm.trans hx₁
    rfl
  · rintro rfl
    exact ⟨_,executeLoaded_ok.mpr ⟨m',hx,rfl,hcache⟩⟩

/-- The entry that a key has after the flush: the last cell that names it, or the entry it had. -/
theorem flush_writeBack {keys : List Pubkey} (cells : Cells keys) (p : InMemoryAccountStore)
    (k : Pubkey) :
    (∃ c, (cells c).pubkey = k ∧ NamedLast cells c ∧
        InMemoryAccountStore.load ((writeBack cells).flush p) k = some (cells c)) ∨
      (∀ c, (cells c).pubkey ≠ k) ∧
        InMemoryAccountStore.load ((writeBack cells).flush p) k = p.load k := by
  rw [OverlayStore.flush_load,OverlayStore.load]
  by_cases hk : ∃ c, (cells c).pubkey = k
  · obtain ⟨c,rfl,hlast,hl⟩ := writeBack_lookup_last hk
    exact .inl ⟨c,rfl,hlast,by rw [hl]⟩
  · have hnone : ∀ c, (cells c).pubkey ≠ k := fun c hc => hk ⟨c,hc⟩
    exact .inr ⟨hnone,by rw [writeBack_lookup_none hnone]⟩

/-- Two cells that are the last to name a key are one. -/
theorem NamedLast.unique {keys : List Pubkey} {cells : Cells keys} {c d : Fin keys.length}
    (hc : NamedLast cells c) (hd : NamedLast cells d) (h : (cells c).pubkey = (cells d).pubkey) :
    c = d := by
  rcases lt_trichotomy c d with hlt | heq | hlt
  · exact absurd h.symm (hc d hlt)
  · exact heq
  · exact absurd h (hd c hlt)

theorem loadedCells_apply (c : Fin tx.message.accountKeys.length) :
    bank.loadedCells tx c = bank.accounts.loaded (tx.message.accountKeys.get c) :=
  loadAndVerifyAccounts_apply _ c

section Stored

variable {cells : Cells tx.message.accountKeys}
  (hnames : ∀ c, (cells c).pubkey = (bank.loadedCells tx c).pubkey)

include hnames

theorem namedLast_loaded (c : Fin tx.message.accountKeys.length) :
    NamedLast (bank.loadedCells tx) c ↔ NamedLast cells c := by
  unfold NamedLast
  simp only [hnames]

/-- Under a key that is not to be written the entries are the same exactly when the cell that is
stored there holds what was stored. -/
theorem entries_kept_iff {P : Pubkey → Prop} :
    (∀ k, P k → InMemoryAccountStore.load ((writeBack cells).flush bank.accounts) k =
        bank.accounts.load k) ↔
      ∀ c, NamedLast (bank.loadedCells tx) c → P (bank.loadedCells tx c).pubkey →
        bank.accounts.load (bank.loadedCells tx c).pubkey = some (cells c) := by
  constructor
  · intro hkept c hc hp
    rw [← hkept _ hp,← hnames]
    obtain ⟨d,hd,hlast,hl⟩ | ⟨hnone,-⟩ := flush_writeBack cells bank.accounts (cells c).pubkey
    · obtain rfl := hlast.unique ((namedLast_loaded hnames c).mp hc) hd
      exact hl
    · exact absurd rfl (hnone c)
  · intro hstored k hp
    obtain ⟨c,rfl,hlast,hl⟩ | ⟨-,hl⟩ := flush_writeBack cells bank.accounts k
    · have hc := hstored c ((namedLast_loaded hnames c).mpr hlast) (hnames c ▸ hp)
      rw [hl,hnames,hc]
    · exact hl

end Stored

/-- Where the loaded accounts are stored again as they are, the store is the same if it had them
all. -/
theorem flush_loaded (hk : bank.accounts.Keyed)
    (hlisted : ∀ k ∈ tx.message.accountKeys, bank.accounts.load k ≠ none) :
    (writeBack (bank.loadedCells tx)).flush bank.accounts = bank.accounts := by
  refine Finmap.ext_lookup fun k => ?_
  obtain ⟨c,hc,-,hl⟩ | ⟨-,hl⟩ := flush_writeBack (bank.loadedCells tx) bank.accounts k
  · refine hl.trans ?_
    have hmem : tx.message.accountKeys.get c ∈ tx.message.accountKeys := List.get_mem _ c
    rw [loadedCells_apply] at hc ⊢
    rw [loaded_pubkey (fun j _ => hk j) hmem] at hc
    obtain ⟨a,ha⟩ := Option.ne_none_iff_exists'.mp (hlisted _ hmem)
    rw [hc] at ha ⊢
    rw [InMemoryAccountStore.loaded,ha]
    exact ha.symm
  · exact hl

/-- A root hash that shows a key tells whether the key was there before. -/
theorem listed_of_rootHash (hk : bank.accounts.Keyed)
    (h : bank.processSingleTransaction host tx computeBudget cache = (.ok o,cache'))
    (hroot : ∀ sha256, InMemoryAccountStore.getRootHash sha256 (o.flush bank.accounts) =
      bank.accounts.getRootHash sha256) {k : Pubkey} (hm : k ∈ tx.message.accountKeys) :
    bank.accounts.load k ≠ none := by
  have hx := (processSingleTransaction_ok h).2
  have hflush : InMemoryAccountStore.load (o.flush bank.accounts) k ≠ none := by
    obtain ⟨a,ha,-⟩ := overlay_entry (fun j _ => hk j) hx hm
    rw [OverlayStore.flush_load,OverlayStore.load,ha]
    exact Option.some_ne_none a
  have hmarked := (getRootHash_marking (flush_keyed (fun j _ => hk j) hx hk) k).mpr hflush
  rw [hroot] at hmarked
  exact (getRootHash_marking hk k).mp hmarked

/-- In a store whose accounts stand under their keys, the account of a key that is listed is
stored. -/
theorem loadedCells_stored (hk : bank.accounts.Keyed) (c : Fin tx.message.accountKeys.length) :
    (bank.loadedCells tx c).pubkey = tx.message.accountKeys.get c ∧
      (bank.accounts.load (tx.message.accountKeys.get c) ≠ none →
        bank.accounts.load (tx.message.accountKeys.get c) = some (bank.loadedCells tx c)) := by
  rw [loadedCells_apply]
  refine ⟨loaded_pubkey (fun j _ => hk j) (List.get_mem _ c),fun hs => ?_⟩
  obtain ⟨a,ha⟩ := Option.ne_none_iff_exists'.mp hs
  rw [InMemoryAccountStore.loaded,ha]
  rfl

/-- Instructions that name as writable what they write meet the condition where the other accounts
are stored. -/
theorem storedBefore_of_declared (hk : bank.accounts.Keyed)
    (h : bank.processSingleTransaction host tx computeBudget cache = (.ok o,cache'))
    (hw : ∀ k ∈ tx.touchedKeys, k ∈ metaKeys true tx.metas)
    (hlisted : ∀ k ∈ tx.message.accountKeys, k ∉ metaKeys true tx.metas →
      bank.accounts.load k ≠ none) :
    bank.StoredBefore host tx computeBudget cache := by
  obtain ⟨m',hx,-⟩ := exists_left h
  refine ⟨fun c hc => ?_,fun c hc p hp => ?_⟩
  · obtain ⟨hname,hstored⟩ := loadedCells_stored hk c
    have hunnamed := hc.2
    rw [hname] at hunnamed ⊢
    exact hstored (hlisted _ (List.get_mem _ c) hunnamed)
  · obtain ⟨hm,m₁,h₁⟩ := reached_ok hx hp
    obtain ⟨infos,-,hrun⟩ := executeInstruction_ok h₁
    refine (executeInstruction_keeps_iff h₁ c).mp
      ((executeInstruction_frame (ChainedProgramExecutor.native_of_ok hrun) h₁).1 c
        fun ht => hc.2 ?_)
    rw [(loadedCells_stored hk c).1]
    exact hw _ (List.mem_flatMap.mpr ⟨p.1,hm,ht⟩)

end Bank

/-- A successful transaction that is flushed leaves the entries of accounts that none of its
instructions names as writable when these were stored before and no instruction makes a difference
to them. Where accounts stand under their keys this is so if the instructions name as writable
whatever they may write, and it is also necessary, unless two instructions make a difference to one
of them. Where no account is changed, the root hash is left, whatever the hash function is, exactly
when every listed key was stored before. -/
theorem untouched_kept {host : Host} {bank : Bank} {tx : Transaction} {computeBudget : UInt64}
    {cache cache' : ProgramCache} {o : OverlayStore}
    (h : bank.processSingleTransaction host tx computeBudget cache = (.ok o,cache')) :
    (bank.StoredBefore host tx computeBudget cache → bank.EntriesKept tx o) ∧
      (bank.accounts.Keyed → (∀ k ∈ tx.touchedKeys, k ∈ metaKeys true tx.metas) →
        (∀ k ∈ tx.message.accountKeys, k ∉ metaKeys true tx.metas → bank.accounts.load k ≠ none) →
          bank.StoredBefore host tx computeBudget cache) ∧
      (bank.accounts.Keyed → bank.AffectedOnce host tx computeBudget cache → bank.EntriesKept tx o →
        bank.StoredBefore host tx computeBudget cache) ∧
      (bank.accounts.Keyed →
        bank.InstructionsLeave host tx computeBudget cache (bank.loadedCells tx) →
          ((∀ sha256, InMemoryAccountStore.getRootHash sha256 (o.flush bank.accounts) =
              bank.accounts.getRootHash sha256) ↔
            ∀ k ∈ tx.message.accountKeys, bank.accounts.load k ≠ none)) := by
  obtain ⟨m',hx,rfl,hnames,hleft⟩ := Bank.exists_left h
  have hentries := Bank.entries_kept_iff hnames (P := fun k => k ∉ metaKeys true tx.metas)
  refine ⟨fun hs => hentries.mpr fun c hc hp => ?_,fun hk hw hlisted =>
    Bank.storedBefore_of_declared hk h hw hlisted,fun hk honce hkept => ?_,fun hk hl => ?_⟩
  · rw [Bank.executeInstructions_kept hx (hs.kept c ⟨hc,hp⟩)]
    exact hs.stored c ⟨hc,hp⟩
  · have hboth : ∀ c, bank.Unwritten tx c →
        bank.accounts.load (bank.loadedCells tx c).pubkey = some (bank.loadedCells tx c) ∧
          m'.cells c = bank.loadedCells tx c := by
      intro c hc
      -- What is stored in the end was stored before, and that is what was loaded.
      have hstored := hentries.mp hkept c hc.1 hc.2
      obtain ⟨hname,hloaded⟩ := @Bank.loadedCells_stored _ tx hk c
      rw [hname] at hstored ⊢
      have hsame := hloaded (by rw [hstored]; exact Option.some_ne_none _)
      exact ⟨hsame,Option.some.inj (hstored.symm.trans hsame)⟩
    exact ⟨fun c hc => (hboth c hc).1,fun c hc =>
      (Bank.executeInstructions_kept_iff hx (honce c hc)).mp (hboth c hc).2⟩
  · refine ⟨fun hroot k hm => Bank.listed_of_rootHash hk h hroot hm,fun hlisted sha256 => ?_⟩
    rw [← (hleft _).mp hl,Bank.flush_loaded hk hlisted]

/-- The third wallet is listed and not named, and it is stored as it was. -/
theorem third_wallet_kept :
    let bank := Bank.new ((((∅ : InMemoryAccountStore).store (.ofByte 1) (wallet 1 10)).store
      (.ofByte 2) (wallet 2 0)).store (.ofByte 3) (wallet 3 5))
    let tx : Transaction := ⟨[blankSignature],[.ofByte 1,.ofByte 2,.ofByte 3],default,
      (payment [blankSignature] 3).message.instructions⟩
    ∃ o cache', bank.processSingleTransaction default tx 300 ∅ = (.ok o,cache') ∧
      bank.EntriesKept tx o := by
  intro bank tx
  have hkeyed : bank.accounts.Keyed :=
    ((InMemoryAccountStore.keyed_empty.store (wallet 1 10)).store (wallet 2 0)).store (wallet 3 5)
  have hok : (bank.processSingleTransaction default tx 300 ∅).1.verdict = .ok () := by
    decide +kernel
  obtain ⟨o,ho⟩ := Outcome.verdict_eq_ok.mp hok
  have hrun : bank.processSingleTransaction default tx 300 ∅ =
      (.ok o,(bank.processSingleTransaction default tx 300 ∅).2) := Prod.ext ho rfl
  exact ⟨o,_,hrun,(untouched_kept hrun).1
    (Bank.storedBefore_of_declared hkeyed hrun (by decide +kernel) (by decide +kernel))⟩

/-- A transaction without instructions stores an account under the key that it lists, and the root
hash is another one. -/
theorem listed_key_stored :
    let bank := Bank.new ((∅ : InMemoryAccountStore).store (.ofByte 1) (wallet 1 10))
    let tx : Transaction := ⟨[blankSignature],[.ofByte 1,.ofByte 2],default,[]⟩
    ∃ o cache', bank.processSingleTransaction default tx 300 ∅ = (.ok o,cache') ∧
      bank.accounts.load (.ofByte 2) = none ∧
      InMemoryAccountStore.load (o.flush bank.accounts) (.ofByte 2) ≠ none ∧
      InMemoryAccountStore.getRootHash (default : Host).sha256 (o.flush bank.accounts) ≠
        bank.accounts.getRootHash (default : Host).sha256 ∧
      ¬bank.UntouchedKept default tx 300 ∅ o := by
  intro bank tx
  have hrun : bank.processSingleTransaction default tx 300 ∅ =
      (.ok (Bank.writeBack (bank.loadedCells tx)),∅) := rfl
  have hbefore : bank.accounts.load (.ofByte 2) = none := by decide +kernel
  have hafter :
    InMemoryAccountStore.load ((Bank.writeBack (bank.loadedCells tx)).flush bank.accounts)
      (.ofByte 2) ≠ none := by decide +kernel
  refine ⟨_,_,hrun,hbefore,hafter,?_,fun h => hafter ?_⟩
  · decide +kernel
  · exact (h.entries _ (by decide)).trans hbefore

end TinySolana
