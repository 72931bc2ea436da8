import TinySolana.Overlays
import TinySolana.SerialEquivalence
import Mathlib.Data.List.NodupEquivFin

/-!
# Faithful write-back

Every position of the key list has a cell and every cell is stored, but instructions reach a key
through its first position only. The overlay answers with what the instructions have left exactly
where the cell that is stored last for a key is the one they reach.
-/

namespace TinySolana
open Foundations

/-- Every listed key answers with what the cell holds that instructions reach it by. -/
def Bank.Answers (accounts : InMemoryAccountStore) {keys : List Pubkey} (cells : Cells keys)
    (o : OverlayStore) : Prop :=
  ∀ k ∈ keys, ∀ c, position keys k = some c → o.load accounts k = some (cells c)

/-- The overlay of a transaction answers with what the accounts hold after its last instruction. -/
def Bank.Faithful (host : Host) (bank : Bank) (tx : Transaction) (computeBudget : UInt64)
    (cache : ProgramCache) (o : OverlayStore) : Prop :=
  ∀ cells cache', executeLoaded host tx computeBudget
    (loadAndVerifyAccounts tx.message.accountKeys (OverlayStore.new.load bank.accounts)) cache =
      (.ok cells,cache') → Answers bank.accounts cells o

/-- What the instructions leave for the keys that are listed again is what was loaded for them. -/
def Bank.RepeatedKept (host : Host) (bank : Bank) (tx : Transaction) (computeBudget : UInt64)
    (cache : ProgramCache) : Prop :=
  ∀ cells cache', executeLoaded host tx computeBudget
    (loadAndVerifyAccounts tx.message.accountKeys (OverlayStore.new.load bank.accounts)) cache =
      (.ok cells,cache') →
    ∀ k, tx.message.accountKeys.Duplicate k → ∀ c, position tx.message.accountKeys k = some c →
      cells c = bank.accounts.loaded k

/-! ## Cells that no instruction reaches -/

section

variable {κ : Type} {accounts : List (AccountInfo κ)} {m m' : Machine κ} {c : κ}

theorem Footprint.mem_of_cellsAt {positions : List ℕ} (h : c ∈ cellsAt accounts positions) :
    ∃ info ∈ accounts, info.account = c := by
  obtain ⟨i,-,hc⟩ := List.mem_filterMap.mp h
  obtain ⟨info,hi,rfl⟩ := Option.map_eq_some_iff.mp hc
  exact ⟨info,List.mem_of_getElem? hi,rfl⟩

/-- An instruction, of whatever program, changes cells of its account list only. -/
theorem execute_unlisted [DecidableEq κ] {host : Host} {instruction : Instruction}
    {ctx : InvokeContext}
    (h : ChainedProgramExecutor.execute host instruction ctx accounts m = (.ok (),m'))
    (hc : ∀ info ∈ accounts, info.account ≠ c) : m'.cells c = m.cells c := by
  refine (execute_within (ChainedProgramExecutor.native_of_ok h) h).untouched c fun ht => ?_
  rw [← Footprint.cellsAt_touched] at ht
  obtain ⟨info,hi,he⟩ := Footprint.mem_of_cellsAt ht
  exact hc info hi he

end

namespace Bank

variable {host : Host} {keys : List Pubkey} {computeBudget : UInt64}
  {m m' : Machine (Fin keys.length)}

/-- Cells at other positions than the first of their key stay as they were loaded. -/
theorem executeInstructions_stale {instructions : List Instruction}
    (h : executeInstructions host keys computeBudget instructions m = (.ok (),m'))
    {c : Fin keys.length} (hc : position keys (keys.get c) ≠ some c) : m'.cells c = m.cells c := by
  refine executeInstructions_invariant (P := fun m' => m'.cells c = m.cells c) ?_ h rfl
  intro instruction _ m₁ m₂ h₁ hx
  obtain ⟨infos,hp,hx⟩ := executeInstruction_ok hx
  refine Eq.trans (execute_unlisted hx fun info hi he => ?_) h₁
  obtain ⟨a,-,hr⟩ := exists_meta hp hi
  subst he
  rw [hr.key,hr.pubkey] at hc
  exact hc hr.account

theorem position_get_of_ne {c d : Fin keys.length} {k : Pubkey} (hc : position keys k = some c)
    (hd : keys.get d = k) (hne : d ≠ c) : position keys (keys.get d) ≠ some d := by
  rw [hd,hc]
  exact fun h => hne (Option.some.inj h).symm

theorem duplicate_of_ne {c d : Fin keys.length} {k : Pubkey} (hc : keys.get c = k)
    (hd : keys.get d = k) (hne : d ≠ c) : keys.Duplicate k := by
  rw [List.duplicate_iff_exists_distinct_get]
  rcases lt_or_gt_of_ne hne with hlt | hlt
  · exact ⟨d,c,hlt,hd.symm,hc.symm⟩
  · exact ⟨c,d,hlt,hc.symm,hd.symm⟩

variable {bank : Bank} {tx : Transaction} {cache cache' : ProgramCache} {o : OverlayStore}

/-- Where accounts are stored under the keys they name, the overlay is faithful exactly when no
instruction has an effect on an account that is listed again. -/
theorem faithful_iff_repeatedKept (hk : bank.accounts.KeyedOn tx.message.accountKeys)
    (h : bank.processSingleTransaction host tx computeBudget cache = (.ok o,cache')) :
    bank.Faithful host tx computeBudget cache o ↔
      bank.RepeatedKept host tx computeBudget cache := by
  obtain ⟨m',hx,rfl,-⟩ := executeOnOverlay_ok.mp (processSingleTransaction_ok h).2
  refine forall_congr' fun cells => forall_congr' fun cache₁ => forall_congr' fun hl => ?_
  obtain ⟨m₁,hx₁,rfl,-⟩ := executeLoaded_ok.mp hl
  obtain rfl : m' = m₁ := by
    rw [hx] at hx₁
    exact (Prod.mk.inj hx₁).2
  have hn : Named m'.cells := fun c => (executeInstructions_pubkey hx c).trans (loaded_named hk c)
  have hstale : ∀ c d k, position tx.message.accountKeys k = some c →
    tx.message.accountKeys.get d = k →
      d ≠ c → m'.cells d = bank.accounts.loaded k := by
    rintro c d k hc rfl hne
    rw [executeInstructions_stale hx (position_get_of_ne hc rfl hne)]
    exact loadAndVerifyAccounts_apply _ d
  -- The cell that is stored for a key is the last one.
  have hstored : ∀ k ∈ tx.message.accountKeys, ∃ d, tx.message.accountKeys.get d = k ∧
      (∀ e, d < e → tx.message.accountKeys.get e ≠ k) ∧
      (writeBack m'.cells).load bank.accounts k = some (m'.cells d) := by
    intro k hm
    obtain ⟨i,rfl⟩ := List.mem_iff_get.mp hm
    obtain ⟨d,hd,hlast,hl⟩ := writeBack_lookup_last ⟨i,hn i⟩
    exact ⟨d,(hn d).symm.trans hd,fun e he => hn e ▸ hlast e he,by rw [OverlayStore.load,hl]⟩
  constructor
  · intro ha k hdup c hc
    obtain ⟨d,hd,hlast,hl⟩ := hstored k hdup.mem
    have hcd := ha k hdup.mem c hc
    rw [hl,Option.some.injEq] at hcd
    rw [← hcd]
    refine hstale c d k hc hd fun hdc => ?_
    -- A key that is listed again is not stored from its first cell.
    obtain ⟨i,j,hij,hi,hj⟩ := List.duplicate_iff_exists_distinct_get.mp hdup
    have hji : j ≤ d := not_lt.mp fun hlt => hlast j hlt hj.symm
    have hci := not_lt.mp fun hlt => (position_eq_some.mp hc).2 i hlt hi.symm
    rw [hdc] at hji
    exact absurd hij (not_lt.mpr (hji.trans hci))
  · intro hr k hm c hc
    obtain ⟨d,hd,-,hl⟩ := hstored k hm
    rw [hl]
    by_cases hdc : d = c
    · rw [hdc]
    · rw [hstale c d k hc hd hdc,hr k (duplicate_of_ne (getElem_of_position hc) hd hdc) c hc]

/-! ## Reassigning an account -/

/-- A transaction that lists the keys and reassigns the account of one of them. -/
def reassigning (keys : List Pubkey) (k owner : Pubkey) : Transaction :=
  ⟨[],⟨keys,default,[SystemProgram.createAssignInstruction k owner]⟩⟩

/-- The loaded cells with the first one for the key reassigned. -/
def reassigned (accounts : InMemoryAccountStore) (keys : List Pubkey) (c : Fin keys.length)
    (owner : Pubkey) : Machine (Fin keys.length) :=
  Machine.update ⟨loadAndVerifyAccounts keys (OverlayStore.new.load accounts),0,∅⟩ c
    fun a => { a with owner }

theorem executeInstructions_reassigning {accounts : InMemoryAccountStore} {k owner : Pubkey}
    {c : Fin keys.length} (hc : position keys k = some c) :
    executeInstructions host keys computeBudget [SystemProgram.createAssignInstruction k owner]
      ⟨loadAndVerifyAccounts keys (OverlayStore.new.load accounts),0,∅⟩ =
        (.ok (),reassigned accounts keys c owner) := by
  have hp : ∀ cells : Cells keys,
    prepareAccountInfos (SystemProgram.createAssignInstruction k owner)
      cells = .ok [⟨k,true,true,c,(cells c).executable,(cells c).rentEpoch⟩] := by
    intro cells
    simp [prepareAccountInfos,SystemProgram.createAssignInstruction,prepareFrom,hc,bind,Except.bind,
      pure,Except.pure]
  refine executeInstructions_cons_ok.mpr ⟨_,?_,rfl⟩
  rw [executeInstruction,Exec.get_bind,hp,Exec.ofExcept_ok,Exec.pure_bind,
    Exec.modify_bind,Exec.mapErr,ChainedProgramExecutor.execute_system host rfl,
    SystemProgram.entrypoint_ok.mpr ⟨.assign owner,?_,.assign rfl⟩]
  · rfl
  · exact (Codec.decodeAll_eq_some _).mpr ⟨trivial,rfl⟩

theorem reassigning_ok {accounts : InMemoryAccountStore} {k owner : Pubkey} {c : Fin keys.length}
    (hc : position keys k = some c) :
    executeLoaded host (reassigning keys k owner) computeBudget
        (loadAndVerifyAccounts keys (OverlayStore.new.load accounts)) ∅ =
      (.ok (reassigned accounts keys c owner).cells,∅) ∧
    (Bank.new accounts).processSingleTransaction host (reassigning keys k owner) computeBudget ∅ =
      (.ok (writeBack (reassigned accounts keys c owner).cells),∅) := by
  have hx : executeInstructions host keys computeBudget
      [SystemProgram.createAssignInstruction k owner]
      ⟨loadAndVerifyAccounts keys (OverlayStore.new.load accounts),0,∅⟩ =
        (.ok (),reassigned accounts keys c owner) := executeInstructions_reassigning hc
  refine ⟨executeLoaded_ok.mpr ⟨_,hx,rfl,rfl⟩,?_⟩
  have hpre : (Bank.new accounts).checkPreflightRules (reassigning keys k owner) = .ok () := rfl
  rw [processSingleTransaction,hpre,Exec.ofExcept_ok,Exec.pure_bind]
  exact executeOnOverlay_ok.mpr ⟨_,hx,rfl,rfl⟩

/-- Reassigning keeps the names of the cells. -/
theorem reassigned_pubkey (accounts : InMemoryAccountStore) (c d : Fin keys.length)
    (owner : Pubkey) :
    ((reassigned accounts keys c owner).cells d).pubkey =
    (accounts.loaded (keys.get d)).pubkey := by
  rw [reassigned,Machine.update_cells,← loadAndVerifyAccounts_apply]
  split <;> rfl

instance : Nontrivial Pubkey := ⟨systemProgramId,tokenProgramId,by decide⟩

/-- Where reassigning the account of a key is seen in the overlay, its first cell names the key and
no cell behind it does. -/
theorem named_once_of_faithful {accounts : InMemoryAccountStore} {k : Pubkey} {c : Fin keys.length}
    (hc : position keys k = some c)
    (h : ∀ owner, (Bank.new accounts).Faithful host (reassigning keys k owner) computeBudget ∅
      (writeBack (reassigned accounts keys c owner).cells)) :
    (accounts.loaded k).pubkey = k ∧ ∀ d, c < d → (accounts.loaded (keys.get d)).pubkey ≠ k := by
  have hk := getElem_of_position hc
  have hmem : k ∈ keys := hk ▸ List.getElem_mem c.2
  have hanswer : ∀ owner, (writeBack (reassigned accounts keys c owner).cells).load accounts k =
      some { accounts.loaded k with owner } := by
    intro owner
    refine (h owner _ _ (reassigning_ok hc).1 k hmem c hc).trans ?_
    change some ((reassigned accounts keys c owner).cells c) = _
    rw [reassigned,Machine.update_self]
    change some { loadAndVerifyAccounts keys (OverlayStore.new.load accounts) c with owner } = _
    rw [loadAndVerifyAccounts_apply,hk]
  by_cases hnone : ∀ d, (accounts.loaded (keys.get d)).pubkey ≠ k
  · -- The overlay does not have the key, so the store answers as before.
    obtain ⟨owner,ho⟩ := exists_ne (accounts.loaded k).owner
    have hl : accounts.load k = some { accounts.loaded k with owner } := by
      rw [← hanswer owner,OverlayStore.load,
        writeBack_lookup_none fun d => reassigned_pubkey accounts c d owner ▸ hnone d]
    have hloaded : accounts.loaded k = { accounts.loaded k with owner } := by
      conv_lhs => rw [InMemoryAccountStore.loaded,hl]
      rfl
    exact absurd (congrArg Account.owner hloaded).symm ho
  · simp only [not_forall,not_not] at hnone
    -- The last cell that names the key was loaded with another owner than it gets, unless it is the
    -- first.
    have hsome : ∃ d, (loadAndVerifyAccounts keys (OverlayStore.new.load accounts) d).pubkey =
        k := by
      simpa only [loadAndVerifyAccounts_apply] using hnone
    obtain ⟨d,hd,hlast,-⟩ := writeBack_lookup_last hsome
    simp only [loadAndVerifyAccounts_apply] at hd hlast
    suffices hdc : d = c by
      subst hdc
      exact ⟨hk ▸ hd,hlast⟩
    by_contra hdc
    obtain ⟨owner,ho⟩ := exists_ne (accounts.loaded (keys.get d)).owner
    have hname : ∃ e, ((reassigned accounts keys c owner).cells e).pubkey = k :=
      ⟨d,(reassigned_pubkey accounts c d owner).trans hd⟩
    obtain ⟨e,he,helast,hl⟩ := writeBack_lookup_last hname
    simp only [reassigned_pubkey] at he helast
    obtain rfl : e = d := le_antisymm (not_lt.mp fun hlt => hlast e hlt he)
      (not_lt.mp fun hlt => helast d hlt hd)
    have ha := hanswer owner
    rw [OverlayStore.load,hl,reassigned,Machine.update_of_ne _ hdc] at ha
    have ho' := congrArg Account.owner (Option.some.inj ha)
    change (loadAndVerifyAccounts keys (OverlayStore.new.load accounts) e).owner = owner at ho'
    rw [loadAndVerifyAccounts_apply] at ho'
    exact ho ho'.symm

end Bank

/-- For a store and a key list, every transaction is written back faithfully exactly when every
account is stored under the key it names and no key is listed twice; of a single transaction this
says that no account that is listed again is left other than it was loaded. -/
theorem write_back_faithful_iff (accounts : InMemoryAccountStore) (keys : List Pubkey) :
    ((∀ (host : Host) (bank : Bank) (tx : Transaction) (computeBudget : UInt64)
        (cache cache' : ProgramCache) (o : OverlayStore), bank.accounts = accounts →
        tx.message.accountKeys = keys →
        bank.processSingleTransaction host tx computeBudget cache = (.ok o,cache') →
          bank.Faithful host tx computeBudget cache o) ↔ accounts.KeyedOn keys ∧ keys.Nodup) ∧
    ∀ (host : Host) (bank : Bank) (tx : Transaction) (computeBudget : UInt64)
      (cache cache' : ProgramCache) (o : OverlayStore), bank.accounts = accounts →
      tx.message.accountKeys = keys → accounts.KeyedOn keys →
      bank.processSingleTransaction host tx computeBudget cache = (.ok o,cache') →
        (bank.Faithful host tx computeBudget cache o ↔
          bank.RepeatedKept host tx computeBudget cache) := by
  refine ⟨⟨fun h => ?_,?_⟩,?_⟩
  · have honce : ∀ k c, Bank.position keys k = some c → (accounts.loaded k).pubkey = k ∧
        ∀ d, c < d → (accounts.loaded (keys.get d)).pubkey ≠ k := fun k c hc =>
      Bank.named_once_of_faithful hc fun owner =>
        h default (.new accounts) (Bank.reassigning keys k owner) 0 ∅ ∅ _ rfl rfl
          (Bank.reassigning_ok hc).2
    constructor
    · intro k hm a ha
      obtain ⟨c,hc⟩ := Bank.exists_position hm
      have hk := (honce k c hc).1
      rwa [InMemoryAccountStore.loaded,ha] at hk
    · rw [List.nodup_iff_forall_not_duplicate]
      intro k hdup
      obtain ⟨c,hc⟩ := Bank.exists_position hdup.mem
      obtain ⟨hk,hlast⟩ := honce k c hc
      obtain ⟨i,j,hij,hi,hj⟩ := List.duplicate_iff_exists_distinct_get.mp hdup
      have hci : c ≤ i := not_lt.mp fun hlt => (Bank.position_eq_some.mp hc).2 i hlt hi.symm
      exact hlast j (hci.trans_lt hij) (hj ▸ hk)
  · rintro ⟨hk,hn⟩ host bank tx computeBudget cache cache' o rfl rfl hx
    rw [Bank.faithful_iff_repeatedKept hk hx]
    intro cells cache₁ _ k hdup
    exact absurd hdup (List.nodup_iff_forall_not_duplicate.mp hn k)
  · rintro host bank tx computeBudget cache cache' o rfl rfl hk hx
    exact Bank.faithful_iff_repeatedKept hk hx

/-- The second cell of a payer that is listed twice is stored over the first one. -/
theorem payer_listed_twice_unfaithful :
    ∃ o cache, (Bank.new walletStore).processSingleTransaction default
      (paymentListing [] 1 2 1 3) 300 ∅ = (.ok o,cache) ∧
    ¬(Bank.new walletStore).Faithful default (paymentListing [] 1 2 1 3) 300 ∅ o := by
  refine ⟨_,_,Exec.run_of_result rfl,fun h => ?_⟩
  have ha := h _ _ (Exec.run_of_result rfl) (.ofByte 1) (by decide) ⟨0,by decide⟩ (by decide)
  exact absurd ha (by decide)

theorem payment_faithful :
    ∃ o cache, (Bank.new walletStore).processSingleTransaction default (payment [] 3) 300 ∅ =
      (.ok o,cache) ∧ (Bank.new walletStore).Faithful default (payment [] 3) 300 ∅ o := by
  have hx := Exec.run_of_result (x := (Bank.new walletStore).processSingleTransaction default
    (payment [] 3) 300) (s := ∅) rfl
  exact ⟨_,_,hx,(write_back_faithful_iff walletStore (payment [] 3).message.accountKeys).1.mpr
    ⟨fun k _ => walletStore_keyed k,by decide⟩ default _ _ 300 ∅ _ _ rfl rfl hx⟩

end TinySolana
