import TinySolana.Footprint
import TinySolana.NativeFrame

/-!
# What a transaction stores

A transaction stores every account that it lists, also those that its instructions have not written.
For native programs the keys that are written can be read off the instructions; under every other
listed key the overlay holds the account as it was loaded.
-/

namespace TinySolana
open Foundations

/-! ## Written keys -/

/-- The keys of the metas at some positions. -/
def Instruction.keysAt (instruction : Instruction) (positions : List ℕ) : List Pubkey :=
  positions.filterMap fun i => instruction.accounts[i]?.map AccountMeta.pubkey

/-- The keys that a native instruction may write. -/
def Instruction.touchedKeys (instruction : Instruction) : List Pubkey :=
  instruction.keysAt (nativeWrites instruction.programId instruction.data).touched

def Transaction.touchedKeys (tx : Transaction) : List Pubkey :=
  tx.message.instructions.flatMap Instruction.touchedKeys

/-- All instructions are for native programs. -/
def Transaction.Native (tx : Transaction) : Prop :=
  ∀ instruction ∈ tx.message.instructions, instruction.programId ∈ nativePrograms

instance (tx : Transaction) : Decidable tx.Native := inferInstanceAs (Decidable (∀ _ ∈ _, _))

/-! ## Running the instructions -/

namespace Bank

variable {host : Host} {keys : List Pubkey} {computeBudget : UInt64}
  {m m' : Machine (Fin keys.length)}

private theorem getElem?_of_forall₂ {α β : Type} {R : α → β → Prop} {as : List α} {bs : List β}
    (h : List.Forall₂ R as bs) {i : ℕ} {b : β} (hb : bs[i]? = some b) :
    ∃ a, as[i]? = some a ∧ R a b := by
  induction h generalizing i with
  | nil => simp at hb
  | cons hr _ ih =>
    cases i with
    | zero =>
      simp only [List.getElem?_cons_zero,Option.some.injEq] at hb ⊢
      exact ⟨_,rfl,hb ▸ hr⟩
    | succ i => exact ih hb

/-- The cells at some positions of the infos belong to the keys at these positions of the metas. -/
theorem key_mem_keysAt {cells : Cells keys} {instruction : Instruction}
    {infos : List (AccountInfo (Fin keys.length))}
    (h : prepareAccountInfos instruction cells = .ok infos) {positions : List ℕ}
    {c : Fin keys.length} (hc : c ∈ Footprint.cellsAt infos positions) :
    keys.get c ∈ instruction.keysAt positions := by
  obtain ⟨i,hi,hc⟩ := List.mem_filterMap.mp hc
  obtain ⟨info,hinfo,rfl⟩ := Option.map_eq_some_iff.mp hc
  obtain ⟨a,ha,hr⟩ := getElem?_of_forall₂ (prepareAccountInfos_resolves h) hinfo
  refine List.mem_filterMap.mpr ⟨i,hi,?_⟩
  rw [ha,Option.map_some,hr.key,hr.pubkey]

theorem executeInstruction_frame {instruction : Instruction}
    (hn : instruction.programId ∈ nativePrograms)
    (h : executeInstruction host keys computeBudget instruction m = (.ok (),m')) :
    (∀ c : Fin keys.length, keys.get c ∉ instruction.touchedKeys → m'.cells c = m.cells c) ∧
      ∀ c, (m'.cells c).pubkey = (m.cells c).pubkey := by
  obtain ⟨infos,hp,hx⟩ := executeInstruction_ok h
  have hw := execute_within hn hx
  refine ⟨fun c hc => hw.untouched c fun ht => hc ?_,hw.pubkey⟩
  rw [← Footprint.cellsAt_touched] at ht
  exact key_mem_keysAt hp ht

theorem executeInstructions_cons_ok {instruction : Instruction} {rest : List Instruction} :
    executeInstructions host keys computeBudget (instruction :: rest) m = (.ok (),m') ↔
      ∃ m₁, executeInstruction host keys computeBudget instruction m = (.ok (),m₁) ∧
        executeInstructions host keys computeBudget rest m₁ = (.ok (),m') := by
  rw [executeInstructions,Exec.bind_ok]
  exact ⟨fun ⟨_,m₁,h₁,h₂⟩ => ⟨m₁,h₁,h₂⟩,fun ⟨m₁,h₁,h₂⟩ => ⟨(),m₁,h₁,h₂⟩⟩

/-- What one successful instruction after the other keeps, the list keeps. -/
theorem executeInstructions_invariant {P : Machine (Fin keys.length) → Prop}
    {instructions : List Instruction}
    (hstep : ∀ instruction ∈ instructions, ∀ m m', P m →
      executeInstruction host keys computeBudget instruction m = (.ok (),m') → P m')
    (h : executeInstructions host keys computeBudget instructions m = (.ok (),m')) (hm : P m) :
    P m' := by
  induction instructions generalizing m with
  | nil =>
    cases h
    exact hm
  | cons instruction rest ih =>
    obtain ⟨m₁,h₁,h₂⟩ := executeInstructions_cons_ok.mp h
    exact ih (fun ix hix => hstep ix (List.mem_cons_of_mem _ hix)) h₂
      (hstep instruction List.mem_cons_self m m₁ hm h₁)

/-- Native instructions leave the cache of programs alone. -/
theorem executeInstructions_programCache {instructions : List Instruction}
    (hn : ∀ instruction ∈ instructions, instruction.programId ∈ nativePrograms)
    (m : Machine (Fin keys.length)) :
    (executeInstructions host keys computeBudget instructions m).2.programCache =
      m.programCache := by
  let R (m m' : Machine (Fin keys.length)) : Prop := m'.programCache = m.programCache
  have : Std.Refl R := ⟨fun _ => rfl⟩
  have : IsTrans _ R := ⟨fun _ _ _ h h' => h'.trans h⟩
  have hone : ∀ instruction ∈ instructions,
      Exec.Keeps R (executeInstruction host keys computeBudget instruction) := by
    intro instruction hix
    refine .bind .get fun m => .bind ?_ fun infos => .bind (.modify fun m => rfl) fun _ => ?_
    · cases prepareAccountInfos instruction m.cells with
      | ok infos => exact .pure infos
      | error e => exact .throw e
    · exact .mapErr (execute_keeps (fun _ _ _ => rfl) host (hn instruction hix) _ infos)
  have hall : Exec.Keeps R (executeInstructions host keys computeBudget instructions) := by
    induction instructions with
    | nil => exact .pure ()
    | cons instruction rest ih =>
      exact .bind (hone instruction List.mem_cons_self) fun _ =>
        ih (fun ix hix => hn ix (List.mem_cons_of_mem _ hix)) fun ix hix =>
          hone ix (List.mem_cons_of_mem _ hix)
  exact hall m

/-! ## Storing the cells -/

theorem executeLoaded_ok {tx : Transaction} {loaded cells : Cells tx.message.accountKeys}
    {cache cache' : ProgramCache} :
    executeLoaded host tx computeBudget loaded cache = (.ok cells,cache') ↔
      ∃ m', executeInstructions host tx.message.accountKeys computeBudget tx.message.instructions
        ⟨loaded,0,cache⟩ = (.ok (),m') ∧ m'.cells = cells ∧ m'.programCache = cache' := by
  unfold executeLoaded
  cases hx : executeInstructions host tx.message.accountKeys computeBudget tx.message.instructions
      ⟨loaded,0,cache⟩ with
  | mk r m' => cases r <;> simp [Outcome.map]

theorem executeOnOverlay_ok {accounts : InMemoryAccountStore} {tx : Transaction} {o : OverlayStore}
    {cache cache' : ProgramCache} :
    executeOnOverlay host accounts tx computeBudget cache = (.ok o,cache') ↔
      ∃ m', executeInstructions host tx.message.accountKeys computeBudget tx.message.instructions
        ⟨loadAndVerifyAccounts tx.message.accountKeys (OverlayStore.new.load accounts),0,cache⟩ =
          (.ok (),m') ∧ writeBack m'.cells = o ∧ m'.programCache = cache' := by
  simp only [executeOnOverlay,Exec.bind_ok,executeLoaded_ok,Exec.pure_run,Prod.mk.injEq,
    Outcome.ok.injEq]
  constructor
  · rintro ⟨cells,cache₁,⟨m',h,rfl,rfl⟩,rfl,rfl⟩
    exact ⟨m',h,rfl,rfl⟩
  · rintro ⟨m',h,rfl,rfl⟩
    exact ⟨_,_,⟨m',h,rfl,rfl⟩,rfl,rfl⟩

/-- Writing back is inserting the cells, each under the key it names. -/
theorem writeBack_dirty (cells : Cells keys) :
    (writeBack cells).dirty =
      FiniteMap.insertAll ∅ ((List.ofFn cells).map fun account => (account.pubkey,account)) := by
  have h : ∀ (l : List Account) (o : OverlayStore),
      (l.foldl (fun o account => o.store account.pubkey account) o).dirty =
        FiniteMap.insertAll o.dirty (l.map fun account => (account.pubkey,account)) := by
    intro l
    induction l with
    | nil => exact fun o => rfl
    | cons a l ih => exact fun o => ih _
  exact h _ _

/-- Nothing is stored under a key that no cell names. -/
theorem writeBack_lookup_none {cells : Cells keys} {k : Pubkey} (h : ∀ c, (cells c).pubkey ≠ k) :
    (writeBack cells).dirty.lookup k = none := by
  rw [writeBack_dirty,FiniteMap.lookup_insertAll_of_notMem,Finmap.lookup_empty]
  intro hm
  simp only [List.map_map,List.mem_map,List.mem_ofFn,Function.comp_apply] at hm
  obtain ⟨_,⟨c,rfl⟩,hk⟩ := hm
  exact h c hk

/-- Under a key the last of the cells that name it is stored. -/
theorem writeBack_lookup_last {cells : Cells keys} {k : Pubkey} (h : ∃ c, (cells c).pubkey = k) :
    ∃ c, (cells c).pubkey = k ∧ (∀ d, c < d → (cells d).pubkey ≠ k) ∧
      (writeBack cells).dirty.lookup k = some (cells c) := by
  obtain ⟨i,a,hi,hlast,hl⟩ := FiniteMap.lookup_insertAll_last (m := (∅ : FiniteMap Pubkey Account))
    (l := (List.ofFn cells).map fun account => (account.pubkey,account)) (k := k) (by
      simpa only [List.map_map,List.mem_map,List.mem_ofFn,Function.comp_apply,exists_exists_eq_and]
        using h)
  have hentry : ∀ c : Fin keys.length, ((List.ofFn cells).map fun account =>
      (account.pubkey,account))[c.1]? = some ((cells c).pubkey,cells c) := by
    intro c
    rw [List.getElem?_map,List.getElem?_ofFn,dif_pos c.2]
    rfl
  have hlt : i < keys.length := by
    have := (List.getElem?_eq_some_iff.mp hi).1
    simpa using this
  rw [hentry ⟨i,hlt⟩,Option.some.injEq,Prod.mk.injEq] at hi
  obtain ⟨hk,rfl⟩ := hi
  rw [← writeBack_dirty] at hl
  exact ⟨⟨i,hlt⟩,hk,fun d hd => hlast d.1 _ hd (hentry d),hl⟩

/-- The cells still name the keys they were loaded for. -/
def Named (cells : Cells keys) : Prop := ∀ c : Fin keys.length, (cells c).pubkey = keys.get c

theorem writeBack_lookup_of_notMem {cells : Cells keys} (hc : Named cells) {k : Pubkey}
    (hk : k ∉ keys) : (writeBack cells).dirty.lookup k = none :=
  writeBack_lookup_none fun c h => hk (h ▸ hc c ▸ List.getElem_mem c.2)

/-- Under a listed key one of its cells is stored. -/
theorem writeBack_lookup_of_mem {cells : Cells keys} (hc : Named cells) {k : Pubkey}
    (hk : k ∈ keys) :
    ∃ c : Fin keys.length, keys.get c = k ∧ (writeBack cells).dirty.lookup k = some (cells c) := by
  obtain ⟨i,rfl⟩ := List.mem_iff_get.mp hk
  obtain ⟨c,hk,-,hl⟩ := writeBack_lookup_last ⟨i,hc i⟩
  exact ⟨c,(hc c).symm.trans hk,hl⟩

end Bank

/-! ## What is loaded -/

/-- The account that a transaction loads for a key. -/
def InMemoryAccountStore.loaded (s : InMemoryAccountStore) (k : Pubkey) : Account :=
  (s.load k).getD { (default : Account) with pubkey := k, owner := systemProgramId }

/-- Every account that is stored under one of the keys names it. -/
def InMemoryAccountStore.KeyedOn (s : InMemoryAccountStore) (keys : List Pubkey) : Prop :=
  ∀ k ∈ keys, ∀ a, s.load k = some a → a.pubkey = k

namespace Bank

variable {host : Host} {accounts : InMemoryAccountStore} {tx : Transaction} {computeBudget : UInt64}
  {o : OverlayStore} {cache cache' : ProgramCache}

theorem loadAndVerifyAccounts_apply (keys : List Pubkey) (c : Fin keys.length) :
    loadAndVerifyAccounts keys (OverlayStore.new.load accounts) c =
      accounts.loaded (keys.get c) := by
  simp [loadAndVerifyAccounts,OverlayStore.load,OverlayStore.new,InMemoryAccountStore.loaded]

/-- A transaction depends on the store through the accounts of its keys only. -/
theorem executeOnOverlay_congr {accounts' : InMemoryAccountStore}
    (h : ∀ k ∈ tx.message.accountKeys, accounts.loaded k = accounts'.loaded k) :
    executeOnOverlay host accounts tx computeBudget = executeOnOverlay host accounts' tx
      computeBudget := by
  have hl : loadAndVerifyAccounts tx.message.accountKeys (OverlayStore.new.load accounts) =
      loadAndVerifyAccounts tx.message.accountKeys (OverlayStore.new.load accounts') := by
    funext c
    rw [loadAndVerifyAccounts_apply,loadAndVerifyAccounts_apply]
    exact h _ (List.getElem_mem c.2)
  simp only [executeOnOverlay,hl]

theorem loaded_pubkey {keys : List Pubkey} (hk : accounts.KeyedOn keys) {k : Pubkey}
    (h : k ∈ keys) :
    (accounts.loaded k).pubkey = k := by
  unfold InMemoryAccountStore.loaded
  cases ha : accounts.load k with
  | none => rfl
  | some a => exact hk k h a ha

/-- The final machine of a native transaction, cell by cell. -/
theorem executeInstructions_frame (hn : tx.Native)
    {m m' : Machine (Fin tx.message.accountKeys.length)}
    (h : executeInstructions host tx.message.accountKeys computeBudget tx.message.instructions m =
      (.ok (),m')) :
    (∀ c : Fin tx.message.accountKeys.length, tx.message.accountKeys.get c ∉ tx.touchedKeys →
      m'.cells c = m.cells c) ∧ ∀ c, (m'.cells c).pubkey = (m.cells c).pubkey := by
  refine executeInstructions_invariant (P := fun m' => (∀ c : Fin tx.message.accountKeys.length,
    tx.message.accountKeys.get c ∉ tx.touchedKeys → m'.cells c = m.cells c) ∧
      ∀ c, (m'.cells c).pubkey = (m.cells c).pubkey) ?_ h ⟨fun _ _ => rfl,fun _ => rfl⟩
  rintro instruction hix m₁ m₂ ⟨hu,hp⟩ hx
  obtain ⟨hu',hp'⟩ := executeInstruction_frame (hn instruction hix) hx
  refine ⟨fun c hc => (hu' c fun ht => hc ?_).trans (hu c hc),fun c => (hp' c).trans (hp c)⟩
  exact List.mem_flatMap.mpr ⟨instruction,hix,ht⟩

theorem loaded_named (hk : accounts.KeyedOn tx.message.accountKeys) :
    Named (loadAndVerifyAccounts tx.message.accountKeys (OverlayStore.new.load accounts)) := by
  intro c
  rw [loadAndVerifyAccounts_apply]
  exact loaded_pubkey hk (List.getElem_mem c.2)

/-- The overlay of a successful native transaction, except for the written keys. -/
theorem overlay_lookup (hn : tx.Native) (hk : accounts.KeyedOn tx.message.accountKeys)
    (h : executeOnOverlay host accounts tx computeBudget cache = (.ok o,cache')) {k : Pubkey}
    (ht : k ∉ tx.touchedKeys) :
    o.dirty.lookup k = if k ∈ tx.message.accountKeys then some (accounts.loaded k) else none := by
  obtain ⟨m',hx,rfl,-⟩ := executeOnOverlay_ok.mp h
  obtain ⟨hu,hp⟩ := executeInstructions_frame hn hx
  have hc : Named m'.cells := fun c => (hp c).trans (loaded_named hk c)
  split
  · next hm =>
    obtain ⟨c,rfl,hl⟩ := writeBack_lookup_of_mem hc hm
    rw [hl,hu c ht]
    exact congrArg some (loadAndVerifyAccounts_apply _ c)
  · next hm => exact writeBack_lookup_of_notMem hc hm

/-- Flushing leaves what is loaded for a key that was not written, where the store still agrees with
the one the transaction ran on. -/
theorem loaded_flush (hn : tx.Native) (hk : accounts.KeyedOn tx.message.accountKeys)
    (h : executeOnOverlay host accounts tx computeBudget cache = (.ok o,cache'))
    {p : InMemoryAccountStore} {k : Pubkey} (ht : k ∉ tx.touchedKeys)
    (hp : p.loaded k = accounts.loaded k) :
    InMemoryAccountStore.loaded (o.flush p) k = accounts.loaded k := by
  unfold InMemoryAccountStore.loaded at hp ⊢
  rw [OverlayStore.flush_load,OverlayStore.load,overlay_lookup hn hk h ht]
  split
  · next a ha =>
    split at ha
    · cases ha
      rfl
    · cases ha
  · exact hp

theorem executeOnOverlay_programCache (hn : tx.Native) :
    (executeOnOverlay host accounts tx computeBudget cache).2 = cache := by
  have h : (executeInstructions host tx.message.accountKeys computeBudget tx.message.instructions
      ⟨loadAndVerifyAccounts tx.message.accountKeys (OverlayStore.new.load accounts),0,cache⟩
        ).2.programCache = cache := executeInstructions_programCache hn _
  simp only [executeOnOverlay,Exec.bind_run,executeLoaded]
  cases hx : executeInstructions host tx.message.accountKeys computeBudget tx.message.instructions
      ⟨loadAndVerifyAccounts tx.message.accountKeys (OverlayStore.new.load accounts),0,cache⟩ with
  | mk r m' =>
    rw [hx] at h
    cases r <;> exact h

end Bank

end TinySolana
