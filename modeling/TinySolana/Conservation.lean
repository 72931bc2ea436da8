import TinySolana.WriteBack
import Mathlib.Algebra.Order.BigOperators.Group.Finset
import Mathlib.Data.List.NodupEquivFin

/-!
# Conservation of lamports

A System instruction moves lamports from one cell to another. Over the whole pipeline the total
stays the same where every account that moves lamports is stored once, from the cell that was moved,
and is not stored again by a member of the group that has loaded it before.
-/

namespace TinySolana
open Foundations

/-! ## Sums -/

/-- Two terms of a sum, and the others. -/
theorem sum_split_two {α : Type} [DecidableEq α] {K : Finset α} {a b : α} (ha : a ∈ K) (hb : b ∈ K)
    (hab : a ≠ b) (f : α → ℕ) : f a + (f b + ∑ k ∈ (K.erase a).erase b, f k) = ∑ k ∈ K, f k := by
  rw [Finset.add_sum_erase (K.erase a) f (Finset.mem_erase.mpr ⟨hab.symm,hb⟩),
    Finset.add_sum_erase K f ha]

/-- Moving an amount from one term to another keeps the sum. -/
theorem sum_move {α : Type} [DecidableEq α] {K : Finset α} {a b : α} (ha : a ∈ K) (hb : b ∈ K)
    (hab : a ≠ b) {f g : α → ℕ} {n : ℕ} (hn : n ≤ f a) (hga : g a = f a-n) (hgb : g b = f b+n)
    (hg : ∀ k, k ≠ a → k ≠ b → g k = f k) : ∑ k ∈ K, g k = ∑ k ∈ K, f k := by
  have hrest : ∑ k ∈ (K.erase a).erase b, g k = ∑ k ∈ (K.erase a).erase b, f k := by
    refine Finset.sum_congr rfl fun k hk => ?_
    obtain ⟨hkb,hk⟩ := Finset.mem_erase.mp hk
    exact hg k (Finset.mem_erase.mp hk).1 hkb
  rw [← sum_split_two ha hb hab g,← sum_split_two ha hb hab f,hga,hgb,hrest]
  omega

/-! ## The accounts of a list -/

section

variable {κ : Type} [DecidableEq κ]

/-- The cells of an account list. Infos that share a cell stand for one account. -/
def accountCells (accounts : List (AccountInfo κ)) : Finset κ :=
  (accounts.map AccountInfo.account).toFinset

theorem mem_accountCells {accounts : List (AccountInfo κ)} {info : AccountInfo κ}
    (h : info ∈ accounts) :
    info.account ∈ accountCells accounts := List.mem_toFinset.mpr (List.mem_map_of_mem h)

end

namespace InMemoryAccountStore

def lamportsOf (s : InMemoryAccountStore) (k : Pubkey) : ℕ := (s.loaded k).lamports.toNat

theorem lamportsOf_eq (s : InMemoryAccountStore) (k : Pubkey) :
    s.lamportsOf k = (s.lookup k).elim 0 fun a => a.lamports.toNat := by
  rw [lamportsOf,loaded,load]
  cases s.lookup k <;> rfl

theorem totalLamports_eq (s : InMemoryAccountStore) {K : Finset Pubkey} (hK : s.keys ⊆ K) :
    s.totalLamports = ∑ k ∈ K, s.lamportsOf k := by
  rw [totalLamports,FiniteMap.total_eq_sum _ s hK]
  exact Finset.sum_congr rfl fun k _ => (s.lamportsOf_eq k).symm

theorem sum_lamportsOf_le (s : InMemoryAccountStore) (K : Finset Pubkey) :
    ∑ k ∈ K, s.lamportsOf k ≤ s.totalLamports := by
  rw [s.totalLamports_eq (show s.keys ⊆ s.keys ∪ K from Finset.subset_union_left)]
  exact Finset.sum_le_sum_of_subset Finset.subset_union_right

/-- Replacing the accounts of some keys by others with the same lamports together. -/
theorem totalLamports_congr {s s' : InMemoryAccountStore} {K : Finset Pubkey}
    (hout : ∀ k ∉ K, s'.lookup k = s.lookup k)
    (hin : ∑ k ∈ K, s'.lamportsOf k = ∑ k ∈ K, s.lamportsOf k) :
      s'.totalLamports = s.totalLamports := by
  have hsub : s'.keys ⊆ s.keys ∪ K := by
    intro k hk
    by_cases hkK : k ∈ K
    · exact Finset.mem_union_right _ hkK
    · refine Finset.mem_union_left _ (Finmap.mem_keys.mpr ?_)
      rw [← Finmap.lookup_isSome,← hout k hkK]
      exact Finmap.lookup_isSome.mpr (Finmap.mem_keys.mp hk)
  have hright : K ⊆ s.keys ∪ K := Finset.subset_union_right
  rw [s'.totalLamports_eq hsub,s.totalLamports_eq Finset.subset_union_left,
    ← Finset.sum_sdiff hright,← Finset.sum_sdiff hright,hin]
  refine congrArg (· + _) (Finset.sum_congr rfl fun k hk => ?_)
  rw [lamportsOf_eq,lamportsOf_eq,hout k (Finset.mem_sdiff.mp hk).2]

end InMemoryAccountStore

/-! ## Instructions -/

/-- The lamports that an instruction moves. -/
def SystemInstruction.lamports : SystemInstruction → UInt64
  | transfer lamports | createAccount lamports _ _ => lamports
  | assign _ => 0

/-- The two keys between which a System instruction moves lamports. -/
def Instruction.movedKeys (instruction : Instruction) : List Pubkey :=
  match SystemInstruction.codec.decodeAll instruction.data,instruction.accounts with
  | some i,payer :: recipient :: _ =>
    if i.lamports = 0 ∨ payer.pubkey = recipient.pubkey then [] else [payer.pubkey,recipient.pubkey]
  | _,_ => []

def Transaction.movedKeys (tx : Transaction) : List Pubkey :=
  tx.message.instructions.flatMap Instruction.movedKeys

/-- All instructions are for the System program. -/
def Transaction.SystemOnly (tx : Transaction) : Prop :=
  ∀ instruction ∈ tx.message.instructions, instruction.programId = systemProgramId

theorem Transaction.SystemOnly.native {tx : Transaction} (h : tx.SystemOnly) : tx.Native := by
  intro instruction hix
  rw [h instruction hix]
  decide

section

variable {κ : Type} [DecidableEq κ]

/-- The two machines hold the same lamports. -/
def SameLamports (m m' : Machine κ) : Prop := ∀ c, (m'.cells c).lamports = (m.cells c).lamports

theorem SystemProgram.Effect.lamports {i : SystemInstruction} {accounts : List (AccountInfo κ)}
    {m m' : Machine κ} (h : Effect i accounts m m') : SameLamports m m' ∨
      ∃ payer recipient rest, accounts = payer :: recipient :: rest ∧
        i.lamports ≤ (m.cells payer.account).lamports ∧
        SameLamports (m.move payer.account recipient.account i.lamports) m' := by
  cases h with
  | transfer hs hl => exact .inr ⟨_,_,_,rfl,hl,fun _ => rfl⟩
  | assign hs =>
    refine .inl fun c => ?_
    rw [Machine.update_cells]
    split <;> rfl
  | createAccount hs ht hl hp => exact .inr ⟨_,_,_,rfl,hl,fun c => allocate_lamports _ _ c _ _⟩

theorem Machine.move_zero (m : Machine κ) (c d : κ) : SameLamports m (m.move c d 0) := by
  intro e
  rw [move,update_cells,update_cells]
  split <;> split <;> simp

theorem Machine.move_same {m : Machine κ} {c : κ} {l : UInt64} (h : l ≤ (m.cells c).lamports) :
    SameLamports m (m.move c c l) := by
  intro e
  by_cases he : e = c
  · rw [he,move_self h]
  · rw [move_cells_of_ne m he he]

end

namespace Bank

variable {host : Host} {keys : List Pubkey} {computeBudget : UInt64}
  {m m' : Machine (Fin keys.length)}

/-- A System instruction moves lamports between the cells of its two moved keys or not at all. -/
theorem executeInstruction_moves {instruction : Instruction}
    (hs : instruction.programId = systemProgramId)
    (h : executeInstruction host keys computeBudget instruction m = (.ok (),m')) :
    SameLamports m m' ∨ ∃ (c d : Fin keys.length) (l : UInt64), c ≠ d ∧
      instruction.movedKeys = [keys.get c,keys.get d] ∧ position keys (keys.get c) = some c ∧
      position keys (keys.get d) = some d ∧ l ≤ (m.cells c).lamports ∧
        SameLamports (m.move c d l) m' := by
  obtain ⟨infos,hp,hx⟩ := executeInstruction_ok h
  rw [ChainedProgramExecutor.execute_system host hs] at hx
  obtain ⟨i,hd,he⟩ := SystemProgram.entrypoint_ok.mp hx
  rcases he.lamports with hsame | ⟨payer,recipient,rest,rfl,hl,hmove⟩
  · exact .inl hsame
  · have hr := prepareAccountInfos_resolves hp
    cases hm : instruction.accounts with
    | nil => rw [hm] at hr; cases hr
    | cons mp metas =>
      rw [hm] at hr
      obtain ⟨hpay,hr⟩ := List.forall₂_cons.mp hr
      cases metas with
      | nil => cases hr
      | cons mr metas =>
        obtain ⟨hrec,hr⟩ := List.forall₂_cons.mp hr
        by_cases hz : i.lamports = 0
        · rw [hz] at hmove
          exact .inl fun c => (hmove c).trans (Machine.move_zero _ _ _ c)
        · by_cases hk : mp.pubkey = mr.pubkey
          · have hc := hpay.account
            rw [hk,hrec.account,Option.some.injEq] at hc
            rw [hc] at hmove
            exact .inl fun c => (hmove c).trans (Machine.move_same hl c)
          · have hkp := getElem_of_position hpay.account
            have hkr := getElem_of_position hrec.account
            refine .inr ⟨payer.account,recipient.account,i.lamports,?_,?_,?_,?_,hl,hmove⟩
            · rintro hc
              rw [hc] at hkp
              exact hk (hkp.symm.trans hkr)
            · rw [hkp,hkr]
              simp [Instruction.movedKeys,hd,hm,hz,hk]
            · rw [hkp]
              exact hpay.account
            · rw [hkr]
              exact hrec.account

/-! ## A transaction -/

/-- The lamports of the cell that a key resolves to. -/
def lamportsAt (keys : List Pubkey) (m : Machine (Fin keys.length)) (k : Pubkey) : ℕ :=
  (position keys k).elim 0 fun c => (m.cells c).lamports.toNat

theorem lamportsAt_of_position {k : Pubkey} {c : Fin keys.length} (h : position keys k = some c)
    (m : Machine (Fin keys.length)) : lamportsAt keys m k = (m.cells c).lamports.toNat := by
  rw [lamportsAt,h]
  rfl

/-- In the middle of a transaction: the cells of keys that are not moved hold what was loaded, and
together the keys hold what they held in the store. -/
structure Balanced (s : InMemoryAccountStore) (moved keys : List Pubkey)
    (m : Machine (Fin keys.length)) : Prop where
  kept : ∀ c : Fin keys.length, keys.get c ∉ moved →
    (m.cells c).lamports.toNat = s.lamportsOf (keys.get c)
  sum : ∑ k ∈ keys.toFinset, lamportsAt keys m k = ∑ k ∈ keys.toFinset, s.lamportsOf k

variable {s : InMemoryAccountStore} {moved : List Pubkey}

theorem Balanced.loaded (s : InMemoryAccountStore) (moved keys : List Pubkey)
    (computeMeter : UInt64) (cache : ProgramCache) : Balanced s moved keys
      ⟨loadAndVerifyAccounts keys (OverlayStore.new.load s),computeMeter,cache⟩ := by
  have hc : ∀ c : Fin keys.length,
    (loadAndVerifyAccounts keys (OverlayStore.new.load s) c).lamports.toNat =
      s.lamportsOf (keys.get c) := fun c => by
        rw [loadAndVerifyAccounts_apply,InMemoryAccountStore.lamportsOf]
  refine ⟨fun c _ => hc c,Finset.sum_congr rfl fun k hk => ?_⟩
  obtain ⟨c,hp⟩ := exists_position (List.mem_toFinset.mp hk)
  rw [lamportsAt_of_position hp,hc,getElem_of_position hp]

theorem Balanced.congr (h : Balanced s moved keys m) (hm : SameLamports m m') :
    Balanced s moved keys m' := by
  refine ⟨fun c hc => by rw [hm c,h.kept c hc],?_⟩
  rw [← h.sum]
  refine Finset.sum_congr rfl fun k _ => ?_
  unfold lamportsAt
  cases position keys k with
  | none => rfl
  | some c => simp only [Option.elim_some,hm c]

theorem Balanced.move (h : Balanced s moved keys m) (hfit : s.totalLamports < 2^64)
    {c d : Fin keys.length} {l : UInt64} (hcd : c ≠ d) (hc : keys.get c ∈ moved)
    (hd : keys.get d ∈ moved) (hpc : position keys (keys.get c) = some c)
    (hpd : position keys (keys.get d) = some d)
    (hl : l ≤ (m.cells c).lamports) : Balanced s moved keys (m.move c d l) := by
  have hne : keys.get c ≠ keys.get d := by
    intro he
    rw [he,hpd,Option.some.injEq] at hpc
    exact hcd hpc.symm
  have hmem : ∀ e : Fin keys.length, keys.get e ∈ keys.toFinset :=
    fun e => List.mem_toFinset.mpr (List.getElem_mem e.2)
  -- The two accounts together fit into 64 bits, so nothing saturates.
  have hbound : (m.cells c).lamports.toNat+(m.cells d).lamports.toNat < 2^64 := by
    have hsum := sum_split_two (hmem c) (hmem d) hne (lamportsAt keys m)
    have hle := s.sum_lamportsOf_le keys.toFinset
    rw [h.sum,lamportsAt_of_position hpc,lamportsAt_of_position hpd] at hsum
    omega
  rw [UInt64.le_iff_toNat_le] at hl
  have hmc : ((m.move c d l).cells c).lamports.toNat = (m.cells c).lamports.toNat-l.toNat := by
    rw [Machine.move,Machine.update_of_ne _ hcd,Machine.update_self,satSub_toNat]
  have hmd : ((m.move c d l).cells d).lamports.toNat = (m.cells d).lamports.toNat+l.toNat := by
    rw [Machine.move,Machine.update_self,Machine.update_of_ne _ hcd.symm,
      satAdd_toNat_of_lt (by omega)]
  constructor
  · intro e he
    have hec : e ≠ c := fun hc' => he (hc' ▸ hc)
    have hed : e ≠ d := fun hd' => he (hd' ▸ hd)
    rw [Machine.move_cells_of_ne m hec hed,h.kept e he]
  · rw [← h.sum]
    refine sum_move (hmem c) (hmem d) hne (n := l.toNat) ?_ ?_ ?_ ?_
    · rw [lamportsAt_of_position hpc]
      exact hl
    · rw [lamportsAt_of_position hpc,lamportsAt_of_position hpc,hmc]
    · rw [lamportsAt_of_position hpd,lamportsAt_of_position hpd,hmd]
    · intro k hkc hkd
      unfold lamportsAt
      cases hp : position keys k with
      | none => rfl
      | some e =>
        have hke := getElem_of_position hp
        have hec : e ≠ c := fun hc' => hkc (by rw [← hke,hc'])
        have hed : e ≠ d := fun hd' => hkd (by rw [← hke,hd'])
        simp only [Option.elim_some,Machine.move_cells_of_ne m hec hed]

theorem executeInstructions_balanced {tx : Transaction} (hsys : tx.SystemOnly)
    (hfit : s.totalLamports < 2^64) {m m' : Machine (Fin tx.message.accountKeys.length)}
    (h : executeInstructions host tx.message.accountKeys computeBudget tx.message.instructions m =
      (.ok (),m')) (hm : Balanced s tx.movedKeys tx.message.accountKeys m) :
    Balanced s tx.movedKeys tx.message.accountKeys m' := by
  refine executeInstructions_invariant ?_ h hm
  intro instruction hix m₁ m₂ hb hx
  rcases executeInstruction_moves (hsys instruction hix) hx with
    hsame | ⟨c,d,l,hcd,hk,hpc,hpd,hl,hmove⟩
  · exact hb.congr hsame
  · have hmoved : ∀ k ∈ instruction.movedKeys, k ∈ tx.movedKeys :=
      fun k hk => List.mem_flatMap.mpr ⟨instruction,hix,hk⟩
    rw [hk] at hmoved
    exact (hb.move hfit hcd (hmoved _ List.mem_cons_self)
      (hmoved _ (List.mem_cons_of_mem _ List.mem_cons_self)) hpc hpd hl).congr hmove

/-- The transaction lists no key twice that it moves lamports from or to. -/
def ListsOnce (tx : Transaction) : Prop := ∀ k ∈ tx.movedKeys, tx.message.accountKeys.count k ≤ 1

/-- A key that is listed once has one cell. -/
theorem eq_of_count_le_one {c d : Fin keys.length} (hk : keys.get c = keys.get d)
    (h : keys.count (keys.get c) ≤ 1) : c = d := by
  by_contra hne
  have hdup : keys.Duplicate (keys.get c) := by
    rw [List.duplicate_iff_exists_distinct_get]
    rcases lt_or_gt_of_ne hne with hlt | hlt
    · exact ⟨c,d,hlt,rfl,hk⟩
    · exact ⟨d,c,hlt,hk,rfl⟩
  have := List.duplicate_iff_two_le_count.mp hdup
  omega

variable {accounts : InMemoryAccountStore} {tx : Transaction} {o : OverlayStore}
  {cache cache' : ProgramCache}

/-- What a System transaction stores: each account under its own name, with the lamports that were
loaded unless some were moved, and together as many as the store holds for its keys. -/
structure OverlayBalanced (accounts : InMemoryAccountStore) (tx : Transaction) (o : OverlayStore) :
    Prop where
  named : ∀ k a, o.dirty.lookup k = some a → a.pubkey = k
  listed : ∀ k, k ∈ o.dirty ↔ k ∈ tx.message.accountKeys
  kept : ∀ k a, o.dirty.lookup k = some a → k ∉ tx.movedKeys →
    a.lamports.toNat = accounts.lamportsOf k
  sum : ∑ k ∈ tx.message.accountKeys.toFinset,
    (o.dirty.lookup k).elim 0 (fun a => a.lamports.toNat) =
    ∑ k ∈ tx.message.accountKeys.toFinset, accounts.lamportsOf k

theorem overlay_balanced (hsys : tx.SystemOnly) (hk : accounts.Keyed)
    (hfit : accounts.totalLamports < 2^64) (honce : ListsOnce tx)
    (h : executeOnOverlay host accounts tx computeBudget cache = (.ok o,cache')) :
    OverlayBalanced accounts tx o := by
  obtain ⟨m',hx,rfl,-⟩ := executeOnOverlay_ok.mp h
  have hkeyed : accounts.KeyedOn tx.message.accountKeys := fun k _ => hk k
  have hn : Named m'.cells :=
    fun c => ((executeInstructions_frame hsys.native hx).2 c).trans (loaded_named hkeyed c)
  have hb := executeInstructions_balanced hsys hfit hx (Balanced.loaded accounts _ _ _ _)
  have hlook : ∀ k a, (writeBack m'.cells).dirty.lookup k = some a →
      ∃ c : Fin tx.message.accountKeys.length, tx.message.accountKeys.get c = k ∧
        m'.cells c = a := by
    intro k a ha
    by_cases hmem : k ∈ tx.message.accountKeys
    · obtain ⟨c,hc,hl⟩ := writeBack_lookup_of_mem hn hmem
      exact ⟨c,hc,Option.some.inj (hl.symm.trans ha)⟩
    · rw [writeBack_lookup_of_notMem hn hmem] at ha
      cases ha
  refine ⟨?_,?_,?_,?_⟩
  · intro k a ha
    obtain ⟨c,rfl,rfl⟩ := hlook k a ha
    exact hn c
  · intro k
    rw [← Finmap.lookup_isSome]
    by_cases hmem : k ∈ tx.message.accountKeys
    · obtain ⟨c,-,hl⟩ := writeBack_lookup_of_mem hn hmem
      simp [hl,hmem]
    · simp [writeBack_lookup_of_notMem hn hmem,hmem]
  · intro k a ha hmoved
    obtain ⟨c,rfl,rfl⟩ := hlook k a ha
    exact hb.kept c hmoved
  · rw [← hb.sum]
    refine Finset.sum_congr rfl fun k hmem => ?_
    rw [List.mem_toFinset] at hmem
    obtain ⟨c,hc,hl⟩ := writeBack_lookup_of_mem hn hmem
    obtain ⟨d,hd⟩ := exists_position hmem
    have hdk := getElem_of_position hd
    rw [hl,lamportsAt_of_position hd,Option.elim_some]
    -- The cell that is stored is the one that was moved, or else neither was.
    by_cases hmoved : k ∈ tx.movedKeys
    · have hcd : c = d := eq_of_count_le_one (hc.trans hdk.symm) (hc ▸ honce k hmoved)
      rw [hcd]
    · rw [hb.kept c (by rwa [hc]),hb.kept d (by rwa [hdk]),hc,hdk]

/-- Flushing the overlay onto a store that holds the same lamports for the listed keys as the one
the transaction ran on. -/
theorem OverlayBalanced.flush (h : OverlayBalanced accounts tx o) {p : InMemoryAccountStore}
    (hp : p.Keyed) (hagree : ∀ k ∈ tx.message.accountKeys, p.lamportsOf k = accounts.lamportsOf k) :
    (o.flush p).Keyed ∧ InMemoryAccountStore.totalLamports (o.flush p) = p.totalLamports ∧
      ∀ k ∉ tx.movedKeys, InMemoryAccountStore.lamportsOf (o.flush p) k = p.lamportsOf k := by
  have hlook : ∀ k, (o.flush p).lookup k = (o.dirty.lookup k).or (p.lookup k) :=
    fun k => FiniteMap.lookup_union _ _ k
  refine ⟨?_,?_,?_⟩
  · intro k a ha
    rw [InMemoryAccountStore.load,hlook] at ha
    cases hd : o.dirty.lookup k with
    | none =>
      rw [hd] at ha
      exact hp k a ha
    | some b =>
      rw [hd] at ha
      cases ha
      exact h.named k _ hd
  · refine InMemoryAccountStore.totalLamports_congr (K := tx.message.accountKeys.toFinset) ?_ ?_
    · intro k hk
      have hn : k ∉ o.dirty := fun hm => hk (List.mem_toFinset.mpr ((h.listed k).mp hm))
      rw [hlook,Finmap.lookup_eq_none.mpr hn,Option.none_or]
    · calc ∑ k ∈ tx.message.accountKeys.toFinset, InMemoryAccountStore.lamportsOf (o.flush p) k
          = ∑ k ∈ tx.message.accountKeys.toFinset,
              (o.dirty.lookup k).elim 0 fun a => a.lamports.toNat := by
            refine Finset.sum_congr rfl fun k hk => ?_
            obtain ⟨a,ha⟩ := Finmap.mem_iff.mp ((h.listed k).mpr (List.mem_toFinset.mp hk))
            rw [InMemoryAccountStore.lamportsOf_eq,hlook,ha]
            rfl
        _ = ∑ k ∈ tx.message.accountKeys.toFinset, accounts.lamportsOf k := h.sum
        _ = ∑ k ∈ tx.message.accountKeys.toFinset, p.lamportsOf k :=
            Finset.sum_congr rfl fun k hk => (hagree k (List.mem_toFinset.mp hk)).symm
  · intro k hk
    rw [InMemoryAccountStore.lamportsOf_eq,hlook]
    cases hd : o.dirty.lookup k with
    | none => exact (p.lamportsOf_eq k).symm
    | some a =>
      have hl := (h.listed k).mp (Finmap.mem_iff.mpr ⟨a,hd⟩)
      exact (h.kept k a hd hk).trans (hagree k hl).symm

end Bank

end TinySolana
