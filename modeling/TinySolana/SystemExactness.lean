import TinySolana.Conservation

/-!
# Exactness of System instructions

Moving lamports saturates on both sides, and the two cells may be one. What a whole account list
holds bounds every sum of two of its balances, so below `u64::MAX` nothing is cut off.
-/

namespace TinySolana
open Foundations

variable {κ : Type} [DecidableEq κ]

/-- The lamports of the accounts of a list together. -/
def lamportsIn (accounts : List (AccountInfo κ)) (m : Machine κ) : ℕ :=
  ∑ c ∈ accountCells accounts, (m.cells c).lamports.toNat

theorem lamportsIn_congr {accounts : List (AccountInfo κ)} {m m' : Machine κ}
    (h : SameLamports m m') :
    lamportsIn accounts m' = lamportsIn accounts m :=
  Finset.sum_congr rfl fun c _ => by rw [h c]

/-- Two different accounts of a list together have at most what the list has. -/
theorem lamports_add_le {accounts : List (AccountInfo κ)} {c d : κ} (hc : c ∈ accountCells accounts)
    (hd : d ∈ accountCells accounts) (hcd : c ≠ d) (m : Machine κ) :
    (m.cells c).lamports.toNat+(m.cells d).lamports.toNat ≤ lamportsIn accounts m := by
  have hsum := sum_split_two hc hd hcd fun e => (m.cells e).lamports.toNat
  unfold lamportsIn
  omega

namespace Machine

/-- The payer has the lamports, and the receiver has room for them once they were taken. -/
structure MoveFits (m : Machine κ) (c d : κ) (lamports : UInt64) : Prop where
  funds : lamports ≤ (m.cells c).lamports
  room : ((m.update c fun a => { a with lamports := satSub a.lamports lamports }).cells
    d).lamports.toNat+lamports.toNat < 2^64

variable {m : Machine κ} {c d : κ} {lamports : UInt64} {accounts : List (AccountInfo κ)}

theorem MoveFits.of_total (hc : c ∈ accountCells accounts) (hd : d ∈ accountCells accounts)
    (hfit : lamportsIn accounts m < 2^64) (hl : lamports ≤ (m.cells c).lamports) :
    m.MoveFits c d lamports := by
  refine ⟨hl,?_⟩
  rw [UInt64.le_iff_toNat_le] at hl
  by_cases hcd : c = d
  · -- What was taken is given back.
    subst hcd
    have hlt := (m.cells c).lamports.toNat_lt
    rw [update_self,satSub_toNat]
    omega
  · have hle := lamports_add_le hc hd hcd m
    rw [update_of_ne _ (Ne.symm hcd)]
    omega

theorem MoveFits.payer (h : m.MoveFits c d lamports) (hcd : c ≠ d) :
    ((m.move c d lamports).cells c).lamports.toNat+lamports.toNat = (m.cells c).lamports.toNat := by
  have hl := UInt64.le_iff_toNat_le.mp h.funds
  rw [move,update_of_ne _ hcd,update_self,satSub_toNat]
  omega

theorem MoveFits.receiver (h : m.MoveFits c d lamports) (hcd : c ≠ d) :
    ((m.move c d lamports).cells d).lamports.toNat = (m.cells d).lamports.toNat+lamports.toNat := by
  have hr := h.room
  rw [update_of_ne _ hcd.symm] at hr
  rw [move,update_self,update_of_ne _ hcd.symm,satAdd_toNat_of_lt hr]

/-- A cell that pays itself stays as it is, and so does the whole machine. -/
theorem move_same_eq (hl : lamports ≤ (m.cells c).lamports) : m.move c c lamports = m := by
  have hcells : satAdd (satSub (m.cells c).lamports lamports) lamports = (m.cells c).lamports :=
    satAdd_satSub_cancel hl
  rw [move,update_update,update,hcells]
  simp only [Function.update_eq_self]

theorem MoveFits.total (h : m.MoveFits c d lamports) (hc : c ∈ accountCells accounts)
    (hd : d ∈ accountCells accounts) :
    lamportsIn accounts (m.move c d lamports) = lamportsIn accounts m := by
  by_cases hcd : c = d
  · subst hcd
    rw [move_same_eq h.funds]
  · have hpayer := h.payer hcd
    have hl := UInt64.le_iff_toNat_le.mp h.funds
    refine sum_move (n := lamports.toNat) hc hd hcd hl (by omega) (h.receiver hcd)
      fun k hkc hkd => ?_
    rw [move_cells_of_ne m hkc hkd]

end Machine

/-! ## The instructions -/

/-- The positions of the account that an instruction assigns or creates. -/
def SystemInstruction.targets : SystemInstruction → List ℕ
  | transfer _ => []
  | assign _ => [0]
  | createAccount _ _ _ => [1]

theorem SystemInstruction.touched_subset (i : SystemInstruction) : i.writes.touched ⊆ [0,1] := by
  cases i <;> simp [writes,Footprint.touched]

theorem SystemInstruction.data_subset (i : SystemInstruction) : i.writes.data ⊆ i.targets := by
  cases i <;> simp [writes,targets]

theorem SystemInstruction.owner_subset (i : SystemInstruction) : i.writes.owner ⊆ i.targets := by
  cases i <;> simp [writes,targets]

/-- What a System instruction does to the accounts of its list, with nothing cut off. -/
structure SystemExact (i : SystemInstruction) (accounts : List (AccountInfo κ)) (m m' : Machine κ) :
    Prop where
  total : lamportsIn accounts m' = lamportsIn accounts m
  fits : ∀ from_ to_ rest, accounts = from_ :: to_ :: rest →
    m.MoveFits from_.account to_.account i.lamports
  moved : ∀ from_ to_ rest, accounts = from_ :: to_ :: rest → from_.account ≠ to_.account →
    (m'.cells from_.account).lamports.toNat+i.lamports.toNat =
    (m.cells from_.account).lamports.toNat ∧
      (m'.cells to_.account).lamports.toNat = (m.cells to_.account).lamports.toNat+i.lamports.toNat
  itself : ∀ lamports from_ to_ rest, i = .transfer lamports → accounts = from_ :: to_ :: rest →
    from_.account = to_.account → m' = m
  touched : ∀ c ∉ Footprint.cellsAt accounts [0,1], m'.cells c = m.cells c
  targets : ∀ c ∉ Footprint.cellsAt accounts i.targets,
    (m'.cells c).data = (m.cells c).data ∧ (m'.cells c).owner = (m.cells c).owner

variable {m m' : Machine κ} {accounts : List (AccountInfo κ)}

/-- On two accounts every instruction leaves the lamports as a move does, `Assign` as a move of
none. -/
theorem SystemProgram.Effect.moves {i : SystemInstruction} {from_ to_ : AccountInfo κ}
    {rest : List (AccountInfo κ)} (h : Effect i (from_ :: to_ :: rest) m m') :
    i.lamports ≤ (m.cells from_.account).lamports ∧
      SameLamports (m.move from_.account to_.account i.lamports) m' := by
  cases h with
  | transfer hs hl => exact ⟨hl,fun _ => rfl⟩
  | assign hs =>
    refine ⟨UInt64.zero_le,fun c => ?_⟩
    rw [Machine.update_cells]
    split <;> exact (Machine.move_zero m _ _ _).symm
  | createAccount hs ht hl hp => exact ⟨hl,fun c => allocate_lamports _ _ c _ _⟩

theorem SystemProgram.Effect.exact {i : SystemInstruction} (hfit : lamportsIn accounts m < 2^64)
    (h : Effect i accounts m m') : SystemExact i accounts m m' := by
  have hfits : ∀ from_ to_ rest, accounts = from_ :: to_ :: rest →
      m.MoveFits from_.account to_.account i.lamports ∧
      SameLamports (m.move from_.account to_.account i.lamports) m' := by
    rintro from_ to_ rest rfl
    obtain ⟨hl,hsame⟩ := h.moves
    exact ⟨.of_total (mem_accountCells List.mem_cons_self)
      (mem_accountCells (List.mem_cons_of_mem _ List.mem_cons_self)) hfit hl,hsame⟩
  have hwithin := h.within
  constructor
  · rcases h.lamports with hsame | ⟨from_,to_,rest,rfl,-,-⟩
    · exact lamportsIn_congr hsame
    · obtain ⟨hm,hsame⟩ := hfits from_ to_ rest rfl
      rw [lamportsIn_congr hsame]
      exact hm.total (mem_accountCells List.mem_cons_self)
        (mem_accountCells (List.mem_cons_of_mem _ List.mem_cons_self))
  · exact fun from_ to_ rest ha => (hfits from_ to_ rest ha).1
  · intro from_ to_ rest ha hne
    obtain ⟨hm,hsame⟩ := hfits from_ to_ rest ha
    rw [hsame,hsame]
    exact ⟨hm.payer hne,hm.receiver hne⟩
  · rintro lamports from_ to_ rest rfl rfl heq
    cases h with
    | transfer hs hl =>
      rw [← heq]
      exact Machine.move_same_eq hl
  · refine fun c hc => hwithin.untouched c fun ht => hc ?_
    rw [← Footprint.cellsAt_touched] at ht
    exact Footprint.cellsAt_mono i.touched_subset ht
  · exact fun c hc => ⟨hwithin.data c fun hd => hc (Footprint.cellsAt_mono i.data_subset hd),
      hwithin.owner c fun ho => hc (Footprint.cellsAt_mono i.owner_subset ho)⟩

/-- Where what the accounts of the list hold together fits into 64 bits, a System instruction is
exact. -/
theorem system_exact {κ : Type} [DecidableEq κ] (ctx : InvokeContext)
    (accounts : List (AccountInfo κ)) (m m' : Machine κ) (hfit : lamportsIn accounts m < 2^64)
    (h : SystemProgram.entrypoint ctx accounts m = (.ok (),m')) :
    ∃ i, SystemInstruction.codec.decodeAll ctx.instructionData = some i ∧
      SystemExact i accounts m m' := by
  obtain ⟨i,hd,he⟩ := SystemProgram.entrypoint_ok.mp h
  exact ⟨i,hd,he.exact hfit⟩

/-! ## A transfer -/

/-- Two wallets, of which the first has ten lamports. -/
def walletPair : Machine Bool := ⟨fun c => if c then wallet 2 0 else wallet 1 10,0,∅⟩

/-- The infos of the wallets; the first one signs. -/
def walletInfo (c : Bool) : AccountInfo Bool := ⟨.ofByte (if c then 2 else 1),!c,true,c,false,0⟩

theorem wallet_transfer_exact :
    let ctx : InvokeContext := ⟨systemProgramId,SystemInstruction.codec.encode (.transfer 3),300⟩
    let run := SystemProgram.entrypoint ctx [walletInfo false,walletInfo true] walletPair
    run.1 = .ok () ∧ (run.2.cells true).lamports = 3 ∧
      ∃ i, SystemInstruction.codec.decodeAll ctx.instructionData = some i ∧
        SystemExact i [walletInfo false,walletInfo true] walletPair run.2 := by
  intro ctx run
  have hok : run.1 = .ok () := by decide
  exact ⟨hok,by decide,system_exact ctx _ _ _ (by decide) (Exec.run_of_result hok)⟩

end TinySolana
