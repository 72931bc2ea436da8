import TinySolana.Footprint
import TinySolana.Foundations.Ledger
import TinySolana.Foundations.Runs
import Mathlib.Data.Fin.VecNotation

/-!
# Token supply

The data of the accounts are a ledger: initialized mints are issuers and initialized token accounts
are holders. A token instruction is a step of the ledger unless it moves units to or from an account
that is not initialized, to itself, or past the bound of a field.
-/

namespace TinySolana
open Foundations Function

/-! ## The ledger behind the data -/

/-- The entry that the data of an account stand for. -/
def entryOf (data : List UInt8) : Entry Pubkey :=
  match Mint.unpackFromSlice data with
  | some mint => if mint.isInitialized then .issuer mint.supply.toNat else .blank
  | none =>
    match TokenAccount.unpackFromSlice data with
    | some account =>
      if account.isInitialized then .holder account.mint account.amount.toNat else .blank
    | none => .blank

/-- The entry of a mint. -/
def Mint.entry (mint : Mint) : Entry Pubkey :=
  if mint.isInitialized then .issuer mint.supply.toNat else .blank

/-- The entry of a token account. -/
def TokenAccount.entry (account : TokenAccount) : Entry Pubkey :=
  if account.isInitialized then .holder account.mint account.amount.toNat else .blank

/-- The amount only counts in an initialized account. -/
theorem TokenAccount.entry_amount {account : TokenAccount} {amount : UInt64}
    (h : account.isInitialized = true → amount = account.amount) :
    { account with amount }.entry = account.entry := by
  unfold entry
  split
  · next hi => rw [h hi]
  · rfl

theorem entryOf_mint {data : List UInt8} {mint : Mint} (h : Mint.unpackFromSlice data = some mint) :
    entryOf data = mint.entry := by
  simp only [entryOf,h,Mint.entry]

theorem entryOf_tokenAccount {data : List UInt8} {account : TokenAccount}
    (h : TokenAccount.unpackFromSlice data = some account) : entryOf data = account.entry := by
  have hm : Mint.unpackFromSlice data = none := by
    cases hm : Mint.unpackFromSlice data with
    | none => rfl
    | some mint =>
      rw [Mint.not_tokenAccount hm] at h
      cases h
  simp only [entryOf,hm,h,TokenAccount.entry]

/-- The units of a mint that an account holds, if it is an initialized token account. -/
def balanceOf (mint : Pubkey) (data : List UInt8) : ℕ :=
  match TokenAccount.unpackFromSlice data with
  | some account => if account.isInitialized ∧ account.mint = mint then account.amount.toNat else 0
  | none => 0

theorem entryOf_counted (data : List UInt8) (k : Pubkey) :
    (entryOf data).counted k = balanceOf k data := by
  unfold balanceOf
  cases ht : TokenAccount.unpackFromSlice data with
  | some account =>
    rw [entryOf_tokenAccount ht,TokenAccount.entry]
    cases hi : account.isInitialized <;> simp [hi,Entry.counted_holder]
  | none =>
    cases hm : Mint.unpackFromSlice data with
    | none => simp [entryOf,hm,ht]
    | some mint =>
      rw [entryOf_mint hm,Mint.entry]
      split <;> rfl

variable {κ : Type}

def tokenLedger (m : Machine κ) : κ → Entry Pubkey := fun c => entryOf (m.cells c).data

/-- The supply of every initialized mint is the sum of the amounts of its initialized accounts. -/
def SupplyBacked [Fintype κ] (key : κ → Pubkey) (m : Machine κ) : Prop :=
  ∀ c mint, Mint.unpackFromSlice (m.cells c).data = some mint → mint.isInitialized = true →
    mint.supply.toNat = ∑ d, balanceOf (key c) (m.cells d).data

theorem supplyBacked_of_sound [Fintype κ] {key : κ → Pubkey} {m : Machine κ}
    (h : Ledger.Sound key (tokenLedger m)) : SupplyBacked key m := by
  intro c mint hm hi
  have hc : tokenLedger m c = .issuer mint.supply.toNat := by
    rw [tokenLedger,entryOf_mint hm,Mint.entry,if_pos hi]
  rw [h.backed c _ hc]
  exact Finset.sum_congr rfl fun d _ => entryOf_counted _ _

/-- No account holds an initialized mint or an initialized token account. -/
def NothingInitialized (m : Machine κ) : Prop :=
  ∀ c, (∀ mint, Mint.unpackFromSlice (m.cells c).data = some mint → mint.isInitialized = false) ∧
    ∀ account, TokenAccount.unpackFromSlice (m.cells c).data = some account →
      account.isInitialized = false

theorem NothingInitialized.blank {m : Machine κ} (h : NothingInitialized m) (c : κ) :
    tokenLedger m c = .blank := by
  unfold tokenLedger
  cases hm : Mint.unpackFromSlice (m.cells c).data with
  | some mint => simp [entryOf_mint hm,Mint.entry,(h c).1 mint hm]
  | none =>
    cases ht : TokenAccount.unpackFromSlice (m.cells c).data with
    | some account => simp [entryOf_tokenAccount ht,TokenAccount.entry,(h c).2 account ht]
    | none => simp [entryOf,hm,ht]

/-- Supplies are fields of 64 bits. -/
theorem tokenLedger_issuer_lt {m : Machine κ} {c : κ} {s : ℕ} (h : tokenLedger m c = .issuer s) :
    s < 2^64 := by
  unfold tokenLedger entryOf at h
  split at h
  · next mint _ =>
    split at h <;> cases h
    exact mint.supply.toNat_lt
  · split at h
    · split at h <;> cases h
    · cases h

variable [DecidableEq κ]

theorem tokenLedger_setData (m : Machine κ) (c : κ) (data : List UInt8) :
    tokenLedger (m.setData c data) = update (tokenLedger m) c (entryOf data) := by
  funext d
  unfold tokenLedger
  by_cases h : d = c
  · subst h
    rw [update_self,Machine.setData_self]
  · rw [update_of_ne h,Machine.setData_of_ne m h]

/-! ## Steps -/

/-- The two sides of an instruction change alike: units are only issued to initialized accounts and
as far as the supply goes, and only move between accounts of which both or neither are initialized.
Fields at their bound and amounts of zero make no difference. -/
def TokenInstruction.Even (i : TokenInstruction) (accounts : List (AccountInfo κ)) (m : Machine κ) :
    Prop :=
  match i,accounts with
  | .mint amount,_ :: mintInfo :: destination :: _ => ∀ mint account,
    Mint.unpackFromSlice (m.cells mintInfo.account).data = some mint →
    TokenAccount.unpackFromSlice (m.cells destination.account).data = some account →
    mint.isInitialized = true →
      if account.isInitialized then
        mint.supply.toNat+amount.toNat < 2^64 ∨ account.amount = mint.supply
      else amount = 0 ∨ mint.supply = maxU64
  | .transfer amount,_ :: source :: destination :: _ => ∀ from_ to_,
    TokenAccount.unpackFromSlice (m.cells source.account).data = some from_ →
    TokenAccount.unpackFromSlice (m.cells destination.account).data = some to_ →
      if source.account = destination.account then
        to_.isInitialized = true → amount = 0 ∨ to_.amount = maxU64
      else from_.isInitialized = to_.isInitialized ∨ amount = 0 ∨
        to_.isInitialized = true ∧ to_.amount = maxU64
  | _,_ => True

namespace TokenProgram

variable [Fintype κ] {key : κ → Pubkey} {m m' : Machine κ}

/-- What a token instruction does to the ledger. -/
abbrev LedgerStep (key : κ → Pubkey) (m m' : Machine κ) : Prop :=
  tokenLedger m' = tokenLedger m ∨ Ledger.Step key (tokenLedger m) (tokenLedger m')

theorem mint_ledger {amount : UInt64} {mint : Mint} {account : TokenAccount} {c d : κ}
    (hs : Ledger.Sound key (tokenLedger m))
    (hm : Mint.unpackFromSlice (m.cells c).data = some mint)
    (hd : TokenAccount.unpackFromSlice (m.cells d).data = some account) (hk : account.mint = key c)
    (hn : key.Injective)
    (heven : mint.isInitialized = true →
      if account.isInitialized then
        mint.supply.toNat+amount.toNat < 2^64 ∨ account.amount = mint.supply
      else amount = 0 ∨ mint.supply = maxU64) :
    LedgerStep key m ((m.setData c
      (Mint.codec.encode { mint with supply := satAdd mint.supply amount })).setData d
        (TokenAccount.codec.encode { account with amount := satAdd account.amount amount })) := by
  have hc : tokenLedger m c = mint.entry := entryOf_mint hm
  have hd : tokenLedger m d = account.entry := entryOf_tokenAccount hd
  rw [LedgerStep,tokenLedger_setData,tokenLedger_setData,entryOf_mint (Mint.unpack_encode _),
    entryOf_tokenAccount (TokenAccount.unpack_encode _)]
  unfold Mint.entry at hc ⊢
  unfold TokenAccount.entry at hd ⊢
  cases hi : mint.isInitialized with
  | false =>
    -- No initialized account names a mint that is not initialized.
    have hj : account.isInitialized = false := by
      by_contra hj
      rw [Bool.not_eq_false] at hj
      rw [if_pos hj] at hd
      obtain ⟨e,s,he,hes⟩ := hs.anchored d _ _ hd
      rw [hn (he.trans hk),hc] at hes
      simp [hi] at hes
    left
    simp only [hi,hj,Bool.false_eq_true,if_false] at hc hd ⊢
    rw [← hc,update_eq_self,hc,← hd,update_eq_self]
  | true =>
    simp only [hi,if_true,true_imp_iff] at hc heven ⊢
    cases hj : account.isInitialized with
    | false =>
      left
      simp only [hj,Bool.false_eq_true,if_false] at hd heven ⊢
      have hsup : satAdd mint.supply amount = mint.supply := by
        rcases heven with rfl | hmax
        · exact satAdd_zero _
        · rw [hmax,satAdd_maxU64]
      rw [hsup,← hc,update_eq_self,← hd,update_eq_self]
    | true =>
      right
      simp only [hj,if_true] at hd heven ⊢
      rw [hk] at hd ⊢
      have hle := hs.amount_le hc hd
      have hsup := mint.supply.toNat_lt
      -- Both fields grow by what the supply has room for.
      have hs' : (satAdd mint.supply amount).toNat =
          mint.supply.toNat+min amount.toNat (2^64-1-mint.supply.toNat) := by
        rw [satAdd_toNat]
        omega
      have ha' : (satAdd account.amount amount).toNat =
          account.amount.toNat+min amount.toNat (2^64-1-mint.supply.toNat) := by
        rw [satAdd_toNat]
        rcases heven with hlt | heq
        · omega
        · rw [heq]
          omega
      rw [hs',ha']
      exact .issue _ hc hd

theorem transfer_ledger {amount : UInt64} {from_ to_ : TokenAccount} {c d : κ}
    (hs : Ledger.Sound key (tokenLedger m))
    (hc : TokenAccount.unpackFromSlice (m.cells c).data = some from_)
    (hd : TokenAccount.unpackFromSlice (m.cells d).data = some to_) (hk : from_.mint = to_.mint)
    (hle : amount ≤ from_.amount)
    (heven : if c = d then to_.isInitialized = true → amount = 0 ∨ to_.amount = maxU64
      else from_.isInitialized = to_.isInitialized ∨ amount = 0 ∨
        to_.isInitialized = true ∧ to_.amount = maxU64) :
    LedgerStep key m ((m.setData c
      (TokenAccount.codec.encode { from_ with amount := satSub from_.amount amount })).setData d
        (TokenAccount.codec.encode { to_ with amount := satAdd to_.amount amount })) := by
  have hc : tokenLedger m c = from_.entry := entryOf_tokenAccount hc
  have hd : tokenLedger m d = to_.entry := entryOf_tokenAccount hd
  rw [LedgerStep,tokenLedger_setData,tokenLedger_setData,
    entryOf_tokenAccount (TokenAccount.unpack_encode _),
    entryOf_tokenAccount (TokenAccount.unpack_encode _)]
  -- Fields that do not change leave the ledger as it is.
  have hsame : (from_.isInitialized = true → satSub from_.amount amount = from_.amount) →
      (to_.isInitialized = true → satAdd to_.amount amount = to_.amount) →
      update (update (tokenLedger m) c { from_ with amount := satSub from_.amount amount }.entry) d
        { to_ with amount := satAdd to_.amount amount }.entry = tokenLedger m := by
    intro hf ht
    rw [TokenAccount.entry_amount hf,← hc,update_eq_self,TokenAccount.entry_amount ht,← hd,
      update_eq_self]
  by_cases hcd : c = d
  · left
    subst hcd
    rw [if_pos rfl] at heven
    have hsame : to_.isInitialized = true → satAdd to_.amount amount = to_.amount := by
      intro hi
      rcases heven hi with rfl | hmax
      · exact satAdd_zero _
      · rw [hmax,satAdd_maxU64]
    rw [update_idem,TokenAccount.entry_amount hsame,← hd,update_eq_self]
  · rw [if_neg hcd] at heven
    by_cases hi : from_.isInitialized = to_.isInitialized
    · by_cases hj : to_.isInitialized = true
      · right
        rw [hj] at hi
        simp only [TokenAccount.entry,hi,hj,if_true] at hc hd ⊢
        rw [hk] at hc ⊢
        have hlt := hs.add_amounts_lt (fun _ _ => tokenLedger_issuer_lt) hcd hc hd
        rw [UInt64.le_iff_toNat_le] at hle
        rw [satSub_toNat,satAdd_toNat_of_lt (by omega)]
        exact .transfer _ hcd hc hd hle
      · exact .inl (hsame (fun hf => absurd (hi ▸ hf) hj) fun ht => absurd ht hj)
    · refine .inl ?_
      rcases heven.resolve_left hi with rfl | ⟨hj,hmax⟩
      · exact hsame (fun _ => satSub_zero _) fun _ => satAdd_zero _
      · refine hsame (fun hf => absurd (hf.trans hj.symm) hi) fun _ => ?_
        rw [hmax,satAdd_maxU64]

variable {host : Host} {ctx : InvokeContext} {i : TokenInstruction}
  {accounts : List (AccountInfo κ)}

/-- A token instruction that changes both sides alike is a step of the ledger. -/
theorem Effect.ledger {d : ℕ} (hn : key.Injective)
    (hkey : ∀ info ∈ accounts, info.pubkey = key info.account)
    (hdec : TokenInstruction.codec.decodeAll ctx.instructionData = some i)
    (h : Effect host.sysvars (ChainedProgramExecutor.executeAt host (d+1)) ctx i accounts m m')
    (hs : Ledger.Sound key (tokenLedger m)) (heven : i.Even accounts m) : LedgerStep key m m' := by
  cases h with
  | @mint amount authority mintInfo destination rest _ mint account hsig hm ha hd hk =>
    exact mint_ledger hs hm hd (hk.trans (hkey mintInfo (by simp))) hn (heven mint account hm hd)
  | transfer hsig hf ho ht hm ha => exact transfer_ledger hs hf ht hm ha (heven _ _ hf ht)
  | setAuthority hsig hi =>
    rw [invoke_assign_fails hdec] at hi
    cases hi
  | @initializeMint decimals mintAuthority mintInfo rentInfo rest _ rent mint hr hm hi he =>
    right
    have hc : tokenLedger m mintInfo.account = .blank := by
      rw [tokenLedger,entryOf_mint hm,Mint.entry,hi]
      rfl
    rw [tokenLedger_setData,entryOf_mint (Mint.unpack_encode _)]
    exact .create hc
  | @initializeAccount accountInfo mintInfo ownerInfo rentInfo rest _ rent account
      mint hr ha hi he hm hmi =>
    right
    have hc : tokenLedger m accountInfo.account = .blank := by
      rw [tokenLedger,entryOf_tokenAccount ha,TokenAccount.entry,hi]
      rfl
    have hd : tokenLedger m mintInfo.account = .issuer mint.supply.toNat := by
      rw [tokenLedger,entryOf_mint hm,Mint.entry,if_pos hmi]
    rw [tokenLedger_setData,entryOf_tokenAccount (TokenAccount.unpack_encode _)]
    have hk : mintInfo.pubkey = key mintInfo.account := hkey mintInfo (by simp)
    simp only [TokenAccount.entry,if_true,hk]
    exact .openHolder hc hd

end TokenProgram

/-! ## Runs -/

/-- A token instruction, its budget and the infos it is given. -/
structure TokenCall (κ : Type) where
  instruction : Instruction
  computeBudget : UInt64
  accounts : List (AccountInfo κ)

namespace TokenCall

/-- Execute the instruction at top level. -/
def execute (host : Host) (call : TokenCall κ) : Prog κ Unit :=
  ChainedProgramExecutor.execute host call.instruction
    ⟨call.instruction.programId,call.instruction.data,call.computeBudget⟩ call.accounts

/-- A successful call. Infos name the key of their cell. -/
def Step (host : Host) (key : κ → Pubkey) (m : Machine κ) (call : TokenCall κ)
    (m' : Machine κ) : Prop :=
  call.instruction.programId = tokenProgramId ∧
  (∀ info ∈ call.accounts, info.pubkey = key info.account) ∧ call.execute host m = (.ok (),m')

/-- The instruction changes both sides alike. -/
def Even (m : Machine κ) (call : TokenCall κ) : Prop :=
  ∀ i, TokenInstruction.codec.decodeAll call.instruction.data = some i → i.Even call.accounts m

variable [Fintype κ] {host : Host} {key : κ → Pubkey} {m m' : Machine κ} {call : TokenCall κ}

theorem step_sound (hn : key.Injective) (hs : Ledger.Sound key (tokenLedger m))
    (heven : call.Even m) (h : Step host key m call m') : Ledger.Sound key (tokenLedger m') := by
  obtain ⟨hp,hkey,hx⟩ := h
  rw [execute,ChainedProgramExecutor.execute_token host hp] at hx
  obtain ⟨i,hdec,he⟩ := TokenProgram.entrypoint_effect hx
  rcases TokenProgram.Effect.ledger (d := 0) hn hkey hdec he hs (heven i hdec) with hsame | hstep
  · rwa [hsame]
  · exact hstep.sound hn hs

end TokenCall

/-- In every run of calls that change both sides alike the supply of each mint is backed. -/
theorem supply_backed [Fintype κ] {host : Host} {key : κ → Pubkey} {m m' : Machine κ}
    {calls : List (TokenCall κ)} (hn : key.Injective) (hinit : NothingInitialized m)
    (hr : Run.Always (TokenCall.Step host key) TokenCall.Even m calls m') : SupplyBacked key m' :=
  supplyBacked_of_sound (hr.invariant (P := fun m => Ledger.Sound key (tokenLedger m))
    (fun _ _ _ hs hc hstep => TokenCall.step_sound hn hs hc hstep)
    (Ledger.sound_blank hinit.blank))

/-! ## A mint and an account of it -/

def tokenKeys : Fin 3 → Pubkey := ![.ofByte 1,.ofByte 2,.ofByte 3]

/-- A mint, an account that names it and an authority; the first two are not initialized. -/
def tokenMachine : Machine (Fin 3) where
  cells := ![
    { wallet 1 0 with data := Mint.codec.encode ⟨default,0,0,false⟩, owner := tokenProgramId },
    { wallet 2 0 with
      data := TokenAccount.codec.encode ⟨.ofByte 1,.ofByte 3,0,false⟩, owner := tokenProgramId },
    wallet 3 0]
  computeMeter := 0
  programCache := ∅

def tokenInfo (isSigner : Bool) (c : Fin 3) : AccountInfo (Fin 3) :=
  ⟨tokenKeys c,isSigner,true,c,false,0⟩

def initializeMintCall : TokenCall (Fin 3) :=
  ⟨⟨tokenProgramId,[],TokenInstruction.codec.encode (.initializeMint 0 (.ofByte 3))⟩,300,
    [tokenInfo false 0,tokenInfo false 2]⟩

/-- Mint into the account, whether or not it is initialized. -/
def mintCall (amount : UInt64) : TokenCall (Fin 3) :=
  ⟨⟨tokenProgramId,[],TokenInstruction.codec.encode (.mint amount)⟩,300,
    [tokenInfo true 2,tokenInfo false 0,tokenInfo false 1]⟩

theorem tokenMachine_nothingInitialized : NothingInitialized tokenMachine := by
  have h : ∀ c, (∀ mint ∈ Mint.unpackFromSlice (tokenMachine.cells c).data,
      mint.isInitialized = false) ∧
        ∀ account ∈ TokenAccount.unpackFromSlice (tokenMachine.cells c).data,
        account.isInitialized = false := by decide
  exact fun c => ⟨(h c).1,(h c).2⟩

theorem initializeMintCall_step : TokenCall.Step default tokenKeys tokenMachine initializeMintCall
    (initializeMintCall.execute default tokenMachine).2 :=
  ⟨rfl,by decide,Exec.run_of_result (by decide +kernel)⟩

/-- Units minted into an account that is not initialized are in the supply but in no initialized
account. -/
theorem mint_into_uninitialized_unbacked : tokenKeys.Injective ∧ NothingInitialized tokenMachine ∧
    ∃ m, Run (TokenCall.Step default tokenKeys) tokenMachine [initializeMintCall,mintCall 5] m ∧
      ¬SupplyBacked tokenKeys m := by
  let m := (initializeMintCall.execute default tokenMachine).2
  refine ⟨by decide,tokenMachine_nothingInitialized,((mintCall 5).execute default m).2,
    .snoc (.snoc .nil initializeMintCall_step) ⟨rfl,by decide,
      Exec.run_of_result (by decide +kernel)⟩,?_⟩
  intro h
  exact absurd (h 0 ⟨.ofByte 3,5,0,true⟩ (by decide +kernel) rfl) (by decide +kernel)

/-! ## Units that are minted and transferred -/

/-- The keys of a mint, two accounts of it and a wallet. -/
def mintedKeys : Fin 4 → Pubkey := ![.ofByte 1,.ofByte 2,.ofByte 3,.ofByte 4]

/-- A mint, two accounts and a wallet, before anything is initialized. -/
def mintedMachine : Machine (Fin 4) where
  cells := ![
    { wallet 1 0 with data := Mint.codec.encode ⟨default,0,0,false⟩, owner := tokenProgramId },
    { wallet 2 0 with
      data := TokenAccount.codec.encode ⟨default,default,0,false⟩, owner := tokenProgramId },
    { wallet 3 0 with
      data := TokenAccount.codec.encode ⟨default,default,0,false⟩, owner := tokenProgramId },
    wallet 4 0]
  computeMeter := 0
  programCache := ∅

/-- The instruction on the cells, all of them signers. -/
def tokenCall (i : TokenInstruction) (cells : List (Fin 4)) : TokenCall (Fin 4) :=
  ⟨⟨tokenProgramId,[],TokenInstruction.codec.encode i⟩,300,
    cells.map fun c => ⟨mintedKeys c,true,true,c,false,0⟩⟩

/-- What the instruction leaves. -/
def callOnCells (i : TokenInstruction) (cells : List (Fin 4)) (m : Machine (Fin 4)) :
    Machine (Fin 4) :=
  ((tokenCall i cells).execute default m).2

theorem tokenCall_step {i : TokenInstruction} {cells : List (Fin 4)} {m : Machine (Fin 4)}
    (hd : TokenInstruction.codec.decodeAll (TokenInstruction.codec.encode i) = some i)
    (he : i.Even (tokenCall i cells).accounts m)
    (hx : ((tokenCall i cells).execute default m).1 = .ok ()) :
    (tokenCall i cells).Even m ∧
      TokenCall.Step default mintedKeys m (tokenCall i cells) (callOnCells i cells m) := by
  refine ⟨fun i' hi => ?_,rfl,?_,Exec.run_of_result hx⟩
  · obtain rfl := Option.some.inj (hd.symm.trans hi)
    exact he
  · intro info hm
    obtain ⟨c,-,rfl⟩ := List.mem_map.mp hm
    rfl

/-- Units are issued evenly to an initialized account while the supply has room. -/
theorem mint_even {amount : UInt64} {m : Machine (Fin 4)} {mint : Mint} {account : TokenAccount}
    (hm : Mint.unpackFromSlice (m.cells 0).data = some mint)
    (ha : TokenAccount.unpackFromSlice (m.cells 1).data = some account)
    (hi : account.isInitialized = true) (hl : mint.supply.toNat+amount.toNat < 2^64) :
    TokenInstruction.Even (.mint amount) (tokenCall (.mint amount) [3,0,1]).accounts m := by
  intro mint' account' hm' ha' _
  obtain rfl := Option.some.inj (hm.symm.trans hm')
  obtain rfl := Option.some.inj (ha.symm.trans ha')
  rw [if_pos hi]
  exact .inl hl

theorem transfer_even {amount : UInt64} {m : Machine (Fin 4)} {from_ to_ : TokenAccount}
    (hf : TokenAccount.unpackFromSlice (m.cells 1).data = some from_)
    (ht : TokenAccount.unpackFromSlice (m.cells 2).data = some to_)
    (hi : from_.isInitialized = to_.isInitialized) :
    TokenInstruction.Even (.transfer amount) (tokenCall (.transfer amount) [3,1,2]).accounts m := by
  intro from' to' hf' ht'
  obtain rfl := Option.some.inj (hf.symm.trans hf')
  obtain rfl := Option.some.inj (ht.symm.trans ht')
  exact .inl hi

/-- Five units are minted into the first account and two of them go on to the second. -/
theorem transferred_units_backed :
    let m₁ := callOnCells (.initializeMint 0 (.ofByte 4)) [0,3] mintedMachine
    let m₂ := callOnCells .initializeAccount [1,0,3,3] m₁
    let m₃ := callOnCells .initializeAccount [2,0,3,3] m₂
    let m₄ := callOnCells (.mint 5) [3,0,1] m₃
    let m₅ := callOnCells (.transfer 2) [3,1,2] m₄
    Mint.unpackFromSlice (m₅.cells 0).data = some ⟨.ofByte 4,5,0,true⟩ ∧
      TokenAccount.unpackFromSlice (m₅.cells 1).data = some ⟨.ofByte 1,.ofByte 4,3,true⟩ ∧
      TokenAccount.unpackFromSlice (m₅.cells 2).data = some ⟨.ofByte 1,.ofByte 4,2,true⟩ ∧
      SupplyBacked mintedKeys m₅ := by
  intro m₁ m₂ m₃ m₄ m₅
  have hinit : NothingInitialized mintedMachine := by
    have h : ∀ c, (∀ mint ∈ Mint.unpackFromSlice (mintedMachine.cells c).data,
        mint.isInitialized = false) ∧
          ∀ account ∈ TokenAccount.unpackFromSlice (mintedMachine.cells c).data,
            account.isInitialized = false := by decide
    exact fun c => ⟨(h c).1,(h c).2⟩
  have heven : ∀ accounts (m : Machine (Fin 4)),
    TokenInstruction.Even .initializeAccount accounts m :=
    fun _ _ => trivial
  have hmint : Mint.unpackFromSlice (m₃.cells 0).data = some ⟨.ofByte 4,0,0,true⟩ := by
    decide +kernel
  have haccount : TokenAccount.unpackFromSlice (m₃.cells 1).data =
    some ⟨.ofByte 1,.ofByte 4,0,true⟩ := by decide +kernel
  have hfrom : TokenAccount.unpackFromSlice (m₄.cells 1).data =
    some ⟨.ofByte 1,.ofByte 4,5,true⟩ := by decide +kernel
  have hto : TokenAccount.unpackFromSlice (m₄.cells 2).data =
    some ⟨.ofByte 1,.ofByte 4,0,true⟩ := by decide +kernel
  have h₁ := @tokenCall_step (.initializeMint 0 (.ofByte 4)) [0,3] mintedMachine (by decide)
    trivial (by decide +kernel)
  have hx₂ : ((tokenCall .initializeAccount [1,0,3,3]).execute default m₁).1 = .ok () := by
    decide +kernel
  have hx₃ : ((tokenCall .initializeAccount [2,0,3,3]).execute default m₂).1 = .ok () := by
    decide +kernel
  have hx₄ : ((tokenCall (.mint 5) [3,0,1]).execute default m₃).1 = .ok () := by decide +kernel
  have hx₅ : ((tokenCall (.transfer 2) [3,1,2]).execute default m₄).1 = .ok () := by decide +kernel
  have h₂ := tokenCall_step (by decide) (heven _ m₁) hx₂
  have h₃ := tokenCall_step (by decide) (heven _ m₂) hx₃
  have h₄ := tokenCall_step (by decide) (mint_even hmint haccount rfl (by decide)) hx₄
  have h₅ := tokenCall_step (by decide) (transfer_even hfrom hto rfl) hx₅
  exact ⟨by decide +kernel,by decide +kernel,by decide +kernel,
    supply_backed (by decide) hinit (((((Run.single h₁).snoc h₂).snoc h₃).snoc h₄).snoc h₅)⟩

end TinySolana
