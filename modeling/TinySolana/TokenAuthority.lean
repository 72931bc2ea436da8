import TinySolana.TokenSupply

/-!
# Token authority

An initialized record keeps everything but its amount or its supply. An amount falls only in a
transfer that the owner has signed, a supply grows only in a mint that the authority has signed, and
data that are no record stay as they are.
-/

namespace TinySolana
open Foundations

/-! ## What may follow a record -/

/-- `t'` is a later version of token account `t`: only the amount differs, and it is less only if
the account was spent from. -/
structure TokenAccount.Follows (spent : Prop) (t t' : TokenAccount) : Prop where
  mint : t'.mint = t.mint
  owner : t'.owner = t.owner
  isInitialized : t'.isInitialized = t.isInitialized
  amount : t'.amount < t.amount → spent

/-- `k'` is a later version of mint `k`: only the supply differs, it never falls, and it grows only
if units were issued. -/
structure Mint.Follows (issued : Prop) (k k' : Mint) : Prop where
  mintAuthority : k'.mintAuthority = k.mintAuthority
  decimals : k'.decimals = k.decimals
  isInitialized : k'.isInitialized = k.isInitialized
  supply_le : k.supply ≤ k'.supply
  supply : k'.supply ≠ k.supply → issued

namespace TokenAccount.Follows

variable {spent : Prop} {t t' t'' : TokenAccount}

theorem refl (spent : Prop) (t : TokenAccount) : t.Follows spent t :=
  ⟨rfl,rfl,rfl,fun h => absurd h (UInt64.lt_irrefl _)⟩

theorem trans (h : t.Follows spent t') (h' : t'.Follows spent t'') : t.Follows spent t'' where
  mint := h'.mint.trans h.mint
  owner := h'.owner.trans h.owner
  isInitialized := h'.isInitialized.trans h.isInitialized
  amount hlt := by
    by_cases hmid : t'.amount < t.amount
    · exact h.amount hmid
    · apply h'.amount
      rw [UInt64.lt_iff_toNat_lt] at hlt hmid ⊢
      omega

theorem mono {spent' : Prop} (h : t.Follows spent t') (hs : spent → spent') : t.Follows spent' t' :=
  { h with amount := fun hlt => hs (h.amount hlt) }

/-- Adding to the amount spends nothing. -/
theorem satAdd (spent : Prop) (t : TokenAccount) (amount : UInt64) :
    t.Follows spent { t with amount := satAdd t.amount amount } :=
  ⟨rfl,rfl,rfl,fun h => absurd h (UInt64.not_lt.mpr (le_satAdd _ _))⟩

end TokenAccount.Follows

namespace Mint.Follows

variable {issued : Prop} {k k' k'' : Mint}

theorem refl (issued : Prop) (k : Mint) : k.Follows issued k :=
  ⟨rfl,rfl,rfl,UInt64.le_refl _,fun h => absurd rfl h⟩

theorem trans (h : k.Follows issued k') (h' : k'.Follows issued k'') : k.Follows issued k'' where
  mintAuthority := h'.mintAuthority.trans h.mintAuthority
  decimals := h'.decimals.trans h.decimals
  isInitialized := h'.isInitialized.trans h.isInitialized
  supply_le := UInt64.le_trans h.supply_le h'.supply_le
  supply hne := by
    by_cases hmid : k'.supply = k.supply
    · exact h'.supply (hmid ▸ hne)
    · exact h.supply hmid

theorem mono {issued' : Prop} (h : k.Follows issued k') (hs : issued → issued') :
    k.Follows issued' k' :=
  { h with supply := fun hne => hs (h.supply hne) }

end Mint.Follows

/-! ## What may follow a machine -/

/-- Every initialized record of `m` has a later version in `m'`, and data that are no record are the
same. `spends` and `issues` are the keys on whose behalf units were spent and issued. -/
structure RecordsFollow {κ : Type} (spends issues : Pubkey → Prop) (m m' : Machine κ) : Prop where
  tokenAccount : ∀ c t, TokenAccount.unpackFromSlice (m.cells c).data = some t →
    t.isInitialized = true → ∃ t', TokenAccount.unpackFromSlice (m'.cells c).data = some t' ∧
      t.Follows (spends t.owner) t'
  mint : ∀ c k, Mint.unpackFromSlice (m.cells c).data = some k →
    k.isInitialized = true → ∃ k', Mint.unpackFromSlice (m'.cells c).data = some k' ∧
      k.Follows (issues k.mintAuthority) k'
  other : ∀ c, Mint.unpackFromSlice (m.cells c).data = none →
    TokenAccount.unpackFromSlice (m.cells c).data = none → (m'.cells c).data = (m.cells c).data

namespace RecordsFollow

variable {κ : Type} {spends issues : Pubkey → Prop} {m m' m'' : Machine κ}

theorem refl (spends issues : Pubkey → Prop) (m : Machine κ) : RecordsFollow spends issues m m where
  tokenAccount _ t h _ := ⟨t,h,.refl _ t⟩
  mint _ k h _ := ⟨k,h,.refl _ k⟩
  other _ _ _ := rfl

theorem trans (h : RecordsFollow spends issues m m') (h' : RecordsFollow spends issues m' m'') :
    RecordsFollow spends issues m m'' where
  tokenAccount c t ht hi := by
    obtain ⟨t',ht',hf⟩ := h.tokenAccount c t ht hi
    obtain ⟨t'',ht'',hf'⟩ := h'.tokenAccount c t' ht' (hf.isInitialized.trans hi)
    rw [hf.owner] at hf'
    exact ⟨t'',ht'',hf.trans hf'⟩
  mint c k hk hi := by
    obtain ⟨k',hk',hf⟩ := h.mint c k hk hi
    obtain ⟨k'',hk'',hf'⟩ := h'.mint c k' hk' (hf.isInitialized.trans hi)
    rw [hf.mintAuthority] at hf'
    exact ⟨k'',hk'',hf.trans hf'⟩
  other c hm ht := by
    have hd := h.other c hm ht
    rw [h'.other c (by rwa [hd]) (by rwa [hd]),hd]

theorem mono {spends' issues' : Pubkey → Prop} (h : RecordsFollow spends issues m m')
    (hs : ∀ key, spends key → spends' key) (hi : ∀ key, issues key → issues' key) :
    RecordsFollow spends' issues' m m' where
  tokenAccount c t ht htrue := by
    obtain ⟨t',ht',hf⟩ := h.tokenAccount c t ht htrue
    exact ⟨t',ht',hf.mono (hs _)⟩
  mint c k hk htrue := by
    obtain ⟨k',hk',hf⟩ := h.mint c k hk htrue
    exact ⟨k',hk',hf.mono (hi _)⟩
  other := h.other

variable [DecidableEq κ]

/-- Data are replaced, and with them a record by a later version of it. -/
theorem setData {c : κ} {data : List UInt8}
    (ht : ∀ t, TokenAccount.unpackFromSlice (m.cells c).data = some t → t.isInitialized = true →
      ∃ t', TokenAccount.unpackFromSlice data = some t' ∧ t.Follows (spends t.owner) t')
    (hk : ∀ k, Mint.unpackFromSlice (m.cells c).data = some k → k.isInitialized = true →
      ∃ k', Mint.unpackFromSlice data = some k' ∧ k.Follows (issues k.mintAuthority) k')
    (hn : Mint.unpackFromSlice (m.cells c).data = none →
      TokenAccount.unpackFromSlice (m.cells c).data = none → data = (m.cells c).data) :
    RecordsFollow spends issues m (m.setData c data) where
  tokenAccount d t h hi := by
    by_cases hd : d = c
    · subst hd
      rw [Machine.setData_self]
      exact ht t h hi
    · rw [Machine.setData_of_ne _ hd]
      exact ⟨t,h,.refl _ t⟩
  mint d k h hi := by
    by_cases hd : d = c
    · subst hd
      rw [Machine.setData_self]
      exact hk k h hi
    · rw [Machine.setData_of_ne _ hd]
      exact ⟨k,h,.refl _ k⟩
  other d hm h := by
    by_cases hd : d = c
    · subst hd
      rw [Machine.setData_self]
      exact hn hm h
    · rw [Machine.setData_of_ne _ hd]

/-- A token account is replaced by a later version of it. -/
theorem setTokenAccount {c : κ} {t t' : TokenAccount}
    (ht : TokenAccount.unpackFromSlice (m.cells c).data = some t)
    (hf : t.isInitialized = true → t.Follows (spends t.owner) t') :
    RecordsFollow spends issues m (m.setData c (TokenAccount.codec.encode t')) := by
  refine .setData (fun u hu hi => ?_) (fun k hk _ => ?_) fun _ hn => ?_
  · cases ht.symm.trans hu
    exact ⟨t',TokenAccount.unpack_encode t',hf hi⟩
  · cases ht.symm.trans (Mint.not_tokenAccount hk)
  · cases ht.symm.trans hn

/-- A mint is replaced by a later version of it. -/
theorem setMint {c : κ} {k k' : Mint} (hk : Mint.unpackFromSlice (m.cells c).data = some k)
    (hf : k.isInitialized = true → k.Follows (issues k.mintAuthority) k') :
    RecordsFollow spends issues m (m.setData c (Mint.codec.encode k')) := by
  refine .setData (fun t ht _ => ?_) (fun l hl hi => ?_) fun hn _ => ?_
  · cases ht.symm.trans (Mint.not_tokenAccount hk)
  · cases hk.symm.trans hl
    exact ⟨k',Mint.unpack_encode k',hf hi⟩
  · cases hk.symm.trans hn

end RecordsFollow

/-! ## Instructions -/

/-- One execution of the token program: its context and the infos it is given. -/
structure TokenExecution (κ : Type) where
  ctx : InvokeContext
  accounts : List (AccountInfo κ)

namespace TokenExecution

variable {κ : Type}

/-- The instruction that the entrypoint reads from its context. -/
def instruction (e : TokenExecution κ) : Option TokenInstruction :=
  TokenInstruction.codec.decodeAll e.ctx.instructionData

/-- The first account is that of the key and has signed. -/
def SignedBy (e : TokenExecution κ) (key : Pubkey) : Prop :=
  ∃ info ∈ e.accounts.head?, info.isSigner = true ∧ info.pubkey = key

/-- A transfer that the owner of the source has signed. -/
def Spends (e : TokenExecution κ) (owner : Pubkey) : Prop :=
  (∃ amount, e.instruction = some (.transfer amount)) ∧ e.SignedBy owner

/-- A mint that the mint authority has signed. -/
def Issues (e : TokenExecution κ) (mintAuthority : Pubkey) : Prop :=
  (∃ amount, e.instruction = some (.mint amount)) ∧ e.SignedBy mintAuthority

variable [DecidableEq κ]

/-- The execution succeeds, at some depth of nested calls. -/
def Succeeds (host : Host) (m : Machine κ) (e : TokenExecution κ) (m' : Machine κ) : Prop :=
  ∃ depth, TokenProgram.entrypoint host.sysvars (ChainedProgramExecutor.executeAt host depth) e.ctx
    e.accounts m = (.ok (),m')

/-- A token instruction at top level. -/
def ofCall (call : TokenCall κ) : TokenExecution κ :=
  ⟨⟨call.instruction.programId,call.instruction.data,call.computeBudget⟩,call.accounts⟩

theorem ofCall_succeeds {host : Host} {call : TokenCall κ} {m m' : Machine κ}
    (hp : call.instruction.programId = tokenProgramId) (h : call.execute host m = (.ok (),m')) :
    (ofCall call).Succeeds host m m' := by
  rw [TokenCall.execute,ChainedProgramExecutor.execute_token host hp] at h
  exact ⟨1,h⟩

variable {host : Host} {e : TokenExecution κ} {m m' : Machine κ}

/-- The nested call of `SetAuthority` never succeeds. -/
theorem invoke_assign_not_ok {depth : ℕ} {newAuthority target owner : Pubkey}
    {accounts : List (AccountInfo κ)} (h : e.instruction = some (.setAuthority newAuthority)) :
    e.ctx.invoke (ChainedProgramExecutor.executeAt host depth)
      (SystemProgram.createAssignInstruction target owner) accounts m ≠ (.ok (),m') := by
  cases depth with
  | zero => exact fun hx => by cases hx
  | succ depth =>
    rw [invoke_assign_fails h]
    exact fun hx => by cases hx

/-- One instruction: a transfer that its owner signed, a mint that its authority signed, or a record
that was not initialized. -/
theorem Succeeds.follow (h : Succeeds host m e m') : RecordsFollow e.Spends e.Issues m m' := by
  obtain ⟨depth,h⟩ := h
  obtain ⟨i,hdec,heff⟩ := TokenProgram.entrypoint_effect h
  obtain ⟨ctx,accounts⟩ := e
  have hi : (⟨ctx,accounts⟩ : TokenExecution κ).instruction = some i := hdec
  cases heff with
  | @mint amount authority mintInfo destination rest _ mint account hsig hm ha hd hk =>
    have hne : destination.account ≠ mintInfo.account := by
      intro he
      rw [he,Mint.not_tokenAccount hm] at hd
      cases hd
    have hissues : Issues ⟨ctx,authority :: mintInfo :: destination :: rest⟩ mint.mintAuthority :=
      ⟨⟨amount,hi⟩,authority,rfl,hsig,ha.symm⟩
    refine (RecordsFollow.setMint hm fun _ => ?_).trans (RecordsFollow.setTokenAccount
      (t := account) ?_ fun _ => .satAdd _ _ _)
    · exact ⟨rfl,rfl,rfl,le_satAdd _ _,fun _ => hissues⟩
    · rwa [Machine.setData_of_ne _ hne]
  | @transfer amount owner source destination rest _ from_ to_ hsig hf ho ht hm ha =>
    have hspends : Spends ⟨ctx,owner :: source :: destination :: rest⟩ from_.owner :=
      ⟨⟨amount,hi⟩,owner,rfl,hsig,ho.symm⟩
    have hsource : RecordsFollow (Spends ⟨ctx,owner :: source :: destination :: rest⟩)
        (Issues ⟨ctx,owner :: source :: destination :: rest⟩) m (m.setData source.account
          (TokenAccount.codec.encode { from_ with amount := satSub from_.amount amount })) :=
      RecordsFollow.setTokenAccount hf fun _ => ⟨rfl,rfl,rfl,fun _ => hspends⟩
    by_cases hd : destination.account = source.account
    · -- Packed over the source, the destination undoes the debit.
      rw [hd] at ht ⊢
      rw [hf] at ht
      cases ht
      refine hsource.trans (RecordsFollow.setTokenAccount
        (t := { from_ with amount := satSub from_.amount amount }) (by simp) fun _ => ?_)
      exact ⟨rfl,rfl,rfl,fun _ => hspends⟩
    · refine hsource.trans (RecordsFollow.setTokenAccount (t := to_) ?_ fun _ => .satAdd _ _ _)
      rwa [Machine.setData_of_ne _ hd]
  | setAuthority hsig hinv => exact absurd hinv (invoke_assign_not_ok hi)
  | initializeMint hr hm hinit he =>
    exact RecordsFollow.setMint hm fun htrue => absurd htrue (by simp [hinit])
  | initializeAccount hr ha hinit he hm hmi =>
    exact RecordsFollow.setTokenAccount ha fun htrue => absurd htrue (by simp [hinit])

end TokenExecution

/-- Every token instruction, and every run of them, keeps the initialized records up to what their
owners and authorities have signed for. -/
theorem token_records_authorized {κ : Type} [DecidableEq κ] (host : Host) :
    (∀ (m : Machine κ) (e : TokenExecution κ) (m' : Machine κ), e.Succeeds host m m' →
      RecordsFollow e.Spends e.Issues m m') ∧
    ∀ (m : Machine κ) (es : List (TokenExecution κ)) (m' : Machine κ),
      Run (TokenExecution.Succeeds host) m es m' →
      RecordsFollow (fun key => ∃ e ∈ es, e.Spends key)
        (fun key => ∃ e ∈ es, e.Issues key) m m' := by
  refine ⟨fun _ _ _ => TokenExecution.Succeeds.follow,fun m es m' hr => ?_⟩
  induction hr with
  | nil => exact .refl _ _ m
  | @snoc m₁ m₂ es e before last ih =>
    refine (ih.mono ?_ ?_).trans (last.follow.mono ?_ ?_)
    · rintro key ⟨e',he',hs⟩
      exact ⟨e',List.mem_append_left _ he',hs⟩
    · rintro key ⟨e',he',hs⟩
      exact ⟨e',List.mem_append_left _ he',hs⟩
    · exact fun key hs => ⟨e,List.mem_append_right _ List.mem_cons_self,hs⟩
    · exact fun key hs => ⟨e,List.mem_append_right _ List.mem_cons_self,hs⟩

/-! ## A transfer -/

/-- Two accounts of one mint and the wallet that owns the first of them. -/
def accountsMachine : Machine (Fin 3) where
  cells := ![
    { wallet 1 0 with
      data := TokenAccount.codec.encode ⟨.ofByte 9,.ofByte 3,5,true⟩, owner := tokenProgramId },
    { wallet 2 0 with
      data := TokenAccount.codec.encode ⟨.ofByte 9,.ofByte 4,0,true⟩, owner := tokenProgramId },
    wallet 3 0]
  computeMeter := 0
  programCache := ∅

/-- A transfer between the first two cells, signed for like a mint. -/
def transferCall (amount : UInt64) : TokenCall (Fin 3) :=
  { mintCall amount with
    instruction := ⟨tokenProgramId,[],TokenInstruction.codec.encode (.transfer amount)⟩ }

/-- The first account falls from five to three units, with the signature of its owner. -/
theorem signed_transfer_authorized :
    let m' := ((transferCall 2).execute default accountsMachine).2
    let e := TokenExecution.ofCall (transferCall 2)
    TokenAccount.unpackFromSlice (m'.cells 0).data = some ⟨.ofByte 9,.ofByte 3,3,true⟩ ∧
      RecordsFollow e.Spends e.Issues accountsMachine m' ∧
      RecordsFollow (fun key => ∃ e' ∈ [e], e'.Spends key) (fun key => ∃ e' ∈ [e], e'.Issues key)
        accountsMachine m' := by
  intro m' e
  have hs : e.Succeeds default accountsMachine m' :=
    TokenExecution.ofCall_succeeds rfl (Exec.run_of_result (by decide +kernel))
  exact ⟨by decide,(token_records_authorized default).1 _ _ _ hs,
    (token_records_authorized default).2 _ _ _ (Run.single hs)⟩

end TinySolana
