import TinySolana.Footprint

/-!
# Isolation of accounts

Native programs never look at the owner of an account, so accounts of one program are exposed to the
others. What protects an account is its position in the list and, program by program, a signature
(System), the record it holds (token) or its loader state.
-/

namespace TinySolana
open Foundations Footprint UpgradeableLoaderState

variable {κ : Type}

/-- Data or owner of the account were replaced, or it lost lamports. -/
def Disturbed (m m' : Machine κ) (c : κ) : Prop :=
  (m'.cells c).data ≠ (m.cells c).data ∨ (m'.cells c).owner ≠ (m.cells c).owner ∨
    (m'.cells c).lamports < (m.cells c).lamports

theorem Footprint.Within.mem_of_disturbed {f : Footprint κ} {m m' : Machine κ} {c : κ}
    (h : Within f m m') (hc : Disturbed m m' c) : c ∈ f.data ∨ c ∈ f.owner ∨ c ∈ f.debit := by
  rcases hc with hd | ho | hl
  · exact .inl (by_contra fun hn => hd (h.data c hn))
  · exact .inr (.inl (by_contra fun hn => ho (h.owner c hn)))
  · exact .inr (.inr (by_contra fun hn => UInt64.not_le.mpr hl (h.debit c hn)))

/-- The cell is listed with a signer flag. -/
def SignedFor (accounts : List (AccountInfo κ)) (c : κ) : Prop :=
  ∃ info ∈ accounts, info.isSigner = true ∧ info.account = c

/-- The data are a mint or a token account, initialized or not. -/
def HoldsTokenRecord (a : Account) : Prop :=
  (∃ mint, Mint.unpackFromSlice a.data = some mint) ∨
    ∃ account, TokenAccount.unpackFromSlice a.data = some account

/-- The authority that a loader state names. -/
def UpgradeableLoaderState.authorityAddress : UpgradeableLoaderState → Option Pubkey
  | buffer authority | programData _ authority => authority
  | uninitialized | program _ => none

/-- What the loader asks before it writes to an account: nothing but some signature when it deploys
and when it closes an account. -/
def LoaderInstruction.Exposes (accounts : List (AccountInfo κ)) (a : Account) :
    LoaderInstruction → Prop
  | initializeBuffer => ofDataOrDefault a.data = uninitialized
  | write _ _ | setAuthority _ => ∃ info ∈ accounts, info.isSigner = true ∧
      (ofDataOrDefault a.data).authorityAddress = some info.pubkey
  | deployWithMaxDataLen _ | close => ∃ info ∈ accounts, info.isSigner = true
  | upgrade => False

/-- What a native program asks of an account before it disturbs it. -/
def Exposed (programId : Pubkey) (data : List UInt8) (accounts : List (AccountInfo κ)) (c : κ)
    (a : Account) : Prop :=
  if programId = systemProgramId then SignedFor accounts c
  else if programId = tokenProgramId then HoldsTokenRecord a
  else ∃ i, LoaderInstruction.codec.decodePrefix data = some i ∧ i.Exposes accounts a

/-- The accounts that a native instruction disturbs are at the positions it writes and met what its
program asks. -/
structure Isolated (instruction : Instruction) (accounts : List (AccountInfo κ))
    (m m' : Machine κ) :
    Prop where
  data : ∀ c, (m'.cells c).data ≠ (m.cells c).data →
    c ∈ cellsAt accounts (nativeWrites instruction.programId instruction.data).data
  owner : ∀ c, (m'.cells c).owner ≠ (m.cells c).owner →
    c ∈ cellsAt accounts (nativeWrites instruction.programId instruction.data).owner
  debit : ∀ c, (m'.cells c).lamports < (m.cells c).lamports →
    c ∈ cellsAt accounts (nativeWrites instruction.programId instruction.data).debit
  exposed : ∀ c, Disturbed m m' c →
    Exposed instruction.programId instruction.data accounts c (m.cells c)

variable [DecidableEq κ] {accounts : List (AccountInfo κ)} {m m' : Machine κ} {c : κ}

theorem SystemProgram.Effect.signedFor {i : SystemInstruction} (h : Effect i accounts m m')
    (hc : Disturbed m m' c) : SignedFor accounts c := by
  have hw := h.within.mem_of_disturbed hc
  cases h with
  | transfer hs hl =>
    obtain rfl : c = _ := by simpa [resolve,cellsAt,SystemInstruction.writes] using hw
    exact ⟨_,List.mem_cons_self,hs,rfl⟩
  | assign hs =>
    obtain rfl : c = _ := by simpa [resolve,cellsAt,SystemInstruction.writes] using hw
    exact ⟨_,List.mem_cons_self,hs,rfl⟩
  | @createAccount _ _ _ fromInfo toInfo rest _ hs ht hl hp =>
    have hw : c = toInfo.account ∨ c = fromInfo.account := by
      simpa [resolve,cellsAt,SystemInstruction.writes] using hw
    rcases hw with rfl | rfl
    · exact ⟨_,List.mem_cons_of_mem _ List.mem_cons_self,ht,rfl⟩
    · exact ⟨_,List.mem_cons_self,hs,rfl⟩

theorem TokenProgram.Effect.holdsRecord {host : Host} {ctx : InvokeContext} {d : ℕ}
    {i : TokenInstruction} (hd : TokenInstruction.codec.decodeAll ctx.instructionData = some i)
    (h : Effect host.sysvars (ChainedProgramExecutor.executeAt host (d+1)) ctx i accounts m m')
    (hc : Disturbed m m' c) : HoldsTokenRecord (m.cells c) := by
  have hw := (h.within hd).mem_of_disturbed hc
  cases h with
  | @mint _ _ mintInfo destination _ _ _ _ hs hm ha ht hk =>
    have hw : c = mintInfo.account ∨ c = destination.account := by
      simpa [resolve,cellsAt,TokenInstruction.writes] using hw
    rcases hw with rfl | rfl
    · exact .inl ⟨_,hm⟩
    · exact .inr ⟨_,ht⟩
  | @transfer _ _ source destination _ _ _ _ hs hf ho ht hm ha =>
    have hw : c = source.account ∨ c = destination.account := by
      simpa [resolve,cellsAt,TokenInstruction.writes] using hw
    rcases hw with rfl | rfl
    · exact .inr ⟨_,hf⟩
    · exact .inr ⟨_,ht⟩
  | setAuthority hs hi => simp [resolve,cellsAt,TokenInstruction.writes,Footprint.empty] at hw
  | initializeMint hr hm hi he =>
    obtain rfl : c = _ := by simpa [resolve,cellsAt,TokenInstruction.writes] using hw
    exact .inl ⟨_,hm⟩
  | initializeAccount hr ha hi he hm hmi =>
    obtain rfl : c = _ := by simpa [resolve,cellsAt,TokenInstruction.writes] using hw
    exact .inr ⟨_,ha⟩

theorem BpfLoaderProgram.Effect.exposes {host : Host} {ctx : InvokeContext} {d : ℕ}
    {i : LoaderInstruction} (hd : LoaderInstruction.codec.decodePrefix ctx.instructionData = some i)
    (h : Effect host.sysvars (ChainedProgramExecutor.executeAt host (d+1)) ctx i accounts m m')
    (hc : Disturbed m m' c) : i.Exposes accounts (m.cells c) := by
  have hw := (h.within hd).mem_of_disturbed hc
  cases h with
  | initializeBuffer hu hl =>
    obtain rfl : c = _ := by simpa [resolve,cellsAt,LoaderInstruction.writes] using hw
    exact hu
  | write hb hs hl =>
    obtain rfl : c = _ := by simpa [resolve,cellsAt,LoaderInstruction.writes] using hw
    exact ⟨_,List.mem_cons_of_mem _ List.mem_cons_self,
      hs,by simp [ofDataOrDefault,hb,authorityAddress]⟩
  | deploy hs hr hb hm hi hk hne => exact ⟨_,by simp,hs⟩
  | setBufferAuthority hs hb hl =>
    obtain rfl : c = _ := by simpa [resolve,cellsAt,LoaderInstruction.writes] using hw
    exact ⟨_,List.mem_cons_of_mem _ List.mem_cons_self,
      hs,by simp [ofDataOrDefault,hb,authorityAddress]⟩
  | setProgramAuthority hs hb hl =>
    obtain rfl : c = _ := by simpa [resolve,cellsAt,LoaderInstruction.writes] using hw
    exact ⟨_,List.mem_cons_of_mem _ List.mem_cons_self,
      hs,by simp [ofDataOrDefault,hb,authorityAddress]⟩
  | close hs => exact ⟨_,by simp,hs⟩

theorem execute_exposed {host : Host} {instruction : Instruction} {ctx : InvokeContext}
    (hn : instruction.programId ∈ nativePrograms)
    (h : ChainedProgramExecutor.execute host instruction ctx accounts m = (.ok (),m'))
    (hc : Disturbed m m' c) :
    Exposed instruction.programId ctx.instructionData accounts c (m.cells c) := by
  simp only [ChainedProgramExecutor.execute,ChainedProgramExecutor.executeAt,
    ChainedProgramExecutor.step,hn,if_true,NativeProgramExecutor.execute] at h
  unfold Exposed
  split at h
  · next hs =>
    obtain ⟨i,-,he⟩ := SystemProgram.entrypoint_ok.mp h
    rw [if_pos hs]
    exact he.signedFor hc
  · next hs =>
    rw [if_neg hs]
    split at h
    · next ht =>
      obtain ⟨i,hd,he⟩ := TokenProgram.entrypoint_effect h
      rw [if_pos ht]
      exact he.holdsRecord (d := 0) hd hc
    · next ht =>
      rw [if_neg ht]
      split at h
      · obtain ⟨i,hd,he⟩ := BpfLoaderProgram.entrypoint_effect h
        exact ⟨i,hd,he.exposes (d := 0) hd hc⟩
      · cases h

/-- A native instruction changes data, owners and lamports only at the positions that its
instruction writes, and disturbs an account only with a signature or a record that exposes it. -/
theorem native_isolation {host : Host} {instruction : Instruction} {computeBudget : UInt64}
    (hn : instruction.programId ∈ nativePrograms)
    (h : ChainedProgramExecutor.execute host instruction
      ⟨instruction.programId,instruction.data,computeBudget⟩ accounts m = (.ok (),m')) :
    Isolated instruction accounts m m' := by
  have hw := execute_within hn h
  exact ⟨fun c hc => by_contra fun hm => hc (hw.data c hm),
    fun c hc => by_contra fun hm => hc (hw.owner c hm),
    fun c hc => by_contra fun hm => UInt64.not_le.mpr hc (hw.debit c hm),
    fun c hc => execute_exposed hn h hc⟩

/-- The accounts of other programs are not disturbed. Native programs call none but the System
program. -/
def OwnersIsolated (host : Host) : Prop :=
  ∀ (κ : Type) [DecidableEq κ] (instruction : Instruction) (computeBudget : UInt64)
    (accounts : List (AccountInfo κ)) (m m' : Machine κ), instruction.programId ∈ nativePrograms →
    ChainedProgramExecutor.execute host instruction
      ⟨instruction.programId,instruction.data,computeBudget⟩ accounts m = (.ok (),m') →
    ∀ info ∈ accounts, (m.cells info.account).owner ≠ instruction.programId →
      (m.cells info.account).owner ≠ systemProgramId → ¬Disturbed m m' info.account

/-- The two infos of a payment of three lamports, over the cells of a payer and a recipient. -/
def paymentInfos : List (AccountInfo Bool) :=
  [⟨.ofByte 1,true,true,false,false,0⟩,⟨.ofByte 2,false,true,true,false,0⟩]

/-- The payer has ten lamports and the given owner. -/
def paymentMachine (owner : Pubkey) : Machine Bool :=
  ⟨fun c => if c then wallet 2 0 else { wallet 1 10 with owner },0,∅⟩

theorem paymentMachine_pays (host : Host) (owner : Pubkey) :
    ChainedProgramExecutor.execute host (payment [] 3).message.instructions[0]
      ⟨systemProgramId,SystemInstruction.codec.encode (.transfer 3),300⟩ paymentInfos
      (paymentMachine owner) = (.ok (),(paymentMachine owner).move false true 3) := by
  rw [ChainedProgramExecutor.execute_system host rfl]
  exact SystemProgram.entrypoint_ok.mpr ⟨.transfer 3,by decide,
    .transfer rfl (by simp [paymentMachine,wallet])⟩

/-- A System transfer pays from an account of the token program. -/
theorem transfer_disturbs_token_account : ¬OwnersIsolated default := by
  intro h
  refine h Bool (payment [] 3).message.instructions[0] 300 paymentInfos
    (paymentMachine tokenProgramId) _
    (by decide) (paymentMachine_pays default tokenProgramId) _ List.mem_cons_self (by decide)
    (by decide) ?_
  exact .inr (.inr (by decide))

theorem payment_isolated : Isolated (payment [] 3).message.instructions[0] paymentInfos
    (paymentMachine systemProgramId) ((paymentMachine systemProgramId).move false true 3) :=
  native_isolation (by decide)
    (paymentMachine_pays default systemProgramId)

end TinySolana
