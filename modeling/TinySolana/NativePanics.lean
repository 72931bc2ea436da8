import TinySolana.CpiFaithfulness
import TinySolana.LoaderAuthority
import TinySolana.Programs.LoaderStates
import TinySolana.TokenSetAuthority

/-!
# Panics of native programs

Every slice of an entrypoint is taken behind a check of its length, but for two. `CreateAccount`
allocates whatever number of bytes it is asked for, and a deployment copies the code into an account
whose length it reads from other bytes than the length it has checked.
-/

namespace TinySolana
open Foundations

variable {κ : Type}

/-- The accounts and the lamports that `CreateAccount` asks for. -/
def CanCreate (lamports : UInt64) (accounts : List (AccountInfo κ)) (m : Machine κ) : Prop :=
  ∃ fromInfo toInfo rest, accounts = fromInfo :: toInfo :: rest ∧ fromInfo.isSigner = true ∧
    toInfo.isSigner = true ∧ lamports ≤ (m.cells fromInfo.account).lamports

/-- The data are a `CreateAccount` of more bytes than a vector can have, and it passes its
checks. -/
def CreatesOverlong (data : List UInt8) (accounts : List (AccountInfo κ)) (m : Machine κ) : Prop :=
  ∃ lamports space owner, SystemInstruction.codec.decodeAll data =
    some (.createAccount lamports space owner) ∧ CanCreate lamports accounts m ∧ 2^63 ≤ space.toNat

variable [DecidableEq κ]

/-- The nested call of a deployment reads its own data as a `CreateAccount`, of more bytes than a
vector can have or of fewer than the header and the code take. -/
structure DeployOverruns (sysvars : Sysvars) (data : List UInt8) (maxDataLen : UInt64)
    (payer programdata buffer rent clock system authority : AccountInfo κ)
    (m : Machine κ) : Prop where
  signed : authority.isSigner = true
  rent : sysvars.rentPrefix (m.cells rent.account).data ≠ none
  header : UpgradeableLoaderState.sizeOfBufferMetadata ≤ (m.cells buffer.account).data.length
  fits : (m.cells buffer.account).data.length-UpgradeableLoaderState.sizeOfBufferMetadata ≤
    maxDataLen.toNat
  funded : CanCreate maxDataLen [payer,programdata,system] m
  space : ∃ space owner, SystemInstruction.codec.decodeAll data =
      some (.createAccount maxDataLen space owner) ∧
    (2^63 ≤ space.toNat ∨
      buffer.account ≠ programdata.account ∧
      sysvars.clockPrefix (if clock.account = programdata.account then List.replicate space.toNat 0
        else (m.cells clock.account).data) ≠ none ∧
      UpgradeableLoaderState.sizeOfProgramdataMetadata ≤ space.toNat ∧
      space.toNat < UpgradeableLoaderState.sizeOfProgramdataMetadata+
        ((m.cells buffer.account).data.length-UpgradeableLoaderState.sizeOfBufferMetadata))

/-- The data are a deployment that overruns. -/
def DeploysOverrun (sysvars : Sysvars) (data : List UInt8) (accounts : List (AccountInfo κ))
    (m : Machine κ) : Prop :=
  ∃ maxDataLen payer programdata program buffer rent clock system authority rest,
    LoaderInstruction.codec.decodePrefix data = some (.deployWithMaxDataLen maxDataLen) ∧
    accounts = payer :: programdata :: program :: buffer :: rent :: clock :: system :: authority ::
      rest ∧
    DeployOverruns sysvars data maxDataLen payer programdata buffer rent clock system authority m

variable {accounts : List (AccountInfo κ)} {m : Machine κ} {ctx : InvokeContext}

namespace SystemProgram

theorem createAccount_panic {lamports space : UInt64} {owner : Pubkey} :
    (createAccount lamports space owner accounts m).1 = .panic ↔
      CanCreate lamports accounts m ∧ 2^63 ≤ space.toNat := by
  match accounts with
  | [] | [_] => simp [createAccount,CanCreate]
  | fromInfo :: toInfo :: rest =>
    simp only [createAccount,Exec.failIf_bind_panic,not_or,not_not,AccountInfo.lamports_bind,
      AccountInfo.setLamports_bind,Exec.panicIf_bind_panic,AccountInfo.setData_bind,
      AccountInfo.setOwner_run,UInt64.not_lt]
    constructor
    · rintro ⟨⟨hs,ht⟩,hl,hp | hp⟩
      · exact ⟨⟨_,_,_,rfl,hs,ht,hl⟩,hp⟩
      · cases hp
    · rintro ⟨⟨_,_,_,⟨⟩,hs,ht,hl⟩,hp⟩
      exact ⟨⟨hs,ht⟩,hl,.inl hp⟩

theorem transfer_no_panic (lamports : UInt64) : (transfer lamports accounts m).1 ≠ .panic := by
  match accounts with
  | [] | [_] => simp [transfer]
  | fromInfo :: toInfo :: rest => simp [transfer]

theorem assign_no_panic (owner : Pubkey) : (assign owner accounts m).1 ≠ .panic := by
  match accounts with
  | [] => simp [assign]
  | target :: rest => simp [assign]

theorem entrypoint_panic :
    (entrypoint ctx accounts m).1 = .panic ↔ CreatesOverlong ctx.instructionData accounts m := by
  simp only [entrypoint,Exec.orFail_bind_panic,CreatesOverlong]
  constructor
  · rintro ⟨i,hi,hp⟩
    cases i with
    | transfer lamports => exact absurd hp (transfer_no_panic lamports)
    | assign owner => exact absurd hp (assign_no_panic owner)
    | createAccount lamports space owner => exact ⟨_,_,_,hi,createAccount_panic.mp hp⟩
  · rintro ⟨lamports,space,owner,hi,hp⟩
    exact ⟨_,hi,createAccount_panic.mpr hp⟩

end SystemProgram

/-! ## The token program -/

namespace TokenProgram

section

omit [DecidableEq κ]

@[simp] theorem failIf_bind_panic {β : Type} {c : Prop} [Decidable c] {e : TokenError}
    {f : Unit → Prog κ β} : ((failIf c e >>= f) m).1 = .panic ↔ ¬c ∧ (f () m).1 = .panic :=
  Exec.failIf_bind_panic

@[simp] theorem unpackMint_bind_panic {β : Type} {info : AccountInfo κ} {f : Mint → Prog κ β} :
    ((unpackMint info >>= f) m).1 = .panic ↔ ∃ mint,
      Mint.unpackFromSlice (m.cells info.account).data = some mint ∧ (f mint m).1 = .panic := by
  simp only [unpackMint,Exec.bind_assoc,AccountInfo.tryBorrowData_bind,Exec.orFail_bind_panic]

@[simp] theorem unpackTokenAccount_bind_panic {β : Type} {info : AccountInfo κ}
    {f : TokenAccount → Prog κ β} : ((unpackTokenAccount info >>= f) m).1 = .panic ↔ ∃ account,
      TokenAccount.unpackFromSlice (m.cells info.account).data = some account ∧
        (f account m).1 = .panic := by
  simp only [unpackTokenAccount,Exec.bind_assoc,AccountInfo.tryBorrowData_bind,
    Exec.orFail_bind_panic]

@[simp] theorem readRent_bind_panic {β : Type} {sysvars : Sysvars} {info : AccountInfo κ}
    {f : Rent → Prog κ β} : ((readRent sysvars info >>= f) m).1 = .panic ↔ ∃ rent,
      sysvars.rentExact (m.cells info.account).data = some rent ∧ (f rent m).1 = .panic := by
  simp only [readRent,Exec.bind_assoc,AccountInfo.tryBorrowData_bind,Exec.orFail_bind_panic]

end

/-- A record is packed over data that unpacked as such a record, so it fits. -/
theorem mint_no_panic (amount : UInt64) : (mint amount accounts m).1 ≠ .panic := by
  match accounts with
  | [] | [_] | [_,_] => simp [mint]
  | authority :: mintInfo :: destination :: rest =>
    simp only [mint,ne_eq,failIf_bind_panic,unpackMint_bind_panic,unpackTokenAccount_bind_panic]
    rintro ⟨-,mint,hm,-,account,hd,-,h⟩
    have hne : destination.account ≠ mintInfo.account := by
      intro he
      rw [he,Mint.not_tokenAccount hm] at hd
      cases hd
    rw [Exec.bind_of_ok (packMint_run hm),
      packTokenAccount_run (by rw [Machine.setData_of_ne _ hne,hd])] at h
    cases h

theorem transfer_no_panic (amount : UInt64) : (transfer amount accounts m).1 ≠ .panic := by
  match accounts with
  | [] | [_] | [_,_] => simp [transfer]
  | owner :: source :: destination :: rest =>
    simp only [transfer,ne_eq,failIf_bind_panic,unpackTokenAccount_bind_panic]
    rintro ⟨-,from_,hf,-,to_,hto,-,-,h⟩
    obtain ⟨t,ht⟩ := unpackTokenAccount_setData hto
    rw [Exec.bind_of_ok (packTokenAccount_run hf),packTokenAccount_run ht] at h
    cases h

theorem setAuthority_no_panic {host : Host} {d : ℕ} {newAuthority : Pubkey}
    (h : TokenInstruction.codec.decodeAll ctx.instructionData = some (.setAuthority newAuthority)) :
    (setAuthority (ChainedProgramExecutor.executeAt host (d+1)) ctx newAuthority accounts m).1 ≠
      .panic := by
  obtain ⟨e,he⟩ : ∃ e, setAuthority (ChainedProgramExecutor.executeAt host (d+1)) ctx newAuthority
      accounts m = (.err e,m) := setAuthority_fails h accounts m
  rw [he]
  simp

theorem initializeMint_no_panic (sysvars : Sysvars) (decimals : UInt8) (mintAuthority : Pubkey) :
    (initializeMint sysvars decimals mintAuthority accounts m).1 ≠ .panic := by
  match accounts with
  | [] | [_] => simp [initializeMint]
  | mintInfo :: rentInfo :: rest =>
    simp only [initializeMint,ne_eq,readRent_bind_panic,unpackMint_bind_panic,failIf_bind_panic,
      AccountInfo.lamports_bind,AccountInfo.tryBorrowData_bind]
    rintro ⟨rent,-,mint,hm,-,-,h⟩
    rw [packMint_run hm] at h
    cases h

theorem initializeAccount_no_panic (sysvars : Sysvars) :
    (initializeAccount sysvars accounts m).1 ≠ .panic := by
  match accounts with
  | [] | [_] | [_,_] | [_,_,_] => simp [initializeAccount]
  | accountInfo :: mintInfo :: ownerInfo :: rentInfo :: rest =>
    simp only [initializeAccount,ne_eq,readRent_bind_panic,unpackMint_bind_panic,
      unpackTokenAccount_bind_panic,failIf_bind_panic,AccountInfo.lamports_bind,
      AccountInfo.tryBorrowData_bind]
    rintro ⟨rent,-,account,ha,-,-,mint,-,-,h⟩
    rw [packTokenAccount_run ha] at h
    cases h

theorem entrypoint_no_panic (host : Host) (d : ℕ) :
    (entrypoint host.sysvars (ChainedProgramExecutor.executeAt host (d+1)) ctx accounts m).1 ≠
      .panic := by
  simp only [entrypoint,ne_eq,Exec.orFail_bind_panic]
  rintro ⟨i,hi,h⟩
  cases i with
  | mint amount => exact mint_no_panic amount h
  | transfer amount => exact transfer_no_panic amount h
  | setAuthority newAuthority => exact setAuthority_no_panic hi h
  | initializeMint decimals mintAuthority =>
    exact initializeMint_no_panic _ decimals mintAuthority h
  | initializeAccount => exact initializeAccount_no_panic _ h

end TokenProgram

/-! ## The loader -/

namespace BpfLoaderProgram
open UpgradeableLoaderState

section

omit [DecidableEq κ]

@[simp] theorem failIf_bind_panic {β : Type} {c : Prop} [Decidable c] {e : BpfLoaderError}
    {f : Unit → Prog κ β} : ((failIf c e >>= f) m).1 = .panic ↔ ¬c ∧ (f () m).1 = .panic :=
  Exec.failIf_bind_panic

@[simp] theorem readState_bind_panic {β : Type} {info : AccountInfo κ}
    {f : UpgradeableLoaderState → Prog κ β} : ((readState info >>= f) m).1 = .panic ↔ ∃ state,
      codec.decodePrefix (m.cells info.account).data = some state ∧ (f state m).1 = .panic := by
  simp only [readState,Exec.bind_assoc,AccountInfo.tryBorrowData_bind,Exec.orFail_bind_panic]

@[simp] theorem bufferDataLen_bind_panic {β : Type} {maxDataLen : UInt64} {info : AccountInfo κ}
    {f : ℕ → Prog κ β} : ((bufferDataLen maxDataLen info >>= f) m).1 = .panic ↔
      sizeOfBufferMetadata ≤ (m.cells info.account).data.length ∧
      (m.cells info.account).data.length-sizeOfBufferMetadata ≤ maxDataLen.toNat ∧
      (f ((m.cells info.account).data.length-sizeOfBufferMetadata) m).1 = .panic := by
  simp only [bufferDataLen,Exec.bind_assoc,AccountInfo.tryBorrowData_bind,failIf_bind_panic,not_lt,
    Exec.pure_bind]

end

@[simp] theorem packIntoAccount_no_panic (state : UpgradeableLoaderState) (info : AccountInfo κ) :
    (packIntoAccount state info m).1 ≠ .panic := by
  simp [packIntoAccount]

@[simp] theorem packIntoAccount_bind_panic {β : Type} {state : UpgradeableLoaderState}
    {info : AccountInfo κ} {f : Unit → Prog κ β} :
    ((packIntoAccount state info >>= f) m).1 = .panic ↔
      state.serializedSize ≤ (m.cells info.account).data.length ∧
        (f () (m.packState info.account state)).1 = .panic := by
  rw [Exec.bind_panic,or_iff_right (packIntoAccount_no_panic state info)]
  constructor
  · rintro ⟨u,t,h,hp⟩
    obtain ⟨hl,rfl⟩ := packIntoAccount_ok.mp h
    exact ⟨hl,hp⟩
  · rintro ⟨hl,hp⟩
    exact ⟨(),_,packIntoAccount_ok.mpr ⟨hl,rfl⟩,hp⟩

/-- Copying the code panics where the buffer or programdata is shorter than what is copied. -/
theorem copyCode_bind_panic {β : Type} {len : ℕ} {bufferInfo programdataInfo : AccountInfo κ}
    {f : Unit → Prog κ β} (hf : ∀ t, (f () t).1 ≠ .panic) :
    ((copyCode len bufferInfo programdataInfo >>= f) m).1 = .panic ↔
      bufferInfo.account ≠ programdataInfo.account ∧
        ((m.cells bufferInfo.account).data.length < sizeOfBufferMetadata+len ∨
          (m.cells programdataInfo.account).data.length < sizeOfProgramdataMetadata+len) := by
  simp only [copyCode,Exec.bind_assoc,AccountInfo.tryBorrowData_bind,Exec.failIf_bind_panic,
    Exec.panicIf_bind_panic,AccountInfo.setData_bind,hf,or_false]

theorem initializeBuffer_no_panic : (initializeBuffer accounts m).1 ≠ .panic := by
  match accounts with
  | [] => simp [initializeBuffer]
  | bufferInfo :: authoritySlice => simp [initializeBuffer]

theorem write_no_panic (offset : UInt32) (bytes : List UInt8) :
    (write offset bytes accounts m).1 ≠ .panic := by
  match accounts with
  | [] | [_] => simp [write]
  | bufferInfo :: authorityInfo :: rest =>
    simp only [write,ne_eq,readState_bind_panic]
    rintro ⟨state,-,h⟩
    cases state with
    | buffer authorityAddress =>
      simp only [failIf_bind_panic,AccountInfo.tryBorrowData_bind,AccountInfo.setData_bind] at h
      exact packIntoAccount_no_panic _ _ h.2.2.2.2
    | _ => simp at h

theorem setAuthority_no_panic (newAuthority : Option Pubkey) :
    (setAuthority newAuthority accounts m).1 ≠ .panic := by
  match accounts with
  | [] | [_] => simp [setAuthority]
  | targetInfo :: authorityInfo :: rest =>
    simp only [setAuthority,ne_eq,failIf_bind_panic,readState_bind_panic]
    rintro ⟨-,state,-,h⟩
    cases state with
    | buffer authorityAddress => simp at h
    | programData slot authorityAddress => simp at h
    | _ => simp at h

theorem close_no_panic : (close accounts m).1 ≠ .panic := by
  match accounts with
  | [] | [_] | [_,_] => simp [close]
  | accountToClose :: recipient :: authorityInfo :: rest => simp [close]

/-- The nested call is the System entrypoint on the caller's data. -/
theorem invoke_createAccount {host : Host} {d : ℕ} {from_ to_ owner : Pubkey}
    {lamports space : UInt64} :
    ctx.invoke (ChainedProgramExecutor.executeAt host (d+1))
      (SystemProgram.createAccountInstruction from_ to_ lamports space owner) accounts =
        SystemProgram.entrypoint ctx accounts := invoke_system rfl accounts

/-- Behind the creation of programdata, the copy panics exactly when the account takes the header
but not the code behind it. -/
theorem copy_overruns_iff {m₁ : Machine κ} {sysvars : Sysvars} {lamports space : UInt64}
    {owner key : Pubkey} {payer programdata buffer clock : κ}
    (hc : Created m m₁ payer programdata lamports space owner)
    (hh : sizeOfBufferMetadata ≤ (m.cells buffer).data.length) :
    (∃ slot, sysvars.clockPrefix (m₁.cells clock).data = some slot ∧
      (programData slot (some key)).serializedSize ≤ (m₁.cells programdata).data.length ∧
      buffer ≠ programdata ∧
      (((m₁.packState programdata (programData slot (some key))).cells buffer).data.length <
          sizeOfBufferMetadata+((m.cells buffer).data.length-sizeOfBufferMetadata) ∨
        ((m₁.packState programdata (programData slot (some key))).cells programdata).data.length <
          sizeOfProgramdataMetadata+((m.cells buffer).data.length-sizeOfBufferMetadata))) ↔
    buffer ≠ programdata ∧
      sysvars.clockPrefix (if clock = programdata then List.replicate space.toNat 0
        else (m.cells clock).data) ≠ none ∧
      sizeOfProgramdataMetadata ≤ space.toNat ∧
      space.toNat <
        sizeOfProgramdataMetadata+((m.cells buffer).data.length-sizeOfBufferMetadata) := by
  have hsize (slot : UInt64) : (programData slot (some key)).serializedSize =
    sizeOfProgramdataMetadata :=
    encode_programData_length slot key
  have hcreated : (m₁.cells programdata).data.length = space.toNat := by
    rw [hc.data,if_pos rfl,List.length_replicate]
  have hpacked (slot : UInt64) (hl : sizeOfProgramdataMetadata ≤ space.toNat) :
      ((m₁.packState programdata (programData slot (some key))).cells programdata).data.length =
        space.toNat := by
    rw [Machine.packState_data,← hcreated]
    exact packedOver_length ((hsize slot).trans_le (hcreated.symm ▸ hl))
  have hbuffer (slot : UInt64) (hne : buffer ≠ programdata) :
      ((m₁.packState programdata (programData slot (some key))).cells buffer).data.length =
        (m.cells buffer).data.length := by
    rw [Machine.packState,Machine.update_of_ne _ hne,hc.data,if_neg hne]
  rw [hc.data]
  constructor
  · rintro ⟨slot,hs,hl,hne,ho⟩
    rw [hsize,hcreated] at hl
    rw [hbuffer slot hne,hpacked slot hl] at ho
    exact ⟨hne,by simp [hs],hl,by omega⟩
  · rintro ⟨hne,hs,hl,ho⟩
    obtain ⟨slot,hs⟩ := Option.ne_none_iff_exists'.mp hs
    refine ⟨slot,hs,by rwa [hsize,hcreated],hne,.inr ?_⟩
    rwa [hpacked slot hl]

theorem deploy_panic {host : Host} (d : ℕ) {maxDataLen : UInt64}
    {payer programdata program buffer rent clock system authority : AccountInfo κ}
    (rest : List (AccountInfo κ))
    (hd : LoaderInstruction.codec.decodePrefix ctx.instructionData =
      some (.deployWithMaxDataLen maxDataLen)) :
    (deployWithMaxDataLen host.sysvars (ChainedProgramExecutor.executeAt host (d+1)) ctx maxDataLen
      (payer :: programdata :: program :: buffer :: rent :: clock :: system :: authority :: rest)
        m).1 = .panic ↔
    DeployOverruns host.sysvars ctx.instructionData maxDataLen payer programdata buffer
      rent clock system authority m := by
  simp only [deployWithMaxDataLen,failIf_bind_panic,not_not,AccountInfo.tryBorrowData_bind,
    Exec.orFail_bind_panic,bufferDataLen_bind_panic,AccountInfo.lamports_bind,invoke_createAccount]
  rw [Exec.bind_panic]
  simp (disch := simp) only [AccountInfo.tryBorrowData_bind,Exec.orFail_bind_panic,
    packIntoAccount_bind_panic,copyCode_bind_panic]
  constructor
  · rintro ⟨hs,rent,hr,hh,hf,hp | ⟨u,m₁,hrun,hp⟩⟩
    · obtain ⟨lamports,space,owner,hi,hcan,hspace⟩ := SystemProgram.entrypoint_panic.mp hp
      obtain ⟨space',owner',hi'⟩ := deploy_as_createAccount hd hi
      cases hi'
      exact ⟨hs,by simp [hr],hh,hf,hcan,space,owner,hi,.inl hspace⟩
    · obtain ⟨i,hi,he⟩ := SystemProgram.entrypoint_ok.mp hrun
      obtain ⟨space,owner,rfl⟩ := deploy_as_createAccount hd hi
      have hc := created_of_effect he
      cases he with
      | createAccount hsp hst hl hlt =>
        exact ⟨hs,by simp [hr],hh,hf,⟨_,_,_,rfl,hsp,hst,hl⟩,space,owner,hi,
          .inr ((copy_overruns_iff hc hh).mp hp)⟩
  · rintro ⟨hs,hr,hh,hf,hcan,space,owner,hi,hp⟩
    obtain ⟨rent,hr⟩ := Option.ne_none_iff_exists'.mp hr
    refine ⟨hs,rent,hr,hh,hf,?_⟩
    by_cases hspace : 2^63 ≤ space.toNat
    · exact .inl (SystemProgram.entrypoint_panic.mpr ⟨_,_,_,hi,hcan,hspace⟩)
    · obtain ⟨_,_,_,⟨⟩,hsp,hst,hl⟩ := hcan
      have he : SystemProgram.Effect (.createAccount maxDataLen space owner)
          [payer,programdata,system] m _ := .createAccount hsp hst hl (Nat.not_le.mp hspace)
      exact .inr ⟨(),_,SystemProgram.entrypoint_ok.mpr ⟨_,hi,he⟩,
        (copy_overruns_iff (created_of_effect he) hh).mpr (hp.resolve_left hspace)⟩

theorem entrypoint_panic {host : Host} (d : ℕ) :
    (entrypoint host.sysvars (ChainedProgramExecutor.executeAt host (d+1)) ctx accounts m).1 =
      .panic ↔
      DeploysOverrun host.sysvars ctx.instructionData accounts m := by
  simp only [entrypoint,Exec.orFail_bind_panic]
  constructor
  · rintro ⟨i,hi,hp⟩
    cases i with
    | initializeBuffer => exact absurd hp initializeBuffer_no_panic
    | write offset bytes => exact absurd hp (write_no_panic offset bytes)
    | deployWithMaxDataLen maxDataLen =>
      match accounts with
      | [] | [_] | [_,_] | [_,_,_] | [_,_,_,_] | [_,_,_,_,_] | [_,_,_,_,_,_] | [_,_,_,_,_,_,_] =>
          cases hp
      | payer :: programdata :: programInfo :: bufferInfo :: rent :: clock :: system ::
          authority :: rest =>
        exact ⟨_,_,_,_,_,_,_,_,_,_,hi,rfl,(deploy_panic d rest hi).mp hp⟩
    | upgrade => cases hp
    | setAuthority newAuthority => exact absurd hp (setAuthority_no_panic newAuthority)
    | close => exact absurd hp close_no_panic
  · rintro ⟨maxDataLen,payer,programdata,program,buffer,rent,clock,system,authority,rest,hi,rfl,hp⟩
    exact ⟨_,hi,(deploy_panic d rest hi).mpr hp⟩

end BpfLoaderProgram

/-- The native entrypoints return unless an account is created or deployed to of a length that does
not fit. -/
theorem native_returns_iff {κ : Type} [DecidableEq κ] (host : Host) (ctx : InvokeContext)
    (accounts : List (AccountInfo κ)) (m : Machine κ) :
    ((SystemProgram.entrypoint ctx accounts m).1 ≠ .panic ↔
      ¬CreatesOverlong ctx.instructionData accounts m) ∧
    (TokenProgram.entrypoint host.sysvars (ChainedProgramExecutor.execute host) ctx accounts m).1 ≠
      .panic ∧
    ((BpfLoaderProgram.entrypoint host.sysvars (ChainedProgramExecutor.execute host)
      ctx accounts m).1 ≠ .panic ↔
      ¬DeploysOverrun host.sysvars ctx.instructionData accounts m) :=
  ⟨not_congr SystemProgram.entrypoint_panic,TokenProgram.entrypoint_no_panic host 1,
    not_congr (BpfLoaderProgram.entrypoint_panic 1)⟩

/-! ## Too many bytes -/

/-- A signer pays nothing for an account of half of all the bytes there are. -/
def overlongContext : InvokeContext :=
  ⟨systemProgramId,
    SystemInstruction.codec.encode (.createAccount 0 9223372036854775808 systemProgramId),300⟩

/-- The allocation panics. -/
theorem overlong_account_panics :
    (SystemProgram.entrypoint overlongContext [SystemProgram.payer,SystemProgram.receiver]
      SystemProgram.probe).1 = .panic := by
  have hcan : CanCreate 0 [SystemProgram.payer,SystemProgram.receiver] SystemProgram.probe :=
    ⟨_,_,_,rfl,rfl,rfl,SystemProgram.probe_funds 0⟩
  exact SystemProgram.entrypoint_panic.mpr
    ⟨_,_,_,SystemInstruction.decodeAll_eq_some.mpr rfl,hcan,by decide⟩

end TinySolana
