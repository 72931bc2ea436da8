import TinySolana.Foundations.FixedSize
import TinySolana.Programs.TokenProgram

/-!
# Effects of the token program

What a successful token instruction does to the cells, with the checks it has passed. A record that
was unpacked fills the data of its account exactly, so packing replaces the data as a whole.
-/

namespace TinySolana
open Foundations

variable {κ : Type} [DecidableEq κ]

/-- The machine with the data of one cell replaced. -/
def Machine.setData (m : Machine κ) (c : κ) (data : List UInt8) : Machine κ :=
  m.update c fun a => { a with data }

@[simp] theorem Machine.setData_self (m : Machine κ) (c : κ) (data : List UInt8) :
    (m.setData c data).cells c = { m.cells c with data } := Machine.update_self ..

@[simp] theorem Machine.setData_of_ne (m : Machine κ) {c d : κ} (h : d ≠ c) (data : List UInt8) :
    (m.setData c data).cells d = m.cells d := Machine.update_of_ne _ h _

theorem Mint.fixedSize : Mint.codec.FixedSize Mint.len :=
  .iso (.seq (.block _) (.seq .u64 (.seq .u8 .bool))) _

theorem TokenAccount.fixedSize : TokenAccount.codec.FixedSize TokenAccount.len :=
  .iso (.seq (.block _) (.seq (.block _) (.seq .u64 .bool))) _

theorem Mint.encode_length (m : Mint) : (Mint.codec.encode m).length = 42 := fixedSize.length m

theorem TokenAccount.encode_length (t : TokenAccount) : (TokenAccount.codec.encode t).length = 73 :=
  fixedSize.length t

theorem Mint.unpack_eq_some {data : List UInt8} {m : Mint} :
    Mint.unpackFromSlice data = some m ↔ data = Mint.codec.encode m := fixedSize.decodeAll_iff

theorem TokenAccount.unpack_eq_some {data : List UInt8} {t : TokenAccount} :
    TokenAccount.unpackFromSlice data = some t ↔ data = TokenAccount.codec.encode t :=
  fixedSize.decodeAll_iff

@[simp] theorem Mint.unpack_encode (m : Mint) :
    Mint.unpackFromSlice (Mint.codec.encode m) = some m := Mint.unpack_eq_some.mpr rfl

@[simp] theorem TokenAccount.unpack_encode (t : TokenAccount) :
    TokenAccount.unpackFromSlice (TokenAccount.codec.encode t) = some t :=
  TokenAccount.unpack_eq_some.mpr rfl

/-- The two records differ in length, so no data unpacks as both. -/
theorem Mint.not_tokenAccount {data : List UInt8} {m : Mint}
    (h : Mint.unpackFromSlice data = some m) :
    TokenAccount.unpackFromSlice data = none :=
  Mint.fixedSize.decodeAll_ne TokenAccount.fixedSize (by decide) h

/-- Packing over data of the length of the record replaces it. -/
theorem AccountInfo.packIntoData_run {info : AccountInfo κ} {packed : List UInt8} {m : Machine κ}
    (hl : (m.cells info.account).data.length = packed.length) :
    info.packIntoData packed m = (.ok (),m.setData info.account packed) := by
  have hd : packed ++ (m.cells info.account).data.drop packed.length = packed := by
    rw [← hl,List.drop_length,List.append_nil]
  have hp : ¬(m.cells info.account).data.length < packed.length := by omega
  simp only [packIntoData,tryBorrowData_bind,Exec.panicIf_false hp,Exec.pure_bind,setData_run,hd]
  rfl

namespace TokenProgram

section

omit [DecidableEq κ]

@[simp] theorem failIf_bind_ok {β : Type} {c : Prop} [Decidable c] {e : TokenError}
    {f : Unit → Prog κ β} {m m' : Machine κ} {b : β} :
    (failIf c e >>= f) m = (.ok b,m') ↔ ¬c ∧ f () m = (.ok b,m') := Exec.failIf_bind_ok

@[simp] theorem unpackMint_bind_ok {β : Type} {info : AccountInfo κ} {f : Mint → Prog κ β}
    {m m' : Machine κ} {b : β} : (unpackMint info >>= f) m = (.ok b,m') ↔
      ∃ mint, Mint.unpackFromSlice (m.cells info.account).data = some mint ∧
        f mint m = (.ok b,m') := by
  simp only [unpackMint,Exec.bind_assoc,AccountInfo.tryBorrowData_bind,Exec.orFail_bind_ok]

@[simp] theorem unpackTokenAccount_bind_ok {β : Type} {info : AccountInfo κ}
    {f : TokenAccount → Prog κ β} {m m' : Machine κ} {b : β} :
    (unpackTokenAccount info >>= f) m = (.ok b,m') ↔
      ∃ account, TokenAccount.unpackFromSlice (m.cells info.account).data = some account ∧
        f account m = (.ok b,m') := by
  simp only [unpackTokenAccount,Exec.bind_assoc,AccountInfo.tryBorrowData_bind,Exec.orFail_bind_ok]

@[simp] theorem readRent_bind_ok {β : Type} {sysvars : Sysvars} {info : AccountInfo κ}
    {f : Rent → Prog κ β} {m m' : Machine κ} {b : β} :
    (readRent sysvars info >>= f) m = (.ok b,m') ↔
      ∃ rent, sysvars.rentExact (m.cells info.account).data = some rent ∧
        f rent m = (.ok b,m') := by
  simp only [readRent,Exec.bind_assoc,AccountInfo.tryBorrowData_bind,Exec.orFail_bind_ok]

end

theorem packMint_run {info : AccountInfo κ} {old mint : Mint} {m : Machine κ}
    (h : Mint.unpackFromSlice (m.cells info.account).data = some old) :
    packMint mint info m = (.ok (),m.setData info.account (Mint.codec.encode mint)) :=
  info.packIntoData_run (by
    rw [Mint.unpack_eq_some.mp h,Mint.encode_length,Mint.encode_length])

theorem packTokenAccount_run {info : AccountInfo κ} {old account : TokenAccount} {m : Machine κ}
    (h : TokenAccount.unpackFromSlice (m.cells info.account).data = some old) :
    packTokenAccount account info m =
      (.ok (),m.setData info.account (TokenAccount.codec.encode account)) :=
  info.packIntoData_run (by
    rw [TokenAccount.unpack_eq_some.mp h,TokenAccount.encode_length,TokenAccount.encode_length])

/-- A token account is still one after another one was packed, over it or elsewhere. -/
theorem unpackTokenAccount_setData {c d : κ} {t old : TokenAccount} {m : Machine κ}
    (h : TokenAccount.unpackFromSlice (m.cells d).data = some old) :
    ∃ t', TokenAccount.unpackFromSlice ((m.setData c (TokenAccount.codec.encode t)).cells d).data =
      some t' := by
  by_cases hd : d = c
  · subst hd
    exact ⟨t,by simp⟩
  · exact ⟨old,by rw [Machine.setData_of_ne _ hd,h]⟩

/-- A successful instruction, with the checks it has passed. -/
inductive Effect (sysvars : Sysvars) (exec : ProgramExecutor κ) (ctx : InvokeContext) :
    TokenInstruction → List (AccountInfo κ) → Machine κ → Machine κ → Prop where
  | mint {amount : UInt64} {authority mintInfo destination : AccountInfo κ}
      {rest : List (AccountInfo κ)} {m : Machine κ} {mint : Mint} {account : TokenAccount} :
      authority.isSigner = true →
      Mint.unpackFromSlice (m.cells mintInfo.account).data = some mint →
      mint.mintAuthority = authority.pubkey →
      TokenAccount.unpackFromSlice (m.cells destination.account).data = some account →
      account.mint = mintInfo.pubkey →
      Effect sysvars exec ctx (.mint amount) (authority :: mintInfo :: destination :: rest) m
        ((m.setData mintInfo.account
            (Mint.codec.encode { mint with supply := satAdd mint.supply amount })).setData
          destination.account
            (TokenAccount.codec.encode { account with amount := satAdd account.amount amount }))
  | transfer {amount : UInt64} {owner source destination : AccountInfo κ}
      {rest : List (AccountInfo κ)} {m : Machine κ} {from_ to_ : TokenAccount} :
      owner.isSigner = true →
      TokenAccount.unpackFromSlice (m.cells source.account).data = some from_ →
      from_.owner = owner.pubkey →
      TokenAccount.unpackFromSlice (m.cells destination.account).data = some to_ →
      from_.mint = to_.mint → amount ≤ from_.amount →
      Effect sysvars exec ctx (.transfer amount) (owner :: source :: destination :: rest) m
        ((m.setData source.account
            (TokenAccount.codec.encode { from_ with amount := satSub from_.amount amount })).setData
          destination.account
            (TokenAccount.codec.encode { to_ with amount := satAdd to_.amount amount }))
  | setAuthority {newAuthority : Pubkey} {target current : AccountInfo κ}
      {rest : List (AccountInfo κ)} {m m' : Machine κ} : current.isSigner = true →
      ctx.invoke exec (SystemProgram.createAssignInstruction target.pubkey newAuthority)
        [target] m = (.ok (),m') →
      Effect sysvars exec ctx (.setAuthority newAuthority) (target :: current :: rest) m m'
  | initializeMint {decimals : UInt8} {mintAuthority : Pubkey} {mintInfo rentInfo : AccountInfo κ}
      {rest : List (AccountInfo κ)} {m : Machine κ} {rent : Rent} {mint : Mint} :
      sysvars.rentExact (m.cells rentInfo.account).data = some rent →
      Mint.unpackFromSlice (m.cells mintInfo.account).data = some mint →
        mint.isInitialized = false →
      rent.isExempt (m.cells mintInfo.account).lamports
        (m.cells mintInfo.account).data.length = true →
      Effect sysvars exec ctx (.initializeMint decimals mintAuthority)
        (mintInfo :: rentInfo :: rest) m
        (m.setData mintInfo.account (Mint.codec.encode ⟨mintAuthority,0,decimals,true⟩))
  | initializeAccount {accountInfo mintInfo ownerInfo rentInfo : AccountInfo κ}
      {rest : List (AccountInfo κ)} {m : Machine κ} {rent : Rent} {account : TokenAccount}
      {mint : Mint} :
      sysvars.rentExact (m.cells rentInfo.account).data = some rent →
      TokenAccount.unpackFromSlice (m.cells accountInfo.account).data = some account →
      account.isInitialized = false →
      rent.isExempt (m.cells accountInfo.account).lamports
        (m.cells accountInfo.account).data.length = true →
      Mint.unpackFromSlice (m.cells mintInfo.account).data = some mint → mint.isInitialized = true →
      Effect sysvars exec ctx .initializeAccount
        (accountInfo :: mintInfo :: ownerInfo :: rentInfo :: rest) m
        (m.setData accountInfo.account
          (TokenAccount.codec.encode ⟨mintInfo.pubkey,ownerInfo.pubkey,0,true⟩))

variable {sysvars : Sysvars} {exec : ProgramExecutor κ} {ctx : InvokeContext}
  {accounts : List (AccountInfo κ)} {m m' : Machine κ}

theorem mint_effect {amount : UInt64} (h : mint amount accounts m = (.ok (),m')) :
    Effect sysvars exec ctx (.mint amount) accounts m m' := by
  match accounts with
  | [] | [_] | [_,_] => simp [mint] at h
  | authority :: mintInfo :: destination :: rest =>
    simp only [mint,failIf_bind_ok,not_not,unpackMint_bind_ok,unpackTokenAccount_bind_ok] at h
    obtain ⟨hs,mint,hm,ha,account,hd,hk,h⟩ := h
    have hne : destination.account ≠ mintInfo.account := by
      intro he
      rw [he,Mint.not_tokenAccount hm] at hd
      cases hd
    obtain ⟨u,m₁,h₁,h⟩ := Exec.bind_ok.mp h
    rw [packMint_run hm] at h₁
    cases h₁
    rw [packTokenAccount_run (by rw [Machine.setData_of_ne _ hne,hd])] at h
    cases h
    exact .mint hs hm ha hd hk

theorem transfer_effect {amount : UInt64} (h : transfer amount accounts m = (.ok (),m')) :
    Effect sysvars exec ctx (.transfer amount) accounts m m' := by
  match accounts with
  | [] | [_] | [_,_] => simp [transfer] at h
  | owner :: source :: destination :: rest =>
    simp only [transfer,failIf_bind_ok,not_not,unpackTokenAccount_bind_ok] at h
    obtain ⟨hs,from_,hf,ho,to_,ht,hm,ha,h⟩ := h
    obtain ⟨u,m₁,h₁,h⟩ := Exec.bind_ok.mp h
    rw [packTokenAccount_run hf] at h₁
    cases h₁
    obtain ⟨t,ht'⟩ := unpackTokenAccount_setData ht
    rw [packTokenAccount_run ht'] at h
    cases h
    exact .transfer hs hf ho ht hm (UInt64.not_lt.mp ha)

theorem setAuthority_effect {newAuthority : Pubkey}
    (h : setAuthority exec ctx newAuthority accounts m = (.ok (),m')) :
    Effect sysvars exec ctx (.setAuthority newAuthority) accounts m m' := by
  match accounts with
  | [] | [_] => simp [setAuthority] at h
  | target :: current :: rest =>
    simp only [setAuthority,failIf_bind_ok,not_not] at h
    exact .setAuthority h.1 h.2

theorem initializeMint_effect {decimals : UInt8} {mintAuthority : Pubkey}
    (h : initializeMint sysvars decimals mintAuthority accounts m = (.ok (),m')) :
    Effect sysvars exec ctx (.initializeMint decimals mintAuthority) accounts m m' := by
  match accounts with
  | [] | [_] => simp [initializeMint] at h
  | mintInfo :: rentInfo :: rest =>
    simp only [initializeMint,failIf_bind_ok,not_not,readRent_bind_ok,unpackMint_bind_ok,
      AccountInfo.lamports_bind,AccountInfo.tryBorrowData_bind] at h
    obtain ⟨rent,hr,mint,hm,hi,he,h⟩ := h
    rw [packMint_run hm] at h
    cases h
    exact .initializeMint hr hm (Bool.not_eq_true _ ▸ hi) he

theorem initializeAccount_effect (h : initializeAccount sysvars accounts m = (.ok (),m')) :
    Effect sysvars exec ctx .initializeAccount accounts m m' := by
  match accounts with
  | [] | [_] | [_,_] | [_,_,_] => simp [initializeAccount] at h
  | accountInfo :: mintInfo :: ownerInfo :: rentInfo :: rest =>
    simp only [initializeAccount,failIf_bind_ok,not_not,readRent_bind_ok,unpackMint_bind_ok,
      unpackTokenAccount_bind_ok,AccountInfo.lamports_bind,AccountInfo.tryBorrowData_bind] at h
    obtain ⟨rent,hr,account,ha,hi,he,mint,hm,hmi,h⟩ := h
    rw [packTokenAccount_run ha] at h
    cases h
    exact .initializeAccount hr ha (Bool.not_eq_true _ ▸ hi) he hm hmi

theorem run_effect {i : TokenInstruction} (h : run sysvars exec ctx accounts i m = (.ok (),m')) :
    Effect sysvars exec ctx i accounts m m' := by
  cases i with
  | mint amount => exact mint_effect h
  | transfer amount => exact transfer_effect h
  | setAuthority newAuthority => exact setAuthority_effect h
  | initializeMint decimals mintAuthority => exact initializeMint_effect h
  | initializeAccount => exact initializeAccount_effect h

theorem entrypoint_effect (h : entrypoint sysvars exec ctx accounts m = (.ok (),m')) :
    ∃ i, TokenInstruction.codec.decodeAll ctx.instructionData = some i ∧
      Effect sysvars exec ctx i accounts m m' := by
  simp only [entrypoint,Exec.orFail_bind_ok] at h
  obtain ⟨i,hd,h⟩ := h
  exact ⟨i,hd,run_effect h⟩

end TokenProgram

end TinySolana
