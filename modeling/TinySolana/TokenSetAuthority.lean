import TinySolana.TokenAuthority

/-!
# Changing the authority of a token record

`SetAuthority` hands the change to the `Assign` of the System program, through a nested call that
runs on the caller's data. These are no System instruction, so nobody can change an authority.
-/

namespace TinySolana
open Foundations

/-- The authority of a mint or the owner of a token account. -/
def recordAuthority (data : List UInt8) : Option Pubkey :=
  ((Mint.unpackFromSlice data).map Mint.mintAuthority).or
    ((TokenAccount.unpackFromSlice data).map TokenAccount.owner)

/-- The record with another authority. -/
def withRecordAuthority (data : List UInt8) (newAuthority : Pubkey) : List UInt8 :=
  match Mint.unpackFromSlice data,TokenAccount.unpackFromSlice data with
  | some mint,_ => Mint.codec.encode { mint with mintAuthority := newAuthority }
  | none,some account => TokenAccount.codec.encode { account with owner := newAuthority }
  | none,none => data

theorem recordAuthority_mint {data : List UInt8} {mint : Mint}
    (h : Mint.unpackFromSlice data = some mint) :
      recordAuthority data = some mint.mintAuthority := by
  rw [recordAuthority,h]
  rfl

theorem recordAuthority_tokenAccount {data : List UInt8} {account : TokenAccount}
    (h : TokenAccount.unpackFromSlice data = some account) :
    recordAuthority data = some account.owner := by
  cases hm : Mint.unpackFromSlice data with
  | none =>
    rw [recordAuthority,hm,h]
    rfl
  | some mint =>
    rw [Mint.not_tokenAccount hm] at h
    cases h

/-- A record with another authority has that authority. -/
theorem recordAuthority_with {data : List UInt8} {authority : Pubkey}
    (h : recordAuthority data = some authority) (newAuthority : Pubkey) :
    recordAuthority (withRecordAuthority data newAuthority) = some newAuthority := by
  cases hm : Mint.unpackFromSlice data with
  | some mint =>
    rw [withRecordAuthority,hm]
    exact recordAuthority_mint (Mint.unpack_encode _)
  | none =>
    cases ht : TokenAccount.unpackFromSlice data with
    | some account =>
      rw [withRecordAuthority,hm,ht]
      exact recordAuthority_tokenAccount (TokenAccount.unpack_encode _)
    | none =>
      rw [recordAuthority,hm,ht] at h
      cases h

section

variable {κ : Type}

/-- The second account is the current authority of the first and has signed. -/
def CurrentSigned (accounts : List (AccountInfo κ)) (m : Machine κ) : Prop :=
  ∃ target current rest, accounts = target :: current :: rest ∧ current.isSigner = true ∧
    recordAuthority (m.cells target.account).data = some current.pubkey

variable [DecidableEq κ]

/-- Units of a record are issued or spent for one key only. -/
def AcceptedOnlyFrom (host : Host) (record : κ) (key : Pubkey) (m : Machine κ) : Prop :=
  ∀ (ctx : InvokeContext) (amount : UInt64) (authority info : AccountInfo κ)
    (rest : List (AccountInfo κ)) (m' : Machine κ), info.account = record →
    TokenInstruction.codec.decodeAll ctx.instructionData = some (.mint amount) ∨
      TokenInstruction.codec.decodeAll ctx.instructionData = some (.transfer amount) →
    TokenProgram.entrypoint host.sysvars (ChainedProgramExecutor.execute host) ctx
      (authority :: info :: rest) m = (.ok (),m') →
    authority.isSigner = true ∧ authority.pubkey = key

/-- The record of a cell has the new authority, and that is all that has changed. -/
structure AuthorityMoved (host : Host) (newAuthority : Pubkey) (c : κ) (m : Machine κ)
    (run : Outcome ProgramError Unit × Machine κ) : Prop where
  returns : run.1 = .ok ()
  record : run.2 = m.setData c (withRecordAuthority (m.cells c).data newAuthority)
  accepted : AcceptedOnlyFrom host c newAuthority run.2

/-- Mint and transfer ask for the authority that the record names. -/
theorem acceptedOnlyFrom_recordAuthority {host : Host} {c : κ} {key : Pubkey} {m : Machine κ}
    (h : recordAuthority (m.cells c).data = some key) : AcceptedOnlyFrom host c key m := by
  rintro ctx amount authority info rest m' rfl hd hrun
  obtain ⟨i,hi,he⟩ := TokenProgram.entrypoint_effect hrun
  cases he with
  | mint hs hm ha _ _ =>
    rw [recordAuthority_mint hm,Option.some_inj] at h
    exact ⟨hs,ha.symm.trans h⟩
  | transfer hs hf ho _ _ _ =>
    rw [recordAuthority_tokenAccount hf,Option.some_inj] at h
    exact ⟨hs,ho.symm.trans h⟩
  | _ => simp [hi] at hd

/-- Where the record was moved, the new authority is the only one accepted. -/
theorem AuthorityMoved.of_record {host : Host} {newAuthority authority : Pubkey} {c : κ}
    {m m' : Machine κ} (h : recordAuthority (m.cells c).data = some authority)
    (hm : m' = m.setData c (withRecordAuthority (m.cells c).data newAuthority)) :
    AuthorityMoved host newAuthority c m (.ok (),m') := by
  subst hm
  refine ⟨rfl,rfl,acceptedOnlyFrom_recordAuthority ?_⟩
  rw [Machine.setData_self]
  exact recordAuthority_with h newAuthority

/-- The current authority moves the record on, and anyone else fails and changes nothing. -/
structure AuthorityHandedOn (host : Host) (newAuthority : Pubkey) (accounts : List (AccountInfo κ))
    (m : Machine κ) (run : Outcome ProgramError Unit × Machine κ) : Prop where
  current : CurrentSigned accounts m → ∀ target rest, accounts = target :: rest →
    AuthorityMoved host newAuthority target.account m run
  other : ¬CurrentSigned accounts m → (∃ e, run.1 = .err e) ∧ run.2 = m

end

namespace TokenProgram

variable {κ : Type} [DecidableEq κ] {host : Host} {ctx : InvokeContext} {newAuthority : Pubkey}
  {d : ℕ}

/-- `SetAuthority` fails whoever signs. -/
theorem setAuthority_fails
    (h : TokenInstruction.codec.decodeAll ctx.instructionData = some (.setAuthority newAuthority))
    (accounts : List (AccountInfo κ)) (m : Machine κ) :
    ∃ e, setAuthority (ChainedProgramExecutor.executeAt host (d+1)) ctx newAuthority accounts m =
      (.err e,m) := by
  match accounts with
  | [] | [_] => exact ⟨_,rfl⟩
  | target :: current :: rest =>
    rw [setAuthority]
    by_cases hs : ¬current.isSigner = true
    · exact ⟨_,Exec.failIf_bind_refused hs _ _ m⟩
    · have hcall : ctx.invoke (ChainedProgramExecutor.executeAt host (d+1))
          (SystemProgram.createAssignInstruction target.pubkey newAuthority) [target] m =
            (.err .invalidInstructionData,m) := invoke_assign_fails h d
      exact ⟨_,(Exec.failIf_bind_passed hs _ _ m).trans hcall⟩

end TokenProgram

/-- The authority is handed on as it should be exactly when it is not the current one that asks. -/
theorem set_authority_iff {κ : Type} [DecidableEq κ] (host : Host) (ctx : InvokeContext)
    (newAuthority : Pubkey) (accounts : List (AccountInfo κ)) (m : Machine κ)
    (h : TokenInstruction.codec.decodeAll ctx.instructionData = some (.setAuthority newAuthority)) :
    AuthorityHandedOn host newAuthority accounts m
      (TokenProgram.entrypoint host.sysvars (ChainedProgramExecutor.execute host) ctx accounts m) ↔
        ¬CurrentSigned accounts m := by
  obtain ⟨e,he⟩ : ∃ e, TokenProgram.setAuthority (ChainedProgramExecutor.execute host)
    ctx newAuthority
      accounts m = (.err e,m) := TokenProgram.setAuthority_fails (d := 1) h accounts m
  have hrun : TokenProgram.entrypoint host.sysvars (ChainedProgramExecutor.execute host)
      ctx accounts m = (.err e,m) := by
    rw [TokenProgram.entrypoint,h]
    exact he
  rw [hrun]
  constructor
  · rintro hh hs
    obtain ⟨target,current,rest,rfl,-⟩ := id hs
    cases (hh.current hs target _ rfl).returns
  · exact fun hn => ⟨fun hs => absurd hs hn,fun _ => ⟨⟨e,rfl⟩,rfl⟩⟩

/-! ## An owner that asks -/

/-- Hand the first account of two on to another key, in the name of the given one. -/
def handOnAccounts (key : Pubkey) : List (AccountInfo (Fin 3)) :=
  [⟨.ofByte 1,false,true,⟨0,by decide⟩,false,0⟩,⟨key,true,false,⟨2,by decide⟩,false,0⟩]

def handOnContext : InvokeContext :=
  ⟨tokenProgramId,TokenInstruction.codec.encode (.setAuthority (.ofByte 5)),300⟩

/-- The owner of a token account signs, and the account keeps its owner. -/
theorem owner_cannot_be_changed :
    CurrentSigned (handOnAccounts (.ofByte 3)) accountsMachine ∧
    TokenProgram.entrypoint (default : Host).sysvars (ChainedProgramExecutor.execute default)
      handOnContext (handOnAccounts (.ofByte 3)) accountsMachine =
        (.err .invalidInstructionData,accountsMachine) ∧
    ¬AuthorityHandedOn default (.ofByte 5) (handOnAccounts (.ofByte 3)) accountsMachine
      (TokenProgram.entrypoint (default : Host).sysvars (ChainedProgramExecutor.execute default)
        handOnContext (handOnAccounts (.ofByte 3)) accountsMachine) := by
  have hs : CurrentSigned (handOnAccounts (.ofByte 3)) accountsMachine :=
    ⟨_,_,_,rfl,rfl,by decide⟩
  have hrun : TokenProgram.entrypoint (default : Host).sysvars
    (ChainedProgramExecutor.execute default)
      handOnContext (handOnAccounts (.ofByte 3)) accountsMachine =
        (.err .invalidInstructionData,accountsMachine) := rfl
  refine ⟨hs,hrun,fun h => ?_⟩
  have hret := (h.current hs _ _ rfl).returns
  rw [hrun] at hret
  cases hret

/-- Another key than the owner asks in vain, as it should. -/
theorem stranger_changes_nothing :
    AuthorityHandedOn default (.ofByte 5) (handOnAccounts (.ofByte 4)) accountsMachine
      (TokenProgram.entrypoint (default : Host).sysvars (ChainedProgramExecutor.execute default)
        handOnContext (handOnAccounts (.ofByte 4)) accountsMachine) := by
  refine (set_authority_iff _ _ _ _ _ (by decide)).mpr ?_
  rintro ⟨_,_,_,⟨⟩,-,ha⟩
  revert ha
  decide

end TinySolana
