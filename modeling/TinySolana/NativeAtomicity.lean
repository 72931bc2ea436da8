import TinySolana.Foundations.Atomic
import TinySolana.TokenSetAuthority

/-!
# Errors of System and token instructions

Both entrypoints make all their checks before they write, and packing a record into data can panic
but not fail. The nested System instruction of `SetAuthority` is the last thing that is done. So an
error leaves everything as it was, however the infos share their cells.
-/

namespace TinySolana
open Foundations Exec

variable {κ : Type}

/-! ## Reading accounts -/

namespace AccountInfo

theorem lamports_reads (info : AccountInfo κ) : Keeps Eq info.lamports := fun _ => rfl

theorem lamports_neverFails (info : AccountInfo κ) : NeverFails info.lamports := fun _ _ => nofun

theorem tryBorrowData_reads (info : AccountInfo κ) : Keeps Eq info.tryBorrowData := fun _ => rfl

variable [DecidableEq κ]

theorem borrowMut_neverFails (info : AccountInfo κ) (f : Account → Account) :
    NeverFails (info.borrowMut f) := .modify _

/-- Data that are too short for a record make packing panic. -/
theorem packIntoData_neverFails (info : AccountInfo κ) (packed : List UInt8) :
    NeverFails (info.packIntoData packed) := by
  refine .bind (fun _ _ => nofun) fun data => .bind (.panicIf _) fun _ => ?_
  exact info.borrowMut_neverFails _

end AccountInfo

variable [DecidableEq κ]

/-! ## The System program -/

namespace SystemProgram

variable {ctx : InvokeContext} {accounts : List (AccountInfo κ)}

theorem transfer_atomic (lamports : UInt64) : Atomic (transfer lamports accounts) := by
  match accounts with
  | [] | [_] => exact .throw _
  | fromInfo :: toInfo :: rest =>
    refine .bind (.failIf _ _) fun _ => .bind fromInfo.lamports_reads fun _ => ?_
    refine .bind (.failIf _ _) fun _ => NeverFails.atomic ?_
    refine .bind fromInfo.lamports_neverFails fun _ =>
      .bind (fromInfo.borrowMut_neverFails _) fun _ => ?_
    exact .bind toInfo.lamports_neverFails fun _ => toInfo.borrowMut_neverFails _

theorem assign_atomic (owner : Pubkey) : Atomic (assign owner accounts) := by
  match accounts with
  | [] => exact .throw _
  | target :: rest => exact .bind (.failIf _ _) fun _ => (target.borrowMut_neverFails _).atomic

theorem createAccount_atomic (lamports space : UInt64) (owner : Pubkey) :
    Atomic (createAccount lamports space owner accounts) := by
  match accounts with
  | [] | [_] => exact .throw _
  | fromInfo :: toInfo :: rest =>
    refine .bind (.failIf _ _) fun _ => .bind fromInfo.lamports_reads fun _ => ?_
    refine .bind (.failIf _ _) fun _ => NeverFails.atomic ?_
    refine .bind fromInfo.lamports_neverFails fun _ =>
      .bind (fromInfo.borrowMut_neverFails _) fun _ => ?_
    refine .bind toInfo.lamports_neverFails fun _ =>
      .bind (toInfo.borrowMut_neverFails _) fun _ => ?_
    refine .bind (.panicIf _) fun _ => .bind (toInfo.borrowMut_neverFails _) fun _ => ?_
    exact toInfo.borrowMut_neverFails _

theorem entrypoint_atomic : Atomic (entrypoint ctx accounts) := by
  refine .bind (.orFail _ _) fun i => ?_
  cases i with
  | transfer lamports => exact transfer_atomic lamports
  | assign owner => exact assign_atomic owner
  | createAccount lamports space owner => exact createAccount_atomic lamports space owner

end SystemProgram

/-! ## The token program -/

namespace TokenProgram

section

omit [DecidableEq κ]

theorem unpackMint_reads (info : AccountInfo κ) : Keeps Eq (unpackMint info) :=
  .bind info.tryBorrowData_reads fun _ => .orFail _ _

theorem unpackTokenAccount_reads (info : AccountInfo κ) : Keeps Eq (unpackTokenAccount info) :=
  .bind info.tryBorrowData_reads fun _ => .orFail _ _

theorem readRent_reads (sysvars : Sysvars) (info : AccountInfo κ) :
    Keeps Eq (readRent sysvars info) :=
  .bind info.tryBorrowData_reads fun _ => .orFail _ _

theorem failIf_reads (c : Prop) [Decidable c] (e : TokenError) :
    Keeps Eq (failIf c e : Prog κ Unit) := .failIf _ _

end

variable {ctx : InvokeContext} {accounts : List (AccountInfo κ)}

theorem mint_atomic (amount : UInt64) : Atomic (mint amount accounts) := by
  match accounts with
  | [] | [_] | [_,_] => exact .throw _
  | authority :: mintInfo :: destination :: rest =>
    refine .bind (failIf_reads _ _) fun _ => .bind (unpackMint_reads mintInfo) fun mint => ?_
    refine .bind (failIf_reads _ _) fun _ =>
      .bind (unpackTokenAccount_reads destination) fun to_ => ?_
    refine .bind (failIf_reads _ _) fun _ => NeverFails.atomic ?_
    exact .bind (mintInfo.packIntoData_neverFails _) fun _ => destination.packIntoData_neverFails _

theorem transfer_atomic (amount : UInt64) : Atomic (transfer amount accounts) := by
  match accounts with
  | [] | [_] | [_,_] => exact .throw _
  | owner :: source :: destination :: rest =>
    refine .bind (failIf_reads _ _) fun _ => .bind (unpackTokenAccount_reads source) fun from_ => ?_
    refine .bind (failIf_reads _ _) fun _ =>
      .bind (unpackTokenAccount_reads destination) fun to_ => ?_
    refine .bind (failIf_reads _ _) fun _ => .bind (failIf_reads _ _) fun _ => NeverFails.atomic ?_
    exact .bind (source.packIntoData_neverFails _) fun _ => destination.packIntoData_neverFails _

omit [DecidableEq κ] in
/-- Behind its check `SetAuthority` is its nested instruction. -/
theorem setAuthority_atomic {exec : ProgramExecutor κ} (newAuthority : Pubkey)
    (h : ∀ (i : Instruction) (ctx : InvokeContext) (accounts : List (AccountInfo κ)),
      i.programId = systemProgramId → Atomic (exec i ctx accounts)) :
    Atomic (setAuthority exec ctx newAuthority accounts) := by
  match accounts with
  | [] | [_] => exact .throw _
  | target :: current :: rest => exact .bind (failIf_reads _ _) fun _ => h _ ctx [target] rfl

theorem initializeMint_atomic (sysvars : Sysvars) (decimals : UInt8) (mintAuthority : Pubkey) :
    Atomic (initializeMint sysvars decimals mintAuthority accounts) := by
  match accounts with
  | [] | [_] => exact .throw _
  | mintInfo :: rentInfo :: rest =>
    refine .bind (readRent_reads _ rentInfo) fun rent =>
      .bind (unpackMint_reads mintInfo) fun mint => ?_
    refine .bind (failIf_reads _ _) fun _ => .bind mintInfo.lamports_reads fun lamports => ?_
    refine .bind mintInfo.tryBorrowData_reads fun data => .bind (failIf_reads _ _) fun _ => ?_
    exact (mintInfo.packIntoData_neverFails _).atomic

theorem initializeAccount_atomic (sysvars : Sysvars) :
    Atomic (initializeAccount sysvars accounts) := by
  match accounts with
  | [] | [_] | [_,_] | [_,_,_] => exact .throw _
  | accountInfo :: mintInfo :: ownerInfo :: rentInfo :: rest =>
    refine .bind (readRent_reads _ rentInfo) fun rent => ?_
    refine .bind (unpackTokenAccount_reads accountInfo) fun account => ?_
    refine .bind (failIf_reads _ _) fun _ => .bind accountInfo.lamports_reads fun lamports => ?_
    refine .bind accountInfo.tryBorrowData_reads fun data => .bind (failIf_reads _ _) fun _ => ?_
    refine .bind (unpackMint_reads mintInfo) fun mint => .bind (failIf_reads _ _) fun _ => ?_
    exact (accountInfo.packIntoData_neverFails _).atomic

theorem entrypoint_atomic {exec : ProgramExecutor κ} (sysvars : Sysvars)
    (h : ∀ (i : Instruction) (ctx : InvokeContext) (accounts : List (AccountInfo κ)),
      i.programId = systemProgramId → Atomic (exec i ctx accounts)) :
    Atomic (entrypoint sysvars exec ctx accounts) := by
  refine .bind (.orFail _ _) fun i => ?_
  cases i with
  | mint amount => exact mint_atomic amount
  | transfer amount => exact transfer_atomic amount
  | setAuthority newAuthority => exact setAuthority_atomic newAuthority h
  | initializeMint decimals mintAuthority =>
    exact initializeMint_atomic sysvars decimals mintAuthority
  | initializeAccount => exact initializeAccount_atomic sysvars

end TokenProgram

/-- A System or token instruction that fails leaves every account as it was, also where the nested
instruction of `SetAuthority` is what fails. -/
theorem native_errors_atomic (host : Host) (ctx : InvokeContext) (accounts : List (AccountInfo κ))
    (m m' : Machine κ) (e : ProgramError)
    (h : SystemProgram.entrypoint ctx accounts m = (.err e,m') ∨
      TokenProgram.entrypoint host.sysvars (ChainedProgramExecutor.execute host) ctx accounts m =
        (.err e,m')) :
    ∀ c, m'.cells c = m.cells c := by
  intro c
  rcases h with h | h
  · rw [SystemProgram.entrypoint_atomic m m' e h]
  · have hnested : ∀ (i : Instruction) (ctx : InvokeContext) (accounts : List (AccountInfo κ)),
        i.programId = systemProgramId →
        Atomic (ChainedProgramExecutor.execute host i ctx accounts) := by
      intro i ctx accounts hi
      rw [ChainedProgramExecutor.execute_system host hi]
      exact SystemProgram.entrypoint_atomic
    rw [TokenProgram.entrypoint_atomic host.sysvars hnested m m' e h]

/-- The nested instruction of an owner that hands its account on fails and leaves no trace. -/
theorem failed_set_authority_traceless :
    let run := TokenProgram.entrypoint (default : Host).sysvars
      (ChainedProgramExecutor.execute default)
      handOnContext (handOnAccounts (.ofByte 3)) accountsMachine
    run.1 = .err .invalidInstructionData ∧ ∀ c, run.2.cells c = accountsMachine.cells c := by
  intro run
  have herr : run.1 = .err .invalidInstructionData := rfl
  exact ⟨herr,native_errors_atomic default handOnContext (handOnAccounts (.ofByte 3))
    accountsMachine run.2 _ (.inr (Exec.run_of_result herr))⟩

end TinySolana
