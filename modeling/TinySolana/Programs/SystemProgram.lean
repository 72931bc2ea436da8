import TinySolana.Programs.Ids
import TinySolana.Runtime

/-!
# System program
-/

namespace TinySolana
open Foundations

inductive SystemInstruction where
  | transfer (lamports : UInt64)
  | assign (owner : Pubkey)
  | createAccount (lamports space : UInt64) (owner : Pubkey)
  deriving DecidableEq

namespace SystemInstruction

def codec : Codec SystemInstruction :=
  (EnumCodec.codec (.variant .u64 (.variant Pubkey.codec
    (.variant (Codec.u64.seq (Codec.u64.seq Pubkey.codec)) (.done 3 (by decide)))))).iso
  { toFun
      | .inl lamports => transfer lamports
      | .inr (.inl owner) => assign owner
      | .inr (.inr (.inl (lamports,space,owner))) => createAccount lamports space owner
    invFun
      | transfer lamports => .inl lamports
      | assign owner => .inr (.inl owner)
      | createAccount lamports space owner => .inr (.inr (.inl (lamports,space,owner)))
    left_inv := by rintro (_ | _ | ⟨_,_,_⟩ | ⟨⟨⟩⟩) <;> rfl
    right_inv := by rintro (_ | _ | _) <;> rfl }

theorem codec_fits (i : SystemInstruction) : codec.Fits i := by
  rcases i with _ | _ | _
  · exact trivial
  · exact trivial
  · exact ⟨trivial,trivial,trivial⟩

end SystemInstruction

namespace SystemProgram

variable {κ : Type}

def createAssignInstruction (targetPubkey newOwnerPubkey : Pubkey) : Instruction where
  programId := systemProgramId
  accounts := [⟨targetPubkey,true,true⟩]
  data := SystemInstruction.codec.encode (.assign newOwnerPubkey)

def createAccountInstruction (fromPubkey toPubkey : Pubkey) (lamports space : UInt64)
    (owner : Pubkey) : Instruction where
  programId := systemProgramId
  accounts := [⟨fromPubkey,true,true⟩,⟨toPubkey,true,true⟩]
  data := SystemInstruction.codec.encode (.createAccount lamports space owner)

variable [DecidableEq κ]

def transfer (lamports : UInt64) : List (AccountInfo κ) → Prog κ Unit
  | fromInfo :: toInfo :: _ => do
    Exec.failIf (¬fromInfo.isSigner) .missingRequiredSignature
    Exec.failIf ((← fromInfo.lamports) < lamports) .insufficientFunds
    fromInfo.setLamports (satSub (← fromInfo.lamports) lamports)
    toInfo.setLamports (satAdd (← toInfo.lamports) lamports)
  | _ => Exec.throw (.internalError "transfer requires 2 accounts")

def assign (owner : Pubkey) : List (AccountInfo κ) → Prog κ Unit
  | targetAccount :: _ => do
    Exec.failIf (¬targetAccount.isSigner) .missingRequiredSignature
    targetAccount.setOwner owner
  | _ => Exec.throw (.internalError "assign requires 1 account")

/-- `vec![0; space]` panics when it is asked for more than `isize::MAX` bytes. -/
def createAccount (lamports space : UInt64) (owner : Pubkey) : List (AccountInfo κ) → Prog κ Unit
  | fromInfo :: toInfo :: _ => do
    Exec.failIf (¬fromInfo.isSigner ∨ ¬toInfo.isSigner) .missingRequiredSignature
    Exec.failIf ((← fromInfo.lamports) < lamports) .insufficientFunds
    fromInfo.setLamports (satSub (← fromInfo.lamports) lamports)
    toInfo.setLamports (satAdd (← toInfo.lamports) lamports)
    Exec.panicIf (2^63 ≤ space.toNat)
    toInfo.setData (List.replicate space.toNat 0)
    toInfo.setOwner owner
  | _ => Exec.throw .notEnoughAccountKeys

def run (accounts : List (AccountInfo κ)) : SystemInstruction → Prog κ Unit
  | .transfer lamports => transfer lamports accounts
  | .assign owner => assign owner accounts
  | .createAccount lamports space owner => createAccount lamports space owner accounts

def entrypoint (ctx : InvokeContext) (accounts : List (AccountInfo κ)) : Prog κ Unit := do
  let instruction ← Exec.orFail .invalidInstructionData
    (SystemInstruction.codec.decodeAll ctx.instructionData)
  run accounts instruction

end SystemProgram

end TinySolana
