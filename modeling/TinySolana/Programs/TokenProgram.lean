import TinySolana.Programs.SystemProgram

/-!
# Token program
-/

namespace TinySolana
open Foundations

/-- The errors of the token program, in the order that numbers them. -/
inductive TokenError where
  | notEnoughAccountKeys
  | missingRequiredSignature
  | authorityMismatch
  | tokenAccountMintMismatch
  | sourceNotOwnedBySigner
  | mintMismatch
  | alreadyInitialized
  | mintNotInitialized
  | notRentExempt
  | insufficientFunds
  deriving DecidableEq

/-- `From<TokenError> for ProgramError`. -/
def TokenError.toProgramError : TokenError → ProgramError
  | insufficientFunds => .insufficientFunds
  | notEnoughAccountKeys => .notEnoughAccountKeys
  | missingRequiredSignature => .missingRequiredSignature
  | e => .custom (UInt32.ofNat e.ctorIdx)

structure Mint where
  mintAuthority : Pubkey
  supply : UInt64
  decimals : UInt8
  isInitialized : Bool
  deriving DecidableEq

structure TokenAccount where
  mint : Pubkey
  owner : Pubkey
  amount : UInt64
  isInitialized : Bool
  deriving DecidableEq

/-- `Mint::LEN`. -/
def Mint.len : ℕ := 32+8+1+1

/-- `TokenAccount::LEN`. -/
def TokenAccount.len : ℕ := 32+32+8+1

def Mint.codec : Codec Mint := (Pubkey.codec.seq (Codec.u64.seq (Codec.u8.seq .bool))).iso
  { toFun p := ⟨p.1,p.2.1,p.2.2.1,p.2.2.2⟩
    invFun m := (m.mintAuthority,m.supply,m.decimals,m.isInitialized)
    left_inv _ := rfl
    right_inv _ := rfl }

def TokenAccount.codec : Codec TokenAccount :=
  (Pubkey.codec.seq (Pubkey.codec.seq (Codec.u64.seq .bool))).iso
  { toFun p := ⟨p.1,p.2.1,p.2.2.1,p.2.2.2⟩
    invFun t := (t.mint,t.owner,t.amount,t.isInitialized)
    left_inv _ := rfl
    right_inv _ := rfl }

/-- `Mint::unpack_from_slice`. -/
def Mint.unpackFromSlice (data : List UInt8) : Option Mint := codec.decodeAll data

/-- `TokenAccount::unpack_from_slice`. -/
def TokenAccount.unpackFromSlice (data : List UInt8) : Option TokenAccount := codec.decodeAll data

inductive TokenInstruction where
  | mint (amount : UInt64)
  | transfer (amount : UInt64)
  | setAuthority (newAuthority : Pubkey)
  | initializeMint (decimals : UInt8) (mintAuthority : Pubkey)
  | initializeAccount
  deriving DecidableEq

def TokenInstruction.codec : Codec TokenInstruction :=
  (EnumCodec.codec (.variant .u64 (.variant .u64 (.variant Pubkey.codec
    (.variant (Codec.u8.seq Pubkey.codec) (.variant .unit (.done 5 (by decide)))))))).iso
  { toFun
      | .inl amount => mint amount
      | .inr (.inl amount) => transfer amount
      | .inr (.inr (.inl newAuthority)) => setAuthority newAuthority
      | .inr (.inr (.inr (.inl (decimals,mintAuthority)))) => initializeMint decimals mintAuthority
      | .inr (.inr (.inr (.inr (.inl _)))) => initializeAccount
    invFun
      | mint amount => .inl amount
      | transfer amount => .inr (.inl amount)
      | setAuthority newAuthority => .inr (.inr (.inl newAuthority))
      | initializeMint decimals mintAuthority => .inr (.inr (.inr (.inl (decimals,mintAuthority))))
      | initializeAccount => .inr (.inr (.inr (.inr (.inl ()))))
    left_inv := by rintro (_ | _ | _ | ⟨_,_⟩ | _ | ⟨⟨⟩⟩) <;> rfl
    right_inv := by rintro (_ | _ | _ | _ | _) <;> rfl }

namespace TokenProgram

variable {κ : Type} [DecidableEq κ]

/-- Fail with a token error. -/
def failIf (c : Prop) [Decidable c] (e : TokenError) : Prog κ Unit := Exec.failIf c e.toProgramError

/-- `Mint::unpack_from_slice` of the data of an account. -/
def unpackMint (info : AccountInfo κ) : Prog κ Mint := do
  Exec.orFail .invalidAccountData (Mint.unpackFromSlice (← info.tryBorrowData))

/-- `TokenAccount::unpack_from_slice` of the data of an account. -/
def unpackTokenAccount (info : AccountInfo κ) : Prog κ TokenAccount := do
  Exec.orFail .invalidAccountData (TokenAccount.unpackFromSlice (← info.tryBorrowData))

/-- `Mint::pack_into_slice` into the data of an account. -/
def packMint (mint : Mint) (info : AccountInfo κ) : Prog κ Unit :=
  info.packIntoData (Mint.codec.encode mint)

/-- `TokenAccount::pack_into_slice` into the data of an account. -/
def packTokenAccount (account : TokenAccount) (info : AccountInfo κ) : Prog κ Unit :=
  info.packIntoData (TokenAccount.codec.encode account)

/-- Read the rent sysvar. -/
def readRent (sysvars : Sysvars) (info : AccountInfo κ) : Prog κ Rent := do
  Exec.orFail (.internalError "failed to deserialize rent sysvar")
    (sysvars.rentExact (← info.tryBorrowData))

def mint (amount : UInt64) : List (AccountInfo κ) → Prog κ Unit
  | mintAuthorityInfo :: mintInfo :: destinationInfo :: _ => do
    failIf (¬mintAuthorityInfo.isSigner) .missingRequiredSignature
    let mint ← unpackMint mintInfo
    failIf (mint.mintAuthority ≠ mintAuthorityInfo.pubkey) .authorityMismatch
    let destinationAccount ← unpackTokenAccount destinationInfo
    failIf (destinationAccount.mint ≠ mintInfo.pubkey) .tokenAccountMintMismatch
    packMint { mint with supply := satAdd mint.supply amount } mintInfo
    packTokenAccount { destinationAccount with amount := satAdd destinationAccount.amount amount }
      destinationInfo
  | _ => Exec.throw TokenError.notEnoughAccountKeys.toProgramError

def transfer (amount : UInt64) : List (AccountInfo κ) → Prog κ Unit
  | ownerInfo :: sourceInfo :: destinationInfo :: _ => do
    failIf (¬ownerInfo.isSigner) .missingRequiredSignature
    let sourceAccount ← unpackTokenAccount sourceInfo
    failIf (sourceAccount.owner ≠ ownerInfo.pubkey) .sourceNotOwnedBySigner
    let destinationAccount ← unpackTokenAccount destinationInfo
    failIf (sourceAccount.mint ≠ destinationAccount.mint) .mintMismatch
    failIf (sourceAccount.amount < amount) .insufficientFunds
    packTokenAccount { sourceAccount with amount := satSub sourceAccount.amount amount } sourceInfo
    packTokenAccount { destinationAccount with amount := satAdd destinationAccount.amount amount }
      destinationInfo
  | _ => Exec.throw TokenError.notEnoughAccountKeys.toProgramError

def setAuthority (exec : ProgramExecutor κ) (ctx : InvokeContext) (newAuthority : Pubkey) :
    List (AccountInfo κ) → Prog κ Unit
  | targetAccountInfo :: currentAuthorityInfo :: _ => do
    failIf (¬currentAuthorityInfo.isSigner) .missingRequiredSignature
    let assignInstruction :=
      SystemProgram.createAssignInstruction targetAccountInfo.pubkey newAuthority
    ctx.invoke exec assignInstruction [targetAccountInfo]
  | _ => Exec.throw TokenError.notEnoughAccountKeys.toProgramError

def initializeMint (sysvars : Sysvars) (decimals : UInt8) (mintAuthority : Pubkey) :
    List (AccountInfo κ) → Prog κ Unit
  | mintInfo :: rentInfo :: _ => do
    let rent ← readRent sysvars rentInfo
    let mint ← unpackMint mintInfo
    failIf mint.isInitialized .alreadyInitialized
    let lamports ← mintInfo.lamports
    failIf (¬rent.isExempt lamports (← mintInfo.tryBorrowData).length) .notRentExempt
    packMint ⟨mintAuthority,0,decimals,true⟩ mintInfo
  | _ => Exec.throw TokenError.notEnoughAccountKeys.toProgramError

def initializeAccount (sysvars : Sysvars) : List (AccountInfo κ) → Prog κ Unit
  | tokenAccountInfo :: mintInfo :: ownerInfo :: rentInfo :: _ => do
    let rent ← readRent sysvars rentInfo
    let tokenAccount ← unpackTokenAccount tokenAccountInfo
    failIf tokenAccount.isInitialized .alreadyInitialized
    let lamports ← tokenAccountInfo.lamports
    failIf (¬rent.isExempt lamports (← tokenAccountInfo.tryBorrowData).length) .notRentExempt
    let mint ← unpackMint mintInfo
    failIf (¬mint.isInitialized) .mintNotInitialized
    packTokenAccount ⟨mintInfo.pubkey,ownerInfo.pubkey,0,true⟩ tokenAccountInfo
  | _ => Exec.throw TokenError.notEnoughAccountKeys.toProgramError

def run (sysvars : Sysvars) (exec : ProgramExecutor κ) (ctx : InvokeContext)
    (accounts : List (AccountInfo κ)) : TokenInstruction → Prog κ Unit
  | .mint amount => mint amount accounts
  | .transfer amount => transfer amount accounts
  | .setAuthority newAuthority => setAuthority exec ctx newAuthority accounts
  | .initializeMint decimals mintAuthority => initializeMint sysvars decimals mintAuthority accounts
  | .initializeAccount => initializeAccount sysvars accounts

def entrypoint (sysvars : Sysvars) (exec : ProgramExecutor κ) (ctx : InvokeContext)
    (accounts : List (AccountInfo κ)) : Prog κ Unit := do
  let instruction ← Exec.orFail .invalidInstructionData
    (TokenInstruction.codec.decodeAll ctx.instructionData)
  run sysvars exec ctx accounts instruction

end TokenProgram

end TinySolana
