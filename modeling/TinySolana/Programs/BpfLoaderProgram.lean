import TinySolana.Programs.SystemProgram

/-!
# Upgradeable loader
-/

namespace TinySolana
open Foundations

/-- The errors of the loader, in the order that numbers them. -/
inductive BpfLoaderError where
  | notEnoughAccountKeys
  | invalidAccountData
  | invalidBufferAccount
  | invalidProgramAccount
  | immutableBuffer
  | incorrectAuthority
  | missingRequiredSignature
  | accountAlreadyInitialized
  | accountDataTooSmall
  | accountNotRentExempt
  | maxDataLengthTooSmall
  | invalidArgument
  | bufferAccountTooSmall
  deriving DecidableEq

/-- `From<BpfLoaderError> for ProgramError`. -/
def BpfLoaderError.toProgramError : BpfLoaderError → ProgramError
  | invalidAccountData => .invalidAccountData
  | missingRequiredSignature => .missingRequiredSignature
  | notEnoughAccountKeys => .notEnoughAccountKeys
  | e => .custom (UInt32.ofNat e.ctorIdx)

inductive UpgradeableLoaderState where
  | uninitialized
  | buffer (authorityAddress : Option Pubkey)
  | program (programdataAddress : Pubkey)
  | programData (slot : UInt64) (authorityAddress : Option Pubkey)
  deriving DecidableEq

namespace UpgradeableLoaderState

def codec : Codec UpgradeableLoaderState :=
  (EnumCodec.codec (.variant .unit (.variant (.option Pubkey.codec) (.variant Pubkey.codec
    (.variant (Codec.u64.seq (.option Pubkey.codec)) (.done 4 (by decide))))))).iso
  { toFun
      | .inl _ => uninitialized
      | .inr (.inl authorityAddress) => buffer authorityAddress
      | .inr (.inr (.inl programdataAddress)) => program programdataAddress
      | .inr (.inr (.inr (.inl (slot,authorityAddress)))) => programData slot authorityAddress
    invFun
      | uninitialized => .inl ()
      | buffer authorityAddress => .inr (.inl authorityAddress)
      | program programdataAddress => .inr (.inr (.inl programdataAddress))
      | programData slot authorityAddress => .inr (.inr (.inr (.inl (slot,authorityAddress))))
    left_inv := by rintro (_ | _ | _ | ⟨_,_⟩ | ⟨⟨⟩⟩) <;> rfl
    right_inv := by rintro (_ | _ | _ | _) <;> rfl }

theorem codec_fits (s : UpgradeableLoaderState) : codec.Fits s := by
  rcases s with _ | _ | _ | _
  · exact trivial
  · exact fun _ _ => trivial
  · exact trivial
  · exact ⟨trivial,fun _ _ => trivial⟩

/-- `bincode::serialized_size`. -/
def serializedSize (s : UpgradeableLoaderState) : ℕ := (codec.encode s).length

def sizeOfUninitialized : ℕ := serializedSize uninitialized

def sizeOfBufferMetadata : ℕ := serializedSize (buffer (some default))

def sizeOfProgram : ℕ := serializedSize (program default)

def sizeOfProgramdataMetadata : ℕ := serializedSize (programData 0 (some default))

/-- `usize` addition saturates. -/
def sizeOfProgramdata (len : ℕ) : ℕ := min (len+sizeOfProgramdataMetadata) (2^64-1)

example : (sizeOfUninitialized,sizeOfBufferMetadata,sizeOfProgram,sizeOfProgramdataMetadata) =
    (4,37,36,45) := by decide

/-- `bincode::deserialize(..).unwrap_or_default()`. -/
def ofDataOrDefault (data : List UInt8) : UpgradeableLoaderState :=
  (codec.decodePrefix data).getD uninitialized

end UpgradeableLoaderState

inductive LoaderInstruction where
  | initializeBuffer
  | write (offset : UInt32) (bytes : List UInt8)
  | deployWithMaxDataLen (maxDataLen : UInt64)
  | upgrade
  | setAuthority (newAuthority : Option Pubkey)
  | close
  deriving DecidableEq

def LoaderInstruction.codec : Codec LoaderInstruction :=
  (EnumCodec.codec (.variant .unit (.variant (Codec.u32.seq (.vec .u8)) (.variant .u64
    (.variant .unit
      (.variant (.option Pubkey.codec) (.variant .unit (.done 6 (by decide))))))))).iso
  { toFun
      | .inl _ => initializeBuffer
      | .inr (.inl (offset,bytes)) => write offset bytes
      | .inr (.inr (.inl maxDataLen)) => deployWithMaxDataLen maxDataLen
      | .inr (.inr (.inr (.inl _))) => upgrade
      | .inr (.inr (.inr (.inr (.inl newAuthority)))) => setAuthority newAuthority
      | .inr (.inr (.inr (.inr (.inr (.inl _))))) => close
    invFun
      | initializeBuffer => .inl ()
      | write offset bytes => .inr (.inl (offset,bytes))
      | deployWithMaxDataLen maxDataLen => .inr (.inr (.inl maxDataLen))
      | upgrade => .inr (.inr (.inr (.inl ())))
      | setAuthority newAuthority => .inr (.inr (.inr (.inr (.inl newAuthority))))
      | close => .inr (.inr (.inr (.inr (.inr (.inl ())))))
    left_inv := by rintro (_ | ⟨_,_⟩ | _ | _ | _ | _ | ⟨⟨⟩⟩) <;> rfl
    right_inv := by rintro (_ | _ | _ | _ | _ | _) <;> rfl }

namespace BpfLoaderProgram
open UpgradeableLoaderState

variable {κ : Type} [DecidableEq κ]

/-- Fail with a loader error. -/
def failIf (c : Prop) [Decidable c] (e : BpfLoaderError) : Prog κ Unit :=
  Exec.failIf c e.toProgramError

/-- `PackableState::pack_into_account`. -/
def packIntoAccount (state : UpgradeableLoaderState) (info : AccountInfo κ) : Prog κ Unit := do
  let data ← info.tryBorrowData
  failIf (data.length < state.serializedSize) .accountDataTooSmall
  info.setData (codec.encode state ++ data.drop state.serializedSize)

/-- Read the loader state at the front of an account. -/
def readState (info : AccountInfo κ) : Prog κ UpgradeableLoaderState := do
  Exec.orFail BpfLoaderError.invalidAccountData.toProgramError
    (codec.decodePrefix (← info.tryBorrowData))

def initializeBuffer : List (AccountInfo κ) → Prog κ Unit
  | bufferInfo :: authoritySlice => do
    let state := ofDataOrDefault (← bufferInfo.tryBorrowData)
    failIf (state ≠ uninitialized) .accountAlreadyInitialized
    packIntoAccount (buffer (authoritySlice.head?.map AccountInfo.pubkey)) bufferInfo
  | [] => Exec.throw BpfLoaderError.notEnoughAccountKeys.toProgramError

/-- Copy bytes over part of the data. -/
def overwriteAt (data : List UInt8) (start : ℕ) (bytes : List UInt8) : List UInt8 :=
  data.take start ++ bytes ++ data.drop (start+bytes.length)

def write (offset : UInt32) (bytes : List UInt8) : List (AccountInfo κ) → Prog κ Unit
  | bufferInfo :: authorityInfo :: _ => do
    let bufferState ← readState bufferInfo
    match bufferState with
    | buffer authorityAddress => do
      failIf (authorityAddress = none) .immutableBuffer
      failIf (authorityAddress ≠ some authorityInfo.pubkey) .incorrectAuthority
      failIf (¬authorityInfo.isSigner) .missingRequiredSignature
      let startIndex := sizeOfBufferMetadata+offset.toNat
      let bufferData ← bufferInfo.tryBorrowData
      failIf (bufferData.length < startIndex+bytes.length) .accountDataTooSmall
      bufferInfo.setData (overwriteAt bufferData startIndex bytes)
    | _ => Exec.throw BpfLoaderError.invalidBufferAccount.toProgramError
    packIntoAccount bufferState bufferInfo
  | _ => Exec.throw BpfLoaderError.notEnoughAccountKeys.toProgramError

/-- How many code bytes the buffer holds, checked against `max_data_len`. -/
def bufferDataLen (maxDataLen : UInt64) (bufferInfo : AccountInfo κ) : Prog κ ℕ := do
  let bufferData ← bufferInfo.tryBorrowData
  failIf (bufferData.length < sizeOfBufferMetadata) .bufferAccountTooSmall
  let len := bufferData.length-sizeOfBufferMetadata
  failIf (maxDataLen.toNat < len) .maxDataLengthTooSmall
  return len

/-- Copy the code bytes of the buffer behind the programdata header. The buffer is borrowed while
programdata is borrowed mutably, which fails when both are one cell; the slices panic out of
range. -/
def copyCode (len : ℕ) (bufferInfo programdataInfo : AccountInfo κ) : Prog κ Unit := do
  let bufferData ← bufferInfo.tryBorrowData
  Exec.failIf (bufferInfo.account = programdataInfo.account) .accountBorrowFailed
  let programdataData ← programdataInfo.tryBorrowData
  Exec.panicIf (bufferData.length < sizeOfBufferMetadata+len)
  Exec.panicIf (programdataData.length < sizeOfProgramdataMetadata+len)
  programdataInfo.setData (overwriteAt programdataData sizeOfProgramdataMetadata
    ((bufferData.drop sizeOfBufferMetadata).take len))

def deployWithMaxDataLen (sysvars : Sysvars) (exec : ProgramExecutor κ) (ctx : InvokeContext)
    (maxDataLen : UInt64) : List (AccountInfo κ) → Prog κ Unit
  | payerInfo :: programdataInfo :: programInfo :: bufferInfo :: rentInfo :: clockInfo ::
      systemProgramInfo :: authorityInfo :: _ => do
    failIf (¬authorityInfo.isSigner) .missingRequiredSignature
    let rent ← Exec.orFail .invalidArgument (sysvars.rentPrefix (← rentInfo.tryBorrowData))
    let len ← bufferDataLen maxDataLen bufferInfo
    let programdataLen := sizeOfProgramdata maxDataLen.toNat
    let requiredPayment := satSub (rent.minimumBalance programdataLen) (← programdataInfo.lamports)
    let createAccountIx := SystemProgram.createAccountInstruction payerInfo.pubkey
      programdataInfo.pubkey requiredPayment (UInt64.ofNat programdataLen) ctx.programId
    ctx.invoke exec createAccountIx [payerInfo,programdataInfo,systemProgramInfo]
    let slot ← Exec.orFail .invalidArgument (sysvars.clockPrefix (← clockInfo.tryBorrowData))
    packIntoAccount (programData slot (some authorityInfo.pubkey)) programdataInfo
    copyCode len bufferInfo programdataInfo
    packIntoAccount (program programdataInfo.pubkey) programInfo
    programInfo.borrowMut fun a => { a with owner := ctx.programId, executable := true }
    let payerLamports ← payerInfo.lamports
    payerInfo.setLamports (satAdd payerLamports (← bufferInfo.lamports))
    bufferInfo.setLamports 0
    bufferInfo.setData []
  | _ => Exec.throw BpfLoaderError.notEnoughAccountKeys.toProgramError

def setAuthority (newAuthority : Option Pubkey) : List (AccountInfo κ) → Prog κ Unit
  | targetInfo :: authorityInfo :: _ => do
    failIf (¬authorityInfo.isSigner) .missingRequiredSignature
    let state ← readState targetInfo
    match state with
    | buffer authorityAddress => do
      failIf (authorityAddress ≠ some authorityInfo.pubkey) .incorrectAuthority
      packIntoAccount (buffer newAuthority) targetInfo
    | programData slot authorityAddress => do
      failIf (authorityAddress ≠ some authorityInfo.pubkey) .incorrectAuthority
      packIntoAccount (programData slot newAuthority) targetInfo
    | _ => Exec.throw BpfLoaderError.invalidArgument.toProgramError
  | _ => Exec.throw BpfLoaderError.notEnoughAccountKeys.toProgramError

def close : List (AccountInfo κ) → Prog κ Unit
  | accountToClose :: recipient :: authorityInfo :: _ => do
    failIf (¬authorityInfo.isSigner) .missingRequiredSignature
    let recipientLamports ← recipient.lamports
    recipient.setLamports (satAdd recipientLamports (← accountToClose.lamports))
    accountToClose.setLamports 0
    accountToClose.setData []
  | _ => Exec.throw BpfLoaderError.notEnoughAccountKeys.toProgramError

def run (sysvars : Sysvars) (exec : ProgramExecutor κ) (ctx : InvokeContext)
    (accounts : List (AccountInfo κ)) : LoaderInstruction → Prog κ Unit
  | .initializeBuffer => initializeBuffer accounts
  | .write offset bytes => write offset bytes accounts
  | .deployWithMaxDataLen maxDataLen => deployWithMaxDataLen sysvars exec ctx maxDataLen accounts
  | .upgrade => Exec.throw (.internalError "upgrade not implemented")
  | .setAuthority newAuthority => setAuthority newAuthority accounts
  | .close => close accounts

def entrypoint (sysvars : Sysvars) (exec : ProgramExecutor κ) (ctx : InvokeContext)
    (accounts : List (AccountInfo κ)) : Prog κ Unit := do
  let instruction ← Exec.orFail .invalidInstructionData
    (LoaderInstruction.codec.decodePrefix ctx.instructionData)
  run sysvars exec ctx accounts instruction

end BpfLoaderProgram

end TinySolana
