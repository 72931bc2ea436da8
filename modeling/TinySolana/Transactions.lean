import TinySolana.Accounts
import TinySolana.Foundations.Exec

/-!
# Transactions

Instructions name accounts through metas; a message lists the keys that a transaction loads; a
transaction carries signatures for the first of these keys. Errors of programs and transactions.
-/

namespace TinySolana
open Foundations

inductive ProgramError where
  | accountNotFound (pubkey : Pubkey)
  | invalidInstructionData
  | insufficientFunds
  | notEnoughAccountKeys
  | missingRequiredSignature
  | readonlyAccountWritten
  | accountNotExecutable
  | accountOwnerMismatch
  | invalidAccountData
  | accountBorrowFailed
  | invalidArgument
  | custom (code : UInt32)
  | internalError (message : String)
  deriving DecidableEq

inductive TransactionError where
  | invalidSignature
  | accountError (e : AccountError)
  | programError (e : ProgramError)
  | blockhashNotFound
  | blockhashExpired
  | accountInUse
  | wouldExceedMaxBlockCostLimit
  deriving DecidableEq

def TransactionError.isRetryable : TransactionError → Bool
  | accountInUse | wouldExceedMaxBlockCostLimit => true
  | _ => false

structure AccountMeta where
  pubkey : Pubkey
  isSigner : Bool
  isWritable : Bool
  deriving DecidableEq

structure Instruction where
  programId : Pubkey
  accounts : List AccountMeta
  data : List UInt8
  deriving DecidableEq

structure Message where
  accountKeys : List Pubkey
  recentBlockhash : Hash
  instructions : List Instruction
  deriving DecidableEq

structure Transaction where
  signatures : List Signature
  message : Message
  deriving DecidableEq

/-- The metas of all instructions. -/
def Transaction.metas (tx : Transaction) : List AccountMeta :=
  tx.message.instructions.flatMap Instruction.accounts

/-- The keys of the metas with the given access. -/
def metaKeys (isWritable : Bool) (metas : List AccountMeta) : List Pubkey :=
  (metas.filter fun m => m.isWritable = isWritable).map AccountMeta.pubkey

theorem mem_metaKeys {w : Bool} {metas : List AccountMeta} {k : Pubkey} :
    k ∈ metaKeys w metas ↔ ∃ m ∈ metas, m.isWritable = w ∧ m.pubkey = k := by
  simp [metaKeys,and_assoc]

/-! ## Wire format -/

def AccountMeta.codec : Codec AccountMeta := (Pubkey.codec.seq (Codec.bool.seq .bool)).iso
  { toFun p := ⟨p.1,p.2.1,p.2.2⟩
    invFun m := (m.pubkey,m.isSigner,m.isWritable)
    left_inv _ := rfl
    right_inv _ := rfl }

def Instruction.codec : Codec Instruction :=
  (Pubkey.codec.seq ((Codec.vec AccountMeta.codec).seq (.vec .u8))).iso
  { toFun p := ⟨p.1,p.2.1,p.2.2⟩
    invFun i := (i.programId,i.accounts,i.data)
    left_inv _ := rfl
    right_inv _ := rfl }

def Message.codec : Codec Message :=
  ((Codec.vec Pubkey.codec).seq (Hash.codec.seq (.vec Instruction.codec))).iso
  { toFun p := ⟨p.1,p.2.1,p.2.2⟩
    invFun m := (m.accountKeys,m.recentBlockhash,m.instructions)
    left_inv _ := rfl
    right_inv _ := rfl }

def Transaction.codec : Codec Transaction := ((Codec.vec Signature.codec).seq Message.codec).iso
  { toFun p := ⟨p.1,p.2⟩
    invFun t := (t.signatures,t.message)
    left_inv _ := rfl
    right_inv _ := rfl }

/-- Serializing a message has no size limit and does not fail. -/
def Message.serializeForSigning (m : Message) : List UInt8 := Message.codec.encode m

/-! ## Signature verification -/

/-- Verification of ed25519 signatures over a message: the key decodes and `verify_strict`
accepts. -/
abbrev Ed25519 := Pubkey → List UInt8 → Signature → Bool

/-- The keys that must have signed: as many of the listed keys as there are signatures. -/
def Transaction.signerPubkeys (tx : Transaction) : List Pubkey :=
  tx.message.accountKeys.take tx.signatures.length

/-- `Transaction::verify_signatures_sync`. Slicing the keys panics when there are more
signatures. -/
def Transaction.verifySignaturesSync (valid : Ed25519) (tx : Transaction) :
    Outcome TransactionError Unit :=
  let messageBytes := tx.message.serializeForSigning
  if tx.message.accountKeys.length < tx.signatures.length then .panic
  else if (tx.signatures.zip tx.signerPubkeys).all (fun p => valid p.2 messageBytes p.1) then .ok ()
  else .err .invalidSignature

/-- The key signed the transaction: one of its signatures is valid for the key and the message. -/
def Transaction.SignedBy (valid : Ed25519) (tx : Transaction) (k : Pubkey) : Prop :=
  ∃ sig ∈ tx.signatures, valid k tx.message.serializeForSigning sig = true

theorem Transaction.verifySignaturesSync_ok {valid : Ed25519} {tx : Transaction} :
    tx.verifySignaturesSync valid = .ok () ↔ tx.signatures.length ≤ tx.message.accountKeys.length ∧
      ∀ p ∈ tx.signatures.zip tx.signerPubkeys, valid p.2 tx.message.serializeForSigning p.1 =
        true := by
  simp only [verifySignaturesSync]
  split
  · next h =>
    constructor
    · intro hc
      cases hc
    · rintro ⟨hl,-⟩
      omega
  · next h =>
    have hl : tx.signatures.length ≤ tx.message.accountKeys.length := by omega
    rw [← List.all_eq_true]
    split
    · next ha => exact iff_of_true rfl ⟨hl,ha⟩
    · next ha => exact iff_of_false (by simp) (fun hc => ha hc.2)

/-- An accepted transaction is signed by each of its signer keys. -/
theorem Transaction.signedBy_of_verified {valid : Ed25519} {tx : Transaction} {k : Pubkey}
    (hv : tx.verifySignaturesSync valid = .ok ()) (hk : k ∈ tx.signerPubkeys) :
    tx.SignedBy valid k := by
  obtain ⟨hl,hall⟩ := verifySignaturesSync_ok.mp hv
  obtain ⟨i,hi,rfl⟩ := List.mem_iff_getElem.mp hk
  have hlen : tx.signerPubkeys.length = tx.signatures.length := by
    simp [signerPubkeys,hl]
  have hs : i < tx.signatures.length := hlen ▸ hi
  have hz : i < (tx.signatures.zip tx.signerPubkeys).length := by simp [hlen,hs]
  have h := hall _ (List.getElem_mem hz)
  rw [List.getElem_zip] at h
  exact ⟨_,List.getElem_mem hs,h⟩

end TinySolana
