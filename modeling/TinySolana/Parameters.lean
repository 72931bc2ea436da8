import TinySolana.Runtime

/-!
# Program parameters

The input region of a BPF program: the accounts of the instruction are written into a buffer, which
the program may change at will, and read back from it afterwards.
-/

namespace TinySolana
open Foundations

def nonDupMarker : UInt8 := 255

variable {κ : Type}

/-- Padding of data to a multiple of eight bytes. -/
def padding (len : ℕ) : ℕ := (8-len % 8) % 8

/-! ## Serialization -/

inductive SerializeAccount where
  | original (account : Account)
  /-- The index of the original account, cut to a byte. -/
  | duplicate (index : UInt8)

/-- Mark every entry from index `i` on as the first with its key or as a duplicate. -/
def markDuplicates (cells : κ → Account) :
    ℕ → FiniteMap Pubkey ℕ → List (AccountInfo κ) → List SerializeAccount
  | _, _, [] => []
  | i, firstIndices, info :: rest =>
    match firstIndices.lookup info.pubkey with
    | some firstIndex =>
        .duplicate (UInt8.ofNat firstIndex) :: markDuplicates cells (i+1) firstIndices rest
    | none => .original (cells info.account) ::
        markDuplicates cells (i+1) (firstIndices.insert info.pubkey i) rest

def boolByte (b : Bool) : UInt8 := if b then 1 else 0

def serializeEntry (info : AccountInfo κ) : SerializeAccount → List UInt8
  | .original account =>
    [nonDupMarker,boolByte info.isSigner,boolByte info.isWritable] ++ info.pubkey.bytes ++
      account.owner.bytes ++ leBytes 8 account.lamports.toNat ++ leBytes 8 account.data.length ++
      account.data ++ List.replicate (padding account.data.length) 0
  | .duplicate firstIndex => [firstIndex]

/-- The bytes that an entry is reserved: its marker and, for an original, the flags, keys, lengths,
data and padding. -/
def SerializeAccount.size : SerializeAccount → ℕ
  | .original account =>
    1+(1+1+32+32+8+8)+account.data.length+padding account.data.length
  | .duplicate _ => 1

/-- The size that `serialize_parameters` computes for its buffer before it fills it. -/
def parametersSize (cells : κ → Account) (accounts : List (AccountInfo κ))
    (instructionData : List UInt8) : ℕ :=
  8+instructionData.length+8+((markDuplicates cells 0 ∅ accounts).map SerializeAccount.size).sum

def serializeParameters (accounts : List (AccountInfo κ)) (instructionData : List UInt8) :
    Prog κ (List UInt8) := fun m =>
  let serializedAccounts := markDuplicates m.cells 0 ∅ accounts
  (.ok (leBytes 8 accounts.length ++
    (accounts.zip serializedAccounts).flatMap (fun p => serializeEntry p.1 p.2) ++
    leBytes 8 instructionData.length ++ instructionData),m)

/-! ## Deserialization -/

/-- Addition of `usize`, which panics on overflow. Only sums with a length read from the buffer can
overflow: offsets themselves stay close to the length of a slice. -/
def usizeAdd (a b : ℕ) : Prog κ ℕ := do
  Exec.panicIf (2^64 ≤ a+b)
  return a+b

def slice (input : List UInt8) (offset len : ℕ) : List UInt8 := (input.drop offset).take len

/-- `u64::from_le_bytes` of the eight bytes at an offset. -/
def readU64 (input : List UInt8) (offset : ℕ) : UInt64 :=
  UInt64.ofNat (ofLeBytes (slice input offset 8))

/-- The key in the 32 bytes at an offset. -/
def readPubkey (input : List UInt8) (offset : ℕ) : Option Pubkey :=
  if h : (slice input offset 32).length = 32 then some ⟨slice input offset 32,h⟩ else none

/-- Skip the record of an account that the buffer marks read-only. -/
def skipRecord (input : List UInt8) (offset : ℕ) : Prog κ ℕ := do
  let dataLenOffset := offset+32+8
  Exec.failIf (input.length < dataLenOffset+8) .invalidAccountData
  let dataLen := (readU64 input dataLenOffset).toNat
  let len ← usizeAdd (32+8+8) dataLen
  let len ← usizeAdd len (padding dataLen)
  let offset ← usizeAdd offset len
  Exec.failIf (input.length < offset) .invalidAccountData
  return offset

variable [DecidableEq κ]

/-- Read the record of an account that the buffer marks writable. -/
def loadRecord (input : List UInt8) (offset : ℕ) (info : AccountInfo κ) : Prog κ ℕ := do
  Exec.failIf (input.length < offset+32) .invalidAccountData
  info.setOwner (← Exec.orFail .invalidAccountData (readPubkey input offset))
  let offset := offset+32
  Exec.failIf (input.length < offset+8) .invalidAccountData
  info.setLamports (readU64 input offset)
  let offset := offset+8
  Exec.failIf (input.length < offset+8) .invalidAccountData
  let dataLen := (readU64 input offset).toNat
  let offset := offset+8
  let dataEnd ← usizeAdd offset dataLen
  Exec.failIf (input.length < dataEnd) .invalidAccountData
  info.setData (slice input offset dataLen)
  let recordEnd ← usizeAdd dataEnd (padding dataLen)
  Exec.failIf (input.length < recordEnd) .invalidAccountData
  return recordEnd

/-- The loop of `deserialize_parameters` from an offset on. Indexing past the end panics. -/
def deserializeFrom (input : List UInt8) : ℕ → List (AccountInfo κ) → Prog κ Unit
  | _, [] => pure ()
  | offset, info :: rest => do
    Exec.failIf (input.length ≤ offset) .invalidAccountData
    if input[offset]? ≠ some nonDupMarker then
      deserializeFrom input (offset+1) rest
    else do
      let offset := offset+1
      Exec.panicIf (input.length ≤ offset+1)
      let isWritable := input[offset+1]? ≠ some 0
      let offset := offset+(1+1+32)
      let offset ← if isWritable then loadRecord input offset info else skipRecord input offset
      deserializeFrom input offset rest

/-- `deserialize_parameters`, which starts behind the account count. -/
def deserializeParameters (accounts : List (AccountInfo κ)) (input : List UInt8) : Prog κ Unit :=
  deserializeFrom input 8 accounts

end TinySolana
