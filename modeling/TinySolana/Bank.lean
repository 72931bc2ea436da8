import TinySolana.Executor
import Mathlib.Data.List.OfFn
import Mathlib.Data.Fin.Basic

/-!
# Bank

A bank loads the accounts of a transaction into cells, one for each position of its key list, runs
the instructions on them and stores every cell into an overlay. Instructions reach the cells through
the first position of the key they name.
-/

namespace TinySolana
open Foundations

def maxBlockhashQueueDepth : ℕ := 150

structure BlockhashInfo where
  hash : Hash
  createdAtSlot : UInt64
  deriving DecidableEq

/-- A bank and the present contents of the account store it shares with its parents. The executor,
which it shares as well, is the cache of programs that the operations below run over. -/
structure Bank where
  slot : UInt64
  accounts : InMemoryAccountStore
  blockhashQueue : List BlockhashInfo
  parentHash : Hash
  isFrozen : Bool
  freezeLockCount : ℕ
  finalizedHash : Option Hash
  processedTransactions : ℕ
  failedTransactions : ℕ

abbrev ProgramCache := FiniteMap Pubkey (List UInt8)

/-- The cells of a transaction, one for each position of its key list. -/
abbrev Cells (keys : List Pubkey) := Fin keys.length → Account

namespace Bank

def new (accounts : InMemoryAccountStore) : Bank where
  slot := 0
  accounts := accounts
  blockhashQueue := [⟨default,0⟩]
  parentHash := default
  isFrozen := false
  freezeLockCount := 0
  finalizedHash := none
  processedTransactions := 0
  failedTransactions := 0

/-- `Bank::freeze` once no freeze lock is held, with the root hash that the store has then. Without
one it panics. -/
def freeze (rootHash : Option Hash) (bank : Bank) : Option Bank :=
  if bank.isFrozen then some bank
  else match bank.finalizedHash,rootHash with
    | some _,_ => some { bank with isFrozen := true }
    | none,some hash => some { bank with isFrozen := true, finalizedHash := some hash }
    | none,none => none

def hash (bank : Bank) : Hash := bank.finalizedHash.getD bank.parentHash

/-- `Bank::new_from_parent`: the parent as it is left, and its child. It panics where freezing does
and when the slots run out. -/
def newFromParent (rootHash : Option Hash) (parent : Bank) : Option (Bank × Bank) := do
  let parent ← parent.freeze rootHash
  let blockhashQueue := parent.blockhashQueue ++ [⟨parent.hash,parent.slot⟩]
  let blockhashQueue := if maxBlockhashQueueDepth < blockhashQueue.length then blockhashQueue.tail
    else blockhashQueue
  if parent.slot.toNat+1 < 2^64 then
    some (parent,{
      slot := parent.slot+1
      accounts := parent.accounts
      blockhashQueue := blockhashQueue
      parentHash := parent.hash
      isFrozen := false
      freezeLockCount := 0
      finalizedHash := none
      processedTransactions := 0
      failedTransactions := 0 })
  else none

def checkPreflightRules (bank : Bank) (tx : Transaction) : Except TransactionError Unit :=
  if bank.isFrozen then .error (.programError (.internalError "bank is frozen"))
  else match bank.blockhashQueue.find? fun info => info.hash = tx.message.recentBlockhash with
    | some info =>
      let lastValidSlot := satAdd info.createdAtSlot (UInt64.ofNat maxBlockhashQueueDepth)
      if lastValidSlot < bank.slot then .error .blockhashExpired else .ok ()
    | none => .error .blockhashNotFound

/-- `Bank::load_and_verify_accounts`; an account that is not stored starts out empty. -/
def loadAndVerifyAccounts (keys : List Pubkey) (load : Pubkey → Option Account) : Cells keys :=
  fun i => (load (keys.get i)).getD { (default : Account) with
    pubkey := keys.get i, owner := systemProgramId }

/-- The position of a key in the key list. -/
def position (keys : List Pubkey) (key : Pubkey) : Option (Fin keys.length) :=
  keys.findFinIdx? fun k => k = key

/-- The loop of `prepare_account_infos` over the metas, with the positions borrowed mutably. -/
def prepareFrom {keys : List Pubkey} (accounts : Cells keys) :
    BTreeSet (Fin keys.length) → List AccountMeta →
      Except TransactionError (List (AccountInfo (Fin keys.length)))
  | _, [] => .ok []
  | borrowedMutably, accountMeta :: rest =>
    match position keys accountMeta.pubkey with
    | none => .error (.programError (.internalError "instruction account not found in transaction"))
    | some accountIndex =>
      if accountMeta.isWritable ∧ accountIndex ∈ borrowedMutably then
        .error (.programError (.internalError "account borrowed mutably more than once"))
      else do
        let borrowedMutably := if accountMeta.isWritable then borrowedMutably.insert accountIndex
          else borrowedMutably
        let infos ← prepareFrom accounts borrowedMutably rest
        return { pubkey := accountMeta.pubkey
                 isSigner := accountMeta.isSigner
                 isWritable := accountMeta.isWritable
                 account := accountIndex
                 executable := (accounts accountIndex).executable
                 rentEpoch := (accounts accountIndex).rentEpoch } :: infos

def prepareAccountInfos (instruction : Instruction) {keys : List Pubkey} (accounts : Cells keys) :
    Except TransactionError (List (AccountInfo (Fin keys.length))) :=
  prepareFrom accounts .empty instruction.accounts

/-- One round of `execute_instructions`; every instruction gets a context of its own. -/
def executeInstruction (host : Host) (keys : List Pubkey) (computeBudget : UInt64)
    (instruction : Instruction) : Exec (Machine (Fin keys.length)) TransactionError Unit := do
  let accountInfos ← Exec.ofExcept (prepareAccountInfos instruction (← Exec.get).cells)
  let invokeContext := ⟨instruction.programId,instruction.data,computeBudget⟩
  Exec.modify fun m => { m with computeMeter := 0 }
  Exec.mapErr .programError
    (ChainedProgramExecutor.execute host instruction invokeContext accountInfos)

def executeInstructions (host : Host) (keys : List Pubkey) (computeBudget : UInt64) :
    List Instruction → Exec (Machine (Fin keys.length)) TransactionError Unit
  | [] => pure ()
  | instruction :: rest => do
    executeInstruction host keys computeBudget instruction
    executeInstructions host keys computeBudget rest

/-- Run `execute_instructions` on loaded accounts and return what they hold afterwards. -/
def executeLoaded (host : Host) (tx : Transaction) (computeBudget : UInt64)
    (loaded : Cells tx.message.accountKeys) :
    Exec ProgramCache TransactionError (Cells tx.message.accountKeys) := fun programCache =>
  let r := executeInstructions host tx.message.accountKeys computeBudget tx.message.instructions
    ⟨loaded,0,programCache⟩
  (r.1.map fun _ => r.2.cells,r.2.programCache)

/-- Store the cells in the order of their positions, each under the key it names. -/
def writeBack {keys : List Pubkey} (cells : Cells keys) : OverlayStore :=
  (List.ofFn cells).foldl (fun o account => o.store account.pubkey account) .new

/-- What `process_single_transaction` does behind the preflight check. -/
def executeOnOverlay (host : Host) (accounts : InMemoryAccountStore) (tx : Transaction)
    (computeBudget : UInt64) : Exec ProgramCache TransactionError OverlayStore := do
  let loaded := loadAndVerifyAccounts tx.message.accountKeys (OverlayStore.new.load accounts)
  let cells ← executeLoaded host tx computeBudget loaded
  return writeBack cells

def processSingleTransaction (host : Host) (bank : Bank) (tx : Transaction)
    (computeBudget : UInt64) : Exec ProgramCache TransactionError OverlayStore := do
  Exec.ofExcept (bank.checkPreflightRules tx)
  executeOnOverlay host bank.accounts tx computeBudget

def simulateTransaction (host : Host) (bank : Bank) (tx : Transaction) :
    Exec ProgramCache TransactionError Unit := do
  let loaded := loadAndVerifyAccounts tx.message.accountKeys (OverlayStore.new.load bank.accounts)
  let _ ← executeLoaded host tx 200000 loaded

def recordTransactionMetrics (bank : Bank) (ok : Bool) : Bank :=
  if ok then { bank with processedTransactions := bank.processedTransactions+1 }
  else { bank with failedTransactions := bank.failedTransactions+1 }

end Bank

/-! ## A payment -/

/-- An account of the System program. -/
def wallet (n : UInt8) (lamports : UInt64) : Account :=
  ⟨.ofByte n,lamports,[],systemProgramId,false,0⟩

/-- A signature of zeros. -/
def blankSignature : Signature := ⟨List.replicate 64 0,List.length_replicate⟩

/-- A transfer from the first wallet to the second, which claims the signature of the first. -/
def payment (signatures : List Signature) (lamports : UInt64) : Transaction :=
  ⟨signatures,[.ofByte 1,.ofByte 2],default,
    [⟨systemProgramId,[⟨.ofByte 1,true,true⟩,⟨.ofByte 2,false,true⟩],
      SystemInstruction.codec.encode (.transfer lamports)⟩]⟩

end TinySolana
