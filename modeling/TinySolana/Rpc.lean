import TinySolana.BankingStage
import TinySolana.Blockhashes
import TinySolana.Foundations.TextFormat
import TinySolana.WireFormat

/-!
# JSON-RPC

Requests are answered from the bank. Only `sendTransaction` does anything else: a transaction that
it accepts is sent to the banking stage. Keys, signatures and hashes are written in base58,
transactions and the data of accounts in base64.
-/

namespace TinySolana
open Foundations

/-! ## Values -/

inductive JsonNumber where
  | posInt (n : UInt64)
  | negInt (n : ℤ)
  | float (bits : UInt64)
  deriving DecidableEq

/-- `serde_json::Value`. -/
inductive Json where
  | null
  | bool (b : Bool)
  | number (n : JsonNumber)
  | string (s : String)
  | array (items : List Json)
  | object (entries : List (String × Json))

namespace Json

def ofU64 (n : UInt64) : Json := number (.posInt n)

def asStr : Json → Option String
  | string s => some s
  | _ => none

def asU64 : Json → Option UInt64
  | number (.posInt n) => some n
  | _ => none

/-- Indexing by a position; there is nothing but `null` where there is no array or no item. -/
def item (i : ℕ) : Json → Json
  | array items => items.getD i null
  | _ => null

/-- Indexing by a name. -/
def entry (name : String) : Json → Json
  | object entries => ((entries.find? fun e => e.1 = name).map Prod.snd).getD null
  | _ => null

end Json

/-- Code outside the repository that requests are read and answered with. -/
structure RpcHost where
  base58 : TextFormat
  base64 : TextFormat
  /-- What is wrong with a value that is read as one of the named type. -/
  serdeError : String → Json → String
  /-- What is wrong with bytes that are no transaction. -/
  bincodeError : List UInt8 → String
  /-- `Debug` of a string. -/
  debugString : String → String
  /-- `Display` of the error of a channel without a receiver. -/
  sendError : String

instance : Inhabited RpcHost :=
  ⟨default,default,fun t _ => t,fun _ => "",fun s => "\"" ++ s ++ "\"",""⟩

/-! ## Texts -/

inductive ParsePubkeyError where
  | invalidBase58
  | invalidLength (n : ℕ)
  deriving DecidableEq

def ParsePubkeyError.display : ParsePubkeyError → String
  | invalidBase58 => "invalid base58 string"
  | invalidLength n => "invalid length: expected 32, got " ++ toString n

/-- `Pubkey::from_str`. -/
def Pubkey.fromStr (base58 : TextFormat) (s : String) : Except ParsePubkeyError Pubkey :=
  match base58.decode s with
  | .error _ => .error .invalidBase58
  | .ok bytes => if h : bytes.length = 32 then .ok ⟨bytes,h⟩
      else .error (.invalidLength bytes.length)

def Pubkey.display (base58 : TextFormat) (k : Pubkey) : String := base58.encode k.bytes

def Hash.display (base58 : TextFormat) (h : Hash) : String := base58.encode h.bytes

def Signature.display (base58 : TextFormat) (s : Signature) : String := base58.encode s.bytes

theorem Pubkey.fromStr_eq_ok {base58 : TextFormat} {s : String} {k : Pubkey} :
    fromStr base58 s = .ok k ↔ s = k.display base58 := by
  unfold fromStr display
  constructor
  · intro h
    split at h
    · cases h
    · next bytes hb =>
      split at h
      · cases h
        exact ((base58.decode_eq_ok _ _).mp hb).symm
      · cases h
  · rintro rfl
    rw [base58.decode_encode]
    exact dif_pos k.size

def AccountError.debug (rpc : RpcHost) : AccountError → String
  | notFound pubkey => "NotFound(" ++ pubkey.display rpc.base58 ++ ")"

def ProgramError.debug (rpc : RpcHost) : ProgramError → String
  | accountNotFound pubkey => "AccountNotFound(" ++ pubkey.display rpc.base58 ++ ")"
  | invalidInstructionData => "InvalidInstructionData"
  | insufficientFunds => "InsufficientFunds"
  | notEnoughAccountKeys => "NotEnoughAccountKeys"
  | missingRequiredSignature => "MissingRequiredSignature"
  | readonlyAccountWritten => "ReadonlyAccountWritten"
  | accountNotExecutable => "AccountNotExecutable"
  | accountOwnerMismatch => "AccountOwnerMismatch"
  | invalidAccountData => "InvalidAccountData"
  | accountBorrowFailed => "AccountBorrowFailed"
  | invalidArgument => "InvalidArgument"
  | custom code => "Custom(" ++ toString code.toNat ++ ")"
  | internalError message => "InternalError(" ++ rpc.debugString message ++ ")"

def TransactionError.display (rpc : RpcHost) : TransactionError → String
  | invalidSignature => "invalid signature"
  | accountError e => "account error: " ++ e.debug rpc
  | programError e => "program error: " ++ e.debug rpc
  | blockhashNotFound => "blockhash not found"
  | blockhashExpired => "blockhash has expired"
  | accountInUse => "account is in use"
  | wouldExceedMaxBlockCostLimit => "transaction would exceed max block cost limit"

inductive RpcError where
  | invalidParams (message : String)
  | internalError (message : String)
  | sendTransactionPreflightFailure (message : String)
  deriving DecidableEq

def RpcError.display : RpcError → String
  | invalidParams message => "invalid params: " ++ message
  | internalError message => "internal error: " ++ message
  | sendTransactionPreflightFailure message => "transaction simulation failed: " ++ message

/-! ## Requests -/

structure RpcSendTransactionConfig where
  skipPreflight : Bool := false
  deriving DecidableEq

/-- The derived reader takes an object, or the fields in their order. -/
def RpcSendTransactionConfig.fromValue (rpc : RpcHost) :
    Json → Except String RpcSendTransactionConfig
  | .array [] => .ok {}
  | .array [.bool b] => .ok ⟨b⟩
  | .array (.bool b :: rest) =>
    .error (rpc.serdeError "RpcSendTransactionConfig" (.array (.bool b :: rest)))
  | .array (v :: _) => .error (rpc.serdeError "bool" v)
  | .object entries =>
    match entries.find? fun e => e.1 = "skipPreflight" with
    | none => .ok {}
    | some (_,.bool b) => .ok ⟨b⟩
    | some (_,v) => .error (rpc.serdeError "bool" v)
  | v => .error (rpc.serdeError "RpcSendTransactionConfig" v)

structure JsonRpcRequest where
  jsonrpc : String
  method : String
  params : Json := .null
  id : Json

structure JsonRpcResponse where
  jsonrpc : String
  result : Json
  id : Json

structure RpcAccount where
  lamports : UInt64
  data : String
  owner : String
  executable : Bool
  rentEpoch : UInt64
  deriving DecidableEq

def RpcAccount.ofAccount (rpc : RpcHost) (account : Account) : RpcAccount where
  lamports := account.lamports
  data := rpc.base64.encode account.data
  owner := account.owner.display rpc.base58
  executable := account.executable
  rentEpoch := account.rentEpoch

def RpcAccount.toValue (account : RpcAccount) : Json :=
  .object [("lamports",.ofU64 account.lamports),("data",.string account.data),
    ("owner",.string account.owner),("executable",.bool account.executable),
    ("rentEpoch",.ofU64 account.rentEpoch)]

/-- `RpcState`, with the cache of programs that simulation shares with the bank. -/
structure RpcState where
  bank : Bank
  programCache : ProgramCache
  txSender : Channel Transaction

abbrev Rpc := Exec RpcState RpcError

namespace Rpc

variable (host : Host) (rpc : RpcHost)

def decodeTransaction (txDataStr : String) : Except RpcError Transaction := do
  let txBytes ← match rpc.base64.decode txDataStr with
    | .ok bytes => .ok bytes
    | .error e => .error (.invalidParams ("invalid base64: " ++ e))
  match Transaction.deserialize txBytes with
  | some tx => return tx
  | none =>
      .error (.invalidParams ("failed to deserialize transaction: " ++ rpc.bincodeError txBytes))

/-- The transaction and the configuration in the parameters of `sendTransaction`. -/
def readTransaction (params : Json) : Except RpcError (Transaction × RpcSendTransactionConfig) := do
  let paramsArray ← match params with
    | .array items => .ok items
    | v => .error (.invalidParams ("params must be an array: " ++ rpc.serdeError "sequence" v))
  let txParam ← match paramsArray with
    | [] => .error (.invalidParams "params array is empty")
    | v :: _ => .ok v
  let txDataStr ← match txParam with
    | .string s => .ok s
    | v => .error (.invalidParams
      ("param 0 (transaction) must be a string: " ++ rpc.serdeError "string" v))
  let config ← match paramsArray[1]? with
    | none => .ok {}
    | some v => match RpcSendTransactionConfig.fromValue rpc v with
      | .ok config => .ok config
      | .error e => .error (.invalidParams ("param 1 (config) is invalid: " ++ e))
  return (← decodeTransaction rpc txDataStr,config)

/-- Run the transaction over the store as it is, unless the request says not to. -/
def preflight (config : RpcSendTransactionConfig) (tx : Transaction) : Rpc Unit := do
  if config.skipPreflight then return ()
  else do
    let s ← Exec.get
    Exec.mapErr (fun e => .sendTransactionPreflightFailure (TransactionError.display rpc e))
      ((s.bank.simulateTransaction host tx).zoom RpcState.programCache
        fun s c => { s with programCache := c })

/-- `handle_send_transaction` up to the point where the transaction is sent. -/
def acceptTransaction (params : Json) : Rpc Transaction := do
  let (tx,config) ← Exec.ofExcept (readTransaction rpc params)
  preflight host rpc config tx
  return tx

/-- Send an accepted transaction to the banking stage and answer with its signature. -/
def queueTransaction (tx : Transaction) : Rpc Json := do
  let signature := (tx.signatures.head?.map (Signature.display rpc.base58)).getD ""
  match (← Exec.get).txSender.send tx with
  | some c => do
    Exec.modify fun s => { s with txSender := c }
    return .string signature
  | none => Exec.throw (.internalError ("failed to send to banking stage: " ++ rpc.sendError))

def handleSendTransaction (params : Json) : Rpc Json := do
  let tx ← acceptTransaction host rpc params
  queueTransaction rpc tx

/-- The key in the first parameter. -/
def readPubkey (params : Json) : Except RpcError Pubkey :=
  match (params.item 0).asStr with
  | none => .error (.invalidParams "param 0 must be a string")
  | some s => match Pubkey.fromStr rpc.base58 s with
    | .ok k => .ok k
    | .error e => .error (.invalidParams e.display)

def handleGetBalance (params : Json) : Rpc Json := do
  let pubkey ← Exec.ofExcept (readPubkey rpc params)
  return .ofU64 (((← Exec.get).bank.accounts.load pubkey).elim 0 Account.lamports)

def handleGetAccountInfo (params : Json) : Rpc Json := do
  let pubkey ← Exec.ofExcept (readPubkey rpc params)
  return ((← Exec.get).bank.accounts.load pubkey).elim .null
    fun account => (RpcAccount.ofAccount rpc account).toValue

def handleGetLatestBlockhash : Rpc Json := do
  match (← Exec.get).bank.getLatestBlockhash with
  | some (blockhash,lastValidBlockHeight) =>
    return .object [("blockhash",.string (blockhash.display rpc.base58)),
      ("lastValidBlockHeight",.ofU64 lastValidBlockHeight)]
  | none => Exec.abort

def handleGetSlot : Rpc Json := do
  return .ofU64 (← Exec.get).bank.slot

def handleGetBlockHeight : Rpc Json := handleGetSlot

/-! Handlers that are not implemented yet answer with a constant. -/

def handleGetSignatureStatuses : Rpc Json := pure (.array [])
def handleGetMultipleAccounts : Rpc Json := pure (.array [])
def handleGetHealth : Rpc Json := pure (.string "ok")
def handleGetVersion : Rpc Json := pure (.object [("tiny-solana-version",.string "0.1.0")])
def handleGetIdentity : Rpc Json := pure (.string ((default : Pubkey).display rpc.base58))
def handleGetMinimumBalanceForRentExemption : Rpc Json := pure (.ofU64 2039280)
def handleGetEpochInfo : Rpc Json := pure (.object [("epoch",.ofU64 0)])

/-- The handlers by the names of their methods. -/
def dispatch (request : JsonRpcRequest) : Rpc Json :=
  match request.method with
  | "sendTransaction" => handleSendTransaction host rpc request.params
  | "getSignatureStatuses" => handleGetSignatureStatuses
  | "getBalance" => handleGetBalance rpc request.params
  | "getAccountInfo" => handleGetAccountInfo rpc request.params
  | "getMultipleAccounts" => handleGetMultipleAccounts
  | "getLatestBlockhash" => handleGetLatestBlockhash rpc
  | "getSlot" => handleGetSlot
  | "getBlockHeight" => handleGetBlockHeight
  | "getHealth" => handleGetHealth
  | "getVersion" => handleGetVersion
  | "getIdentity" => handleGetIdentity rpc
  | "getMinimumBalanceForRentExemption" => handleGetMinimumBalanceForRentExemption
  | "getEpochInfo" => handleGetEpochInfo
  | method => pure (.object [("error",.string ("method '" ++ method ++ "' not found"))])

def errorValue (e : RpcError) : Json :=
  .object [("error",.object [("code",.number (.negInt (-32602))),("message",.string e.display)])]

/-- `handle_rpc_request`. A panic of a handler leaves the request without an answer. -/
def handleRpcRequest (request : JsonRpcRequest) : Exec RpcState Empty JsonRpcResponse := do
  let result ← Exec.attempt (dispatch host rpc request)
  return ⟨"2.0",match result with | .ok v => v | .error e => errorValue e,request.id⟩

end Rpc

end TinySolana
