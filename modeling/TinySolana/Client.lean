import TinySolana.RpcEffects
import TinySolana.WriteBack

/-!
# The client

The client signs transfers with a key pair and talks to the server through three requests. What it
is told is what the server has done: a signature for a transaction that is in the queue, and for a
key the lamports of the account that is stored under it.
-/

namespace TinySolana
open Foundations

/-! ## Key pairs -/

/-- Signing with ed25519, by the bytes of a secret key. -/
structure Signer where
  verifyingKey : List UInt8 → Pubkey
  sign : List UInt8 → List UInt8 → Signature

structure Keypair where
  signingKey : List UInt8
  size : signingKey.length = 32

namespace Keypair

def fromBytes (bytes : List UInt8) : Option Keypair :=
  if h : bytes.length = 32 then some ⟨bytes,h⟩ else none

def toBytes (keypair : Keypair) : List UInt8 := keypair.signingKey

def pubkey (signer : Signer) (keypair : Keypair) : Pubkey := signer.verifyingKey keypair.signingKey

def signMessage (signer : Signer) (keypair : Keypair) (message : List UInt8) : Signature :=
  signer.sign keypair.signingKey message

end Keypair

/-- What is signed with a key pair is valid for its key. -/
def Signer.Verified (signer : Signer) (valid : Ed25519) : Prop :=
  ∀ (keypair : Keypair) (message : List UInt8),
    valid (keypair.pubkey signer) message (keypair.signMessage signer message) = true

/-! ## Requests -/

def JsonRpcResponse.toValue (response : JsonRpcResponse) : Json :=
  .object [("jsonrpc",.string response.jsonrpc),("result",response.result),("id",response.id)]

inductive ClientError where
  /-- The request was not answered. -/
  | transport
  | context (message : String)
  deriving DecidableEq

namespace Client

variable (host : Host) (rpc : RpcHost)

/-- Send a request to the server and wait for the answer. -/
def post (method : String) (params : Json) : Exec RpcState ClientError Json := fun s =>
  match Rpc.handleRpcRequest host rpc ⟨"2.0",method,params,.ofU64 1⟩ s with
  | (.ok response,t) => (.ok response.toValue,t)
  | (_,t) => (.err .transport,t)

/-- The slice that is copied must have 32 bytes. -/
def getLatestBlockhash : Exec RpcState ClientError Hash := do
  let response ← post host rpc "getLatestBlockhash" .null
  let blockhashStr ← Exec.orFail (.context "failed to parse blockhash from rpc response")
    ((response.entry "result").entry "blockhash").asStr
  match rpc.base58.decode blockhashStr with
  | .error _ => Exec.throw (.context "invalid base58 blockhash")
  | .ok bytes => if h : bytes.length = 32 then return ⟨bytes,h⟩ else Exec.abort

def getBalance (pubkey : Pubkey) : Exec RpcState ClientError UInt64 := do
  let response ← post host rpc "getBalance" (.array [.string (pubkey.display rpc.base58)])
  Exec.orFail (.context "failed to parse balance from rpc response") (response.entry "result").asU64

def sendTransaction (tx : Transaction) : Exec RpcState ClientError String := do
  let base64Tx := rpc.base64.encode tx.serialize
  let response ← post host rpc "sendTransaction" (.array [.string base64Tx])
  Exec.orFail (.context "failed to parse signature from rpc response")
    (response.entry "result").asStr

def createTransferTransaction (signer : Signer) (fromKeypair : Keypair) (toPubkey : Pubkey)
    (lamports : UInt64) (recentBlockhash : Hash) : Transaction :=
  let fromPubkey := fromKeypair.pubkey signer
  let accountKeys := [fromPubkey,toPubkey,systemProgramId]
  let instruction : Instruction := {
    programId := systemProgramId
    accounts := [⟨fromPubkey,true,true⟩,⟨toPubkey,false,true⟩]
    data := SystemInstruction.codec.encode (.transfer lamports) }
  let message : Message := { accountKeys, recentBlockhash, instructions := [instruction] }
  { signatures := [fromKeypair.signMessage signer message.serializeForSigning]
    message }

/-- What `main` asks the server for before it waits for confirmation. -/
def pay (signer : Signer) (fromKeypair : Keypair) (toPubkey : Pubkey) (lamports : UInt64) :
    Exec RpcState ClientError String := do
  let blockhash ← getLatestBlockhash host rpc
  sendTransaction host rpc
    (createTransferTransaction signer fromKeypair toPubkey lamports blockhash)

end Client

/-! ## What the client is told -/

namespace Client

variable {host : Host} {rpc : RpcHost} {s t : RpcState}

theorem post_ok {method : String} {params v : Json}
    (h : Rpc.dispatch host rpc ⟨"2.0",method,params,.ofU64 1⟩ s = (.ok v,t)) :
    post host rpc method params s = (.ok (JsonRpcResponse.toValue ⟨"2.0",v,.ofU64 1⟩),t) := by
  unfold post Rpc.handleRpcRequest
  rw [Exec.bind_run,Exec.attempt,h]
  rfl

theorem post_err {method : String} {params : Json} {e : RpcError}
    (h : Rpc.dispatch host rpc ⟨"2.0",method,params,.ofU64 1⟩ s = (.err e,t)) :
    post host rpc method params s =
      (.ok (JsonRpcResponse.toValue ⟨"2.0",Rpc.errorValue e,.ofU64 1⟩),t) := by
  unfold post Rpc.handleRpcRequest
  rw [Exec.bind_run,Exec.attempt,h]
  rfl

theorem post_panic {method : String} {params : Json}
    (h : Rpc.dispatch host rpc ⟨"2.0",method,params,.ofU64 1⟩ s = (.panic,t)) :
    post host rpc method params s = (.err .transport,t) := by
  unfold post Rpc.handleRpcRequest
  rw [Exec.bind_run,Exec.attempt,h]

@[simp] theorem toValue_result (response : JsonRpcResponse) :
    response.toValue.entry "result" = response.result := rfl

/-- The client is told the lamports that a transaction would load. -/
theorem getBalance_run (k : Pubkey) :
    getBalance host rpc k s = (.ok (s.bank.accounts.loaded k).lamports,s) := by
  have hread : Rpc.readPubkey rpc (.array [.string (k.display rpc.base58)]) = .ok k := by
    simp only [Rpc.readPubkey,Json.item,List.getD_cons_zero,Json.asStr,Pubkey.fromStr_eq_ok.mpr rfl]
  have hlamports : (s.bank.accounts.load k).elim 0 Account.lamports =
      (s.bank.accounts.loaded k).lamports := by
    unfold InMemoryAccountStore.loaded
    cases s.bank.accounts.load k <;> rfl
  have hdispatch : Rpc.dispatch host rpc
      ⟨"2.0","getBalance",.array [.string (k.display rpc.base58)],.ofU64 1⟩ s =
        (.ok (.ofU64 (s.bank.accounts.loaded k).lamports),s) := by
    change Rpc.handleGetBalance rpc (.array [.string (k.display rpc.base58)]) s = _
    rw [Rpc.handleGetBalance,hread,Exec.ofExcept_ok,Exec.pure_bind,Exec.get_bind,hlamports]
    rfl
  unfold getBalance
  rw [Exec.bind_of_ok (post_ok hdispatch)]
  rfl

/-- The client is told the newest hash of the bank, where the server has an answer. -/
theorem getLatestBlockhash_run {blockhash : Hash} {lastValidBlockHeight : UInt64}
    (h : s.bank.getLatestBlockhash = some (blockhash,lastValidBlockHeight)) :
    getLatestBlockhash host rpc s = (.ok blockhash,s) := by
  have hdispatch : Rpc.dispatch host rpc ⟨"2.0","getLatestBlockhash",.null,.ofU64 1⟩ s =
      (.ok (.object [("blockhash",.string (blockhash.display rpc.base58)),
        ("lastValidBlockHeight",.ofU64 lastValidBlockHeight)]),s) := by
    change Rpc.handleGetLatestBlockhash rpc s = _
    rw [Rpc.handleGetLatestBlockhash,Exec.get_bind,h]
    rfl
  unfold getLatestBlockhash
  rw [Exec.bind_of_ok (post_ok hdispatch)]
  change (match rpc.base58.decode (rpc.base58.encode blockhash.bytes) with
    | .error _ => Exec.throw (.context "invalid base58 blockhash")
    | .ok bytes => if h : bytes.length = 32 then (return ⟨bytes,h⟩) else Exec.abort :
      Exec RpcState ClientError Hash) s = _
  rw [TextFormat.decode_encode]
  dsimp only
  rw [dif_pos blockhash.size]
  rfl

/-- How sending a transaction ends: the client is told its signature and it is in the queue, or the
client is told no signature and the queue is as it was. -/
theorem sendTransaction_run {tx : Transaction} (hlen : tx.UsizeLengths)
    {r : Outcome ClientError String} (h : sendTransaction host rpc tx s = (r,t)) :
    t.bank = s.bank ∧ (r = .ok (Rpc.signatureText rpc tx) ∧ s.txSender.send tx = some t.txSender ∨
      (∀ signature, r ≠ .ok signature) ∧ t.txSender = s.txSender) := by
  let params : Json := .array [.string (rpc.base64.encode tx.serialize)]
  have hread : Rpc.readTransaction rpc params = .ok (tx,{}) :=
    Rpc.readTransaction_eq_ok.mpr ⟨hlen,[],rfl,rfl⟩
  unfold sendTransaction at h
  cases hd : Rpc.handleSendTransaction host rpc params s with
  | mk r₁ s₁ =>
    have hdispatch : Rpc.dispatch host rpc ⟨"2.0","sendTransaction",params,.ofU64 1⟩ s = (r₁,s₁) :=
      (congrFun (Rpc.dispatch_send rfl) s).trans hd
    obtain ⟨hbank,⟨htx,hr₁⟩ | ⟨tx',config,hread',hsent,rfl⟩⟩ := Rpc.handleSendTransaction_run hd
    · cases r₁ with
      | ok v => exact absurd rfl (hr₁ v)
      | err e =>
        rw [Exec.bind_of_ok (post_err hdispatch)] at h
        cases h
        exact ⟨hbank,.inr ⟨by simp,htx⟩⟩
      | panic =>
        rw [Exec.bind_run,post_panic hdispatch] at h
        cases h
        exact ⟨hbank,.inr ⟨by simp,htx⟩⟩
    · cases hread.symm.trans hread'
      rw [Exec.bind_of_ok (post_ok hdispatch)] at h
      cases h
      exact ⟨hbank,.inl ⟨rfl,hsent⟩⟩

end Client

end TinySolana
