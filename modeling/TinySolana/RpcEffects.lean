import TinySolana.Rpc

/-!
# What requests do

No request touches the bank. A request puts a transaction into the queue exactly when it is a
`sendTransaction` that is answered with a signature; then it holds the one text of that transaction.
-/

namespace TinySolana
open Foundations Exec

namespace Rpc

variable {host : Host} {rpc : RpcHost} {s t : RpcState}

/-- Only programs may have been cached. -/
structure OnlyCached (s t : RpcState) : Prop where
  bank : t.bank = s.bank
  txSender : t.txSender = s.txSender

instance : Std.Refl OnlyCached := ⟨fun _ => ⟨rfl,rfl⟩⟩

instance : IsTrans RpcState OnlyCached :=
  ⟨fun _ _ _ h h' => ⟨h'.bank.trans h.bank,h'.txSender.trans h.txSender⟩⟩

instance : Std.Refl fun s t : RpcState => t = s := ⟨fun _ => rfl⟩

instance : IsTrans RpcState fun s t => t = s := ⟨fun _ _ _ h h' => h'.trans h⟩

theorem ofExcept_keeps {σ ε α : Type} {R : σ → σ → Prop} [Std.Refl R] (r : Except ε α) :
    Keeps R (Exec.ofExcept r : Exec σ ε α) := by
  cases r with
  | ok a => exact .pure a
  | error e => exact .throw e

theorem preflight_keeps (config : RpcSendTransactionConfig) (tx : Transaction) :
    Keeps OnlyCached (preflight host rpc config tx) := by
  unfold preflight
  split
  · exact .pure ()
  · exact .bind .get fun _ => .mapErr (.zoom (fun _ _ => ⟨rfl,rfl⟩) _)

/-- A transaction is accepted without an effect on anything but the cache of programs. -/
theorem acceptTransaction_keeps (params : Json) :
    Keeps OnlyCached (acceptTransaction host rpc params) :=
  .bind (ofExcept_keeps _) fun p => .bind (preflight_keeps p.2 p.1) fun _ => .pure _

/-- Every request but one reads and answers. -/
theorem dispatch_keeps {request : JsonRpcRequest} (h : request.method ≠ "sendTransaction") :
    Keeps (fun s t => t = s) (dispatch host rpc request) := by
  unfold dispatch
  split
  · next hm => exact absurd hm h
  · exact .pure _
  · exact .bind (ofExcept_keeps _) fun _ => .bind .get fun _ => .pure _
  · exact .bind (ofExcept_keeps _) fun _ => .bind .get fun _ => .pure _
  · exact .pure _
  · unfold handleGetLatestBlockhash
    refine .bind .get fun s => ?_
    split
    · exact .pure _
    · exact .abort
  · exact .bind .get fun _ => .pure _
  · exact .bind .get fun _ => .pure _
  all_goals exact .pure _

theorem handleRpcRequest_keeps {request : JsonRpcRequest} (h : request.method ≠ "sendTransaction") :
    Keeps (fun s t => t = s) (handleRpcRequest host rpc request) :=
  .bind (.attempt (dispatch_keeps h)) fun _ => .pure _

/-- The text of the first signature, which is empty where there is none. -/
def signatureText (rpc : RpcHost) (tx : Transaction) : String :=
  (tx.signatures.head?.map (Signature.display rpc.base58)).getD ""

theorem queueTransaction_ok {tx : Transaction} {v : Json} :
    queueTransaction rpc tx s = (.ok v,t) ↔ v = .string (signatureText rpc tx) ∧
      ∃ c, s.txSender.send tx = some c ∧ t = { s with txSender := c } := by
  unfold queueTransaction
  rw [Exec.get_bind]
  cases s.txSender.send tx with
  | none => simp
  | some c =>
    constructor
    · intro h
      cases h
      exact ⟨rfl,c,rfl,rfl⟩
    · rintro ⟨rfl,c',hc,rfl⟩
      cases hc
      rfl

theorem queueTransaction_never {tx : Transaction} : queueTransaction rpc tx s ≠ (.panic,t) := by
  unfold queueTransaction
  rw [Exec.get_bind]
  cases s.txSender.send tx <;> simp

theorem queueTransaction_err {tx : Transaction} {e : RpcError}
    (h : queueTransaction rpc tx s = (.err e,t)) : t = s := by
  unfold queueTransaction at h
  rw [Exec.get_bind] at h
  cases hc : s.txSender.send tx with
  | none =>
    rw [hc] at h
    cases h
    rfl
  | some c =>
    rw [hc] at h
    cases h

/-! ## Transactions in requests -/

/-- The configuration behind the transaction, if there is one. -/
def configOf (rpc : RpcHost) : List Json → Except String RpcSendTransactionConfig
  | [] => .ok {}
  | v :: _ => RpcSendTransactionConfig.fromValue rpc v

theorem decodeTransaction_eq_ok {text : String} {tx : Transaction} :
    decodeTransaction rpc text = .ok tx ↔ tx.UsizeLengths ∧
      text = rpc.base64.encode tx.serialize := by
  unfold decodeTransaction
  constructor
  · intro h
    cases hd : rpc.base64.decode text with
    | error e => simp [hd,bind,Except.bind] at h
    | ok bytes =>
      have htext := (rpc.base64.decode_eq_ok _ _).mp hd
      cases hx : Transaction.deserialize bytes with
      | none => simp [hd,hx,bind,Except.bind] at h
      | some tx' =>
        simp only [hd,hx,bind,Except.bind,pure,Except.pure,Except.ok.injEq] at h
        subst h
        obtain ⟨hlen,rfl⟩ := Transaction.deserialize_eq_some.mp hx
        exact ⟨hlen,htext.symm⟩
  · rintro ⟨hlen,rfl⟩
    have hx := Transaction.deserialize_eq_some.mpr ⟨hlen,rfl⟩
    simp [hx,bind,Except.bind,pure,Except.pure]

/-- Only the one text of a transaction is read as that transaction. -/
theorem readTransaction_eq_ok {params : Json} {tx : Transaction}
    {config : RpcSendTransactionConfig} :
    readTransaction rpc params = .ok (tx,config) ↔ tx.UsizeLengths ∧ ∃ rest,
      params = .array (.string (rpc.base64.encode tx.serialize) :: rest) ∧
        configOf rpc rest = .ok config := by
  constructor
  · intro h
    unfold readTransaction at h
    split at h
    swap
    · cases h
    next items =>
    cases items with
    | nil => cases h
    | cons v rest =>
      cases v with
      | string text =>
        have hread : configOf rpc rest = .ok config ∧ decodeTransaction rpc text = .ok tx := by
          cases rest with
          | nil =>
            cases hd : decodeTransaction rpc text with
            | ok tx' => simp_all [configOf,bind,Except.bind,pure,Except.pure]
            | error e => simp [hd,bind,Except.bind] at h
          | cons v rest =>
            cases hv : RpcSendTransactionConfig.fromValue rpc v with
            | error e => simp [hv,bind,Except.bind] at h
            | ok config' =>
              cases hd : decodeTransaction rpc text with
              | ok tx' => simp_all [configOf,bind,Except.bind,pure,Except.pure]
              | error e => simp [hv,hd,bind,Except.bind] at h
        obtain ⟨hlen,rfl⟩ := decodeTransaction_eq_ok.mp hread.2
        exact ⟨hlen,rest,rfl,hread.1⟩
      | _ => cases h
  · rintro ⟨hlen,rest,rfl,hc⟩
    have hd : decodeTransaction rpc (rpc.base64.encode tx.serialize) = .ok tx :=
      decodeTransaction_eq_ok.mpr ⟨hlen,rfl⟩
    cases rest with
    | nil =>
      cases hc
      simp [readTransaction,hd,bind,Except.bind,pure,Except.pure]
    | cons v rest =>
      have hv : RpcSendTransactionConfig.fromValue rpc v = .ok config := hc
      simp [readTransaction,hd,hv,bind,Except.bind,pure,Except.pure]

theorem acceptTransaction_ok {params : Json} {tx : Transaction}
    (h : acceptTransaction host rpc params s = (.ok tx,t)) :
    ∃ config, readTransaction rpc params = .ok (tx,config) ∧
      preflight host rpc config tx s = (.ok (),t) := by
  unfold acceptTransaction at h
  cases hr : readTransaction rpc params with
  | error e =>
    rw [hr] at h
    cases h
  | ok p =>
    obtain ⟨tx',config⟩ := p
    rw [hr,Exec.ofExcept_ok,Exec.pure_bind] at h
    obtain ⟨_,s₁,hp,h⟩ := Exec.bind_ok.mp h
    cases h
    exact ⟨config,rfl,hp⟩

/-! ## What a request leaves behind -/

end Rpc

/-- The request sends the transaction, in its one text. -/
def JsonRpcRequest.Carries (rpc : RpcHost) (request : JsonRpcRequest) (tx : Transaction) : Prop :=
  request.method = "sendTransaction" ∧ tx.UsizeLengths ∧
    ∃ rest, request.params = .array (.string (rpc.base64.encode tx.serialize) :: rest)

namespace Rpc

/-- How `sendTransaction` ends: with its transaction in the queue, or with nothing done. -/
theorem handleSendTransaction_run {params : Json} {r : Outcome RpcError Json}
    (h : handleSendTransaction host rpc params s = (r,t)) :
    t.bank = s.bank ∧ (t.txSender = s.txSender ∧ (∀ v, r ≠ .ok v) ∨
      ∃ tx config, readTransaction rpc params = .ok (tx,config) ∧
        s.txSender.send tx = some t.txSender ∧ r = .ok (.string (signatureText rpc tx))) := by
  unfold handleSendTransaction at h
  rw [Exec.bind_run] at h
  cases ha : acceptTransaction host rpc params s with
  | mk r₁ s₁ =>
    have hkeep := (acceptTransaction_keeps params).of_run ha
    rw [ha] at h
    cases r₁ with
    | ok tx =>
      obtain ⟨config,hread,-⟩ := acceptTransaction_ok ha
      cases r with
      | ok v =>
        obtain ⟨rfl,c,hc,rfl⟩ := queueTransaction_ok.mp h
        exact ⟨hkeep.bank,.inr ⟨tx,config,hread,hkeep.txSender ▸ hc,rfl⟩⟩
      | err e =>
        obtain rfl := queueTransaction_err h
        exact ⟨hkeep.bank,.inl ⟨hkeep.txSender,by simp⟩⟩
      | panic =>
        exact absurd h queueTransaction_never
    | err e =>
      cases h
      exact ⟨hkeep.bank,.inl ⟨hkeep.txSender,by simp⟩⟩
    | panic =>
      cases h
      exact ⟨hkeep.bank,.inl ⟨hkeep.txSender,by simp⟩⟩

/-- A transaction that is not to be simulated is accepted as it is. -/
theorem acceptTransaction_unsimulated {tx : Transaction} (h : tx.UsizeLengths) :
    acceptTransaction host rpc (.array [.string (rpc.base64.encode tx.serialize),
      .object [("skipPreflight",.bool true)]]) s = (.ok tx,s) := by
  have hread : readTransaction rpc (.array [.string (rpc.base64.encode tx.serialize),
      .object [("skipPreflight",.bool true)]]) = .ok (tx,{ skipPreflight := true }) :=
    readTransaction_eq_ok.mpr ⟨h,_,rfl,rfl⟩
  unfold acceptTransaction
  rw [hread,Exec.ofExcept_ok,Exec.pure_bind]
  rfl

theorem dispatch_send {request : JsonRpcRequest} (h : request.method = "sendTransaction") :
    dispatch host rpc request = handleSendTransaction host rpc request.params := by
  unfold dispatch
  rw [h]
  rfl

/-- A request leaves the bank as it is, however it ends. It leaves the queue as it is and is not
answered with a text, or it puts the transaction that it carries at the end of the queue and is
answered with the signature. -/
theorem request_queues_signed (host : Host) (rpc : RpcHost) (request : JsonRpcRequest)
    (s : RpcState) :
    ∃ r t, handleRpcRequest host rpc request s = (r,t) ∧ t.bank = s.bank ∧
      (t.txSender = s.txSender ∧ (request.method = "sendTransaction" →
          ∀ v, r ≠ .ok ⟨"2.0",.string v,request.id⟩) ∨
        ∃ tx, request.Carries rpc tx ∧ s.txSender.send tx = some t.txSender ∧
          r = .ok ⟨"2.0",.string (signatureText rpc tx),request.id⟩) := by
  by_cases hm : request.method = "sendTransaction"
  · unfold handleRpcRequest
    rw [dispatch_send hm,Exec.bind_run,Exec.attempt]
    cases hx : handleSendTransaction host rpc request.params s with
    | mk r₁ s₁ =>
      obtain ⟨hbank,hsend⟩ := handleSendTransaction_run hx
      obtain ⟨htx,hr₁⟩ | ⟨tx,config,hread,hsent,rfl⟩ := hsend
      · cases r₁ with
        | ok v => exact absurd rfl (hr₁ v)
        | err e => exact ⟨_,_,rfl,hbank,.inl ⟨htx,fun _ v => by simp [errorValue]⟩⟩
        | panic => exact ⟨_,_,rfl,hbank,.inl ⟨htx,fun _ v => by simp⟩⟩
      · obtain ⟨hlen,rest,hparams,-⟩ := readTransaction_eq_ok.mp hread
        exact ⟨_,_,rfl,hbank,.inr ⟨tx,⟨hm,hlen,rest,hparams⟩,hsent,rfl⟩⟩
  · have hkeep : (handleRpcRequest host rpc request s).2 = s :=
      (handleRpcRequest_keeps hm).of_run (Prod.ext rfl rfl)
    exact ⟨_,_,rfl,congrArg RpcState.bank hkeep,
      .inl ⟨congrArg RpcState.txSender hkeep,fun h => absurd h hm⟩⟩

end Rpc

end TinySolana
