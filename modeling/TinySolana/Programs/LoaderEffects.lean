import TinySolana.Programs.BpfLoaderProgram
import TinySolana.Programs.TokenEffects

/-!
# Effects of the upgradeable loader

What a successful loader instruction does to the cells, with the checks it has passed. Deployment
goes through a nested call, whose effect is a parameter here.
-/

namespace TinySolana
open Foundations

variable {κ : Type} [DecidableEq κ]

/-- The machine with a loader state packed over the front of the data of a cell. -/
def Machine.packState (m : Machine κ) (c : κ) (state : UpgradeableLoaderState) : Machine κ :=
  m.update c fun a => { a with
    data := UpgradeableLoaderState.codec.encode state ++ a.data.drop state.serializedSize }

namespace BpfLoaderProgram
open UpgradeableLoaderState

@[simp] theorem failIf_bind_ok {κ β : Type} {c : Prop} [Decidable c] {e : BpfLoaderError}
    {f : Unit → Prog κ β} {m m' : Machine κ} {b : β} :
    (failIf c e >>= f) m = (.ok b,m') ↔ ¬c ∧ f () m = (.ok b,m') := Exec.failIf_bind_ok

@[simp] theorem readState_bind_ok {κ β : Type} {info : AccountInfo κ}
    {f : UpgradeableLoaderState → Prog κ β} {m m' : Machine κ} {b : β} :
    (readState info >>= f) m = (.ok b,m') ↔ ∃ state,
      codec.decodePrefix (m.cells info.account).data = some state ∧ f state m = (.ok b,m') := by
  simp only [readState,Exec.bind_assoc,AccountInfo.tryBorrowData_bind,Exec.orFail_bind_ok]

theorem packIntoAccount_ok {state : UpgradeableLoaderState} {info : AccountInfo κ}
    {m m' : Machine κ} :
    packIntoAccount state info m = (.ok (),m') ↔
      state.serializedSize ≤ (m.cells info.account).data.length ∧
        m' = m.packState info.account state := by
  simp only [packIntoAccount,AccountInfo.tryBorrowData_bind,failIf_bind_ok,AccountInfo.setData_run,
    Prod.mk.injEq,true_and,not_lt,eq_comm (a := m')]
  rfl

@[simp] theorem packIntoAccount_bind_ok {β : Type} {state : UpgradeableLoaderState}
    {info : AccountInfo κ} {f : Unit → Prog κ β} {m m' : Machine κ} {b : β} :
    (packIntoAccount state info >>= f) m = (.ok b,m') ↔
      state.serializedSize ≤ (m.cells info.account).data.length ∧
        f () (m.packState info.account state) = (.ok b,m') := by
  rw [Exec.bind_ok]
  constructor
  · rintro ⟨u,m₁,h₁,h⟩
    obtain ⟨hl,rfl⟩ := packIntoAccount_ok.mp h₁
    exact ⟨hl,h⟩
  · rintro ⟨hl,h⟩
    exact ⟨(),_,packIntoAccount_ok.mpr ⟨hl,rfl⟩,h⟩

@[simp] theorem bufferDataLen_bind_ok {κ β : Type} {maxDataLen : UInt64}
    {bufferInfo : AccountInfo κ} {f : ℕ → Prog κ β} {m m' : Machine κ} {b : β} :
    (bufferDataLen maxDataLen bufferInfo >>= f) m = (.ok b,m') ↔
      sizeOfBufferMetadata ≤ (m.cells bufferInfo.account).data.length ∧
      (m.cells bufferInfo.account).data.length-sizeOfBufferMetadata ≤ maxDataLen.toNat ∧
      f ((m.cells bufferInfo.account).data.length-sizeOfBufferMetadata) m = (.ok b,m') := by
  simp only [bufferDataLen,Exec.bind_assoc,AccountInfo.tryBorrowData_bind,failIf_bind_ok,not_lt,
    Exec.pure_bind]

/-- The data of the programdata cell after the code was copied. -/
def copied (m : Machine κ) (len : ℕ) (buffer programdata : κ) : Machine κ :=
  m.setData programdata (overwriteAt (m.cells programdata).data sizeOfProgramdataMetadata
    (((m.cells buffer).data.drop sizeOfBufferMetadata).take len))

@[simp] theorem copyCode_bind_ok {β : Type} {len : ℕ} {bufferInfo programdataInfo : AccountInfo κ}
    {f : Unit → Prog κ β} {m m' : Machine κ} {b : β} :
    (copyCode len bufferInfo programdataInfo >>= f) m = (.ok b,m') ↔
      bufferInfo.account ≠ programdataInfo.account ∧
      sizeOfBufferMetadata+len ≤ (m.cells bufferInfo.account).data.length ∧
      sizeOfProgramdataMetadata+len ≤ (m.cells programdataInfo.account).data.length ∧
      f () (copied m len bufferInfo.account programdataInfo.account) = (.ok b,m') := by
  simp only [copyCode,Exec.bind_assoc,AccountInfo.tryBorrowData_bind,Exec.failIf_bind_ok,
    Exec.panicIf_bind_ok,not_lt,AccountInfo.setData_bind]
  rfl

/-- What deployment does behind the nested call. -/
def deployed (m : Machine κ) (programId authority programdataKey : Pubkey) (slot : UInt64) (len : ℕ)
    (payer programdata program buffer : κ) : Machine κ :=
  let m := m.packState programdata (programData slot (some authority))
  let m := copied m len buffer programdata
  let m := m.packState program (.program programdataKey)
  let m := m.update program fun a => { a with owner := programId, executable := true }
  let m := m.update payer fun a =>
    { a with lamports := satAdd (m.cells payer).lamports (m.cells buffer).lamports }
  (m.update buffer fun a => { a with lamports := 0 }).setData buffer []

/-- Closing an account pays its lamports to the recipient and clears it. -/
def closed (m : Machine κ) (target recipient : κ) : Machine κ :=
  let m := m.update recipient fun a =>
    { a with lamports := satAdd (m.cells recipient).lamports (m.cells target).lamports }
  (m.update target fun a => { a with lamports := 0 }).setData target []

/-- A successful instruction, with the checks it has passed. -/
inductive Effect (sysvars : Sysvars) (exec : ProgramExecutor κ) (ctx : InvokeContext) :
    LoaderInstruction → List (AccountInfo κ) → Machine κ → Machine κ → Prop where
  | initializeBuffer {bufferInfo : AccountInfo κ} {authority : List (AccountInfo κ)}
      {m : Machine κ} :
      ofDataOrDefault (m.cells bufferInfo.account).data = uninitialized →
      serializedSize (buffer (authority.head?.map AccountInfo.pubkey)) ≤
        (m.cells bufferInfo.account).data.length →
      Effect sysvars exec ctx .initializeBuffer (bufferInfo :: authority) m
        (m.packState bufferInfo.account (buffer (authority.head?.map AccountInfo.pubkey)))
  | write {offset : UInt32} {bytes : List UInt8} {bufferInfo authority : AccountInfo κ}
      {rest : List (AccountInfo κ)} {m : Machine κ} :
      codec.decodePrefix (m.cells bufferInfo.account).data = some (buffer (some authority.pubkey)) →
      authority.isSigner = true →
      sizeOfBufferMetadata+offset.toNat+bytes.length ≤ (m.cells bufferInfo.account).data.length →
      Effect sysvars exec ctx (.write offset bytes) (bufferInfo :: authority :: rest) m
        ((m.setData bufferInfo.account (overwriteAt (m.cells bufferInfo.account).data
          (sizeOfBufferMetadata+offset.toNat) bytes)).packState bufferInfo.account
            (buffer (some authority.pubkey)))
  | deploy {maxDataLen : UInt64}
      {payerInfo programdataInfo programInfo bufferInfo rentInfo clockInfo
      systemInfo authority : AccountInfo κ} {rest : List (AccountInfo κ)} {m m₁ : Machine κ}
      {rent : Rent} {slot : UInt64} :
      authority.isSigner = true →
      sysvars.rentPrefix (m.cells rentInfo.account).data = some rent →
      sizeOfBufferMetadata ≤ (m.cells bufferInfo.account).data.length →
      (m.cells bufferInfo.account).data.length-sizeOfBufferMetadata ≤ maxDataLen.toNat →
      ctx.invoke exec
        (SystemProgram.createAccountInstruction payerInfo.pubkey programdataInfo.pubkey
        (satSub (rent.minimumBalance (sizeOfProgramdata maxDataLen.toNat))
          (m.cells programdataInfo.account).lamports)
        (UInt64.ofNat (sizeOfProgramdata maxDataLen.toNat)) ctx.programId)
        [payerInfo,programdataInfo,systemInfo] m = (.ok (),m₁) →
      sysvars.clockPrefix (m₁.cells clockInfo.account).data = some slot →
      bufferInfo.account ≠ programdataInfo.account →
      Effect sysvars exec ctx (.deployWithMaxDataLen maxDataLen)
        (payerInfo :: programdataInfo :: programInfo :: bufferInfo :: rentInfo :: clockInfo ::
          systemInfo :: authority :: rest) m
        (deployed m₁ ctx.programId authority.pubkey programdataInfo.pubkey slot
          ((m.cells bufferInfo.account).data.length-sizeOfBufferMetadata) payerInfo.account
          programdataInfo.account programInfo.account bufferInfo.account)
  | setBufferAuthority {newAuthority : Option Pubkey} {target authority : AccountInfo κ}
      {rest : List (AccountInfo κ)} {m : Machine κ} : authority.isSigner = true →
      codec.decodePrefix (m.cells target.account).data = some (buffer (some authority.pubkey)) →
      serializedSize (buffer newAuthority) ≤ (m.cells target.account).data.length →
      Effect sysvars exec ctx (.setAuthority newAuthority) (target :: authority :: rest) m
        (m.packState target.account (buffer newAuthority))
  | setProgramAuthority {newAuthority : Option Pubkey} {target authority : AccountInfo κ}
      {rest : List (AccountInfo κ)} {m : Machine κ} {slot : UInt64} : authority.isSigner = true →
      codec.decodePrefix (m.cells target.account).data =
        some (programData slot (some authority.pubkey)) →
      serializedSize (programData slot newAuthority) ≤ (m.cells target.account).data.length →
      Effect sysvars exec ctx (.setAuthority newAuthority) (target :: authority :: rest) m
        (m.packState target.account (programData slot newAuthority))
  | close {target recipient authority : AccountInfo κ} {rest : List (AccountInfo κ)}
      {m : Machine κ} :
      authority.isSigner = true →
      Effect sysvars exec ctx .close (target :: recipient :: authority :: rest) m
        (closed m target.account recipient.account)

variable {sysvars : Sysvars} {exec : ProgramExecutor κ} {ctx : InvokeContext}
  {accounts : List (AccountInfo κ)} {m m' : Machine κ}

theorem initializeBuffer_effect (h : initializeBuffer accounts m = (.ok (),m')) :
    Effect sysvars exec ctx .initializeBuffer accounts m m' := by
  match accounts with
  | [] => simp [initializeBuffer] at h
  | bufferInfo :: authority =>
    simp only [initializeBuffer,AccountInfo.tryBorrowData_bind,failIf_bind_ok,not_not,
      packIntoAccount_ok] at h
    obtain ⟨hu,hl,rfl⟩ := h
    exact .initializeBuffer hu hl

theorem write_effect {offset : UInt32} {bytes : List UInt8}
    (h : write offset bytes accounts m = (.ok (),m')) :
    Effect sysvars exec ctx (.write offset bytes) accounts m m' := by
  match accounts with
  | [] | [_] => simp [write] at h
  | bufferInfo :: authority :: rest =>
    simp only [write,readState_bind_ok] at h
    obtain ⟨state,hd,h⟩ := h
    cases state with
    | buffer authorityAddress =>
      simp only [failIf_bind_ok,not_not,AccountInfo.tryBorrowData_bind,not_lt,
        AccountInfo.setData_bind,packIntoAccount_ok] at h
      obtain ⟨-,ha,hs,hl,-,rfl⟩ := h
      subst ha
      exact .write hd hs hl
    | uninitialized => simp [Exec.bind_run] at h
    | program _ => simp [Exec.bind_run] at h
    | programData _ _ => simp [Exec.bind_run] at h

theorem deploy_effect {maxDataLen : UInt64}
    (h : deployWithMaxDataLen sysvars exec ctx maxDataLen accounts m = (.ok (),m')) :
    Effect sysvars exec ctx (.deployWithMaxDataLen maxDataLen) accounts m m' := by
  match accounts with
  | [] | [_] | [_,_] | [_,_,_] | [_,_,_,_] | [_,_,_,_,_] | [_,_,_,_,_,_] | [_,_,_,_,_,_,_] =>
    simp [deployWithMaxDataLen] at h
  | payerInfo :: programdataInfo :: programInfo :: bufferInfo :: rentInfo :: clockInfo ::
      systemInfo :: authority :: rest =>
    simp only [deployWithMaxDataLen,failIf_bind_ok,not_not,AccountInfo.tryBorrowData_bind,
      Exec.orFail_bind_ok,bufferDataLen_bind_ok,AccountInfo.lamports_bind] at h
    obtain ⟨hs,rent,hr,hb,hm,h⟩ := h
    obtain ⟨u,m₁,hi,h⟩ := Exec.bind_ok.mp h
    simp only [AccountInfo.tryBorrowData_bind,Exec.orFail_bind_ok,packIntoAccount_bind_ok,
      copyCode_bind_ok,AccountInfo.borrowMut_bind,AccountInfo.lamports_bind,
      AccountInfo.setLamports_bind,AccountInfo.setData_run,Prod.mk.injEq,true_and] at h
    obtain ⟨slot,hc,-,hne,-,-,-,rfl⟩ := h
    exact .deploy hs hr hb hm hi hc hne

theorem setAuthority_effect {newAuthority : Option Pubkey}
    (h : setAuthority newAuthority accounts m = (.ok (),m')) :
    Effect sysvars exec ctx (.setAuthority newAuthority) accounts m m' := by
  match accounts with
  | [] | [_] => simp [setAuthority] at h
  | target :: authority :: rest =>
    simp only [setAuthority,failIf_bind_ok,not_not,readState_bind_ok] at h
    obtain ⟨hs,state,hd,h⟩ := h
    cases state with
    | buffer authorityAddress =>
      simp only [failIf_bind_ok,not_not,packIntoAccount_ok] at h
      obtain ⟨rfl,hl,rfl⟩ := h
      exact .setBufferAuthority hs hd hl
    | programData slot authorityAddress =>
      simp only [failIf_bind_ok,not_not,packIntoAccount_ok] at h
      obtain ⟨rfl,hl,rfl⟩ := h
      exact .setProgramAuthority hs hd hl
    | uninitialized => simp at h
    | program _ => simp at h

theorem close_effect (h : close accounts m = (.ok (),m')) :
    Effect sysvars exec ctx .close accounts m m' := by
  match accounts with
  | [] | [_] | [_,_] => simp [close] at h
  | target :: recipient :: authority :: rest =>
    simp only [close,failIf_bind_ok,not_not,AccountInfo.lamports_bind,AccountInfo.setLamports_bind,
      AccountInfo.setData_run,Prod.mk.injEq,true_and] at h
    obtain ⟨hs,rfl⟩ := h
    exact .close hs

theorem run_effect {i : LoaderInstruction} (h : run sysvars exec ctx accounts i m = (.ok (),m')) :
    Effect sysvars exec ctx i accounts m m' := by
  cases i with
  | initializeBuffer => exact initializeBuffer_effect h
  | write offset bytes => exact write_effect h
  | deployWithMaxDataLen maxDataLen => exact deploy_effect h
  | upgrade => simp [run] at h
  | setAuthority newAuthority => exact setAuthority_effect h
  | close => exact close_effect h

theorem entrypoint_effect (h : entrypoint sysvars exec ctx accounts m = (.ok (),m')) :
    ∃ i, LoaderInstruction.codec.decodePrefix ctx.instructionData = some i ∧
      Effect sysvars exec ctx i accounts m m' := by
  simp only [entrypoint,Exec.orFail_bind_ok] at h
  obtain ⟨i,hd,h⟩ := h
  exact ⟨i,hd,run_effect h⟩

end BpfLoaderProgram

end TinySolana
