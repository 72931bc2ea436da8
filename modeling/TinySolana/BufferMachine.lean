import TinySolana.Foundations.Runs
import TinySolana.Invocation
import TinySolana.Programs.LoaderStates

/-!
# Buffer accounts as a machine

What a buffer account is for: an authority, once it is set up, and the bytes of a program. The
account keeps both in its data, the authority in a header that takes five or thirty-seven bytes and
the program from byte thirty-seven on.
-/

namespace TinySolana
open Foundations

/-! ## The machine -/

/-- Who may change the buffer, once it is set up, and its bytes. -/
structure CodeBuffer where
  authority : Option (Option Pubkey)
  code : List UInt8

/-- An operation, with the key that has signed for it. -/
inductive BufferOp where
  | setUp (authority : Option Pubkey)
  | write (signer : Option Pubkey) (offset : ℕ) (bytes : List UInt8)
  | setAuthority (signer newAuthority : Option Pubkey)

namespace BufferOp

/-- The authority that an operation sets. -/
def sets : BufferOp → Option (Option Pubkey)
  | setUp authority => some authority
  | write _ _ _ => none
  | setAuthority _ newAuthority => some newAuthority

/-- The bytes after an operation. -/
def overwrite (code : List UInt8) : BufferOp → List UInt8
  | write _ offset bytes => BpfLoaderProgram.overwriteAt code offset bytes
  | _ => code

end BufferOp

namespace CodeBuffer

/-- The signer is the authority. -/
def HeldBy (b : CodeBuffer) (signer : Option Pubkey) : Prop :=
  signer ≠ none ∧ b.authority = some signer

instance (b : CodeBuffer) (signer : Option Pubkey) : Decidable (b.HeldBy signer) :=
  inferInstanceAs (Decidable (_ ∧ _))

/-- The buffer takes the operation. -/
def Accepts (b : CodeBuffer) : BufferOp → Prop
  | .setUp _ => b.authority = none
  | .write signer offset bytes => b.HeldBy signer ∧ offset+bytes.length ≤ b.code.length
  | .setAuthority signer _ => b.HeldBy signer

/-- What an operation does that the buffer takes. -/
def apply (b : CodeBuffer) (op : BufferOp) : CodeBuffer where
  authority := op.sets.or b.authority
  code := op.overwrite b.code

/-- An operation is taken or refused. -/
def Step (b : CodeBuffer) (event : BufferOp × Bool) (b' : CodeBuffer) : Prop :=
  (event.2 = true ∧ b.Accepts event.1 ∧ b' = b.apply event.1) ∨
    (event.2 = false ∧ ¬b.Accepts event.1 ∧ b' = b)

/-- The operations of a history that were taken. -/
def taken (events : List (BufferOp × Bool)) : List BufferOp :=
  (events.filter Prod.snd).map Prod.fst

/-- The authority that was set last. -/
def lastSet (ops : List BufferOp) : Option (Option Pubkey) := (ops.filterMap BufferOp.sets).getLast?

/-- The authority is the one set last, and the bytes are those written in order. -/
theorem run_from {code : List UInt8} {events : List (BufferOp × Bool)} {b : CodeBuffer}
    (hr : Run Step ⟨none,code⟩ events b) :
    b = ⟨lastSet (taken events),(taken events).foldl BufferOp.overwrite code⟩ := by
  induction hr with
  | nil => rfl
  | @snoc b b' events event _ last ih =>
    obtain ⟨op,ok⟩ := event
    subst ih
    rcases last with ⟨rfl,-,rfl⟩ | ⟨rfl,-,rfl⟩
    · have ht : taken (events ++ [(op,true)]) = taken events ++ [op] := by simp [taken]
      rw [ht,apply,lastSet,lastSet,List.filterMap_append,List.getLast?_append,List.foldl_append]
      cases hs : op.sets <;> simp [hs]
    · have ht : taken (events ++ [(op,false)]) = taken events := by simp [taken]
      rw [ht]

/-- A buffer that nobody holds takes nothing. -/
theorem not_accepts_of_final {b : CodeBuffer} (h : b.authority = some none) (op : BufferOp) :
    ¬b.Accepts op := by
  have hheld : ∀ signer, ¬b.HeldBy signer := by
    rintro signer ⟨hs,ha⟩
    exact hs (Option.some.inj (h.symm.trans ha)).symm
  cases op with
  | setUp authority => simp [Accepts,h]
  | write signer offset bytes => exact fun ha => hheld signer ha.1
  | setAuthority signer newAuthority => exact hheld signer

end CodeBuffer

/-! ## The account -/

open UpgradeableLoaderState in
/-- The header that stands for the authority. -/
def CodeBuffer.state (b : CodeBuffer) : UpgradeableLoaderState :=
  match b.authority with
  | none => uninitialized
  | some authority => buffer authority

open UpgradeableLoaderState in
/-- The data of an account hold the buffer. -/
structure CodeBuffer.Stored (b : CodeBuffer) (data : List UInt8) : Prop where
  header : codec.decodePrefix data = some b.state
  code : data.drop sizeOfBufferMetadata = b.code
  room : sizeOfBufferMetadata ≤ data.length

namespace CodeBuffer
open UpgradeableLoaderState BpfLoaderProgram

variable {b : CodeBuffer} {data : List UInt8}

theorem state_of_heldBy {signer : Option Pubkey} (h : b.HeldBy signer) :
    ∃ a, signer = some a ∧ b.state = buffer (some a) := by
  obtain ⟨hs,ha⟩ := h
  cases signer with
  | none => exact absurd rfl hs
  | some a => exact ⟨a,rfl,by rw [state,ha]⟩

theorem state_eq_buffer {authority : Option Pubkey} :
    b.state = buffer authority ↔ b.authority = some authority := by
  rw [state]
  cases b.authority <;> simp

theorem Stored.header_iff {authority : Option Pubkey} (h : b.Stored data) :
    codec.decodePrefix data = some (buffer authority) ↔ b.authority = some authority := by
  rw [h.header,Option.some_inj,state_eq_buffer]

theorem Stored.code_length (h : b.Stored data) :
    b.code.length = data.length-sizeOfBufferMetadata := by
  rw [← h.code,List.length_drop]

/-- The data after an operation. -/
def written (data : List UInt8) : BufferOp → List UInt8
  | .setUp authority => packedOver (buffer authority) data
  | .write _ offset bytes => overwriteAt data (sizeOfBufferMetadata+offset) bytes
  | .setAuthority _ newAuthority => packedOver (buffer newAuthority) data

theorem Stored.packed (h : b.Stored data) (authority : Option Pubkey) :
    (⟨some authority,b.code⟩ : CodeBuffer).Stored (packedOver (buffer authority) data) ∧
      (packedOver (buffer authority) data).length = data.length := by
  have hsize := serializedSize_buffer_le authority
  have hlen := packedOver_length (hsize.trans h.room)
  refine ⟨⟨decodePrefix_encode _ _,?_,hlen.symm ▸ h.room⟩,hlen⟩
  rw [packedOver_drop hsize]
  exact h.code

/-- An operation that is taken stores the next buffer in data of the same length. -/
theorem Stored.written {op : BufferOp} (h : b.Stored data) (ha : b.Accepts op) :
    (b.apply op).Stored (written data op) ∧ (CodeBuffer.written data op).length = data.length := by
  cases op with
  | setUp authority => exact h.packed authority
  | setAuthority signer newAuthority => exact h.packed newAuthority
  | write signer offset bytes =>
    obtain ⟨hheld,hfit⟩ := ha
    rw [h.code_length] at hfit
    have hroom := h.room
    have hlen : (overwriteAt data (sizeOfBufferMetadata+offset) bytes).length = data.length :=
      overwriteAt_length (by omega)
    obtain ⟨a,-,hstate⟩ := state_of_heldBy hheld
    have hsize : b.state.serializedSize ≤ sizeOfBufferMetadata+offset := by
      rw [hstate]
      exact (serializedSize_buffer_le (some a)).trans (Nat.le_add_right _ _)
    refine ⟨⟨decodePrefix_overwriteAt h.header hsize,?_,hlen.symm ▸ hroom⟩,hlen⟩
    rw [CodeBuffer.written,overwriteAt_drop hroom,h.code]
    rfl

end CodeBuffer

/-! ## The instructions -/

section

variable {κ : Type}

/-- The key of the second account, if it has signed. -/
def signerOf (rest : List (AccountInfo κ)) : Option Pubkey :=
  rest.head?.bind fun info => if info.isSigner then some info.pubkey else none

theorem signerOf_eq_some {rest : List (AccountInfo κ)} {a : Pubkey} (h : signerOf rest = some a) :
    ∃ info more, rest = info :: more ∧ a = info.pubkey ∧ info.isSigner = true := by
  cases rest with
  | nil => cases h
  | cons info more =>
    simp only [signerOf,List.head?_cons,Option.bind_some] at h
    split at h
    · next hs =>
      cases h
      exact ⟨info,more,rfl,rfl,hs⟩
    · cases h

/-- The operation that an instruction asks for, with the accounts behind the buffer. -/
def LoaderInstruction.bufferOp (rest : List (AccountInfo κ)) : LoaderInstruction → Option BufferOp
  | initializeBuffer => some (.setUp (rest.head?.map AccountInfo.pubkey))
  | write offset bytes => some (.write (signerOf rest) offset.toNat bytes)
  | setAuthority newAuthority => some (.setAuthority (signerOf rest) newAuthority)
  | _ => none

end

namespace BpfLoaderProgram
open UpgradeableLoaderState

variable {κ : Type} [DecidableEq κ] {info : AccountInfo κ} {rest : List (AccountInfo κ)}
  {m : Machine κ} {b : CodeBuffer}

theorem packIntoAccount_run {state : UpgradeableLoaderState}
    (h : state.serializedSize ≤ (m.cells info.account).data.length) :
    packIntoAccount state info m = (.ok (),m.packState info.account state) :=
  packIntoAccount_ok.mpr ⟨h,rfl⟩

omit [DecidableEq κ] in
theorem failIf_refused {c : Prop} [Decidable c] (h : c) (e : BpfLoaderError)
    (f : Unit → Prog κ Unit) :
    (failIf c e >>= f) m = (.err e.toProgramError,m) := Exec.failIf_bind_refused h _ f m

omit [DecidableEq κ] in
theorem failIf_passed {c : Prop} [Decidable c] (h : ¬c) (e : BpfLoaderError)
    (f : Unit → Prog κ Unit) :
    (failIf c e >>= f) m = f () m := Exec.failIf_bind_passed h _ f m

theorem initializeBuffer_run (hb : b.Stored (m.cells info.account).data) :
    initializeBuffer (info :: rest) m =
      if b.authority = none then
        (.ok (),m.packState info.account (buffer (rest.head?.map AccountInfo.pubkey)))
      else (.err BpfLoaderError.accountAlreadyInitialized.toProgramError,m) := by
  have hstate : ofDataOrDefault (m.cells info.account).data = b.state := by
    rw [ofDataOrDefault,hb.header]
    rfl
  simp only [initializeBuffer,AccountInfo.tryBorrowData_bind]
  split
  · next hn =>
    have hu : ¬ofDataOrDefault (m.cells info.account).data ≠ uninitialized := by
      rw [hstate,CodeBuffer.state,hn]
      exact not_not.mpr rfl
    rw [failIf_passed hu]
    exact packIntoAccount_run ((serializedSize_buffer_le _).trans hb.room)
  · next hs =>
    have hu : ofDataOrDefault (m.cells info.account).data ≠ uninitialized := by
      rw [hstate,CodeBuffer.state]
      cases ha : b.authority with
      | none => exact absurd ha hs
      | some authority => simp
    exact failIf_refused hu _ _

omit [DecidableEq κ] in
theorem readState_run (hb : b.Stored (m.cells info.account).data)
    (f : UpgradeableLoaderState → Prog κ Unit) : (readState info >>= f) m = f b.state m := by
  simp only [readState,Exec.bind_assoc,AccountInfo.tryBorrowData_bind,hb.header,Exec.orFail_some,
    Exec.pure_bind]

theorem write_taken {offset : UInt32} {bytes : List UInt8}
    (hb : b.Stored (m.cells info.account).data)
    (h : b.Accepts (.write (signerOf rest) offset.toNat bytes)) :
    write offset bytes (info :: rest) m = (.ok (),m.setData info.account
      (overwriteAt (m.cells info.account).data (sizeOfBufferMetadata+offset.toNat) bytes)) := by
  obtain ⟨hheld,hfit⟩ := h
  obtain ⟨a,hsigner,hstate⟩ := CodeBuffer.state_of_heldBy hheld
  obtain ⟨authorityInfo,more,rfl,rfl,hs⟩ := signerOf_eq_some hsigner
  have hroom := hb.room
  rw [hb.code_length] at hfit
  have hsize : b.state.serializedSize ≤ sizeOfBufferMetadata+offset.toNat := by
    rw [hstate]
    exact (serializedSize_buffer_le _).trans (Nat.le_add_right _ _)
  -- Packing the state that was read changes nothing, for it is still there.
  have hkeep : codec.decodePrefix ((m.setData info.account (overwriteAt (m.cells info.account).data
      (sizeOfBufferMetadata+offset.toNat) bytes)).cells info.account).data = some b.state := by
    rw [Machine.setData_self]
    exact decodePrefix_overwriteAt hb.header hsize
  have hlen : b.state.serializedSize ≤ ((m.setData info.account (overwriteAt
      (m.cells info.account).data (sizeOfBufferMetadata+offset.toNat) bytes)).cells
        info.account).data.length := by
    rw [Machine.setData_self,overwriteAt_length (by omega)]
    omega
  rw [write,readState_run hb,hstate]
  dsimp only
  rw [failIf_passed (by simp),failIf_passed (by simp),failIf_passed (by simp [hs]),
    AccountInfo.tryBorrowData_bind,failIf_passed (by omega),AccountInfo.setData_bind,← hstate]
  exact (packIntoAccount_run hlen).trans (by rw [Machine.packState_eq_self hkeep])

theorem write_refused {offset : UInt32} {bytes : List UInt8}
    (hb : b.Stored (m.cells info.account).data)
    (h : ¬b.Accepts (.write (signerOf rest) offset.toNat bytes)) :
    ∃ e, write offset bytes (info :: rest) m = (.err e,m) := by
  cases rest with
  | nil => exact ⟨_,rfl⟩
  | cons authorityInfo more =>
    rw [write,readState_run hb]
    cases ha : b.authority with
    | none =>
      rw [CodeBuffer.state,ha]
      exact ⟨_,rfl⟩
    | some authority =>
      rw [CodeBuffer.state,ha]
      dsimp only
      by_cases hn : authority = none
      · exact ⟨_,failIf_refused hn _ _⟩
      rw [failIf_passed hn]
      by_cases hk : authority ≠ some authorityInfo.pubkey
      · exact ⟨_,failIf_refused hk _ _⟩
      rw [failIf_passed hk]
      by_cases hs : ¬authorityInfo.isSigner = true
      · exact ⟨_,failIf_refused hs _ _⟩
      rw [failIf_passed hs,AccountInfo.tryBorrowData_bind]
      refine ⟨_,failIf_refused (Nat.lt_of_not_le fun hfit => h ⟨⟨?_,?_⟩,?_⟩) _ _⟩
      · simp [signerOf,not_not.mp hs]
      · rw [ha,not_not.mp hk]
        simp [signerOf,not_not.mp hs]
      · rw [hb.code_length]
        omega

theorem setAuthority_taken {newAuthority : Option Pubkey}
    (hb : b.Stored (m.cells info.account).data)
    (h : b.HeldBy (signerOf rest)) : setAuthority newAuthority (info :: rest) m =
      (.ok (),m.packState info.account (buffer newAuthority)) := by
  obtain ⟨a,hsigner,hstate⟩ := CodeBuffer.state_of_heldBy h
  obtain ⟨authorityInfo,more,rfl,rfl,hs⟩ := signerOf_eq_some hsigner
  rw [setAuthority,failIf_passed (by simp [hs]),readState_run hb,hstate]
  dsimp only
  rw [failIf_passed (by simp)]
  exact packIntoAccount_run ((serializedSize_buffer_le _).trans hb.room)

theorem setAuthority_refused {newAuthority : Option Pubkey}
    (hb : b.Stored (m.cells info.account).data) (h : ¬b.HeldBy (signerOf rest)) :
    ∃ e, setAuthority newAuthority (info :: rest) m = (.err e,m) := by
  cases rest with
  | nil => exact ⟨_,rfl⟩
  | cons authorityInfo more =>
    rw [setAuthority]
    by_cases hs : ¬authorityInfo.isSigner = true
    · exact ⟨_,failIf_refused hs _ _⟩
    rw [failIf_passed hs,readState_run hb]
    cases ha : b.authority with
    | none =>
      rw [CodeBuffer.state,ha]
      exact ⟨_,rfl⟩
    | some authority =>
      rw [CodeBuffer.state,ha]
      have hk : authority ≠ some authorityInfo.pubkey := fun hk =>
        h ⟨by simp [signerOf,not_not.mp hs],by rw [ha,hk]; simp [signerOf,not_not.mp hs]⟩
      exact ⟨_,failIf_refused hk _ _⟩

/-! ## Refinement -/

variable {i : LoaderInstruction} {op : BufferOp} {sysvars : Sysvars} {exec : ProgramExecutor κ}
  {ctx : InvokeContext}

/-- The account takes an operation exactly when the buffer does, and a refusal changes nothing. -/
theorem run_of_stored (hb : b.Stored (m.cells info.account).data) (hi : i.bufferOp rest = some op) :
    (b.Accepts op ∧ run sysvars exec ctx (info :: rest) i m =
        (.ok (),m.setData info.account (CodeBuffer.written (m.cells info.account).data op))) ∨
      (¬b.Accepts op ∧ ∃ e, run sysvars exec ctx (info :: rest) i m = (.err e,m)) := by
  by_cases ha : b.Accepts op
  · refine .inl ⟨ha,?_⟩
    cases i with
    | initializeBuffer =>
      cases hi
      exact (initializeBuffer_run hb).trans (if_pos ha)
    | write offset bytes =>
      cases hi
      exact write_taken hb ha
    | setAuthority newAuthority =>
      cases hi
      exact setAuthority_taken hb ha
    | _ => cases hi
  · refine .inr ⟨ha,?_⟩
    cases i with
    | initializeBuffer =>
      cases hi
      exact ⟨_,(initializeBuffer_run hb).trans (if_neg ha)⟩
    | write offset bytes =>
      cases hi
      exact write_refused hb ha
    | setAuthority newAuthority =>
      cases hi
      exact setAuthority_refused hb ha
    | _ => cases hi

end BpfLoaderProgram

/-! ## Runs -/

/-- A call with the buffer as first account, the operation it asks for and how it returns. -/
structure BufferCall (κ : Type) where
  ctx : InvokeContext
  buffer : AccountInfo κ
  rest : List (AccountInfo κ)
  op : BufferOp
  returns : Outcome ProgramError Unit

/-- The operation and whether it was taken. -/
def BufferCall.event {κ : Type} (call : BufferCall κ) : BufferOp × Bool :=
  (call.op,match call.returns with
    | .ok _ => true
    | _ => false)

variable {κ : Type} [DecidableEq κ] {host : Host} {c : κ} {n : ℕ} {m m' : Machine κ}

/-- An instruction on the buffer account, succeeding or failing. -/
structure BufferStep (host : Host) (c : κ) (m : Machine κ) (call : BufferCall κ) (m' : Machine κ) :
    Prop where
  account : call.buffer.account = c
  instruction : ∃ i, LoaderInstruction.codec.decodePrefix call.ctx.instructionData = some i ∧
    i.bufferOp call.rest = some call.op
  run : BpfLoaderProgram.entrypoint host.sysvars (ChainedProgramExecutor.execute host) call.ctx
    (call.buffer :: call.rest) m = (call.returns,m')

section Step

variable {call : BufferCall κ} {b : CodeBuffer}

/-- The buffer takes the call and the account is written, or it refuses and nothing is changed. -/
theorem BufferStep.cases (hb : b.Stored (m.cells c).data) (h : BufferStep host c m call m') :
    (call.returns = .ok () ∧ b.Accepts call.op ∧
        m' = m.setData c (CodeBuffer.written (m.cells c).data call.op)) ∨
      (call.returns ≠ .ok () ∧ call.event.2 = false ∧ ¬b.Accepts call.op ∧ m' = m) := by
  obtain ⟨rfl,⟨i,hi,hop⟩,hrun⟩ := h
  rw [BpfLoaderProgram.entrypoint,hi,Exec.orFail_some,Exec.pure_bind] at hrun
  obtain ⟨ha,hr⟩ | ⟨ha,e,hr⟩ := BpfLoaderProgram.run_of_stored hb hop
  · obtain ⟨hret,rfl⟩ := Prod.mk.inj (hrun.symm.trans hr)
    exact .inl ⟨hret,ha,rfl⟩
  · obtain ⟨hret,rfl⟩ := Prod.mk.inj (hrun.symm.trans hr)
    exact .inr ⟨by simp [hret],by simp [BufferCall.event,hret],ha,rfl⟩

/-- Every call on a stored buffer is a step of the machine that is stored. -/
theorem BufferStep.simulates (hb : b.Stored (m.cells c).data) (h : BufferStep host c m call m') :
    ∃ b' : CodeBuffer, b.Step call.event b' ∧ b'.Stored (m'.cells c).data ∧
      (m'.cells c).data.length = (m.cells c).data.length := by
  obtain ⟨hret,ha,rfl⟩ | ⟨-,hret,ha,rfl⟩ := h.cases hb
  · refine ⟨b.apply call.op,.inl ⟨by simp [BufferCall.event,hret],ha,rfl⟩,?_⟩
    rw [Machine.setData_self]
    exact hb.written ha
  · exact ⟨b,.inr ⟨hret,ha,rfl⟩,hb,rfl⟩

theorem BufferStep.ok_iff (hb : b.Stored (m.cells c).data) (h : BufferStep host c m call m') :
    call.returns = .ok () ↔ b.Accepts call.op := by
  obtain ⟨hret,ha,-⟩ | ⟨hret,-,ha,-⟩ := h.cases hb
  · exact iff_of_true hret ha
  · exact iff_of_false hret ha

theorem BufferStep.write_iff {offset : UInt32} {bytes : List UInt8} (hb : b.Stored (m.cells c).data)
    (h : BufferStep host c m call m')
    (hi : LoaderInstruction.codec.decodePrefix call.ctx.instructionData =
      some (.write offset bytes)) :
    call.returns = .ok () ↔ ∃ authorityInfo more, call.rest = authorityInfo :: more ∧
      UpgradeableLoaderState.codec.decodePrefix (m.cells c).data =
        some (.buffer (some authorityInfo.pubkey)) ∧ authorityInfo.isSigner = true ∧
      UpgradeableLoaderState.sizeOfBufferMetadata+offset.toNat+bytes.length ≤
        (m.cells c).data.length := by
  obtain ⟨j,hj,hop⟩ := h.instruction
  rw [hi] at hj
  cases hj
  have hroom := hb.room
  have hcode := hb.code_length
  rw [h.ok_iff hb,← Option.some_inj.mp hop]
  constructor
  · rintro ⟨hheld,hfit⟩
    obtain ⟨a,hs,hstate⟩ := CodeBuffer.state_of_heldBy hheld
    obtain ⟨authorityInfo,more,hrest,rfl,hsigner⟩ := signerOf_eq_some hs
    exact ⟨authorityInfo,more,hrest,by rw [hb.header,hstate],hsigner,by omega⟩
  · rintro ⟨authorityInfo,more,hrest,hheader,hsigner,hfit⟩
    have hs : signerOf call.rest = some authorityInfo.pubkey := by simp [signerOf,hrest,hsigner]
    refine ⟨⟨by simp [hs],?_⟩,by omega⟩
    rw [hs]
    exact hb.header_iff.mp hheader

/-- Nothing changes a buffer that nobody holds. -/
theorem BufferStep.final {later : List (BufferCall κ)} (hb : b.Stored (m.cells c).data)
    (ha : b.authority = some none) (hr : Run (BufferStep host c) m later m') : m' = m := by
  refine Run.invariant (P := fun t => t = m) ?_ hr rfl
  rintro s call t rfl h
  obtain ⟨-,hacc,-⟩ | ⟨-,-,-,ht⟩ := h.cases hb
  · exact absurd hacc (CodeBuffer.not_accepts_of_final ha _)
  · exact ht

end Step

open UpgradeableLoaderState

/-- Zeros are a buffer that nobody has set up. -/
theorem CodeBuffer.stored_zeros (hn : sizeOfBufferMetadata ≤ n) :
    (⟨none,List.replicate (n-sizeOfBufferMetadata) 0⟩ : CodeBuffer).Stored
    (List.replicate n 0) := by
  have hu : codec.encode uninitialized = List.replicate 4 0 := by decide
  have hsize : 4 ≤ n := le_trans (by decide) hn
  refine ⟨?_,List.drop_replicate,by rwa [List.length_replicate]⟩
  rw [← Nat.add_sub_of_le hsize,List.replicate_add,← hu]
  exact decodePrefix_encode _ _

/-- The account after a history of calls that has found `n` zeros at first. -/
structure BufferHistory (host : Host) (c : κ) (n : ℕ) (calls : List (BufferCall κ)) (m : Machine κ)
    (b : CodeBuffer) : Prop where
  refines : Run CodeBuffer.Step ⟨none,List.replicate (n-sizeOfBufferMetadata) 0⟩
    (calls.map BufferCall.event) b
  authority : b.authority = CodeBuffer.lastSet (CodeBuffer.taken (calls.map BufferCall.event))
  bytes : b.code = (CodeBuffer.taken (calls.map BufferCall.event)).foldl BufferOp.overwrite
    (List.replicate (n-sizeOfBufferMetadata) 0)
  header : codec.decodePrefix (m.cells c).data = some b.state
  code : (m.cells c).data.drop sizeOfBufferMetadata = b.code
  length : (m.cells c).data.length = n
  refused : ∀ call m', BufferStep host c m call m' → call.returns ≠ .ok () → m' = m
  write_iff : ∀ call m' offset bytes, BufferStep host c m call m' →
    LoaderInstruction.codec.decodePrefix call.ctx.instructionData = some (.write offset bytes) →
      (call.returns = .ok () ↔ ∃ authorityInfo more, call.rest = authorityInfo :: more ∧
        codec.decodePrefix (m.cells c).data = some (buffer (some authorityInfo.pubkey)) ∧
        authorityInfo.isSigner = true ∧ sizeOfBufferMetadata+offset.toNat+bytes.length ≤ n)
  final : codec.decodePrefix (m.cells c).data = some (buffer none) → ∀ later m',
    Run (BufferStep host c) m later m' → m' = m

/-- Every history of a buffer account is one of the machine. -/
theorem buffer_refines (host : Host) {c : κ} {n : ℕ} (hn : sizeOfBufferMetadata ≤ n)
    {m m' : Machine κ} (hz : (m.cells c).data = List.replicate n 0) {calls : List (BufferCall κ)}
    (hr : Run (BufferStep host c) m calls m') : ∃ b, BufferHistory host c n calls m' b := by
  have hlen : (m.cells c).data.length = n := by rw [hz,List.length_replicate]
  have hstart : (⟨none,List.replicate (n-sizeOfBufferMetadata) 0⟩ : CodeBuffer).Stored
      (m.cells c).data ∧ (m.cells c).data.length = n := ⟨hz ▸ CodeBuffer.stored_zeros hn,hlen⟩
  obtain ⟨b,hrun,hb,hl⟩ := hr.simulate
    (R := fun t (b : CodeBuffer) => b.Stored (t.cells c).data ∧ (t.cells c).data.length = n)
    (fun s call s' b hs h => by
      obtain ⟨b',hstep,hb',hl'⟩ := h.simulates hs.1
      exact ⟨b',hstep,hb',hl'.trans hs.2⟩) hstart
  have heq := CodeBuffer.run_from hrun
  exact ⟨b,{
    refines := hrun
    authority := congrArg CodeBuffer.authority heq
    bytes := congrArg CodeBuffer.code heq
    header := hb.header
    code := hb.code
    length := hl
    refused := fun call m'' h hret => by
      obtain ⟨hok,-⟩ | ⟨-,-,-,hm⟩ := h.cases hb
      · exact absurd hok hret
      · exact hm
    write_iff := fun call m'' offset bytes h hi => hl ▸ h.write_iff hb hi
    final := fun hheader later m'' hr' => BufferStep.final hb (hb.header_iff.mp hheader) hr' }⟩

/-- An account with the given data. -/
def bufferOf (data : List UInt8) : Machine Unit where
  cells _ := { (default : Account) with data }
  computeMeter := 0
  programCache := ∅

/-- A call that asks for the instruction, signed for by the loader's own key. -/
def bufferCall (i : LoaderInstruction) (op : BufferOp) (returns : Outcome ProgramError Unit) :
    BufferCall Unit :=
  ⟨⟨bpfLoaderUpgradeableProgramId,LoaderInstruction.codec.encode i,0⟩,
    ⟨default,false,true,(),false,0⟩,[⟨bpfLoaderUpgradeableProgramId,true,false,(),false,0⟩],
      op,returns⟩

/-- The authority is set and a byte is written behind it; a second byte does not fit. -/
theorem byte_written_behind_authority : ∃ m b, BufferHistory default () 38
    [bufferCall .initializeBuffer (.setUp (some bpfLoaderUpgradeableProgramId)) (.ok ()),
      bufferCall (.write 0 [7]) (.write (some bpfLoaderUpgradeableProgramId) 0 [7]) (.ok ()),
      bufferCall (.write 1 [7]) (.write (some bpfLoaderUpgradeableProgramId) 1 [7])
        (.err BpfLoaderError.accountDataTooSmall.toProgramError)] m b ∧ b.code = [7] := by
  let header := codec.encode (buffer (some bpfLoaderUpgradeableProgramId))
  have h₁ : BufferStep default () (bufferOf (List.replicate 38 0)) (bufferCall .initializeBuffer
      (.setUp (some bpfLoaderUpgradeableProgramId)) (.ok ())) (bufferOf (header ++ [0])) :=
    ⟨rfl,⟨.initializeBuffer,by decide,rfl⟩,rfl⟩
  have h₂ : BufferStep default () (bufferOf (header ++ [0])) (bufferCall (.write 0 [7])
      (.write (some bpfLoaderUpgradeableProgramId) 0 [7]) (.ok ())) (bufferOf (header ++ [7])) :=
    ⟨rfl,⟨.write 0 [7],by decide,rfl⟩,rfl⟩
  have h₃ : BufferStep default () (bufferOf (header ++ [7])) (bufferCall (.write 1 [7])
      (.write (some bpfLoaderUpgradeableProgramId) 1 [7])
        (.err BpfLoaderError.accountDataTooSmall.toProgramError)) (bufferOf (header ++ [7])) :=
    ⟨rfl,⟨.write 1 [7],by decide,rfl⟩,rfl⟩
  obtain ⟨b,hb⟩ := buffer_refines default (by decide) rfl (((Run.single h₁).snoc h₂).snoc h₃)
  exact ⟨_,b,hb,hb.bytes.trans (by decide)⟩

end TinySolana
