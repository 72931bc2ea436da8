import TinySolana.BufferMachine
import TinySolana.DeployedCode
import TinySolana.ReadOnlyAccounts
import TinySolana.WritePermission

/-!
# Uploading code

A program is uploaded in chunks. The writes that a buffer has taken may come in any order, overlap
and be repeated, with refused ones and changes of the authority in between: a byte of the buffer is
that of the code where some chunk covers it, and zero elsewhere. A deployment leaves the code behind
its record.
-/

namespace TinySolana
open Foundations UpgradeableLoaderState BpfLoaderProgram

namespace BufferOp

/-- The operation writes a part of the code where it stands in it. -/
def ChunkOf (code : List UInt8) : BufferOp → Prop
  | write _ offset bytes => bytes <+: code.drop offset
  | _ => True

/-- The operation writes the byte at a position. -/
def Covers (p : ℕ) : BufferOp → Prop
  | write _ offset bytes => offset ≤ p ∧ p < offset+bytes.length
  | _ => False

instance (p : ℕ) (op : BufferOp) : Decidable (op.Covers p) := by
  cases op <;> unfold Covers <;> infer_instance

variable {code bytes : List UInt8} {op : BufferOp} {p : ℕ}

/-- A chunk puts the code where it covers, and leaves the other bytes alone. -/
theorem overwrite_chunk {b : CodeBuffer} (ha : b.Accepts op) (hc : op.ChunkOf code) :
    (op.overwrite b.code)[p]? = if op.Covers p then code[p]? else b.code[p]? := by
  cases op with
  | setUp authority => exact (if_neg id).symm
  | setAuthority signer newAuthority => exact (if_neg id).symm
  | write signer offset bytes =>
    have hfit : offset+bytes.length ≤ b.code.length := ha.2
    by_cases hp : (write signer offset bytes).Covers p
    · rw [if_pos hp]
      obtain ⟨hle,hlt⟩ := hp
      obtain ⟨d,rfl⟩ := Nat.exists_eq_add_of_le hle
      obtain ⟨rest,hrest⟩ := hc
      have hd : d < bytes.length := by omega
      have hfront : (b.code.take offset).length = offset := List.length_take_of_le (by omega)
      rw [overwrite,overwriteAt,List.append_assoc,List.getElem?_append_right (by omega),hfront,
        Nat.add_sub_cancel_left,List.getElem?_append_left hd,← List.getElem?_drop,← hrest,
        List.getElem?_append_left hd]
    · rw [if_neg hp]
      refine getElem?_overwriteAt hfit ?_
      have hp' : ¬(offset ≤ p ∧ p < offset+bytes.length) := hp
      omega

end BufferOp

namespace CodeBuffer

/-- What is written in chunks of the code, over some other bytes. -/
theorem run_uploads {code : List UInt8} {events : List (BufferOp × Bool)} {b b' : CodeBuffer}
    (hr : Run Step b events b') (hc : ∀ event ∈ events, event.2 = true → event.1.ChunkOf code)
    (p : ℕ) :
    b'.code[p]? = if ∃ event ∈ events, event.2 = true ∧ event.1.Covers p then code[p]?
      else b.code[p]? := by
  induction hr with
  | nil => exact (if_neg (by simp)).symm
  | @snoc b₁ b₂ events event _ last ih =>
    obtain ⟨hbefore,hlast⟩ := List.forall_mem_append.mp hc
    have hsplit : (∃ e ∈ events ++ [event], e.2 = true ∧ e.1.Covers p) ↔
        (∃ e ∈ events, e.2 = true ∧ e.1.Covers p) ∨ event.2 = true ∧ event.1.Covers p := by
      simp only [List.mem_append,List.mem_singleton,or_and_right,exists_or,exists_eq_left]
    rcases last with ⟨hok,ha,rfl⟩ | ⟨hno,-,rfl⟩
    · have hchunk := hlast event List.mem_cons_self hok
      change (event.1.overwrite b₁.code)[p]? = _
      rw [BufferOp.overwrite_chunk ha hchunk,ih hbefore]
      by_cases hp : event.1.Covers p
      · rw [if_pos hp,if_pos (hsplit.mpr (.inr ⟨hok,hp⟩))]
      · rw [if_neg hp]
        exact if_congr (hsplit.trans (or_iff_left fun h => hp h.2)).symm rfl rfl
    · rw [ih hbefore]
      exact if_congr (hsplit.trans (or_iff_left fun h => by simp [hno] at h)).symm rfl rfl

end CodeBuffer

variable {κ : Type} [DecidableEq κ] {host : Host} {c : κ} {n : ℕ} {m m' m'' : Machine κ}
  {calls : List (BufferCall κ)} {code : List UInt8}

/-- The call was taken and writes the byte at a position. -/
def BufferCall.Writes (p : ℕ) (call : BufferCall κ) : Prop :=
  call.returns = .ok () ∧ call.op.Covers p

instance (p : ℕ) (call : BufferCall κ) : Decidable (call.Writes p) :=
  inferInstanceAs (Decidable (_ ∧ _))

omit [DecidableEq κ] in
theorem BufferCall.event_taken (call : BufferCall κ) :
    call.event.2 = true ↔ call.returns = .ok () := by
  unfold event
  cases h : call.returns <;> simp

/-- The bytes behind the header of a buffer after some calls. -/
theorem BufferStep.run_uploads {b : CodeBuffer} (hb : b.Stored (m.cells c).data)
    (hr : Run (BufferStep host c) m calls m')
    (hchunks : ∀ call ∈ calls, call.returns = .ok () → call.op.ChunkOf code) :
    (m'.cells c).data.length = (m.cells c).data.length ∧ ∀ p, (bufferCode (m'.cells c).data)[p]? =
      if ∃ call ∈ calls, call.Writes p then code[p]? else b.code[p]? := by
  have hstart : b.Stored (m.cells c).data ∧ (m.cells c).data.length = (m.cells c).data.length :=
    ⟨hb,rfl⟩
  obtain ⟨b',hrun,hb',hlen⟩ := hr.simulate
    (R := fun t (b : CodeBuffer) => b.Stored (t.cells c).data ∧
      (t.cells c).data.length = (m.cells c).data.length)
    (fun s call s' b hs h => by
      obtain ⟨b',hstep,hb',hl⟩ := h.simulates hs.1
      exact ⟨b',hstep,hb',hl.trans hs.2⟩) hstart
  refine ⟨hlen,fun p => ?_⟩
  have hevents : ∀ event ∈ calls.map BufferCall.event, event.2 = true → event.1.ChunkOf code := by
    intro event he hok
    obtain ⟨call,hcall,rfl⟩ := List.mem_map.mp he
    exact hchunks call hcall (call.event_taken.mp hok)
  rw [bufferCode,hb'.code,CodeBuffer.run_uploads hrun hevents]
  refine if_congr ?_ rfl rfl
  simp only [List.mem_map,exists_exists_and_eq_and,BufferCall.event_taken]
  exact Iff.rfl

/-- The order in which chunks of the code are taken makes no difference. -/
theorem uploaded_in_any_order (hn : sizeOfBufferMetadata ≤ n)
    (hz : (m.cells c).data = List.replicate n 0) (hr : Run (BufferStep host c) m calls m')
    (hchunks : ∀ call ∈ calls, call.returns = .ok () → call.op.ChunkOf code) :
    (m'.cells c).data.length = n ∧ ∀ p < n-sizeOfBufferMetadata,
      (bufferCode (m'.cells c).data)[p]? =
        if ∃ call ∈ calls, call.Writes p then code[p]? else some 0 := by
  obtain ⟨hlen,hbytes⟩ := BufferStep.run_uploads (hz ▸ CodeBuffer.stored_zeros hn) hr hchunks
  refine ⟨hlen.trans (by rw [hz,List.length_replicate]),fun p hp => ?_⟩
  rw [hbytes,List.getElem?_replicate_of_lt hp]

/-- The machine of a deployment whose buffer was just created. -/
def uploadMachine : Machine (Fin 5) :=
  deployMachine.setData deployBuffer.account (List.replicate 41 0)

/-- A call on the buffer, signed for by the payer. -/
def uploadCall (i : LoaderInstruction) (op : BufferOp) : BufferCall (Fin 5) :=
  ⟨⟨bpfLoaderUpgradeableProgramId,LoaderInstruction.codec.encode i,0⟩,deployBuffer,[deployPayer],op,
    .ok ()⟩

def setUpCall : BufferCall (Fin 5) := uploadCall .initializeBuffer (.setUp (some (.ofByte 1)))

def chunkCall (offset : UInt32) (bytes : List UInt8) : BufferCall (Fin 5) :=
  uploadCall (.write offset bytes) (.write (some (.ofByte 1)) offset.toNat bytes)

/-- The machine after a call. -/
def afterCall (m : Machine (Fin 5)) (call : BufferCall (Fin 5)) : Machine (Fin 5) :=
  (BpfLoaderProgram.entrypoint (default : Host).sysvars
    (ChainedProgramExecutor.execute default) call.ctx (call.buffer :: call.rest) m).2

/-- A buffer of four bytes, set up and with the end of the code. -/
def halfUploaded : Machine (Fin 5) := afterCall (afterCall uploadMachine setUpCall)
    (chunkCall 2 [76,70])

theorem halfUploaded_run :
    Run (BufferStep default 3) uploadMachine [setUpCall,chunkCall 2 [76,70]] halfUploaded := by
  have hfirst : BufferStep default 3 uploadMachine setUpCall (afterCall uploadMachine setUpCall) :=
    ⟨rfl,⟨.initializeBuffer,by decide,rfl⟩,Exec.run_of_result (by decide)⟩
  have hsecond : BufferStep default 3 (afterCall uploadMachine setUpCall) (chunkCall 2 [76,70])
    halfUploaded :=
    ⟨rfl,⟨.write 2 [76,70],by decide,rfl⟩,Exec.run_of_result (by decide)⟩
  exact (Run.single hfirst).snoc hsecond

theorem half_uploaded : (halfUploaded.cells 3).data.length = 41 ∧ ∀ p < 4,
    (bufferCode (halfUploaded.cells 3).data)[p]? =
      if ∃ call ∈ [setUpCall,chunkCall 2 [76,70]], call.Writes p then elfCode[p]? else some 0 := by
  refine uploaded_in_any_order (by decide) rfl halfUploaded_run ?_
  intro call hcall _
  rcases List.mem_pair.mp hcall with rfl | rfl
  · exact trivial
  · exact ⟨[],rfl⟩

/-- Code of the size of a buffer, when every byte of it was written. -/
theorem uploaded_code {b : CodeBuffer} (hb : b.Stored (m.cells c).data)
    (hr : Run (BufferStep host c) m calls m') (hcode : code.length = b.code.length)
    (hchunks : ∀ call ∈ calls, call.returns = .ok () → call.op.ChunkOf code)
    (hall : ∀ p < code.length, ∃ call ∈ calls, call.Writes p) :
      bufferCode (m'.cells c).data = code := by
  obtain ⟨hlen,hbytes⟩ := BufferStep.run_uploads hb hr hchunks
  refine List.ext_getElem? fun p => ?_
  rw [hbytes]
  by_cases hp : p < code.length
  · exact if_pos (hall p hp)
  · rw [List.getElem?_eq_none (not_lt.mp hp),List.getElem?_eq_none (hcode ▸ not_lt.mp hp),ite_self]

variable {deploy : Instruction} {computeBudget maxDataLen : UInt64}
  {payer programdata program buffer : AccountInfo κ} {rest : List (AccountInfo κ)}

/-- After a deployment the programdata account holds a record, the code of the buffer and zeros. -/
theorem deployed_programdata_image
    (hd : LoaderInstruction.codec.decodePrefix deploy.data =
      some (.deployWithMaxDataLen maxDataLen))
    (hp : deploy.programId = bpfLoaderUpgradeableProgramId)
    (h : ChainedProgramExecutor.execute host deploy ⟨deploy.programId,deploy.data,computeBudget⟩
      (payer :: programdata :: program :: buffer :: rest) m = (.ok (),m'))
    (hne : programdata.account ≠ program.account) : ∃ slot authority space,
      (m'.cells programdata.account).data =
        programdataImage slot authority space (bufferCode (m.cells buffer.account).data) := by
  rw [ChainedProgramExecutor.execute_loader host hp] at h
  obtain ⟨i,hi,heff⟩ := BpfLoaderProgram.entrypoint_effect h
  cases hi.symm.trans hd
  cases heff with
  | @deploy _ _ _ _ _ _ _ system authority _ _ m₁ _ slot hs hr hb hm hv hc hbuffer =>
    obtain ⟨space,owner,hcreated⟩ := invoke_createAccount_effect (d := 0) hi hv
    have hcode : (m₁.cells buffer.account).data = (m.cells buffer.account).data :=
      hcreated.created_data hbuffer
    have hzero : (m₁.cells programdata.account).data = List.replicate space.toNat 0 := by
      cases hcreated with
      | createAccount hs ht hl hp => rw [SystemProgram.allocate_self]
    refine ⟨slot,authority.pubkey,space.toNat,?_⟩
    rw [deployed_data (Ne.symm hbuffer),Machine.packState,Machine.update_of_ne _ hne,
      copied_image hbuffer hzero (by rw [hcode]),hcode]
    rfl

/-- What was uploaded in chunks is what is deployed. -/
theorem uploaded_code_deployed (hn : sizeOfBufferMetadata ≤ n)
    (hz : (m.cells buffer.account).data = List.replicate n 0)
    (hr : Run (BufferStep host buffer.account) m calls m')
    (hcode : code.length = n-sizeOfBufferMetadata)
    (hchunks : ∀ call ∈ calls, call.returns = .ok () → call.op.ChunkOf code)
    (hall : ∀ p < code.length, ∃ call ∈ calls, call.Writes p)
    (hd : LoaderInstruction.codec.decodePrefix deploy.data =
      some (.deployWithMaxDataLen maxDataLen))
    (hp : deploy.programId = bpfLoaderUpgradeableProgramId)
    (h : ChainedProgramExecutor.execute host deploy ⟨deploy.programId,deploy.data,computeBudget⟩
      (payer :: programdata :: program :: buffer :: rest) m' = (.ok (),m''))
    (hne : programdata.account ≠ program.account) : ∃ slot authority space,
      (m''.cells programdata.account).data = programdataImage slot authority space code := by
  have hsize : code.length = (List.replicate (n-sizeOfBufferMetadata) (0 : UInt8)).length := by
    rw [hcode,List.length_replicate]
  have hupload : bufferCode (m'.cells buffer.account).data = code :=
    uploaded_code (hz ▸ CodeBuffer.stored_zeros hn) hr hsize hchunks hall
  rw [← hupload]
  exact deployed_programdata_image hd hp h hne

/-- The first chunk of the code overlaps the last one, which was written before. -/
theorem elf_uploaded_deployed : ∃ m slot authority space,
    ChainedProgramExecutor.execute default deployElf ⟨deployElf.programId,deployElf.data,300⟩
      (deployInfo 1 true 0 :: deployInfo 2 true 1 :: deployInfo 9 false 2 :: deployInfo 3 false 3 ::
        deployRest) (afterCall halfUploaded (chunkCall 0 [127,69,76])) = (.ok (),m) ∧
      (m.cells 1).data = programdataImage slot authority space elfCode := by
  have hlast : BufferStep default 3 halfUploaded (chunkCall 0 [127,69,76])
      (afterCall halfUploaded (chunkCall 0 [127,69,76])) :=
    ⟨rfl,⟨.write 0 [127,69,76],by decide,rfl⟩,Exec.run_of_result (by decide)⟩
  have hdeploy := Exec.run_of_result (x := ChainedProgramExecutor.execute default deployElf
    ⟨deployElf.programId,deployElf.data,300⟩ (deployInfo 1 true 0 :: deployInfo 2 true 1 ::
      deployInfo 9 false 2 :: deployInfo 3 false 3 :: deployRest)) (s := afterCall halfUploaded
        (chunkCall 0 [127,69,76])) (r := .ok ()) (by decide +kernel)
  have hchunks : ∀ call ∈ [setUpCall,chunkCall 2 [76,70]] ++ [chunkCall 0 [127,69,76]],
      call.returns = .ok () → call.op.ChunkOf elfCode := by
    intro call hcall _
    simp only [List.mem_append,List.mem_pair,List.mem_singleton] at hcall
    rcases hcall with (rfl | rfl) | rfl
    · exact trivial
    · exact ⟨[],rfl⟩
    · exact ⟨[70],rfl⟩
  have hdecode : LoaderInstruction.codec.decodePrefix deployElf.data =
      some (.deployWithMaxDataLen 4) := by
    decide
  obtain ⟨slot,authority,space,h⟩ := uploaded_code_deployed (n := 41) (by decide) rfl
    (halfUploaded_run.snoc hlast) rfl hchunks (by decide +kernel) hdecode rfl hdeploy (by decide)
  have hcell : (deployInfo 2 true 1).account = 1 := rfl
  rw [hcell] at h
  exact ⟨_,slot,authority,space,hdeploy,h⟩

end TinySolana
