import TinySolana.AccountInfos
import TinySolana.Programs.LoaderEffects

/-!
# Cross-program invocation

`InvokeContext::invoke` hands the callee the instruction but runs it in the caller's context, and an
entrypoint reads its instruction data and its program id from the context. A nested call therefore
does what the caller's data say when they are read as an instruction of the callee.
-/

namespace TinySolana
open Foundations

variable {κ : Type} [DecidableEq κ]

/-! ## The executor is closed under nesting -/

/-- Native programs only call the System program, so executors that agree on it serve them alike. -/
theorem NativeProgramExecutor.execute_congr {host : Host} {exec exec' : ProgramExecutor κ}
    (h : ∀ instruction : Instruction, instruction.programId = systemProgramId →
      exec instruction = exec' instruction) :
    NativeProgramExecutor.execute host exec = NativeProgramExecutor.execute host exec' := by
  funext instruction ctx accounts
  have htoken : TokenProgram.entrypoint host.sysvars exec ctx accounts =
      TokenProgram.entrypoint host.sysvars exec' ctx accounts := by
    unfold TokenProgram.entrypoint
    apply congrArg (Bind.bind _)
    funext i
    cases i with
    | setAuthority newAuthority =>
      simp only [TokenProgram.run]
      rcases accounts with _ | ⟨target,_ | ⟨current,rest⟩⟩
      · rfl
      · rfl
      · simp only [TokenProgram.setAuthority,InvokeContext.invoke]
        rw [h _ rfl]
    | _ => rfl
  have hloader : BpfLoaderProgram.entrypoint host.sysvars exec ctx accounts =
      BpfLoaderProgram.entrypoint host.sysvars exec' ctx accounts := by
    unfold BpfLoaderProgram.entrypoint
    apply congrArg (Bind.bind _)
    funext i
    cases i with
    | deployWithMaxDataLen maxDataLen =>
      simp only [BpfLoaderProgram.run]
      rcases accounts with
        _ | ⟨payer,_ | ⟨programdata,_ | ⟨program,_ | ⟨buffer,_ | ⟨rent,_ | ⟨clock,
        _ | ⟨system,_ | ⟨authority,rest⟩⟩⟩⟩⟩⟩⟩⟩
      iterate 8 · rfl
      · have hc : ∀ from_ to_ l s o, exec (SystemProgram.createAccountInstruction from_ to_ l s o) =
            exec' (SystemProgram.createAccountInstruction from_ to_ l s o) :=
              fun _ _ _ _ _ => h _ rfl
        simp only [BpfLoaderProgram.deployWithMaxDataLen,InvokeContext.invoke,hc]
    | _ => rfl
  simp only [NativeProgramExecutor.execute,htoken,hloader]

namespace ChainedProgramExecutor

/-- The executor runs programs that call through the executor itself. -/
theorem execute_eq_step (host : Host) : execute (κ := κ) host = step host (execute host) := by
  funext instruction ctx accounts
  have hn : NativeProgramExecutor.execute host (executeAt (κ := κ) host 1) =
      NativeProgramExecutor.execute host (execute host) :=
    NativeProgramExecutor.execute_congr fun ix hix => by
      funext ctx accounts
      rw [execute,executeAt_system host 0 hix,executeAt_system host 1 hix]
  simp only [execute,executeAt] at hn ⊢
  simp only [step] at hn ⊢
  rw [hn]

end ChainedProgramExecutor

/-! ## Reading one program's data as another's -/

namespace SystemInstruction

theorem decodeAll_eq_some {data : List UInt8} {i : SystemInstruction} :
    codec.decodeAll data = some i ↔ data = codec.encode i := by
  rw [Codec.decodeAll_eq_some]
  exact and_iff_right i.codec_fits

/-- The length of the encoding tells the variants apart. -/
theorem encode_length (i : SystemInstruction) : (codec.encode i).length =
    match i with
    | transfer _ => 12
    | assign _ => 36
    | createAccount _ _ _ => 52 := by
  cases i with
  | transfer lamports =>
    change (leBytes 4 0 ++ leBytes 8 lamports.toNat).length = 12
    simp
  | assign owner =>
    change (leBytes 4 1 ++ owner.bytes).length = 36
    simp [owner.size]
  | createAccount lamports space owner =>
    change (leBytes 4 2 ++
      (leBytes 8 lamports.toNat ++ (leBytes 8 space.toNat ++ owner.bytes))).length = 52
    simp [owner.size]

theorem encode_take (i : SystemInstruction) : (codec.encode i).take 4 = leBytes 4 i.ctorIdx := by
  cases i <;> exact List.take_left' (leBytes_length 4 _)

end SystemInstruction

/-- The data of a token `SetAuthority` is no System instruction. -/
theorem setAuthority_not_system {data : List UInt8} {newAuthority : Pubkey}
    (h : TokenInstruction.codec.decodeAll data = some (.setAuthority newAuthority)) :
    SystemInstruction.codec.decodeAll data = none := by
  have hd := ((Codec.decodeAll_eq_some _).mp h).2
  cases hs : SystemInstruction.codec.decodeAll data with
  | none => rfl
  | some i =>
    have hi := SystemInstruction.decodeAll_eq_some.mp hs
    have hl : (SystemInstruction.codec.encode i).length = 36 := by
      rw [← hi,hd]
      change (leBytes 4 2 ++ newAuthority.bytes).length = 36
      simp [newAuthority.size]
    have ht : leBytes 4 i.ctorIdx = leBytes 4 2 := by
      rw [← SystemInstruction.encode_take,← hi,hd]
      exact List.take_left' (leBytes_length 4 _)
    rw [SystemInstruction.encode_length] at hl
    cases i with
    | transfer lamports => cases hl
    | assign owner => exact absurd ht (by decide : leBytes 4 1 ≠ leBytes 4 2)
    | createAccount lamports space owner => cases hl

/-- The data of a deployment can only be read as a System `CreateAccount`. -/
theorem deploy_as_createAccount {data : List UInt8} {maxDataLen : UInt64} {i : SystemInstruction}
    (h : LoaderInstruction.codec.decodePrefix data = some (.deployWithMaxDataLen maxDataLen))
    (hs : SystemInstruction.codec.decodeAll data = some i) :
    ∃ space owner, i = .createAccount maxDataLen space owner := by
  obtain ⟨-,rest,hd⟩ := (Codec.decodePrefix_eq_some _).mp h
  have hi := SystemInstruction.decodeAll_eq_some.mp hs
  have ht : leBytes 4 i.ctorIdx = leBytes 4 2 := by
    rw [← SystemInstruction.encode_take,← hi,hd]
    exact List.take_left' (leBytes_length 4 _)
  cases i with
  | transfer lamports => exact absurd ht (by decide : leBytes 4 0 ≠ leBytes 4 2)
  | assign owner => exact absurd ht (by decide : leBytes 4 1 ≠ leBytes 4 2)
  | createAccount lamports space owner =>
    have he : leBytes 4 2 ++ (leBytes 8 maxDataLen.toNat ++ rest) =
        leBytes 4 2 ++ (leBytes 8 lamports.toNat ++ (leBytes 8 space.toNat ++ owner.bytes)) := by
      rw [← List.append_assoc]
      exact hd.symm.trans hi
    have hl := (List.append_inj (List.append_cancel_left he) (by simp)).1
    have hn := congrArg ofLeBytes hl
    rw [ofLeBytes_leBytes (by have := maxDataLen.toNat_lt; omega),
      ofLeBytes_leBytes (by have := lamports.toNat_lt; omega)] at hn
    exact ⟨space,owner,by rw [UInt64.toNat_inj.mp hn]⟩

end TinySolana
