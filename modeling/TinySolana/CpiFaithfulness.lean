import TinySolana.Footprint

/-!
# Faithfulness of cross-program invocation

A nested call hands the callee the caller's context, so the callee runs the instruction that it
reads in the caller's data. It does what the inner instruction says exactly when it reads the same
in both.
-/

namespace TinySolana
open Foundations

/-- The context of the instruction at top level. -/
def InvokeContext.entering (ctx : InvokeContext) (instruction : Instruction) : InvokeContext :=
  { ctx with programId := instruction.programId, instructionData := instruction.data }

/-- On all accounts the nested call ends and leaves the machine as the instruction at top level. -/
def CpiFaithful (host : Host) (ctx : InvokeContext) (instruction : Instruction) : Prop :=
  ∀ (κ : Type) [DecidableEq κ] (accounts : List (AccountInfo κ)) (m : Machine κ),
    ctx.invoke (ChainedProgramExecutor.execute host) instruction accounts m =
      ChainedProgramExecutor.execute host instruction (ctx.entering instruction) accounts m

/-- The System program does the same for both: they are equal, or both ask for more space than there
is, which panics before the space and the owner matter. -/
def SystemAlike (a b : Option SystemInstruction) : Prop :=
  a = b ∨ ∃ lamports s s' o o', a = some (.createAccount lamports s o) ∧
    b = some (.createAccount lamports s' o') ∧ 2^63 ≤ s.toNat ∧ 2^63 ≤ s'.toNat

/-- The token program does the same for both: no `SetAuthority` gets past its own nested call. -/
def TokenAlike (a b : Option TokenInstruction) : Prop :=
  a = b ∨ ∃ k k', a = some (.setAuthority k) ∧ b = some (.setAuthority k')

/-- The loader reads the same instruction in both contexts, and for a deployment also the same
program id and the same data for its nested call. -/
def LoaderAlike (c c' : InvokeContext) : Prop :=
  LoaderInstruction.codec.decodePrefix c.instructionData =
      LoaderInstruction.codec.decodePrefix c'.instructionData ∧
    ∀ maxDataLen, LoaderInstruction.codec.decodePrefix c.instructionData =
        some (.deployWithMaxDataLen maxDataLen) → c.programId = c'.programId ∧
      SystemAlike (SystemInstruction.codec.decodeAll c.instructionData)
        (SystemInstruction.codec.decodeAll c'.instructionData)

/-- The callee reads in the caller's data what it would read in the instruction's own. -/
def ReadsAlike (ctx : InvokeContext) (instruction : Instruction) : Prop :=
  if instruction.programId = systemProgramId then
    SystemAlike (SystemInstruction.codec.decodeAll ctx.instructionData)
      (SystemInstruction.codec.decodeAll instruction.data)
  else if instruction.programId = tokenProgramId then
    TokenAlike (TokenInstruction.codec.decodeAll ctx.instructionData)
      (TokenInstruction.codec.decodeAll instruction.data)
  else LoaderAlike ctx (ctx.entering instruction)

variable {κ : Type} [DecidableEq κ]

/-! ## Reading alike is enough -/

namespace SystemProgram

/-- Asking for too much space panics when the lamports have been moved. -/
theorem createAccount_overlong {lamports s s' : UInt64} {o o' : Pubkey} (hs : 2^63 ≤ s.toNat)
    (hs' : 2^63 ≤ s'.toNat) (accounts : List (AccountInfo κ)) :
    createAccount lamports s o accounts = createAccount lamports s' o' accounts := by
  rcases accounts with _ | ⟨fromInfo,_ | ⟨toInfo,rest⟩⟩
  · rfl
  · rfl
  · simp only [createAccount,Exec.panicIf_true hs,Exec.panicIf_true hs',Exec.abort_bind]

theorem entrypoint_alike {c c' : InvokeContext}
    (h : SystemAlike (SystemInstruction.codec.decodeAll c.instructionData)
      (SystemInstruction.codec.decodeAll c'.instructionData)) (accounts : List (AccountInfo κ)) :
    entrypoint c accounts = entrypoint c' accounts := by
  unfold entrypoint
  rcases h with heq | ⟨lamports,s,s',o,o',ha,hb,hs,hs'⟩
  · rw [heq]
  · rw [ha,hb]
    exact createAccount_overlong hs hs' accounts

end SystemProgram

section

variable {host : Host} {c c' : InvokeContext} {d : ℕ} {accounts : List (AccountInfo κ)}

/-- A System instruction runs on the data of the context that calls it. -/
theorem invoke_system {ix : Instruction} (hix : ix.programId = systemProgramId)
    (accounts : List (AccountInfo κ)) :
    c.invoke (ChainedProgramExecutor.executeAt host (d+1)) ix accounts =
      SystemProgram.entrypoint c accounts :=
  ChainedProgramExecutor.executeAt_system host d hix c accounts

/-- The nested call of a `SetAuthority` fails in either context. -/
theorem TokenProgram.setAuthority_alike {k k' : Pubkey}
    (h : TokenInstruction.codec.decodeAll c.instructionData = some (.setAuthority k))
    (h' : TokenInstruction.codec.decodeAll c'.instructionData = some (.setAuthority k')) :
    setAuthority (ChainedProgramExecutor.executeAt host (d+1)) c k accounts =
      setAuthority (ChainedProgramExecutor.executeAt host (d+1)) c' k' accounts := by
  rcases accounts with _ | ⟨target,_ | ⟨current,rest⟩⟩
  · simp only [setAuthority]
  · simp only [setAuthority]
  · have hcall : c.invoke (ChainedProgramExecutor.executeAt host (d+1))
        (SystemProgram.createAssignInstruction target.pubkey k) [target] =
          c'.invoke (ChainedProgramExecutor.executeAt host (d+1))
            (SystemProgram.createAssignInstruction target.pubkey k') [target] := by
      funext m
      rw [invoke_assign_fails h,invoke_assign_fails h']
    simp only [setAuthority,hcall]

theorem TokenProgram.entrypoint_alike
    (h : TokenAlike (TokenInstruction.codec.decodeAll c.instructionData)
      (TokenInstruction.codec.decodeAll c'.instructionData)) :
    entrypoint host.sysvars (ChainedProgramExecutor.executeAt host (d+1)) c accounts =
      entrypoint host.sysvars (ChainedProgramExecutor.executeAt host (d+1)) c' accounts := by
  unfold entrypoint
  rcases h with heq | ⟨k,k',ha,hb⟩
  · rw [← heq]
    cases hd : TokenInstruction.codec.decodeAll c.instructionData with
    | none => rw [Exec.orFail_none,Exec.throw_bind,Exec.throw_bind]
    | some i =>
      rw [Exec.orFail_some,Exec.pure_bind,Exec.pure_bind]
      rw [hd] at heq
      cases i with
      | setAuthority k =>
        simp only [run]
        exact setAuthority_alike hd heq.symm
      | _ => simp only [run]
  · rw [ha,hb,Exec.orFail_some,Exec.orFail_some,Exec.pure_bind,Exec.pure_bind]
    simp only [run]
    exact setAuthority_alike ha hb

theorem BpfLoaderProgram.deploy_alike {maxDataLen : UInt64} (hp : c.programId = c'.programId)
    (hs : SystemAlike (SystemInstruction.codec.decodeAll c.instructionData)
      (SystemInstruction.codec.decodeAll c'.instructionData)) :
    deployWithMaxDataLen host.sysvars (ChainedProgramExecutor.executeAt host (d+1)) c maxDataLen
        accounts =
      deployWithMaxDataLen host.sysvars (ChainedProgramExecutor.executeAt host (d+1)) c' maxDataLen
        accounts := by
  -- The nested call is all that reads the data again.
  have hcreate : ∀ from_ to_ l s o infos,
      c.invoke (ChainedProgramExecutor.executeAt (κ := κ) host (d+1))
        (SystemProgram.createAccountInstruction from_ to_ l s o) infos =
      c'.invoke (ChainedProgramExecutor.executeAt host (d+1))
        (SystemProgram.createAccountInstruction from_ to_ l s o) infos := by
    intro from_ to_ l s o infos
    rw [invoke_system rfl,invoke_system rfl,SystemProgram.entrypoint_alike hs]
  rcases accounts with _ | ⟨payer,_ | ⟨programdata,_ | ⟨program,_ | ⟨buffer,_ | ⟨rent,_ | ⟨clock,
    _ | ⟨system,_ | ⟨authority,rest⟩⟩⟩⟩⟩⟩⟩⟩
  iterate 8 · simp only [deployWithMaxDataLen]
  · simp only [deployWithMaxDataLen,hcreate,hp]

theorem BpfLoaderProgram.entrypoint_alike (h : LoaderAlike c c') :
    entrypoint host.sysvars (ChainedProgramExecutor.executeAt host (d+1)) c accounts =
      entrypoint host.sysvars (ChainedProgramExecutor.executeAt host (d+1)) c' accounts := by
  obtain ⟨heq,hdep⟩ := h
  unfold entrypoint
  rw [← heq]
  cases hd : LoaderInstruction.codec.decodePrefix c.instructionData with
  | none => rw [Exec.orFail_none,Exec.throw_bind,Exec.throw_bind]
  | some i =>
    rw [Exec.orFail_some,Exec.pure_bind,Exec.pure_bind]
    cases i with
    | deployWithMaxDataLen maxDataLen =>
      obtain ⟨hp,hs⟩ := hdep maxDataLen hd
      simp only [run]
      exact deploy_alike hp hs
    | _ => simp only [run]

end

theorem ReadsAlike.faithful {host : Host} {ctx : InvokeContext} {instruction : Instruction}
    (hn : instruction.programId ∈ nativePrograms) (h : ReadsAlike ctx instruction) :
    CpiFaithful host ctx instruction := by
  intro κ _ accounts m
  simp only [InvokeContext.invoke,ChainedProgramExecutor.execute,ChainedProgramExecutor.executeAt,
    ChainedProgramExecutor.step,hn,if_true,NativeProgramExecutor.execute]
  unfold ReadsAlike at h
  split at h
  · next hs =>
    rw [if_pos hs,if_pos hs]
    exact congrFun (SystemProgram.entrypoint_alike h accounts) m
  · next hs =>
    rw [if_neg hs,if_neg hs]
    split at h
    · next ht =>
      rw [if_pos ht,if_pos ht]
      exact congrFun (TokenProgram.entrypoint_alike (d := 0) h) m
    · next ht =>
      rw [if_neg ht,if_neg ht]
      split
      · exact congrFun (BpfLoaderProgram.entrypoint_alike (d := 0) h) m
      · rfl

/-! ## The System program tells instructions apart -/

namespace SystemProgram

theorem createAccount_panics {lamports space : UInt64} {owner : Pubkey}
    {fromInfo toInfo : AccountInfo κ} {rest : List (AccountInfo κ)} {m : Machine κ}
    (hf : fromInfo.isSigner = true) (ht : toInfo.isSigner = true)
    (hl : lamports ≤ (m.cells fromInfo.account).lamports)
    (hs : 2^63 ≤ space.toNat) : createAccount lamports space owner (fromInfo :: toInfo :: rest) m =
      (.panic,m.move fromInfo.account toInfo.account lamports) := by
  have hsig : ¬(¬fromInfo.isSigner = true ∨ ¬toInfo.isSigner = true) := by simp [hf,ht]
  have hl' := UInt64.not_lt.mpr hl
  simp only [createAccount,Exec.failIf_false hsig,Exec.pure_bind,AccountInfo.lamports_bind,
    Exec.failIf_false hl',AccountInfo.setLamports_bind,Exec.panicIf_true hs,Exec.abort_bind,
    Exec.abort_run]
  rfl

/-- A signer with all the lamports there are, and one with none. -/
def payer : AccountInfo Bool := ⟨default,true,true,false,false,0⟩

def receiver : AccountInfo Bool := ⟨default,true,true,true,false,0⟩

def probe : Machine Bool where
  cells c := { (default : Account) with lamports := if c then 0 else maxU64 }
  computeMeter := 0
  programCache := ∅

theorem probe_funds (lamports : UInt64) : lamports ≤ (probe.cells payer.account).lamports :=
  le_maxU64 lamports

/-- The receiver has what was moved. -/
theorem probe_received (lamports : UInt64) :
    ((probe.move payer.account receiver.account lamports).cells receiver.account).lamports =
      lamports := by
  rw [Machine.move,Machine.update_self,Machine.update_of_ne _ (by decide)]
  exact zero_satAdd lamports

theorem transfer_inj {lamports lamports' : UInt64}
    (h : transfer lamports [payer,receiver] probe = transfer lamports' [payer,receiver] probe) :
    lamports = lamports' := by
  rw [transfer_ok.mpr (.transfer rfl (probe_funds lamports)),
    transfer_ok.mpr (.transfer rfl (probe_funds lamports'))] at h
  have hl := congrArg (fun m => (m.cells receiver.account).lamports) (Prod.mk.inj h).2
  simpa only [probe_received] using hl

theorem assign_inj {owner owner' : Pubkey}
    (h : assign owner [payer] probe = assign owner' [payer] probe) : owner = owner' := by
  rw [assign_ok.mpr (.assign rfl),assign_ok.mpr (.assign rfl)] at h
  have ho := congrArg (fun m => (m.cells payer.account).owner) (Prod.mk.inj h).2
  simpa only [Machine.update_self] using ho

/-- Only requests for too much space do the same without being the same. -/
theorem createAccount_inj {lamports lamports' s s' : UInt64} {o o' : Pubkey}
    (h : createAccount lamports s o [payer,receiver] probe =
      createAccount lamports' s' o' [payer,receiver] probe) : lamports = lamports' ∧
        (s = s' ∧ o = o' ∨ 2^63 ≤ s.toNat ∧ 2^63 ≤ s'.toNat) := by
  by_cases hs : 2^63 ≤ s.toNat
  · rw [createAccount_panics rfl rfl (probe_funds lamports) hs] at h
    by_cases hs' : 2^63 ≤ s'.toNat
    · rw [createAccount_panics rfl rfl (probe_funds lamports') hs'] at h
      have hl := congrArg (fun m => (m.cells receiver.account).lamports) (Prod.mk.inj h).2
      simp only [probe_received] at hl
      exact ⟨hl,.inr ⟨hs,hs'⟩⟩
    · rw [createAccount_ok.mpr
        (.createAccount rfl rfl (probe_funds lamports') (Nat.not_le.mp hs'))] at h
      cases (Prod.mk.inj h).1
  · rw [createAccount_ok.mpr
      (.createAccount rfl rfl (probe_funds lamports) (Nat.not_le.mp hs))] at h
    by_cases hs' : 2^63 ≤ s'.toNat
    · rw [createAccount_panics rfl rfl (probe_funds lamports') hs'] at h
      cases (Prod.mk.inj h).1
    · rw [createAccount_ok.mpr
        (.createAccount rfl rfl (probe_funds lamports') (Nat.not_le.mp hs'))] at h
      have hcell := congrArg (fun m => m.cells receiver.account) (Prod.mk.inj h).2
      have hl := congrArg Account.lamports hcell
      simp only [allocate_lamports,probe_received] at hl
      simp only [allocate_self] at hcell
      have hd := congrArg (fun a => a.data.length) hcell
      simp only [List.length_replicate] at hd
      exact ⟨hl,.inl ⟨UInt64.toNat_inj.mp hd,congrArg Account.owner hcell⟩⟩

/-- Instructions that do the same on every account list are alike. -/
theorem alike_of_run {i j : SystemInstruction}
    (h : ∀ (accounts : List (AccountInfo Bool)) (m : Machine Bool), run accounts i m =
      run accounts j m) :
    SystemAlike (some i) (some j) := by
  -- Different instructions ask for accounts in different words.
  have hnil := h [] probe
  cases i with
  | transfer lamports =>
    cases j with
    | transfer lamports' => exact .inl (by rw [transfer_inj (h [payer,receiver] probe)])
    | assign owner => simp [run,transfer,assign] at hnil
    | createAccount lamports' s o => simp [run,transfer,createAccount] at hnil
  | assign owner =>
    cases j with
    | transfer lamports => simp [run,transfer,assign] at hnil
    | assign owner' => exact .inl (by rw [assign_inj (h [payer] probe)])
    | createAccount lamports s o => simp [run,assign,createAccount] at hnil
  | createAccount lamports s o =>
    cases j with
    | transfer lamports' => simp [run,transfer,createAccount] at hnil
    | assign owner => simp [run,assign,createAccount] at hnil
    | createAccount lamports' s' o' =>
      obtain ⟨rfl,⟨rfl,rfl⟩ | ⟨hs,hs'⟩⟩ := createAccount_inj (h [payer,receiver] probe)
      · exact .inl rfl
      · exact .inr ⟨lamports,s,s',o,o',rfl,rfl,hs,hs'⟩

/-- No System instruction fails in the way that unreadable data does. -/
theorem run_nil_ne (i : SystemInstruction) :
    run [] i probe ≠ (.err .invalidInstructionData,probe) := by
  cases i <;> simp [run,transfer,assign,createAccount]

theorem alike_of_entrypoint {c c' : InvokeContext}
    (h : ∀ (accounts : List (AccountInfo Bool)) (m : Machine Bool),
      entrypoint c accounts m = entrypoint c' accounts m) :
    SystemAlike (SystemInstruction.codec.decodeAll c.instructionData)
      (SystemInstruction.codec.decodeAll c'.instructionData) := by
  unfold entrypoint at h
  have hnil := h [] probe
  cases ha : SystemInstruction.codec.decodeAll c.instructionData with
  | none =>
    cases hb : SystemInstruction.codec.decodeAll c'.instructionData with
    | none => exact .inl rfl
    | some j =>
      rw [ha,hb] at hnil
      exact absurd hnil.symm (run_nil_ne j)
  | some i =>
    cases hb : SystemInstruction.codec.decodeAll c'.instructionData with
    | none =>
      rw [ha,hb] at hnil
      exact absurd hnil (run_nil_ne i)
    | some j =>
      simp only [ha,hb,Exec.orFail_some,Exec.pure_bind] at h
      exact alike_of_run h

end SystemProgram

/-- A nested call does what the inner instruction says if the callee reads alike in both contexts,
and a nested call of the System program, which is the only one that programs make, only then. -/
theorem cpi_faithful_of_readsAlike {host : Host} {ctx : InvokeContext} {instruction : Instruction}
    (hn : instruction.programId ∈ nativePrograms) :
    (ReadsAlike ctx instruction → CpiFaithful host ctx instruction) ∧
      (instruction.programId = systemProgramId →
        CpiFaithful host ctx instruction → ReadsAlike ctx instruction) := by
  refine ⟨ReadsAlike.faithful hn,fun hs hf => ?_⟩
  unfold ReadsAlike
  rw [if_pos hs]
  change SystemAlike _
    (SystemInstruction.codec.decodeAll (ctx.entering instruction).instructionData)
  refine SystemProgram.alike_of_entrypoint fun accounts m => ?_
  have h := hf Bool accounts m
  rw [InvokeContext.invoke,ChainedProgramExecutor.execute_system host hs,
    ChainedProgramExecutor.execute_system host hs] at h
  exact h

/-- The context of a token `SetAuthority`. -/
def setAuthorityContext : InvokeContext :=
  ⟨tokenProgramId,TokenInstruction.codec.encode (.setAuthority (.ofByte 3)),300⟩

/-- The nested `Assign` fails where the one at top level succeeds. -/
theorem nested_assign_unfaithful : ¬CpiFaithful default setAuthorityContext
    (SystemProgram.createAssignInstruction (.ofByte 1) (.ofByte 3)) := by
  intro h
  have hrun := congrArg Prod.fst (h Bool [SystemProgram.payer] SystemProgram.probe)
  exact absurd hrun (by decide)

theorem system_context_faithful :
    let instruction := SystemProgram.createAssignInstruction (.ofByte 1) (.ofByte 3)
    CpiFaithful default ⟨systemProgramId,instruction.data,300⟩ instruction :=
  (cpi_faithful_of_readsAlike (by decide)).1 (.inl rfl)

end TinySolana
