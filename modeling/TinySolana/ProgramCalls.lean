import TinySolana.Overlays

/-!
# Calls of BPF programs

An instruction for a program that is not native is run by the executor of BPF programs, which takes
the bytecode from its cache or, the first time, from the account of the program. A call records what
it has handed to `Executable::from_elf`, and what the account held.
-/

namespace TinySolana
open Foundations Exec

structure ProgramCall where
  programId : Pubkey
  /-- What is handed to `Executable::from_elf`. -/
  bytecode : List UInt8
  /-- The data of the program's account in the account list of the call. -/
  accountData : List UInt8
  deriving DecidableEq

variable {κ : Type}

/-- The machines have the same accounts and the same meter, whatever is in their caches. -/
structure SameAccounts (m n : Machine κ) : Prop where
  cells : m.cells = n.cells
  computeMeter : m.computeMeter = n.computeMeter

theorem sameAccounts_along [DecidableEq κ] : AlongUpdates (SameAccounts (κ := κ)) where
  cells _ _ h := h.cells
  update m n c F h := ⟨by rw [Machine.update,Machine.update,h.cells],h.computeMeter⟩

/-- The cache is left alone. -/
def SameCache (m n : Machine κ) : Prop := n.programCache = m.programCache

instance : Std.Refl (SameCache (κ := κ)) := ⟨fun _ => rfl⟩

instance : IsTrans (Machine κ) SameCache := ⟨fun _ _ _ h h' => h'.trans h⟩

namespace RbpfProgramExecutor

variable {accounts : List (AccountInfo κ)} {instruction : Instruction} {ctx : InvokeContext}
  {m n : Machine κ}

theorem vmRun_same (vm : Vm) (code : List UInt8) (h : SameAccounts m n) :
    vmRun vm code instruction ctx accounts m = vmRun vm code instruction ctx accounts n := by
  obtain ⟨cells,meter,cache⟩ := m
  obtain ⟨_,_,cache'⟩ := n
  obtain ⟨rfl,rfl⟩ := h
  rfl

/-- With the bytecode at hand the cache plays no part. -/
theorem runBytecode_same [DecidableEq κ] (vm : Vm) (code : List UInt8) (h : SameAccounts m n) :
    (runBytecode vm code instruction ctx accounts n).1 =
      (runBytecode vm code instruction ctx accounts m).1 := by
  have hs := @vmRun_same κ accounts instruction ctx m n vm code h
  cases hr : vmRun vm code instruction ctx accounts n with
  | none =>
    rw [runBytecode_of_no_run hr,runBytecode_of_no_run (hs.trans hr)]
    obtain ⟨cells,meter,cache⟩ := m
    obtain ⟨_,_,cache'⟩ := n
    obtain ⟨rfl,rfl⟩ := h
    rfl
  | some run => rw [runBytecode_of_run hr,runBytecode_of_run (hs.trans hr)]

end RbpfProgramExecutor

namespace ChainedProgramExecutor

/-- The call of a BPF program that an instruction makes. Native programs make none: their nested
calls are for the System program. -/
def programCall (instruction : Instruction) (accounts : List (AccountInfo κ)) (m : Machine κ) :
    Option ProgramCall :=
  if instruction.programId ∈ nativePrograms then none
  else match accounts.find? fun a => a.pubkey = instruction.programId with
    | none => none
    | some info =>
      if info.executable = true ∧ (m.cells info.account).owner = bpfLoaderUpgradeableProgramId then
        some {
          programId := instruction.programId
          bytecode := RbpfProgramExecutor.bytecode instruction.programId accounts m
          accountData := (m.cells info.account).data }
      else none

variable {accounts : List (AccountInfo κ)} {instruction : Instruction} {m n : Machine κ}
  {call : ProgramCall}

theorem programCall_eq_some : programCall instruction accounts m = some call ↔
    instruction.programId ∉ nativePrograms ∧
      ∃ info, accounts.find? (fun a => a.pubkey = instruction.programId) = some info ∧
        info.executable = true ∧ (m.cells info.account).owner = bpfLoaderUpgradeableProgramId ∧
        call = ⟨instruction.programId,
          m.programCache.answer instruction.programId (m.cells info.account).data,
          (m.cells info.account).data⟩ := by
  unfold programCall
  by_cases hn : instruction.programId ∈ nativePrograms
  · rw [if_pos hn]
    exact iff_of_false (fun h => by cases h) fun h => h.1 hn
  rw [if_neg hn]
  cases hf : accounts.find? fun a => a.pubkey = instruction.programId with
  | none => exact iff_of_false (fun h => by cases h) fun ⟨_,info,h,_⟩ => by cases h
  | some info =>
    constructor
    · intro h
      obtain ⟨⟨he,ho⟩,h⟩ := Option.ite_none_right_eq_some.mp h
      cases h
      exact ⟨hn,info,rfl,he,ho,by rw [RbpfProgramExecutor.bytecode_of_found hf he]⟩
    · rintro ⟨-,info',hi,he,ho,rfl⟩
      obtain rfl := Option.some.inj hi
      refine (if_pos ⟨he,ho⟩).trans ?_
      rw [RbpfProgramExecutor.bytecode_of_found hf he]

theorem programCall_answered (instruction : Instruction) (accounts : List (AccountInfo κ))
    (m : Machine κ) : Answered ProgramCall.programId ProgramCall.bytecode ProgramCall.accountData
      m.programCache (programCall instruction accounts m).toList := by
  cases hc : programCall instruction accounts m with
  | none => exact trivial
  | some call =>
    obtain ⟨-,info,-,-,-,rfl⟩ := programCall_eq_some.mp hc
    exact ⟨rfl,trivial⟩

variable [DecidableEq κ] {host : Host} {ctx : InvokeContext}

/-- An instruction that makes a call runs the bytecode that is handed over. -/
theorem execute_of_call (h : programCall instruction accounts m = some call) :
    execute host instruction ctx accounts m =
      RbpfProgramExecutor.runBytecode host.vm call.bytecode instruction ctx accounts { m with
        programCache := m.programCache.keep call.programId call.accountData } := by
  obtain ⟨hn,info,hf,he,ho,rfl⟩ := programCall_eq_some.mp h
  have hx : execute host instruction ctx accounts m =
      RbpfProgramExecutor.execute host.vm instruction ctx accounts m := by
    simp only [execute,executeAt,step,hn,if_false,hf,Exec.failIf_false (not_not.mpr he),
      Exec.pure_bind,AccountInfo.owner_bind,Exec.failIf_false (not_not.mpr ho)]
  rw [hx,RbpfProgramExecutor.execute_of_found hf he,RbpfProgramExecutor.bytecode_of_found hf he]

/-- An instruction that makes no call only reads and assigns cells. -/
theorem execute_of_no_call (host : Host) (ctx : InvokeContext)
    (h : programCall instruction accounts m = none) :
    ∃ x : Prog κ Unit, CellCode x ∧ ∀ n, m.cells = n.cells →
      execute host instruction ctx accounts n = x n := by
  by_cases hn : instruction.programId ∈ nativePrograms
  · exact ⟨_,(execute_code host hn ctx accounts).code,fun n _ => rfl⟩
  -- The executor fails before it gets to the program.
  simp only [programCall,if_neg hn] at h
  simp only [execute,executeAt,step,hn,if_false]
  cases hf : accounts.find? fun a => a.pubkey = instruction.programId with
  | none => exact ⟨_,.throw _,fun n _ => rfl⟩
  | some info =>
    rw [hf] at h
    by_cases he : info.executable = true
    · have ho : (m.cells info.account).owner ≠ bpfLoaderUpgradeableProgramId := fun ho => by
        cases (if_pos ⟨he,ho⟩).symm.trans h
      refine ⟨_,.throw .accountOwnerMismatch,fun n hc => ?_⟩
      rw [hc] at ho
      simp only [Exec.failIf_false (not_not.mpr he),Exec.pure_bind,AccountInfo.owner_bind,
        Exec.failIf_true ho,Exec.throw_bind]
    · refine ⟨_,.throw .accountNotExecutable,fun n _ => ?_⟩
      simp only [Exec.failIf_true he,Exec.throw_bind]

/-- A call leaves the cache with the program in it. -/
theorem execute_programCache (m : Machine κ) :
    (execute host instruction ctx accounts m).2.programCache =
    keepAll ProgramCall.programId ProgramCall.accountData m.programCache
      (programCall instruction accounts m).toList := by
  cases hc : programCall instruction accounts m with
  | none =>
    obtain ⟨x,hx,hrun⟩ := execute_of_no_call host ctx hc
    rw [hrun m rfl]
    exact hx.keeps (R := SameCache) (fun _ _ _ => rfl) m
  | some call =>
    rw [execute_of_call hc,RbpfProgramExecutor.runBytecode_unchanged]
    rfl

/-- Where another cache gives the same answer to the call, the instruction makes the same call and
does the same. -/
theorem execute_answered (hs : SameAccounts m n)
    (hc : Answered ProgramCall.programId ProgramCall.bytecode ProgramCall.accountData n.programCache
      (programCall instruction accounts m).toList) :
    programCall instruction accounts n = programCall instruction accounts m ∧
      (execute host instruction ctx accounts n).1 = (execute host instruction ctx accounts m).1 ∧
      SameAccounts (execute host instruction ctx accounts m).2
        (execute host instruction ctx accounts n).2 := by
  cases hm : programCall instruction accounts m with
  | none =>
    have hn : programCall instruction accounts n = none := by
      rw [Option.eq_none_iff_forall_ne_some] at hm ⊢
      intro call hcall
      obtain ⟨hnat,info,hf,he,ho,-⟩ := programCall_eq_some.mp hcall
      rw [← hs.cells] at ho
      exact hm _ (programCall_eq_some.mpr ⟨hnat,info,hf,he,ho,rfl⟩)
    obtain ⟨x,hx,hrun⟩ := execute_of_no_call host ctx hm
    rw [hrun m rfl,hrun n hs.cells]
    obtain ⟨hr,ha⟩ := hx.simulates sameAccounts_along m n hs
    exact ⟨hn,(hr.trans (Outcome.map_id _)).symm,ha⟩
  | some call =>
    obtain ⟨hnat,info,hf,he,ho,hcall⟩ := programCall_eq_some.mp hm
    have hn : programCall instruction accounts n = some call := by
      rw [hm,hcall] at hc
      refine programCall_eq_some.mpr ⟨hnat,info,hf,he,hs.cells ▸ ho,?_⟩
      rw [hcall,← hs.cells]
      exact congrArg (fun b => ProgramCall.mk _ b _) hc.1
    rw [execute_of_call hm,execute_of_call hn]
    let m' : Machine κ :=
      { m with programCache := m.programCache.keep call.programId call.accountData }
    let n' : Machine κ :=
      { n with programCache := n.programCache.keep call.programId call.accountData }
    have hs' : SameAccounts m' n' := ⟨hs.cells,hs.computeMeter⟩
    rw [RbpfProgramExecutor.runBytecode_unchanged,RbpfProgramExecutor.runBytecode_unchanged]
    exact ⟨hn,RbpfProgramExecutor.runBytecode_same host.vm call.bytecode hs',hs'⟩

end ChainedProgramExecutor

namespace Bank

variable {host : Host} {keys : List Pubkey} {computeBudget : UInt64}
  {m n : Machine (Fin keys.length)}

/-! ## Along the instructions of a transaction -/

/-- What is noted of every instruction that is reached, on the machine that it is reached with. -/
def collect {β : Type} (host : Host) (keys : List Pubkey) (computeBudget : UInt64)
    (note : Instruction → Machine (Fin keys.length) → List β) :
    List Instruction → Machine (Fin keys.length) → List β
  | [], _ => []
  | instruction :: rest, m => note instruction m ++
      match executeInstruction host keys computeBudget instruction m with
      | (.ok _,m') => collect host keys computeBudget note rest m'
      | _ => []

theorem mem_collect {β : Type} {note : Instruction → Machine (Fin keys.length) → List β}
    {instructions : List Instruction} {b : β}
    (h : b ∈ collect host keys computeBudget note instructions m) :
      ∃ instruction m', b ∈ note instruction m' := by
  induction instructions generalizing m with
  | nil => cases h
  | cons instruction rest ih =>
    rcases List.mem_append.mp h with h | h
    · exact ⟨instruction,m,h⟩
    · cases hx : executeInstruction host keys computeBudget instruction m with
      | mk r m' =>
        rw [hx] at h
        cases r with
        | ok u => exact ih h
        | err e => cases h
        | panic => cases h

/-- The instructions that a transaction gets to, each with the machine that it finds. -/
def reached (host : Host) (keys : List Pubkey) (computeBudget : UInt64) :
    List Instruction → Machine (Fin keys.length) → List (Instruction × Machine (Fin keys.length)) :=
  collect host keys computeBudget fun instruction m => [(instruction,m)]

/-- The instructions that `process_single_transaction` gets to. -/
def reachedBy (host : Host) (bank : Bank) (tx : Transaction) (computeBudget : UInt64)
    (cache : ProgramCache) : List (Instruction × Machine (Fin tx.message.accountKeys.length)) :=
  reached host tx.message.accountKeys computeBudget tx.message.instructions
    ⟨loadAndVerifyAccounts tx.message.accountKeys (OverlayStore.new.load bank.accounts),0,cache⟩

theorem reached_cons {instruction : Instruction} {rest : List Instruction}
    {m' : Machine (Fin keys.length)}
    (h : executeInstruction host keys computeBudget instruction m = (.ok (),m')) :
    reached host keys computeBudget (instruction :: rest) m =
      (instruction,m) :: reached host keys computeBudget rest m' := by
  rw [reached,collect,h]
  rfl

/-- The call that an instruction of a transaction makes. -/
def programCall (instruction : Instruction) (m : Machine (Fin keys.length)) : Option ProgramCall :=
  match prepareAccountInfos instruction m.cells with
  | .ok accountInfos =>
      ChainedProgramExecutor.programCall instruction accountInfos { m with computeMeter := 0 }
  | .error _ => none

def programCalls (host : Host) (keys : List Pubkey) (computeBudget : UInt64) :
    List Instruction → Machine (Fin keys.length) → List ProgramCall :=
  collect host keys computeBudget fun instruction m => (programCall instruction m).toList

/-- The first part of an instruction, and the rest on the infos it has prepared. -/
theorem executeInstruction_run (instruction : Instruction) (m : Machine (Fin keys.length)) :
    executeInstruction host keys computeBudget instruction m =
      match prepareAccountInfos instruction m.cells with
      | .ok accountInfos =>
          Exec.mapErr .programError (ChainedProgramExecutor.execute host instruction
          ⟨instruction.programId,instruction.data,computeBudget⟩ accountInfos)
            { m with computeMeter := 0 }
      | .error e => (.err e,m) := by
  unfold executeInstruction
  rw [Exec.get_bind]
  cases prepareAccountInfos instruction m.cells <;> rfl

end Bank

/-- A store with a signer and a program of one byte. -/
def programStore : InMemoryAccountStore :=
  ((∅ : InMemoryAccountStore).store (.ofByte 1) (wallet 1 10)).store (.ofByte 9)
    ⟨.ofByte 9,10,[1],bpfLoaderUpgradeableProgramId,true,0⟩

/-- Run the program. -/
def runProgram : Instruction := ⟨.ofByte 9,[⟨.ofByte 9,false,false⟩],[]⟩

end TinySolana
