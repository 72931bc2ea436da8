import TinySolana.Parameters
import TinySolana.Programs.TokenProgram
import TinySolana.Programs.BpfLoaderProgram

/-!
# Program executors

The table of native programs, the executor of BPF programs over an external virtual machine, and
the executor that chains them. A program calls another one through the executor it is run by, so the
executor is defined by recursion on the depth of such calls; a depth of two is never exhausted
(`execute_eq_step`, in the module on cross-program invocation).
-/

namespace TinySolana
open Foundations

variable {κ : Type}

/-- One run of a loaded program: the instructions executed, the units the machine itself takes from
the meter, if it does, the result code or error, and the input region as the program left it. -/
structure VmRun where
  instructionCount : UInt64
  consumed : Option UInt64
  result : Except String UInt64
  inputMem : List UInt8

/-- The BPF virtual machine: loading and verifying an executable and mapping its memory may fail
with a message; a run keeps the length of the input region. -/
structure Vm where
  fromElf : List UInt8 → Option String
  verify : List UInt8 → Option String
  mapMemory : List UInt8 → Option String
  executeProgram : (bytecode inputMem : List UInt8) → (remaining : UInt64) → VmRun
  length_inputMem : ∀ bytecode inputMem remaining,
    (executeProgram bytecode inputMem remaining).inputMem.length = inputMem.length

/-- Code outside the repository that the validator depends on. -/
structure Host where
  sysvars : Sysvars
  vm : Vm
  ed25519 : Ed25519
  sha256 : List UInt8 → Hash

/-- Everything is exempt from rent, programs do nothing and every signature is valid; hashes are
sums of bytes. -/
instance : Inhabited Host where
  default :=
    { sysvars := ⟨fun _ => some (⟨fun _ => 0,fun _ _ => true⟩,[]),fun _ => some (0,[])⟩
      vm := ⟨fun _ => none,fun _ => none,fun _ => none,fun _ m _ => ⟨0,none,.ok 0,m⟩,
        fun _ _ _ => rfl⟩
      ed25519 := fun _ _ _ => true
      sha256 := fun bs => ⟨leBytes 32 (bs.map UInt8.toNat).sum,leBytes_length _ _⟩ }

/-- The ids in the table of `NativeProgramExecutor`. -/
def nativePrograms : List Pubkey := [systemProgramId,tokenProgramId,bpfLoaderUpgradeableProgramId]

/-- Units left in the meter of a context. -/
def InvokeContext.getRemaining (ctx : InvokeContext) (m : Machine κ) : UInt64 :=
  satSub ctx.computeBudget m.computeMeter

/-- `InvokeContext::consume` never returns. The right-hand side of its assignment is evaluated first
and borrows the meter to the end of the statement, so that `borrow_mut` on the left panics. -/
def consume (_amount : UInt64) : Prog κ Unit := Exec.abort

/-- What the machine takes from the meter at the end of a run, it takes through the context. -/
def consumeDue : Option UInt64 → Prog κ Unit
  | some amount => consume amount
  | none => pure ()

/-- Fail with an internal error when there is a message. -/
def failWith (message : String) : Option String → Prog κ Unit
  | some e => Exec.throw (.internalError (message ++ e))
  | none => pure ()

/-- Put the bytecode of a program into the cache, from its account, if it is not there yet. -/
def RbpfProgramExecutor.load (programId : Pubkey) (accounts : List (AccountInfo κ)) :
    Prog κ Unit := do
  let m ← Exec.get
  if m.programCache.lookup programId = none then
    match accounts.find? fun a => a.pubkey = programId with
    | none => Exec.throw (.internalError "program account not found in accounts list")
    | some programAccountInfo => do
      Exec.failIf (¬programAccountInfo.executable) .accountNotExecutable
      let bytecode ← programAccountInfo.tryBorrowData
      Exec.modify fun m => { m with programCache := m.programCache.insert programId bytecode }
  else pure ()

variable [DecidableEq κ]

/-- `RbpfProgramExecutor::execute`. Nothing behind a call of `consume` is reached. -/
def RbpfProgramExecutor.execute (vm : Vm) : ProgramExecutor κ := fun instruction ctx accounts => do
  RbpfProgramExecutor.load instruction.programId accounts
  let bytecode := ((← Exec.get).programCache.lookup instruction.programId).getD []
  failWith "failed to load elf: " (vm.fromElf bytecode)
  failWith "elf verification failed: " (vm.verify bytecode)
  let inputMem ← serializeParameters accounts instruction.data
  failWith "memory mapping: " (vm.mapMemory inputMem)
  let run := vm.executeProgram bytecode inputMem (ctx.getRemaining (← Exec.get))
  consumeDue run.consumed
  match run.result with
  | .error e => Exec.throw (.internalError ("ebpf error: " ++ e))
  | .ok resultCode => do
    Exec.failIf (resultCode ≠ 0) (.custom resultCode.toUInt32)
    consume run.instructionCount
    Exec.failIf (ctx.getRemaining (← Exec.get) = 0) (.internalError "computational budget exceeded")
    deserializeParameters accounts run.inputMem

/-- `NativeProgramExecutor::execute`: look the entrypoint up and run it in the given context. -/
def NativeProgramExecutor.execute (host : Host) (exec : ProgramExecutor κ) : ProgramExecutor κ :=
  fun instruction ctx accounts =>
    if instruction.programId = systemProgramId then SystemProgram.entrypoint ctx accounts
    else if instruction.programId = tokenProgramId then
      TokenProgram.entrypoint host.sysvars exec ctx accounts
    else if instruction.programId = bpfLoaderUpgradeableProgramId then
      BpfLoaderProgram.entrypoint host.sysvars exec ctx accounts
    else Exec.throw (.accountNotFound instruction.programId)

namespace ChainedProgramExecutor

/-- `ChainedProgramExecutor::execute` over the executor that nested calls use. -/
def step (host : Host) (exec : ProgramExecutor κ) : ProgramExecutor κ :=
  fun instruction ctx accounts =>
    if instruction.programId ∈ nativePrograms then
      NativeProgramExecutor.execute host exec instruction ctx accounts
    else
      match accounts.find? fun a => a.pubkey = instruction.programId with
      | none => Exec.throw (.accountNotFound instruction.programId)
      | some programAccountInfo => do
        Exec.failIf (¬programAccountInfo.executable) .accountNotExecutable
        Exec.failIf ((← programAccountInfo.owner) ≠ bpfLoaderUpgradeableProgramId)
          .accountOwnerMismatch
        RbpfProgramExecutor.execute host.vm instruction ctx accounts

/-- The executor whose calls may nest `depth` deep; past that the stack overflows. -/
def executeAt (host : Host) : ℕ → ProgramExecutor κ
  | 0 => fun _ _ _ => Exec.abort
  | depth+1 => step host (executeAt host depth)

def execute (host : Host) : ProgramExecutor κ := executeAt host 2

/-- At every depth the executor runs the entrypoint of a System instruction. -/
theorem executeAt_system (host : Host) (depth : ℕ) {instruction : Instruction}
    (h : instruction.programId = systemProgramId) (ctx : InvokeContext)
    (accounts : List (AccountInfo κ)) :
    executeAt host (depth+1) instruction ctx accounts = SystemProgram.entrypoint ctx accounts := by
  have hn : systemProgramId ∈ nativePrograms := by decide
  simp only [executeAt,step,h,hn,if_true,NativeProgramExecutor.execute]

theorem execute_system (host : Host) {instruction : Instruction}
    (h : instruction.programId = systemProgramId) (ctx : InvokeContext)
    (accounts : List (AccountInfo κ)) :
    execute host instruction ctx accounts = SystemProgram.entrypoint ctx accounts :=
  executeAt_system host 1 h ctx accounts

theorem execute_token (host : Host) {instruction : Instruction}
    (h : instruction.programId = tokenProgramId) (ctx : InvokeContext)
    (accounts : List (AccountInfo κ)) : execute host instruction ctx accounts =
      TokenProgram.entrypoint host.sysvars (executeAt host 1) ctx accounts := by
  have hn : tokenProgramId ∈ nativePrograms := by decide
  have hs : tokenProgramId ≠ systemProgramId := by decide
  rw [execute,executeAt]
  simp only [step,h,hn,if_true,NativeProgramExecutor.execute,if_neg hs]

theorem execute_loader (host : Host) {instruction : Instruction}
    (h : instruction.programId = bpfLoaderUpgradeableProgramId) (ctx : InvokeContext)
    (accounts : List (AccountInfo κ)) : execute host instruction ctx accounts =
      BpfLoaderProgram.entrypoint host.sysvars (executeAt host 1) ctx accounts := by
  have hn : bpfLoaderUpgradeableProgramId ∈ nativePrograms := by decide
  have hs : bpfLoaderUpgradeableProgramId ≠ systemProgramId := by decide
  have ht : bpfLoaderUpgradeableProgramId ≠ tokenProgramId := by decide
  rw [execute,executeAt]
  simp only [step,h,hn,if_true,NativeProgramExecutor.execute,if_neg hs,if_neg ht]

end ChainedProgramExecutor

end TinySolana
