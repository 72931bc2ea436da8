import TinySolana.Executor
import TinySolana.Foundations.Memo

/-!
# Runs of bytecode

What the executor of BPF programs does once a program is loaded. A run of the virtual machine ends
in an error of the program or in the panic of `consume`, so a program that is not native never
returns, and what it leaves of the accounts is what it has found.
-/

namespace TinySolana
open Foundations Exec

variable {κ : Type}

/-- The executor gets to `consume` behind the run: the machine charges it, or its result is zero. -/
def VmRun.Charged (run : VmRun) : Prop := run.consumed ≠ none ∨ run.result = .ok 0

instance (run : VmRun) : Decidable run.Charged := inferInstanceAs (Decidable (_ ∨ _))

/-- How the executor ends behind the run. -/
def VmRun.ending (run : VmRun) : Outcome ProgramError Unit :=
  if run.Charged then .panic
  else match run.result with
    | .error e => .err (.internalError ("ebpf error: " ++ e))
    | .ok resultCode => .err (.custom resultCode.toUInt32)

theorem VmRun.ending_ne_ok (run : VmRun) : run.ending ≠ .ok () := by
  unfold ending
  split
  · simp
  · cases run.result <;> simp

theorem VmRun.ending_panic {run : VmRun} : run.ending = .panic ↔ run.Charged := by
  unfold ending
  split
  · next h => exact iff_of_true rfl h
  · next h =>
    refine iff_of_false ?_ h
    cases run.result <;> simp

/-- The input region of a program. -/
def inputMemOf (accounts : List (AccountInfo κ)) (data : List UInt8) (m : Machine κ) : List UInt8 :=
  match (serializeParameters accounts data m).1 with
  | .ok inputMem => inputMem
  | _ => []

namespace RbpfProgramExecutor

/-! ## Loading -/

/-- The bytecode that the executor has once the program is loaded. -/
def bytecode (programId : Pubkey) (accounts : List (AccountInfo κ)) (m : Machine κ) : List UInt8 :=
  ((load programId accounts m).2.programCache.lookup programId).getD []

variable {accounts : List (AccountInfo κ)} {programId : Pubkey} {info : AccountInfo κ}
  {m m' : Machine κ}

/-- From an executable account in the list a program is always loaded. -/
theorem load_of_found (hf : accounts.find? (fun a => a.pubkey = programId) = some info)
    (he : info.executable = true) : load programId accounts m = (.ok (),{ m with
      programCache := m.programCache.keep programId (m.cells info.account).data }) := by
  rw [load,Exec.get_bind,FiniteMap.keep]
  split
  · rw [hf]
    simp only [he,not_true_eq_false,not_false_eq_true,Exec.failIf_false,Exec.pure_bind,
      AccountInfo.tryBorrowData_bind,Exec.modify_run]
  · rfl

theorem bytecode_of_found (hf : accounts.find? (fun a => a.pubkey = programId) = some info)
    (he : info.executable = true) :
    bytecode programId accounts m = m.programCache.answer programId
      (m.cells info.account).data := by
  rw [bytecode,load_of_found hf he,FiniteMap.lookup_keep,if_pos rfl,Option.getD_some]

variable [DecidableEq κ]

/-! ## Running -/

/-- What the executor does with the bytecode. -/
def runBytecode (vm : Vm) (bytecode : List UInt8) :
    ProgramExecutor κ := fun instruction ctx accounts => do
  failWith "failed to load elf: " (vm.fromElf bytecode)
  failWith "elf verification failed: " (vm.verify bytecode)
  let inputMem ← serializeParameters accounts instruction.data
  failWith "memory mapping: " (vm.mapMemory inputMem)
  let run := vm.executeProgram bytecode inputMem (ctx.getRemaining (← Exec.get))
  consumeDue run.consumed
  match run.result with
  | .error e => Exec.throw (.internalError ("ebpf error: " ++ e))
  | .ok resultCode => do
    Exec.failIf (resultCode ≠ 0) (.custom resultCode.toUInt32)
    consume run.instructionCount
    Exec.failIf (ctx.getRemaining (← Exec.get) = 0) (.internalError "computational budget exceeded")
    deserializeParameters accounts run.inputMem

/-- The run of the virtual machine that the executor gets to with the bytecode at hand. -/
def vmRun (vm : Vm) (bytecode : List UInt8) (instruction : Instruction) (ctx : InvokeContext)
    (accounts : List (AccountInfo κ)) (m : Machine κ) : Option VmRun :=
  let inputMem := inputMemOf accounts instruction.data m
  if vm.fromElf bytecode = none ∧ vm.verify bytecode = none ∧ vm.mapMemory inputMem = none then
    some (vm.executeProgram bytecode inputMem (ctx.getRemaining m))
  else none

variable {vm : Vm} {code : List UInt8} {instruction : Instruction} {ctx : InvokeContext}

/-- The executor runs what it has loaded, and looks at the account of the program for nothing
else. -/
theorem execute_of_found
    (hf : accounts.find? (fun a => a.pubkey = instruction.programId) = some info)
    (he : info.executable = true) : execute vm instruction ctx accounts m =
      runBytecode vm (bytecode instruction.programId accounts m) instruction ctx accounts { m with
        programCache :=
          m.programCache.keep instruction.programId (m.cells info.account).data } := by
  rw [bytecode,load_of_found hf he,execute,Exec.bind_of_ok (load_of_found hf he),Exec.get_bind]
  rfl

/-- Behind a run nothing but its error is left, or the panic of `consume`. -/
theorem runBytecode_of_run {run : VmRun} (h : vmRun vm code instruction ctx accounts m = some run) :
    runBytecode vm code instruction ctx accounts m = (run.ending,m) := by
  obtain ⟨⟨he,hv,hm⟩,hrun⟩ := Option.ite_none_right_eq_some.mp h
  have hs : serializeParameters accounts instruction.data m =
      (.ok (inputMemOf accounts instruction.data m),m) := rfl
  simp only [runBytecode,he,hv,failWith,Exec.pure_bind,Exec.bind_of_ok hs,hm,Exec.get_bind,
    Option.some.inj hrun]
  obtain ⟨count,consumed,result,mem⟩ := run
  simp only [VmRun.ending,VmRun.Charged]
  cases consumed with
  | some amount => simp [consumeDue,consume]
  | none =>
    cases result with
    | error e => simp [consumeDue]
    | ok resultCode => by_cases hz : resultCode = 0 <;> simp [consumeDue,consume,hz]

/-- The errors in front of a run. -/
def startError (vm : Vm) (code inputMem : List UInt8) : ProgramError :=
  .internalError (match vm.fromElf code,vm.verify code,vm.mapMemory inputMem with
    | some e,_,_ => "failed to load elf: " ++ e
    | none,some e,_ => "elf verification failed: " ++ e
    | none,none,e => "memory mapping: " ++ e.getD "")

theorem runBytecode_of_no_run (h : vmRun vm code instruction ctx accounts m = none) :
    runBytecode vm code instruction ctx accounts m =
      (.err (startError vm code (inputMemOf accounts instruction.data m)),m) := by
  have hn := Option.ite_none_right_eq_some.not.mp (Option.eq_none_iff_forall_ne_some.mp h
    (vm.executeProgram code (inputMemOf accounts instruction.data m) (ctx.getRemaining m)))
  have hs : serializeParameters accounts instruction.data m =
      (.ok (inputMemOf accounts instruction.data m),m) := rfl
  unfold runBytecode startError
  cases he : vm.fromElf code with
  | some e => rfl
  | none =>
    cases hv : vm.verify code with
    | some e => rfl
    | none =>
      simp only [failWith,Exec.pure_bind,Exec.bind_of_ok hs]
      cases hm : vm.mapMemory (inputMemOf accounts instruction.data m) with
      | some e => rfl
      | none => exact absurd ⟨⟨he,hv,hm⟩,rfl⟩ hn

/-- Bytecode that is run changes nothing, the meter included. -/
theorem runBytecode_unchanged : (runBytecode vm code instruction ctx accounts m).2 = m := by
  cases hr : vmRun vm code instruction ctx accounts m with
  | none => rw [runBytecode_of_no_run hr]
  | some run => rw [runBytecode_of_run hr]

theorem runBytecode_ne_ok : (runBytecode vm code instruction ctx accounts m).1 ≠ .ok () := by
  cases hr : vmRun vm code instruction ctx accounts m with
  | none =>
    rw [runBytecode_of_no_run hr]
    exact nofun
  | some run =>
    rw [runBytecode_of_run hr]
    exact run.ending_ne_ok

/-- It panics exactly when it gets to a run that is charged. -/
theorem runBytecode_panic : (runBytecode vm code instruction ctx accounts m).1 = .panic ↔
    ∃ run, vmRun vm code instruction ctx accounts m = some run ∧ run.Charged := by
  cases hr : vmRun vm code instruction ctx accounts m with
  | none =>
    rw [runBytecode_of_no_run hr]
    exact iff_of_false nofun fun ⟨_,h,_⟩ => nomatch h
  | some run =>
    rw [runBytecode_of_run hr]
    exact VmRun.ending_panic.trans ⟨fun h => ⟨run,rfl,h⟩,fun ⟨_,h,hc⟩ => Option.some.inj h ▸ hc⟩

/-- No program that is not native returns. -/
theorem execute_ne_ok : (execute vm instruction ctx accounts m).1 ≠ .ok () := by
  unfold execute
  rw [bind_run]
  cases hl : load instruction.programId accounts m with
  | mk r m₁ =>
    cases r with
    | ok u => exact runBytecode_ne_ok
    | err e => exact nofun
    | panic => exact nofun

end RbpfProgramExecutor

/-- An instruction that succeeds is one for a native program. -/
theorem ChainedProgramExecutor.native_of_ok [DecidableEq κ] {host : Host}
    {instruction : Instruction} {ctx : InvokeContext} {accounts : List (AccountInfo κ)}
    {m m' : Machine κ} (h : execute host instruction ctx accounts m = (.ok (),m')) :
    instruction.programId ∈ nativePrograms := by
  by_contra hn
  simp only [execute,executeAt,step,hn,if_false] at h
  cases hf : accounts.find? fun a => a.pubkey = instruction.programId with
  | none =>
    rw [hf] at h
    cases h
  | some info =>
    rw [hf] at h
    obtain ⟨-,h⟩ := Exec.failIf_bind_ok.mp h
    rw [AccountInfo.owner_bind] at h
    obtain ⟨-,h⟩ := Exec.failIf_bind_ok.mp h
    exact RbpfProgramExecutor.execute_ne_ok (congrArg Prod.fst h)

end TinySolana
