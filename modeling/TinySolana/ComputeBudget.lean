import TinySolana.ProgramCalls

/-!
# The compute budget of a transaction

Every instruction of a transaction gets a context with a meter of its own, and so the whole budget
again. A transaction stays within its budget all the same: a program that is run never returns, so
that the virtual machine runs at most once for a transaction.
-/

namespace TinySolana
open Foundations Exec

/-- A run executes at most as many instructions as there are units left. -/
def Vm.WithinMeter (vm : Vm) : Prop :=
  ∀ bytecode inputMem remaining, (vm.executeProgram bytecode inputMem remaining).instructionCount ≤
    remaining

namespace ChainedProgramExecutor

variable {κ : Type} {host : Host} {instruction : Instruction} {ctx : InvokeContext}
  {accounts : List (AccountInfo κ)} {m : Machine κ}

/-- The run of the virtual machine that an instruction gets to. -/
def vmRun (host : Host) (instruction : Instruction) (ctx : InvokeContext)
    (accounts : List (AccountInfo κ)) (m : Machine κ) : Option VmRun :=
  (programCall instruction accounts m).bind fun call =>
    RbpfProgramExecutor.vmRun host.vm call.bytecode instruction ctx accounts m

/-- An instruction that gets to a run ends as the executor does behind it. -/
theorem execute_of_run [DecidableEq κ] {run : VmRun}
    (h : vmRun host instruction ctx accounts m = some run) :
    (execute host instruction ctx accounts m).1 = run.ending := by
  obtain ⟨call,hc,hr⟩ := Option.bind_eq_some_iff.mp h
  have hrun : RbpfProgramExecutor.vmRun host.vm call.bytecode instruction ctx accounts { m with
      programCache := m.programCache.keep call.programId call.accountData } = some run :=
    (RbpfProgramExecutor.vmRun_same host.vm call.bytecode ⟨rfl,rfl⟩).trans hr
  rw [execute_of_call hc,RbpfProgramExecutor.runBytecode_of_run hrun]

end ChainedProgramExecutor

namespace Bank

variable {host : Host} {keys : List Pubkey} {computeBudget : UInt64} {instruction : Instruction}
  {m : Machine (Fin keys.length)}

/-- The run of the virtual machine that an instruction of a transaction gets to. -/
def vmRun (host : Host) (computeBudget : UInt64) (instruction : Instruction)
    (m : Machine (Fin keys.length)) : Option VmRun :=
  match prepareAccountInfos instruction m.cells with
  | .ok accountInfos => ChainedProgramExecutor.vmRun host instruction
      ⟨instruction.programId,instruction.data,computeBudget⟩ accountInfos
        { m with computeMeter := 0 }
  | .error _ => none

/-- The runs of the virtual machine in `execute_instructions`. -/
def vmRuns (host : Host) (keys : List Pubkey) (computeBudget : UInt64) :
    List Instruction → Machine (Fin keys.length) → List VmRun :=
  collect host keys computeBudget fun instruction m =>
    (vmRun host computeBudget instruction m).toList

/-- The runs of the virtual machine in `process_single_transaction`. -/
def processRuns (host : Host) (bank : Bank) (tx : Transaction) (computeBudget : UInt64)
    (cache : ProgramCache) : List VmRun :=
  match bank.checkPreflightRules tx with
  | .ok _ => vmRuns host tx.message.accountKeys computeBudget tx.message.instructions
      ⟨loadAndVerifyAccounts tx.message.accountKeys (OverlayStore.new.load bank.accounts),0,cache⟩
  | .error _ => []

/-- The BPF instructions that runs have executed. -/
def executed (runs : List VmRun) : ℕ := (runs.map fun run => run.instructionCount.toNat).sum

theorem vmRun_eq_some {run : VmRun} (h : vmRun host computeBudget instruction m = some run) :
    ∃ infos, prepareAccountInfos instruction m.cells = .ok infos ∧
      ChainedProgramExecutor.vmRun host instruction
        ⟨instruction.programId,instruction.data,computeBudget⟩ infos { m with computeMeter := 0 } =
          some run := by
  unfold vmRun at h
  split at h
  · next infos hp => exact ⟨infos,hp,h⟩
  · cases h

/-! ## One run -/

/-- The instructions behind a run are not reached. -/
theorem executeInstruction_of_run {run : VmRun}
    (h : vmRun host computeBudget instruction m = some run) :
    (executeInstruction host keys computeBudget instruction m).1 =
      run.ending.mapErr .programError := by
  obtain ⟨infos,hp,hr⟩ := vmRun_eq_some h
  rw [executeInstruction_run,hp]
  simp only [mapErr_run,ChainedProgramExecutor.execute_of_run hr]

theorem length_vmRuns_le_one (instructions : List Instruction) (m : Machine (Fin keys.length)) :
    (vmRuns host keys computeBudget instructions m).length ≤ 1 := by
  induction instructions generalizing m with
  | nil => exact Nat.zero_le 1
  | cons instruction rest ih =>
    simp only [vmRuns,collect] at ih ⊢
    rw [List.length_append]
    cases hr : vmRun host computeBudget instruction m with
    | none =>
      cases executeInstruction host keys computeBudget instruction m with
      | mk r m' =>
        cases r with
        | ok u => simpa using ih m'
        | err e => simp
        | panic => simp
    | some run =>
      have hx := executeInstruction_of_run hr
      cases hi : executeInstruction host keys computeBudget instruction m with
      | mk r m' =>
        rw [hi] at hx
        cases r with
        | ok u => exact absurd (Outcome.mapErr_eq_ok.mp hx.symm) run.ending_ne_ok
        | err e => simp
        | panic => simp

/-- A run is given the budget of the transaction. -/
theorem vmRun_count (hvm : host.vm.WithinMeter) {run : VmRun}
    (h : vmRun host computeBudget instruction m = some run) :
      run.instructionCount ≤ computeBudget := by
  obtain ⟨infos,-,hr⟩ := vmRun_eq_some h
  obtain ⟨call,-,hr⟩ := Option.bind_eq_some_iff.mp hr
  obtain ⟨-,hr⟩ := Option.ite_none_right_eq_some.mp hr
  cases hr
  refine UInt64.le_trans (hvm _ _ _) ?_
  rw [InvokeContext.getRemaining,satSub_zero]
  exact UInt64.le_refl _

theorem processRuns_count (hvm : host.vm.WithinMeter) {bank : Bank} {tx : Transaction}
    {cache : ProgramCache} {run : VmRun} (h : run ∈ processRuns host bank tx computeBudget cache) :
    run.instructionCount ≤ computeBudget := by
  unfold processRuns at h
  cases hc : bank.checkPreflightRules tx with
  | error e =>
    rw [hc] at h
    cases h
  | ok u =>
    rw [hc] at h
    obtain ⟨instruction,m,hm⟩ := mem_collect h
    exact vmRun_count hvm (Option.mem_toList.mp hm)

theorem length_processRuns_le_one (host : Host) (bank : Bank) (tx : Transaction)
    (computeBudget : UInt64) (cache : ProgramCache) :
    (processRuns host bank tx computeBudget cache).length ≤ 1 := by
  unfold processRuns
  cases bank.checkPreflightRules tx with
  | error e => exact Nat.zero_le 1
  | ok u => exact length_vmRuns_le_one _ _

/-! ## The budget -/

/-- On a virtual machine that respects the meter, the instructions of a transaction together execute
no more BPF instructions than its budget. -/
theorem budget_kept (hvm : host.vm.WithinMeter) (bank : Bank) (tx : Transaction)
    (cache : ProgramCache) :
    executed (processRuns host bank tx computeBudget cache) ≤ computeBudget.toNat := by
  have hcount := fun run => @processRuns_count host computeBudget hvm bank tx cache run
  have hone := length_processRuns_le_one host bank tx computeBudget cache
  rcases hruns : processRuns host bank tx computeBudget cache with _ | ⟨run,_ | ⟨run',rest⟩⟩
  · exact Nat.zero_le _
  · rw [hruns] at hcount
    exact UInt64.le_iff_toNat_le.mp (hcount run List.mem_cons_self)
  · rw [hruns] at hone
    simp at hone

/-- A program that would use the whole budget in each of its two calls is stopped behind the
first. -/
theorem second_call_not_reached :
    let host : Host := { (default : Host) with vm :=
      { (default : Host).vm with
        executeProgram := fun _ inputMem remaining => ⟨remaining,some remaining,.ok 0,inputMem⟩
        length_inputMem := fun _ _ _ => rfl } }
    let tx : Transaction := ⟨[blankSignature],[.ofByte 1,.ofByte 9],default,[runProgram,runProgram]⟩
    executed (processRuns host (.new programStore) tx 300 ∅) = 300 ∧
      executed (processRuns host (.new programStore) tx 300 ∅) ≤ (300 : UInt64).toNat := by
  intro host tx
  exact ⟨by decide +kernel,budget_kept (fun _ _ _ => UInt64.le_refl _) _ tx ∅⟩

end Bank

end TinySolana
