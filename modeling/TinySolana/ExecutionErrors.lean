import TinySolana.Bank
import TinySolana.NativeFrame

/-!
# Errors of execution

The rules that a bank checks in front of a transaction have errors of their own. No instruction
fails with one of them: programs and executors only fail with program errors, and no text of theirs
is that of a frozen bank.
-/

namespace TinySolana
open Foundations Exec

variable {κ : Type}

namespace RbpfProgramExecutor

theorem failWith_fails {message : String} {c : Char} {cs : List Char}
    (hm : message.toList = c :: cs) (hc : c ≠ 'b') (e : Option String) :
    FailsIn ProgramError.OfProgram (failWith message e : Prog κ Unit) := by
  cases e with
  | none => exact .pure ()
  | some e => exact .throw (ProgramError.ofProgram_append hm hc e)

theorem consumeDue_fails (due : Option UInt64) :
    FailsIn ProgramError.OfProgram (consumeDue due : Prog κ Unit) := by
  cases due with
  | none => exact .pure ()
  | some amount => exact .abort

theorem load_fails (programId : Pubkey) (accounts : List (AccountInfo κ)) :
    FailsIn ProgramError.OfProgram (load programId accounts) := by
  refine .get_bind fun m => ?_
  split
  · split
    · exact .throw (by decide)
    · next info hinfo =>
      refine .bind (.failIf _ (by decide)) fun _ => ?_
      exact .bind (fun m e h => by cases h) fun _ => (NeverFails.modify _).failsIn
  · exact .pure ()

variable [DecidableEq κ]

/-- The texts of the virtual machine stand behind those of the executor. -/
theorem execute_fails (vm : Vm) (instruction : Instruction) (ctx : InvokeContext)
    (accounts : List (AccountInfo κ)) :
    FailsIn ProgramError.OfProgram (execute vm instruction ctx accounts) := by
  refine .bind (load_fails _ _) fun _ => .get_bind fun m => ?_
  refine .bind (failWith_fails rfl (by decide) _) fun _ => ?_
  refine .bind (failWith_fails rfl (by decide) _) fun _ => ?_
  refine .bind (fun _ _ h => by cases h) fun input => ?_
  refine .bind (failWith_fails rfl (by decide) _) fun _ => .get_bind fun m => ?_
  refine .bind (consumeDue_fails _) fun _ => ?_
  split
  · exact .throw (ProgramError.ofProgram_append rfl (by decide) _)
  · refine .bind (.failIf _ (by simp [ProgramError.OfProgram])) fun _ => ?_
    refine .bind .abort fun _ => .get_bind fun m => ?_
    exact .bind (.failIf _ (by decide)) fun _ => (deserializeParameters_code accounts _).fails

end RbpfProgramExecutor

/-- An instruction of a transaction fails with the error of a program. -/
theorem ChainedProgramExecutor.execute_fails [DecidableEq κ] (host : Host)
    (instruction : Instruction) (ctx : InvokeContext) (accounts : List (AccountInfo κ)) :
    FailsIn ProgramError.OfProgram (execute host instruction ctx accounts) := by
  by_cases hn : instruction.programId ∈ nativePrograms
  · exact (execute_code host hn ctx accounts).fails
  · simp only [execute,executeAt,step,if_neg hn]
    split
    · exact .throw (by simp [ProgramError.OfProgram])
    · next info hinfo =>
      refine .bind (.failIf _ (by decide)) fun _ => .bind (fun m e h => by cases h) fun _ => ?_
      exact .bind (.failIf _ (by decide)) fun _ => RbpfProgramExecutor.execute_fails host.vm _ ctx _

namespace Bank

/-- An error that the transaction has from one of its instructions. -/
def OfInstruction (e : TransactionError) : Prop := ∃ p : ProgramError, p.OfProgram ∧
    e = .programError p

theorem prepareFrom_fails {keys : List Pubkey} (accounts : Cells keys)
    (borrowed : BTreeSet (Fin keys.length)) (metas : List AccountMeta) {e : TransactionError}
    (h : prepareFrom accounts borrowed metas = .error e) : OfInstruction e := by
  induction metas generalizing borrowed with
  | nil => cases h
  | cons accountMeta rest ih =>
    simp only [prepareFrom] at h
    split at h
    · cases h
      exact ⟨_,by decide,rfl⟩
    · split at h
      · cases h
        exact ⟨_,by decide,rfl⟩
      · cases hrest : prepareFrom accounts (if accountMeta.isWritable = true then
            borrowed.insert _ else borrowed) rest with
        | error e' =>
          rw [hrest] at h
          cases h
          exact ih _ hrest
        | ok infos =>
          rw [hrest] at h
          cases h

theorem executeInstructions_fails (host : Host) (keys : List Pubkey) (computeBudget : UInt64)
    (instructions : List Instruction) :
    FailsIn OfInstruction (executeInstructions host keys computeBudget instructions) := by
  induction instructions with
  | nil => exact .pure ()
  | cons instruction rest ih =>
    refine .bind ?_ fun _ => ih
    refine .get_bind fun m => .bind (.ofExcept fun e he => prepareFrom_fails _ _ _ he)
      fun infos => ?_
    refine .bind (NeverFails.modify _).failsIn fun _ => .mapErr fun m e he => ⟨e,?_,rfl⟩
    exact ChainedProgramExecutor.execute_fails host instruction _ infos m e he

/-- A transaction that fails in its execution has failed in one of its instructions. -/
theorem executeLoaded_fails (host : Host) (tx : Transaction) (computeBudget : UInt64)
    (loaded : Cells tx.message.accountKeys) :
    FailsIn OfInstruction (executeLoaded host tx computeBudget loaded) := by
  intro cache e he
  have hx := executeInstructions_fails host tx.message.accountKeys computeBudget
    tx.message.instructions
  exact hx ⟨loaded,0,cache⟩ e (Outcome.map_eq_err.mp he)

/-- The rules in front of a transaction have errors of their own. -/
theorem checkPreflightRules_error {bank : Bank} {tx : Transaction} {e : TransactionError}
    (h : bank.checkPreflightRules tx = .error e) : ¬OfInstruction e := by
  rintro ⟨p,hp,rfl⟩
  unfold checkPreflightRules at h
  split at h
  · cases h
    exact hp rfl
  · split at h
    · dsimp only at h
      split at h <;> cases h
    · cases h

end Bank

end TinySolana
