import TinySolana.BatchPanics
import TinySolana.ComputeBudget
import TinySolana.NativePanics

/-!
# Panics of execution

An instruction panics in one of three ways, all of which show on the accounts it finds: it creates
an account of too many bytes, it deploys code to an account that is too short, or it runs a program
whose run is charged to the meter. A batch processes its transactions without a panic as long as
none of the instructions it gets to is of such a kind.
-/

namespace TinySolana
open Foundations Exec

/-- A deployment looks at cells only. -/
theorem DeploysOverrun.of_cells {κ : Type} {sysvars : Sysvars} {data : List UInt8}
    {accounts : List (AccountInfo κ)} [DecidableEq κ] {m n : Machine κ}
    (h : DeploysOverrun sysvars data accounts m)
    (hc : m.cells = n.cells) : DeploysOverrun sysvars data accounts n := by
  obtain ⟨cells,_,_⟩ := m
  obtain ⟨_,_,_⟩ := n
  obtain rfl := hc
  obtain ⟨maxDataLen,payer,programdata,program,buffer,rent,clock,system,authority,rest,hd,ha,
    ho⟩ := h
  exact ⟨maxDataLen,payer,programdata,program,buffer,rent,clock,system,authority,rest,hd,ha,
    ho.signed,ho.rent,ho.header,ho.fits,ho.funded,ho.space⟩

namespace ChainedProgramExecutor

variable {κ : Type} {host : Host} {instruction : Instruction} {ctx : InvokeContext}
  {accounts : List (AccountInfo κ)} {m : Machine κ}

theorem vmRun_of_native (hn : instruction.programId ∈ nativePrograms) :
    vmRun host instruction ctx accounts m = none := by
  rw [vmRun,programCall,if_pos hn,Option.bind_none]

variable [DecidableEq κ]

/-- A program that is not native panics exactly when it gets to a run that is charged. -/
theorem execute_bpf_panic (hn : instruction.programId ∉ nativePrograms) :
    (execute host instruction ctx accounts m).1 = .panic ↔
      ∃ run, vmRun host instruction ctx accounts m = some run ∧ run.Charged := by
  cases hc : programCall instruction accounts m with
  | some call =>
    rw [execute_of_call hc,RbpfProgramExecutor.runBytecode_panic,vmRun,hc,Option.bind_some]
    rfl
  | none =>
    -- The executor fails before it gets to the program.
    have hrun : vmRun host instruction ctx accounts m = none := by rw [vmRun,hc,Option.bind_none]
    refine iff_of_false ?_ (by simp [hrun])
    simp only [programCall,if_neg hn] at hc
    simp only [execute,executeAt,step,hn,if_false]
    cases hf : accounts.find? fun a => a.pubkey = instruction.programId with
    | none => simp
    | some info =>
      rw [hf] at hc
      simp only [Exec.failIf_bind_panic,AccountInfo.owner_bind,not_not]
      rintro ⟨he,ho,-⟩
      cases (if_pos ⟨he,ho⟩).symm.trans hc

/-- The native programs panic as their entrypoints do, the other ones behind a charged run. -/
theorem execute_panic : (execute host instruction ctx accounts m).1 = .panic ↔
    instruction.programId = systemProgramId ∧ CreatesOverlong ctx.instructionData accounts m ∨
      instruction.programId = bpfLoaderUpgradeableProgramId ∧
        DeploysOverrun host.sysvars ctx.instructionData accounts m ∨
      ∃ run, vmRun host instruction ctx accounts m = some run ∧ run.Charged := by
  have hst : systemProgramId ≠ bpfLoaderUpgradeableProgramId := by decide
  have hts : tokenProgramId ≠ systemProgramId := by decide
  have htl : tokenProgramId ≠ bpfLoaderUpgradeableProgramId := by decide
  by_cases hn : instruction.programId ∈ nativePrograms
  · have hnone : vmRun host instruction ctx accounts m = none := vmRun_of_native hn
    have hcases : instruction.programId = systemProgramId ∨
        instruction.programId = tokenProgramId ∨
        instruction.programId = bpfLoaderUpgradeableProgramId := by
      simpa [nativePrograms] using hn
    rcases hcases with hs | ht | hl
    · rw [execute_system host hs,SystemProgram.entrypoint_panic]
      simp [hs,hst,hnone]
    · rw [execute_token host ht]
      exact iff_of_false (TokenProgram.entrypoint_no_panic host 0) (by simp [ht,hts,htl,hnone])
    · rw [execute_loader host hl,BpfLoaderProgram.entrypoint_panic 0]
      simp [hl,hst.symm,hnone]
  · have hs : instruction.programId ≠ systemProgramId := fun he => hn (by rw [he]; decide)
    have hl : instruction.programId ≠ bpfLoaderUpgradeableProgramId := fun he =>
      hn (by rw [he]; decide)
    rw [execute_bpf_panic hn]
    simp only [hs,hl,false_and,false_or]

end ChainedProgramExecutor

namespace Bank

variable {host : Host} {keys : List Pubkey} {computeBudget : UInt64} {instruction : Instruction}
  {m : Machine (Fin keys.length)}

/-- The instruction panics on the accounts it finds. -/
inductive InstructionPanics (host : Host) (computeBudget : UInt64) (instruction : Instruction)
    (m : Machine (Fin keys.length)) : Prop where
  | creates {infos : List (AccountInfo (Fin keys.length))}
      (prepared : prepareAccountInfos instruction m.cells = .ok infos)
      (program : instruction.programId = systemProgramId)
      (overlong : CreatesOverlong instruction.data infos m)
  | deploys {infos : List (AccountInfo (Fin keys.length))}
      (prepared : prepareAccountInfos instruction m.cells = .ok infos)
      (program : instruction.programId = bpfLoaderUpgradeableProgramId)
      (overrun : DeploysOverrun host.sysvars instruction.data infos m)
  | runs {run : VmRun} (reached : vmRun host computeBudget instruction m = some run)
      (charged : run.Charged)

theorem executeInstruction_panic :
    (executeInstruction host keys computeBudget instruction m).1 = .panic ↔
      InstructionPanics host computeBudget instruction m := by
  rw [executeInstruction_run]
  cases hp : prepareAccountInfos instruction m.cells with
  | error e =>
    -- Every way to panic needs the accounts of the instruction.
    refine iff_of_false nofun fun h => ?_
    cases h with
    | creates prepared => exact nomatch hp.symm.trans prepared
    | deploys prepared => exact nomatch hp.symm.trans prepared
    | runs reached =>
      obtain ⟨infos,hi,-⟩ := vmRun_eq_some reached
      exact nomatch hp.symm.trans hi
  | ok infos =>
    have hrun : vmRun host computeBudget instruction m =
        ChainedProgramExecutor.vmRun host instruction
          ⟨instruction.programId,instruction.data,computeBudget⟩ infos
          { m with computeMeter := 0 } := by
      rw [vmRun,hp]
    simp only [mapErr_run,Outcome.mapErr_eq_panic]
    rw [ChainedProgramExecutor.execute_panic,← hrun]
    constructor
    · rintro (⟨hs,hoverlong⟩ | ⟨hl,hoverrun⟩ | ⟨run,hr,hc⟩)
      · exact .creates hp hs hoverlong
      · exact .deploys hp hl (hoverrun.of_cells rfl)
      · exact .runs hr hc
    · intro h
      cases h with
      | creates prepared program overlong =>
        exact .inl ⟨program,Except.ok.inj (hp.symm.trans prepared) ▸ overlong⟩
      | deploys prepared program overrun =>
        obtain rfl := Except.ok.inj (hp.symm.trans prepared)
        exact .inr (.inl ⟨program,overrun.of_cells rfl⟩)
      | runs reached charged => exact .inr (.inr ⟨_,reached,charged⟩)

/-! ## Transactions -/

theorem executeInstructions_panic (instructions : List Instruction)
    (m : Machine (Fin keys.length)) :
    (executeInstructions host keys computeBudget instructions m).1 = .panic ↔
      ∃ p ∈ reached host keys computeBudget instructions m,
        InstructionPanics host computeBudget p.1 p.2 := by
  induction instructions generalizing m with
  | nil => exact iff_of_false nofun (by simp [reached,collect])
  | cons instruction rest ih =>
    have hx := @executeInstruction_panic host keys computeBudget instruction m
    simp only [reached,collect,executeInstructions,bind_run,List.mem_append,
      List.mem_singleton] at ih ⊢
    simp only [or_and_right,exists_or,exists_eq_left,← hx]
    cases executeInstruction host keys computeBudget instruction m with
    | mk r m' =>
      cases r with
      | ok u => simpa using ih m'
      | err e => simp
      | panic => simp

/-- The transaction gets past the rules of the bank, and to an instruction that panics. -/
def TransactionPanics (host : Host) (bank : Bank) (tx : Transaction) (computeBudget : UInt64)
    (cache : ProgramCache) : Prop :=
  bank.checkPreflightRules tx = .ok () ∧
    ∃ p ∈ bank.reachedBy host tx computeBudget cache, InstructionPanics host computeBudget p.1 p.2

theorem processSingleTransaction_panic {bank : Bank} {tx : Transaction} {cache : ProgramCache} :
    (processSingleTransaction host bank tx computeBudget cache).1 = .panic ↔
      TransactionPanics host bank tx computeBudget cache := by
  rw [TransactionPanics,reachedBy,← executeInstructions_panic,processSingleTransaction]
  cases bank.checkPreflightRules tx with
  | error e => exact iff_of_false nofun fun h => nomatch h.1
  | ok u =>
    rw [and_iff_right rfl,Exec.ofExcept_ok,Exec.pure_bind,executeOnOverlay,
      Exec.bind_run,executeLoaded]
    cases (executeInstructions host tx.message.accountKeys computeBudget tx.message.instructions
      ⟨loadAndVerifyAccounts tx.message.accountKeys (OverlayStore.new.load bank.accounts),0,
        cache⟩).1 <;> simp [Outcome.map]

end Bank

namespace BankingStage

variable {host : Host} {costModel : CostModel}

/-! ## Batches -/

/-- One call of `process_single_transaction`, with the cache of programs that it finds. -/
structure ProcessCall where
  bank : Bank
  transaction : Transaction
  computeBudget : UInt64
  programCache : ProgramCache

/-- The call gets to an instruction that panics. -/
def ProcessCall.Panics (host : Host) (call : ProcessCall) : Prop :=
  call.bank.TransactionPanics host call.transaction call.computeBudget call.programCache

/-- The calls for the members of a group. -/
def memberCalls (host : Host) (bank : Bank) : List Admitted → ProgramCache → List ProcessCall
  | [], _ => []
  | member :: rest, cache => ⟨bank,member.transaction,member.cost.sum,cache⟩ ::
      memberCalls host bank rest
        (bank.processSingleTransaction host member.transaction member.cost.sum cache).2

/-- The calls for the admitted members of a group, if it gets its locks. -/
def groupCalls (host : Host) (costModel : CostModel) (group : List (ℕ × Transaction))
    (s : BatchState) : List ProcessCall :=
  match admitGroup costModel group s with
  | (.ok admitted,_) =>
    if AccountLocks.InUse (admitted.map fun m => (m.originalIndex,m.transaction))
      s.stage.accountLocks
    then [] else memberCalls host s.bank admitted s.programCache
  | _ => []

def groupsCalls (host : Host) (costModel : CostModel) (txs : List (ℕ × Transaction)) :
    List (List (ℕ × Transaction)) → BatchState → List ProcessCall
  | [], _ => []
  | group :: rest, s => groupCalls host costModel group s ++
      match processGroup host costModel txs group s with
      | (.ok (),t) => groupsCalls host costModel txs rest t
      | _ => []

/-- The calls of `process_single_transaction` that a batch comes to. -/
def processCalls (host : Host) (costModel : CostModel) (transactions : List Transaction)
    (s : BatchState) : List ProcessCall :=
  groupsCalls host costModel (txsToSchedule host.ed25519 transactions)
    (TransactionScheduler.schedule (txsToSchedule host.ed25519 transactions))
    (verified host.ed25519 transactions s)

theorem membersReturn_iff {bank : Bank} {admitted : List Admitted} {cache : ProgramCache} :
    MembersReturn host bank admitted cache ↔
      ∀ call ∈ memberCalls host bank admitted cache, ¬call.Panics host := by
  induction admitted generalizing cache with
  | nil => simp [MembersReturn,memberCalls]
  | cons member rest ih =>
    rw [MembersReturn,memberCalls,List.forall_mem_cons,ih]
    exact and_congr_left fun _ => not_congr Bank.processSingleTransaction_panic

theorem groupReturns_iff {group : List (ℕ × Transaction)} {s : BatchState} :
    GroupReturns host costModel group s ↔
      ∀ call ∈ groupCalls host costModel group s, ¬call.Panics host := by
  unfold GroupReturns groupCalls
  cases admitGroup costModel group s with
  | mk r t =>
    cases r with
    | ok admitted =>
      have hone :
        (∀ admitted' t', ((.ok admitted,t) : Outcome BatchError (List Admitted) × BatchState) =
          (.ok admitted',t') → ¬AccountLocks.InUse
          (admitted'.map fun m => (m.originalIndex,m.transaction))
            s.stage.accountLocks → MembersReturn host s.bank admitted' s.programCache) ↔
          (¬AccountLocks.InUse (admitted.map fun m => (m.originalIndex,m.transaction))
            s.stage.accountLocks → MembersReturn host s.bank admitted s.programCache) :=
        ⟨fun h => h admitted t rfl,fun h _ _ he => by cases he; exact h⟩
      rw [hone]
      dsimp only
      split
      · next hu => simp [hu]
      · next hu => rw [imp_iff_right hu,membersReturn_iff]
    | err e => simp
    | panic => simp

theorem allReturn_iff {txs : List (ℕ × Transaction)} {groups : List (List (ℕ × Transaction))}
    {s : BatchState} : AllReturn host costModel txs groups s ↔
      ∀ call ∈ groupsCalls host costModel txs groups s, ¬call.Panics host := by
  induction groups generalizing s with
  | nil => simp [AllReturn,groupsCalls]
  | cons group rest ih =>
    rw [AllReturn,groupsCalls,List.forall_mem_append,groupReturns_iff]
    refine and_congr_right fun _ => ?_
    cases processGroup host costModel txs group s with
    | mk r t =>
      cases r with
      | ok u => simp [ih]
      | err e => simp
      | panic => simp

/-- The transactions of a batch are all processed without a panic exactly when none of them gets to
an instruction that panics. -/
theorem batchReturns_iff {transactions : List Transaction} {s : BatchState} :
    BatchReturns host costModel transactions s ↔
      ∀ call ∈ processCalls host costModel transactions s, ¬call.Panics host :=
  allReturn_iff

end BankingStage

end TinySolana
