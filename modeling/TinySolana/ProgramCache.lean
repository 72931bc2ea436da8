import TinySolana.ProgramCalls

/-!
# The cache of programs

One executor serves the transactions that are processed and simulated on every bank, and keeps the
bytecode of a program from the first time it runs it. The cached bytecode is the data of the
program's account as long as no call finds other data there than the first call did.
-/

namespace TinySolana
open Foundations Exec

/-- The calls were answered by an executor that starts with the cache. -/
abbrev AnsweredFrom (cache : ProgramCache) (calls : List ProgramCall) : Prop :=
  Answered ProgramCall.programId ProgramCall.bytecode ProgramCall.accountData cache calls

/-- The cache after the calls. -/
abbrev ProgramCache.afterCalls (cache : ProgramCache) (calls : List ProgramCall) : ProgramCache :=
  keepAll ProgramCall.programId ProgramCall.accountData cache calls

/-- Every call hands over the data of the program's account. -/
def HandsOverData (calls : List ProgramCall) : Prop :=
  ∀ call ∈ calls, call.bytecode = call.accountData

/-- No two calls find different data in the account of one program. -/
def SteadyData (calls : List ProgramCall) : Prop :=
  calls.Pairwise fun a b => a.programId = b.programId → a.accountData = b.accountData

namespace Bank

variable {host : Host} {keys : List Pubkey} {computeBudget : UInt64}
  {m n : Machine (Fin keys.length)}

/-! ## One instruction -/

theorem executeInstruction_programCache (instruction : Instruction)
    (m : Machine (Fin keys.length)) :
    (executeInstruction host keys computeBudget instruction m).2.programCache =
      ProgramCache.afterCalls m.programCache (programCall instruction m).toList := by
  rw [executeInstruction_run,programCall]
  cases prepareAccountInfos instruction m.cells with
  | error e => rfl
  | ok accountInfos =>
    simp only [mapErr_run]
    exact ChainedProgramExecutor.execute_programCache _

theorem programCall_answered (instruction : Instruction) (m : Machine (Fin keys.length)) :
    AnsweredFrom m.programCache (programCall instruction m).toList := by
  unfold programCall
  cases prepareAccountInfos instruction m.cells with
  | error e => exact trivial
  | ok accountInfos =>
    exact ChainedProgramExecutor.programCall_answered instruction accountInfos
      { m with computeMeter := 0 }

/-- An instruction does the same with another cache that gives the same answer. -/
theorem executeInstruction_answered {instruction : Instruction} (hs : SameAccounts m n)
    (hc : AnsweredFrom n.programCache (programCall instruction m).toList) :
    programCall instruction n = programCall instruction m ∧
      (executeInstruction host keys computeBudget instruction n).1 =
        (executeInstruction host keys computeBudget instruction m).1 ∧
      SameAccounts (executeInstruction host keys computeBudget instruction m).2
        (executeInstruction host keys computeBudget instruction n).2 := by
  obtain ⟨cells,meter,cache⟩ := m
  obtain ⟨_,_,cache'⟩ := n
  obtain ⟨rfl,rfl⟩ := hs
  rw [executeInstruction_run,executeInstruction_run]
  unfold programCall at hc ⊢
  cases hp : prepareAccountInfos instruction cells with
  | error e => exact ⟨rfl,rfl,rfl,rfl⟩
  | ok accountInfos =>
    simp only [hp] at hc
    obtain ⟨hcall,hr,ha⟩ := @ChainedProgramExecutor.execute_answered _ accountInfos instruction
      ⟨cells,0,cache⟩ ⟨cells,0,cache'⟩ _ host ⟨instruction.programId,instruction.data,computeBudget⟩
      ⟨rfl,rfl⟩ hc
    simp only [mapErr_run]
    exact ⟨hcall,congrArg _ hr,ha⟩

/-! ## All instructions -/

theorem executeInstructions_calls (instructions : List Instruction)
    (m : Machine (Fin keys.length)) :
    AnsweredFrom m.programCache (programCalls host keys computeBudget instructions m) ∧
      (executeInstructions host keys computeBudget instructions m).2.programCache =
        ProgramCache.afterCalls m.programCache
          (programCalls host keys computeBudget instructions m) := by
  induction instructions generalizing m with
  | nil => exact ⟨trivial,rfl⟩
  | cons instruction rest ih =>
    have hcache := @executeInstruction_programCache host keys computeBudget instruction m
    have hans := programCall_answered instruction m
    simp only [programCalls,collect,executeInstructions,bind_run] at ih ⊢
    cases hx : executeInstruction host keys computeBudget instruction m with
    | mk r m' =>
      rw [hx] at hcache
      cases r with
      | ok u =>
        obtain ⟨ha,hk⟩ := ih m'
        rw [hcache] at ha hk
        exact ⟨answered_append.mpr ⟨hans,ha⟩,hk.trans keepAll_append.symm⟩
      | err e =>
        simp only [List.append_nil]
        exact ⟨hans,hcache⟩
      | panic =>
        simp only [List.append_nil]
        exact ⟨hans,hcache⟩

/-- As long as it gives the same answers, another cache makes no difference. -/
theorem executeInstructions_answered {instructions : List Instruction} (hs : SameAccounts m n)
    (hc : AnsweredFrom n.programCache (programCalls host keys computeBudget instructions m)) :
    programCalls host keys computeBudget instructions n =
        programCalls host keys computeBudget instructions m ∧
      (executeInstructions host keys computeBudget instructions n).1 =
        (executeInstructions host keys computeBudget instructions m).1 ∧
      SameAccounts (executeInstructions host keys computeBudget instructions m).2
        (executeInstructions host keys computeBudget instructions n).2 := by
  induction instructions generalizing m n with
  | nil => exact ⟨rfl,rfl,hs⟩
  | cons instruction rest ih =>
    obtain ⟨hfirst,hrest⟩ := answered_append.mp hc
    obtain ⟨hcall,hr,ha⟩ := @executeInstruction_answered host keys computeBudget m n
      instruction hs hfirst
    have hn := @executeInstruction_programCache host keys computeBudget instruction n
    simp only [programCalls,collect,executeInstructions,bind_run] at ih ⊢
    rw [hcall] at hn ⊢
    cases hxm : executeInstruction host keys computeBudget instruction m with
    | mk r m' =>
      cases hxn : executeInstruction host keys computeBudget instruction n with
      | mk q n' =>
        rw [hxm] at hr ha hrest
        rw [hxn] at hr ha hn
        cases hr
        cases r with
        | err e => exact ⟨rfl,rfl,ha⟩
        | panic => exact ⟨rfl,rfl,ha⟩
        | ok u =>
          obtain ⟨hcalls,hsame⟩ := ih ha (hn ▸ hrest)
          exact ⟨congrArg _ hcalls,hsame⟩

/-! ## A transaction -/

variable {tx : Transaction} {loaded : Cells tx.message.accountKeys} {cache cache' : ProgramCache}

/-- The calls that a transaction makes on loaded accounts. -/
def loadedCalls (host : Host) (tx : Transaction) (computeBudget : UInt64)
    (loaded : Cells tx.message.accountKeys) (cache : ProgramCache) : List ProgramCall :=
  programCalls host tx.message.accountKeys computeBudget tx.message.instructions ⟨loaded,0,cache⟩

theorem executeLoaded_calls (host : Host) (tx : Transaction) (computeBudget : UInt64)
    (loaded : Cells tx.message.accountKeys) (cache : ProgramCache) :
    AnsweredFrom cache (loadedCalls host tx computeBudget loaded cache) ∧
      (executeLoaded host tx computeBudget loaded cache).2 =
        cache.afterCalls (loadedCalls host tx computeBudget loaded cache) :=
  executeInstructions_calls tx.message.instructions ⟨loaded,0,cache⟩

theorem executeLoaded_answered
    (hc : AnsweredFrom cache' (loadedCalls host tx computeBudget loaded cache)) :
    loadedCalls host tx computeBudget loaded cache' = loadedCalls host tx
      computeBudget loaded cache ∧
      (executeLoaded host tx computeBudget loaded cache').1 =
        (executeLoaded host tx computeBudget loaded cache).1 := by
  obtain ⟨hcalls,hr,ha⟩ := executeInstructions_answered (m := ⟨loaded,0,cache⟩)
    (n := ⟨loaded,0,cache'⟩) ⟨rfl,rfl⟩ hc
  refine ⟨hcalls,?_⟩
  simp only [executeLoaded,hr,ha.cells]

/-- The programs of a transaction are all in the cache that it leaves: run again on the same
accounts, it ends the same. -/
theorem executeLoaded_again (host : Host) (tx : Transaction) (computeBudget : UInt64)
    (loaded : Cells tx.message.accountKeys) (cache : ProgramCache) :
    (executeLoaded host tx computeBudget loaded
        (executeLoaded host tx computeBudget loaded cache).2).1 =
      (executeLoaded host tx computeBudget loaded cache).1 := by
  obtain ⟨ha,hk⟩ := executeLoaded_calls host tx computeBudget loaded cache
  rw [hk]
  exact (executeLoaded_answered ha.again).2

end Bank

/-! ## Sequences of transactions -/

/-- A transaction that is processed or simulated on some bank. The bank comes with what its store
holds at the time: overlays may have been flushed before, or discarded. -/
inductive ExecutorUse where
  | process (bank : Bank) (tx : Transaction) (computeBudget : UInt64)
  | simulate (bank : Bank) (tx : Transaction)

namespace ExecutorUse

/-- The outcome, with the overlay of a transaction that was processed. -/
def run (host : Host) : ExecutorUse → Exec ProgramCache TransactionError (Option OverlayStore)
  | process bank tx computeBudget => do
    let overlay ← bank.processSingleTransaction host tx computeBudget
    return some overlay
  | simulate bank tx => do
    bank.simulateTransaction host tx
    return none

/-- The accounts that a bank loads for a transaction. -/
def loaded (bank : Bank) (tx : Transaction) : Cells tx.message.accountKeys :=
  Bank.loadAndVerifyAccounts tx.message.accountKeys (OverlayStore.new.load bank.accounts)

def programCalls (host : Host) : ExecutorUse → ProgramCache → List ProgramCall
  | process bank tx computeBudget, cache =>
    match bank.checkPreflightRules tx with
    | .ok _ => Bank.loadedCalls host tx computeBudget (loaded bank tx) cache
    | .error _ => []
  | simulate bank tx, cache => Bank.loadedCalls host tx 200000 (loaded bank tx) cache

variable {host : Host} {cache cache' : ProgramCache}

theorem run_process_of_ok {bank : Bank} {tx : Transaction} {computeBudget : UInt64} {u : Unit}
    (h : bank.checkPreflightRules tx = .ok u) (cache : ProgramCache) :
    run host (process bank tx computeBudget) cache =
      ((Bank.executeLoaded host tx computeBudget (loaded bank tx) cache).1.map fun cells =>
          some (Bank.writeBack cells),
        (Bank.executeLoaded host tx computeBudget (loaded bank tx) cache).2) := by
  simp only [run,Bank.processSingleTransaction,h,Exec.ofExcept_ok,Exec.pure_bind,
    Bank.executeOnOverlay,Exec.bind_run,loaded]
  cases Bank.executeLoaded host tx computeBudget _ cache with
  | mk r cache' => cases r <;> rfl

theorem run_process_of_error {bank : Bank} {tx : Transaction} {computeBudget : UInt64}
    {e : TransactionError} (h : bank.checkPreflightRules tx = .error e) (cache : ProgramCache) :
    run host (process bank tx computeBudget) cache = (.err e,cache) := by
  simp only [run,Bank.processSingleTransaction,h,Exec.ofExcept_error,Exec.throw_bind,Exec.throw_run]

theorem programCalls_process_of_ok {bank : Bank} {tx : Transaction} {computeBudget : UInt64}
    {u : Unit} (h : bank.checkPreflightRules tx = .ok u) (cache : ProgramCache) :
    programCalls host (process bank tx computeBudget) cache =
      Bank.loadedCalls host tx computeBudget (loaded bank tx) cache := by
  simp only [programCalls,h]

theorem programCalls_process_of_error {bank : Bank} {tx : Transaction} {computeBudget : UInt64}
    {e : TransactionError} (h : bank.checkPreflightRules tx = .error e) (cache : ProgramCache) :
    programCalls host (process bank tx computeBudget) cache = [] := by
  simp only [programCalls,h]

theorem run_simulate (bank : Bank) (tx : Transaction) (cache : ProgramCache) :
    run host (simulate bank tx) cache =
      ((Bank.executeLoaded host tx 200000 (loaded bank tx) cache).1.map fun _ => none,
        (Bank.executeLoaded host tx 200000 (loaded bank tx) cache).2) := by
  simp only [run,Bank.simulateTransaction,Exec.bind_run,loaded]
  cases Bank.executeLoaded host tx 200000 _ cache with
  | mk r cache' => cases r <;> rfl

theorem run_calls (use : ExecutorUse) (cache : ProgramCache) :
    AnsweredFrom cache (use.programCalls host cache) ∧
      (use.run host cache).2 = cache.afterCalls (use.programCalls host cache) := by
  cases use with
  | process bank tx computeBudget =>
    cases hp : bank.checkPreflightRules tx with
    | error e =>
      rw [run_process_of_error hp,programCalls_process_of_error hp]
      exact ⟨trivial,rfl⟩
    | ok u =>
      rw [run_process_of_ok hp,programCalls_process_of_ok hp]
      exact Bank.executeLoaded_calls host tx computeBudget _ cache
  | simulate bank tx =>
    rw [run_simulate]
    exact Bank.executeLoaded_calls host tx 200000 _ cache

/-- A use ends the same way on another cache that gives its calls the same answers, with the same
overlay, and makes the same calls. -/
theorem run_answered {use : ExecutorUse} (hc : AnsweredFrom cache' (use.programCalls host cache)) :
    use.programCalls host cache' = use.programCalls host cache ∧
      (use.run host cache').1 = (use.run host cache).1 := by
  cases use with
  | process bank tx computeBudget =>
    cases hp : bank.checkPreflightRules tx with
    | error e =>
      rw [run_process_of_error hp,run_process_of_error hp,programCalls_process_of_error hp,
        programCalls_process_of_error hp]
      exact ⟨rfl,rfl⟩
    | ok u =>
      rw [programCalls_process_of_ok hp] at hc
      obtain ⟨hcalls,hr⟩ := Bank.executeLoaded_answered hc
      rw [run_process_of_ok hp,run_process_of_ok hp,hr,programCalls_process_of_ok hp,
        programCalls_process_of_ok hp]
      exact ⟨hcalls,rfl⟩
  | simulate bank tx =>
    obtain ⟨hcalls,hr⟩ := Bank.executeLoaded_answered hc
    rw [run_simulate,run_simulate,hr]
    exact ⟨hcalls,rfl⟩

/-- A use whose calls are all handed the data of their programs makes the same calls on a smaller
cache and ends the same way. -/
theorem run_within {use : ExecutorUse} (hw : cache'.Within cache)
    (hc : HandsOverData (use.programCalls host cache)) :
    use.programCalls host cache' = use.programCalls host cache ∧
      (use.run host cache').1 = (use.run host cache).1 :=
  run_answered ((run_calls use cache).1.of_within hc hw)

/-- The cache after a sequence of transactions. -/
def cacheAfter (host : Host) (uses : List ExecutorUse) (cache : ProgramCache) : ProgramCache :=
  uses.foldl (fun cache use => (use.run host cache).2) cache

/-- All calls that are made in a sequence of transactions. -/
def callsAlong (host : Host) : List ExecutorUse → ProgramCache → List ProgramCall
  | [], _ => []
  | use :: rest, cache => use.programCalls host cache ++ callsAlong host rest (use.run host cache).2

theorem callsAlong_answered (uses : List ExecutorUse) (cache : ProgramCache) :
    AnsweredFrom cache (callsAlong host uses cache) := by
  induction uses generalizing cache with
  | nil => exact trivial
  | cons use rest ih =>
    obtain ⟨ha,hk⟩ := @run_calls host use cache
    refine answered_append.mpr ⟨ha,?_⟩
    change AnsweredFrom (cache.afterCalls _) _
    rw [← hk]
    exact ih _

theorem callsAlong_append (uses uses' : List ExecutorUse) (cache : ProgramCache) :
    callsAlong host (uses ++ uses') cache =
      callsAlong host uses cache ++ callsAlong host uses' (cacheAfter host uses cache) := by
  induction uses generalizing cache with
  | nil => rfl
  | cons use rest ih =>
    change use.programCalls host cache ++ callsAlong host (rest ++ uses') _ = _
    rw [ih,← List.append_assoc]
    rfl

/-- Every call hands over the data of its program's account, and no transaction ends or makes calls
otherwise than it would as the first one of a new executor. -/
structure Coherent (host : Host) (uses : List ExecutorUse) : Prop where
  handsOverData : HandsOverData (callsAlong host uses ∅)
  unaffected : ∀ before use after, uses = before ++ use :: after →
    use.programCalls host (cacheAfter host before ∅) = use.programCalls host ∅ ∧
      (use.run host (cacheAfter host before ∅)).1 = (use.run host ∅).1

/-- The cache is coherent over a sequence of transactions exactly when no two calls find different
data in the account of one program. -/
theorem coherent_iff_steadyData (host : Host) (uses : List ExecutorUse) :
    Coherent host uses ↔ SteadyData (callsAlong host uses ∅) := by
  refine Iff.trans ⟨Coherent.handsOverData,fun h => ⟨h,?_⟩⟩ (callsAlong_answered uses ∅).fresh_iff
  rintro before use after rfl
  -- The empty cache is the smaller one, and the calls of this transaction are among all calls.
  have hc : HandsOverData (use.programCalls host (cacheAfter host before ∅)) := by
    intro call hm
    refine h call ?_
    rw [callsAlong_append]
    exact List.mem_append_right _ (List.mem_append_left _ hm)
  obtain ⟨hcalls,hr⟩ := run_within (FiniteMap.within_empty _) hc
  exact ⟨hcalls.symm,hr.symm⟩

/-- Close the program account, with the signer for its recipient and authority, and run the
program. -/
def closeAndRun : Transaction :=
  ⟨[blankSignature],[.ofByte 1,.ofByte 9],default,
    [⟨bpfLoaderUpgradeableProgramId,
      [⟨.ofByte 9,false,true⟩,⟨.ofByte 1,false,true⟩,⟨.ofByte 1,true,false⟩],
      LoaderInstruction.codec.encode .close⟩,runProgram]⟩

/-- A simulation that closes a program before it runs it leaves an empty program in the cache, which
the next transaction runs in place of the one that is stored. -/
theorem simulated_close_cached :
    let host : Host := default
    let bank := Bank.new programStore
    let uses := [simulate bank closeAndRun,
      process bank ⟨[blankSignature],[.ofByte 1,.ofByte 9],default,[runProgram]⟩ 300]
    callsAlong host uses ∅ = [⟨.ofByte 9,[],[]⟩,⟨.ofByte 9,[],[1]⟩] ∧
      ¬∀ uses, HandsOverData (callsAlong host uses ∅) := by
  intro host bank uses
  have hcalls : callsAlong host uses ∅ = [⟨.ofByte 9,[],[]⟩,⟨.ofByte 9,[],[1]⟩] := by decide +kernel
  refine ⟨hcalls,fun h => ?_⟩
  have hlast :=
    h uses ⟨.ofByte 9,[],[1]⟩ (by rw [hcalls]; exact List.mem_cons_of_mem _ List.mem_cons_self)
  exact absurd hlast (by decide)

end ExecutorUse

end TinySolana
