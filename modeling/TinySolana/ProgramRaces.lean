import Mathlib.Data.Multiset.Filter
import TinySolana.Foundations.SharedTable
import TinySolana.ProgramCalls

/-!
# Programs that are called at once

Simulations run their programs through the executor that the groups use.
`RbpfProgramExecutor::execute` tests the cache, fills it and reads it in three operations, and other
calls may come in between. So a call may run bytecode that another one has loaded. But what is
cached is loaded by no call that begins later: a program keeps its bytecode once the calls are
through that had found it missing.
-/

namespace TinySolana
open Foundations

/-- A call of the executor. Its accounts and its meter are its own, the cache of its machine is not
used. -/
structure RbpfCall where
  cells : ℕ
  instruction : Instruction
  ctx : InvokeContext
  accounts : List (AccountInfo (Fin cells))
  machine : Machine (Fin cells)

namespace RbpfCall

def programId (call : RbpfCall) : Pubkey := call.instruction.programId

/-- The bytecode in the account of the program. -/
def readBytecode (call : RbpfCall) : Except ProgramError (List UInt8) :=
  match call.accounts.find? fun a => a.pubkey = call.programId with
  | none => .error (.internalError "program account not found in accounts list")
  | some programAccountInfo =>
    if programAccountInfo.executable then .ok (call.machine.cells programAccountInfo.account).data
    else .error .accountNotExecutable

/-- How the call ends with what it has read from the cache, which it unwraps. -/
def runCached (vm : Vm) (call : RbpfCall) : Option (List UInt8) → Outcome ProgramError Unit
  | some bytecode =>
    (RbpfProgramExecutor.runBytecode vm bytecode call.instruction call.ctx call.accounts
      call.machine).1
  | none => .panic

/-- Where a call stands between its operations on the cache. -/
inductive Stage where
  | begun
  /-- It has not found its program, and has read this bytecode. -/
  | loaded (bytecode : List UInt8)
  | cached

end RbpfCall

/-- The cache and the calls that are under way. -/
structure RbpfExecutor where
  programCache : ProgramCache
  calls : Multiset (RbpfCall × RbpfCall.Stage)

namespace RbpfExecutor

inductive Event where
  | begin (call : RbpfCall)
  | hit (call : RbpfCall)
  | load (call : RbpfCall) (bytecode : List UInt8)
  | fail (call : RbpfCall) (e : ProgramError)
  | insert (call : RbpfCall) (bytecode : List UInt8)
  /-- It has read the cache, and runs what it has read. -/
  | run (call : RbpfCall) (cached : Option (List UInt8))

def start : RbpfExecutor := ⟨∅,0⟩

/-- One operation of one call. -/
inductive Step : RbpfExecutor → Event → RbpfExecutor → Prop where
  | begin {s : RbpfExecutor} {call : RbpfCall} :
      Step s (.begin call) { s with calls := (call,.begun) ::ₘ s.calls }
  | hit {s : RbpfExecutor} {call : RbpfCall} {rest : Multiset (RbpfCall × RbpfCall.Stage)} :
      s.calls = (call,.begun) ::ₘ rest → s.programCache.lookup call.programId ≠ none →
      Step s (.hit call) { s with calls := (call,.cached) ::ₘ rest }
  | load {s : RbpfExecutor} {call : RbpfCall} {rest : Multiset (RbpfCall × RbpfCall.Stage)}
      {bytecode : List UInt8} :
      s.calls = (call,.begun) ::ₘ rest → s.programCache.lookup call.programId = none →
      call.readBytecode = .ok bytecode →
      Step s (.load call bytecode) { s with calls := (call,.loaded bytecode) ::ₘ rest }
  | fail {s : RbpfExecutor} {call : RbpfCall} {rest : Multiset (RbpfCall × RbpfCall.Stage)}
      {e : ProgramError} :
      s.calls = (call,.begun) ::ₘ rest → s.programCache.lookup call.programId = none →
      call.readBytecode = .error e → Step s (.fail call e) { s with calls := rest }
  | insert {s : RbpfExecutor} {call : RbpfCall} {rest : Multiset (RbpfCall × RbpfCall.Stage)}
      {bytecode : List UInt8} : s.calls = (call,.loaded bytecode) ::ₘ rest →
      Step s (.insert call bytecode)
        ⟨s.programCache.insert call.programId bytecode,(call,.cached) ::ₘ rest⟩
  | run {s : RbpfExecutor} {call : RbpfCall} {rest : Multiset (RbpfCall × RbpfCall.Stage)} :
      s.calls = (call,.cached) ::ₘ rest →
      Step s (.run call (s.programCache.lookup call.programId)) { s with calls := rest }

/-- Some call for the program has not found it and is about to insert this bytecode. -/
def UnderWay (s : RbpfExecutor) (programId : Pubkey) (bytecode : List UInt8) : Prop :=
  ∃ call, call.programId = programId ∧ (call,.loaded bytecode) ∈ s.calls

/-- How an operation ends its call. -/
def Event.outcome (vm : Vm) : Event → Option (Outcome ProgramError Unit)
  | fail _ e => some (.err e)
  | run call cached => some (call.runCached vm cached)
  | _ => none

variable {s t : RbpfExecutor} {ls : List Event}

/-! ## Calls on their own -/

/-- What loading a program comes to. -/
theorem load_run (call : RbpfCall) (programCache : ProgramCache) :
    RbpfProgramExecutor.load call.programId call.accounts { call.machine with programCache } =
      if programCache.lookup call.programId = none then match call.readBytecode with
        | .ok bytecode => (.ok (),{ call.machine with
            programCache := programCache.insert call.programId bytecode })
        | .error e => (.err e,{ call.machine with programCache })
      else (.ok (),{ call.machine with programCache }) := by
  rw [RbpfProgramExecutor.load,Exec.get_bind,RbpfCall.readBytecode]
  split
  · cases call.accounts.find? fun a => a.pubkey = call.programId with
    | none => rfl
    | some info =>
      cases he : info.executable with
      | false => simp [he]
      | true => simp [he,AccountInfo.tryBorrowData_bind]
  · rfl

/-- Behind the load the bytecode in the cache is run. -/
theorem execute_cached (vm : Vm) (call : RbpfCall) {programCache programCache' : ProgramCache}
    {code : List UInt8} (hcode : programCache'.lookup call.programId = some code)
    (hl : RbpfProgramExecutor.load call.programId call.accounts { call.machine with programCache } =
      (.ok (),{ call.machine with programCache := programCache' })) :
    RbpfProgramExecutor.execute vm call.instruction call.ctx call.accounts
        { call.machine with programCache } =
      (call.runCached vm (some code),{ call.machine with programCache := programCache' }) := by
  have hrun : RbpfProgramExecutor.execute vm call.instruction call.ctx call.accounts
      { call.machine with programCache } = RbpfProgramExecutor.runBytecode vm
        ((programCache'.lookup call.programId).getD []) call.instruction call.ctx call.accounts
        { call.machine with programCache := programCache' } := by
    rw [RbpfProgramExecutor.execute]
    exact (Exec.bind_of_ok hl).trans (Exec.get_bind _ _)
  rw [hrun,hcode]
  exact Prod.ext (RbpfProgramExecutor.runBytecode_same vm code ⟨rfl,rfl⟩)
    RbpfProgramExecutor.runBytecode_unchanged

/-- A call that nobody comes in between of does what the executor does by itself. -/
theorem alone_run (vm : Vm) (s : RbpfExecutor) (call : RbpfCall) :
    let alone := RbpfProgramExecutor.execute vm call.instruction call.ctx call.accounts
      { call.machine with programCache := s.programCache }
    ∃ ls l, Run Step s (ls ++ [l]) { s with programCache := alone.2.programCache } ∧
      l.outcome vm = some alone.1 := by
  obtain ⟨programCache,calls⟩ := s
  have hload := load_run call programCache
  have hbegin :
    Run Step ⟨programCache,calls⟩ [.begin call] ⟨programCache,(call,.begun) ::ₘ calls⟩ :=
    .single .begin
  cases hcode : programCache.lookup call.programId with
  | some code =>
    -- The program is cached, and the call reads it.
    rw [if_neg (by simp [hcode])] at hload
    have hhit : Step ⟨programCache,(call,.begun) ::ₘ calls⟩ (.hit call)
        ⟨programCache,(call,.cached) ::ₘ calls⟩ := .hit rfl (by simp [hcode])
    have hrun : Step ⟨programCache,(call,.cached) ::ₘ calls⟩ (.run call (some code))
        ⟨programCache,calls⟩ := hcode ▸ Step.run rfl
    dsimp only
    rw [execute_cached vm call hcode hload]
    exact ⟨_,_,(hbegin.snoc hhit).snoc hrun,rfl⟩
  | none =>
    rw [if_pos hcode] at hload
    cases hb : call.readBytecode with
    | error e =>
      -- Its account cannot be read, and the cache is left.
      rw [hb] at hload
      have hfail : Step ⟨programCache,(call,.begun) ::ₘ calls⟩ (.fail call e)
        ⟨programCache,calls⟩ :=
        .fail rfl hcode hb
      have hexecute : RbpfProgramExecutor.execute vm call.instruction call.ctx call.accounts
          { call.machine with programCache } = (.err e,{ call.machine with programCache }) := by
        have hl : RbpfProgramExecutor.load call.instruction.programId call.accounts
            { call.machine with programCache } =
            (.err e,{ call.machine with programCache }) := hload
        rw [RbpfProgramExecutor.execute,Exec.bind_run,hl]
      dsimp only
      rw [hexecute]
      exact ⟨_,_,hbegin.snoc hfail,rfl⟩
    | ok code =>
      -- The call inserts what it has read from the account, and reads it back.
      rw [hb] at hload
      have hload' : Step ⟨programCache,(call,.begun) ::ₘ calls⟩ (.load call code)
          ⟨programCache,(call,.loaded code) ::ₘ calls⟩ := .load rfl hcode hb
      have hinsert : Step ⟨programCache,(call,.loaded code) ::ₘ calls⟩ (.insert call code)
          ⟨programCache.insert call.programId code,(call,.cached) ::ₘ calls⟩ := .insert rfl
      have hcached : (programCache.insert call.programId code).lookup call.programId = some code :=
        Finmap.lookup_insert _
      have hrun : Step ⟨programCache.insert call.programId code,(call,.cached) ::ₘ calls⟩
          (.run call (some code)) ⟨programCache.insert call.programId code,calls⟩ :=
        hcached ▸ Step.run rfl
      dsimp only
      rw [execute_cached vm call hcached hload]
      exact ⟨_,_,((hbegin.snoc hload').snoc hinsert).snoc hrun,rfl⟩

/-! ## The cache as a shared table -/

/-- What a call that has loaded its program is about to insert. -/
def inserting : RbpfCall × RbpfCall.Stage → Option (Pubkey × List UInt8)
  | (call,.loaded bytecode) => some (call.programId,bytecode)
  | _ => none

def reading : RbpfCall × RbpfCall.Stage → Option Pubkey
  | (call,.cached) => some call.programId
  | _ => none

def shared (s : RbpfExecutor) : SharedTable Pubkey (List UInt8) :=
  ⟨s.programCache,s.calls.filterMap inserting,s.calls.filterMap reading⟩

/-- The operation on the table, if there is one. -/
def Event.shared : Event → Option (SharedTable.Event Pubkey (List UInt8))
  | hit call => some (.hit call.programId)
  | load call bytecode => some (.miss call.programId bytecode)
  | insert call bytecode => some (.insert call.programId bytecode)
  | run call cached => some (.read call.programId cached)
  | _ => none

theorem mem_computed {k : Pubkey} {code : List UInt8} :
    (k,code) ∈ s.shared.computed ↔ s.UnderWay k code := by
  unfold shared
  rw [Multiset.mem_filterMap]
  constructor
  · rintro ⟨⟨call,stage⟩,hmem,h⟩
    cases stage with
    | loaded bytecode =>
      cases h
      exact ⟨call,rfl,hmem⟩
    | _ => cases h
  · rintro ⟨call,rfl,hmem⟩
    exact ⟨_,hmem,rfl⟩

section shared

variable (programCache : ProgramCache) (call : RbpfCall)
  (rest : Multiset (RbpfCall × RbpfCall.Stage))

@[simp] theorem shared_begun :
    shared ⟨programCache,(call,.begun) ::ₘ rest⟩ = shared ⟨programCache,rest⟩ := by
  simp only [shared]
  rw [Multiset.filterMap_cons_none _ _ rfl,Multiset.filterMap_cons_none _ _ rfl]

@[simp] theorem shared_loaded (bytecode : List UInt8) :
    shared ⟨programCache,(call,.loaded bytecode) ::ₘ rest⟩ = { shared ⟨programCache,rest⟩ with
      computed := (call.programId,bytecode) ::ₘ (shared ⟨programCache,rest⟩).computed } := by
  simp only [shared]
  rw [Multiset.filterMap_cons_some inserting _ _ rfl,Multiset.filterMap_cons_none _ _ rfl]

@[simp] theorem shared_cached :
    shared ⟨programCache,(call,.cached) ::ₘ rest⟩ = { shared ⟨programCache,rest⟩ with
      reading := call.programId ::ₘ (shared ⟨programCache,rest⟩).reading } := by
  simp only [shared]
  rw [Multiset.filterMap_cons_none _ _ rfl,Multiset.filterMap_cons_some reading _ _ rfl]

end shared

/-- An operation of a call is one on the table, or the table does not see it. -/
theorem shared_step {l : Event} (hl : Step s l t) :
    match l.shared with
    | some e => SharedTable.Step s.shared e t.shared
    | none => t.shared = s.shared := by
  obtain ⟨programCache,calls⟩ := s
  cases hl with
  | begin => exact shared_begun _ _ _
  | hit hs hc =>
    obtain rfl := hs
    rw [shared_begun,shared_cached]
    exact SharedTable.Step.hit hc
  | load hs hc hb =>
    obtain rfl := hs
    rw [shared_begun,shared_loaded]
    exact SharedTable.Step.miss hc
  | fail hs hc hb =>
    obtain rfl := hs
    exact (shared_begun _ _ _).symm
  | insert hs =>
    obtain rfl := hs
    rw [shared_loaded,shared_cached]
    exact SharedTable.Step.insert rfl
  | run hs =>
    obtain rfl := hs
    rw [shared_cached]
    exact SharedTable.Step.read rfl

/-- The operations of the calls are those of requests to a shared table. -/
theorem shared_run (hr : Run Step s ls t) :
    Run SharedTable.Step s.shared (ls.filterMap Event.shared) t.shared := by
  induction hr with
  | nil => exact .nil
  | @snoc t u ls l before last ih =>
    have hstep := shared_step last
    rw [List.filterMap_append]
    cases hl : l.shared with
    | none =>
      rw [hl] at hstep
      rw [List.filterMap_cons_none hl,List.filterMap_nil,List.append_nil,hstep]
      exact ih
    | some e =>
      rw [hl] at hstep
      rw [List.filterMap_cons_some hl]
      exact ih.snoc hstep

theorem mem_shared_run {call : RbpfCall} {cached : Option (List UInt8)}
    (h : .run call cached ∈ ls) :
    .read call.programId cached ∈ ls.filterMap Event.shared := List.mem_filterMap.mpr ⟨_,h,rfl⟩

theorem mem_shared_load {k : Pubkey} {code : List UInt8}
    (h : .miss k code ∈ ls.filterMap Event.shared) :
    ∃ call, call.programId = k ∧ .load call code ∈ ls := by
  obtain ⟨l,hl,he⟩ := List.mem_filterMap.mp h
  cases l with
  | load call bytecode =>
    cases he
    exact ⟨call,rfl,hl⟩
  | begin call => cases he
  | hit call => cases he
  | fail call e => cases he
  | insert call bytecode => cases he
  | run call cached => cases he

/-- However calls interleave, each is handed bytecode that a call has read from the account of the
program. What is cached of a program can only become what was under way to the cache already. -/
theorem cached_code_settles {ls' : List Event} (hr : Run Step start ls s) (hr' : Run Step s ls' t) :
    (∀ call cached, .run call cached ∈ ls → ∃ loader code, cached = some code ∧
      loader.programId = call.programId ∧ .load loader code ∈ ls) ∧
    ∀ k code, s.programCache.lookup k = some code →
      (∃ code', t.programCache.lookup k = some code' ∧ (code' = code ∨ s.UnderWay k code')) ∧
        ∀ call cached, .run call cached ∈ ls' → call.programId = k →
          ∃ code', cached = some code' ∧ (code' = code ∨ s.UnderWay k code') := by
  refine ⟨fun call cached h => ?_,fun k code hk => ⟨?_,fun call cached h hid => ?_⟩⟩
  · obtain ⟨code,hcode,hmiss⟩ := SharedTable.read_traced (shared_run hr) (mem_shared_run h)
    obtain ⟨loader,hid,hload⟩ := mem_shared_load hmiss
    exact ⟨loader,code,hcode,hid,hload⟩
  · obtain ⟨code',hcode',hold⟩ := (SharedTable.since_run (shared_run hr') hk).value
    exact ⟨code',hcode',hold.imp_right mem_computed.mp⟩
  · subst hid
    obtain ⟨code',hcode',hold⟩ := SharedTable.read_since (shared_run hr') hk (mem_shared_run h)
    exact ⟨code',hcode',hold.imp_right mem_computed.mp⟩

/-! ### Two calls of one program -/

/-- A call whose account holds this bytecode. -/
def callHolding (bytecode : List UInt8) : RbpfCall where
  cells := 1
  instruction := ⟨.ofByte 9,[],[]⟩
  ctx := ⟨.ofByte 9,[],300⟩
  accounts := [⟨.ofByte 9,false,false,0,true,0⟩]
  machine := ⟨fun _ => ⟨.ofByte 9,0,bytecode,bpfLoaderUpgradeableProgramId,true,0⟩,0,∅⟩

/-- Both calls have missed the program, and the first one has inserted what it has loaded. -/
def racing : RbpfExecutor where
  programCache := (∅ : ProgramCache).insert (Pubkey.ofByte 9) [1]
  calls := (callHolding [1],.cached) ::ₘ (callHolding [2],.loaded [2]) ::ₘ 0

def raced : RbpfExecutor where
  programCache := ((∅ : ProgramCache).insert (Pubkey.ofByte 9) [1]).insert (Pubkey.ofByte 9) [2]
  calls := (callHolding [2],.cached) ::ₘ 0

theorem racing_run : Run Step start [.begin (callHolding [2]),.load (callHolding [2]) [2],
    .begin (callHolding [1]),.load (callHolding [1]) [1],.insert (callHolding [1]) [1]] racing := by
  have hbegin : Step start (.begin (callHolding [2])) ⟨∅,(callHolding [2],.begun) ::ₘ 0⟩ := .begin
  have hload : Step ⟨∅,(callHolding [2],.begun) ::ₘ 0⟩ (.load (callHolding [2]) [2])
      ⟨∅,(callHolding [2],.loaded [2]) ::ₘ 0⟩ := .load rfl rfl rfl
  have hbegin' : Step ⟨∅,(callHolding [2],.loaded [2]) ::ₘ 0⟩ (.begin (callHolding [1]))
      ⟨∅,(callHolding [1],.begun) ::ₘ (callHolding [2],.loaded [2]) ::ₘ 0⟩ := .begin
  have hload' : Step ⟨∅,(callHolding [1],.begun) ::ₘ (callHolding [2],.loaded [2]) ::ₘ 0⟩
      (.load (callHolding [1]) [1])
      ⟨∅,(callHolding [1],.loaded [1]) ::ₘ (callHolding [2],.loaded [2]) ::ₘ 0⟩ := .load rfl rfl rfl
  have hinsert : Step ⟨∅,(callHolding [1],.loaded [1]) ::ₘ (callHolding [2],.loaded [2]) ::ₘ 0⟩
      (.insert (callHolding [1]) [1]) racing := .insert rfl
  exact ((((Run.single hbegin).snoc hload).snoc hbegin').snoc hload').snoc hinsert

/-- The second call inserts what it has loaded, and the first one is handed it. -/
theorem raced_run :
    Run Step racing [.insert (callHolding [2]) [2],.run (callHolding [1]) (some [2])] raced := by
  have hinsert : Step racing (.insert (callHolding [2]) [2])
      ⟨raced.programCache,(callHolding [2],.cached) ::ₘ (callHolding [1],.cached) ::ₘ 0⟩ :=
    .insert (Multiset.cons_swap (callHolding [1],RbpfCall.Stage.cached)
      (callHolding [2],.loaded [2]) 0)
  have hrun :
    Step ⟨raced.programCache,(callHolding [2],.cached) ::ₘ (callHolding [1],.cached) ::ₘ 0⟩
      (.run (callHolding [1]) (raced.programCache.lookup (.ofByte 9))) raced :=
    .run (Multiset.cons_swap (callHolding [2],RbpfCall.Stage.cached) (callHolding [1],.cached) 0)
  have hcached : raced.programCache.lookup (.ofByte 9) = some [2] := Finmap.lookup_insert _
  exact (Run.single hinsert).snoc (hcached ▸ hrun)

theorem racing_code_settles : racing.programCache.lookup (.ofByte 9) = some [1] ∧
    raced.programCache.lookup (.ofByte 9) = some [2] ∧
      (∃ code', raced.programCache.lookup (.ofByte 9) = some code' ∧
        (code' = [1] ∨ racing.UnderWay (.ofByte 9) code')) ∧
        ∀ call cached, .run call cached ∈
            [Event.insert (callHolding [2]) [2],.run (callHolding [1]) (some [2])] →
          call.programId = .ofByte 9 →
            ∃ code', cached = some code' ∧ (code' = [1] ∨ racing.UnderWay (.ofByte 9) code') :=
  ⟨Finmap.lookup_insert _,Finmap.lookup_insert _,
    (cached_code_settles racing_run raced_run).2 (.ofByte 9) [1] (Finmap.lookup_insert _)⟩

end RbpfExecutor

end TinySolana
