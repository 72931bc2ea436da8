import TinySolana.Scheduler
import TinySolana.Foundations.Exec

/-!
# Account locks

A table of the keys locked for writing and of the number of readers of each key. A guard holds the
keys that one call locked and gives them back when it is dropped. Every call holds the lock on the
table throughout, so calls and drops are atomic.
-/

namespace TinySolana
open Foundations

inductive LockError where
  | accountInUse
  deriving DecidableEq

/-- The lock table; `ReadCount` is a counter that never nears its bound. -/
structure AccountLockState where
  writeLocks : Finset Pubkey
  readLocks : FiniteMap Pubkey ℕ
  deriving DecidableEq

structure LockGuard where
  writeLocks : List Pubkey
  readLocks : List Pubkey
  deriving DecidableEq

namespace AccountLocks

def new : AccountLockState := ⟨∅,∅⟩

/-- The keys that a group names with the given access. -/
def keysToLock (isWritable : Bool) (group : List (ℕ × Transaction)) : BTreeSet Pubkey :=
  .ofList (metaKeys isWritable (group.flatMap fun tx => tx.2.metas))

/-- Increment the reader count of a key. -/
def acquireRead (state : AccountLockState) (key : Pubkey) : AccountLockState :=
  { state with readLocks := state.readLocks.insert key ((state.readLocks.lookup key).getD 0+1) }

def acquireWrite (state : AccountLockState) (key : Pubkey) : AccountLockState :=
  { state with writeLocks := insert key state.writeLocks }

def tryLockAccountsForGroup (group : List (ℕ × Transaction)) :
    Exec AccountLockState LockError LockGuard := do
  let writeKeysToLock := (keysToLock true group).toList
  let readKeysToLock := (keysToLock false group).toList
  let state ← Exec.get
  Exec.failIf (∃ key ∈ writeKeysToLock, key ∈ state.writeLocks ∨ key ∈ state.readLocks)
    .accountInUse
  Exec.failIf (∃ key ∈ readKeysToLock, key ∈ state.writeLocks) .accountInUse
  Exec.modify fun s => writeKeysToLock.foldl acquireWrite s
  Exec.modify fun s => readKeysToLock.foldl acquireRead s
  return ⟨writeKeysToLock,readKeysToLock⟩

/-- Decrement the reader count of a key, which panics at zero, and remove it at zero. -/
def releaseRead {ε : Type} (key : Pubkey) : Exec AccountLockState ε Unit := do
  match (← Exec.get).readLocks.lookup key with
  | none => pure ()
  | some count => do
    Exec.panicIf (count = 0)
    if count-1 = 0 then Exec.modify fun s => { s with readLocks := s.readLocks.erase key }
    else Exec.modify fun s => { s with readLocks := s.readLocks.insert key (count-1) }

def releaseReads {ε : Type} : List Pubkey → Exec AccountLockState ε Unit
  | [] => pure ()
  | key :: rest => do
    releaseRead key
    releaseReads rest

def releaseWrite (state : AccountLockState) (key : Pubkey) : AccountLockState :=
  { state with writeLocks := state.writeLocks.erase key }

end AccountLocks

/-- `LockGuard::drop`. -/
def LockGuard.drop {ε : Type} (guard : LockGuard) : Exec AccountLockState ε Unit :=
  if guard.writeLocks = [] ∧ guard.readLocks = [] then pure ()
  else do
    Exec.modify fun s => guard.writeLocks.foldl AccountLocks.releaseWrite s
    AccountLocks.releaseReads guard.readLocks

end TinySolana
