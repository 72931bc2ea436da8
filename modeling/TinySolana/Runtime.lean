import TinySolana.Transactions
import TinySolana.Foundations.Saturating
import Mathlib.Logic.Function.Basic

/-!
# Runtime

Accounts are shared cells (`Rc<RefCell<Account>>`): a machine maps cell references to accounts, and
an `AccountInfo` carries the reference of its cell, so infos of one list may alias. Programs are
`Exec` code over the machine. A `RefCell` borrow fails only where two borrows overlap; the one place
where they can (the loader's copy of a buffer) tests for it.
-/

namespace TinySolana
open Foundations

/-- What an instruction can change: the account cells, the compute meter of its context and the
cache of loaded programs, which the executor shares between instructions. -/
structure Machine (κ : Type) where
  cells : κ → Account
  computeMeter : UInt64
  programCache : FiniteMap Pubkey (List UInt8)

structure AccountInfo (κ : Type) where
  pubkey : Pubkey
  isSigner : Bool
  isWritable : Bool
  account : κ
  executable : Bool
  rentEpoch : UInt64
  deriving DecidableEq

/-- `InvokeContext`, less its shared meter, the log collector and the call stack. -/
structure InvokeContext where
  programId : Pubkey
  instructionData : List UInt8
  computeBudget : UInt64
  deriving DecidableEq

abbrev Prog (κ : Type) := Exec (Machine κ) ProgramError

/-- `ProgramExecutor::execute`. -/
abbrev ProgramExecutor (κ : Type) := Instruction → InvokeContext → List
    (AccountInfo κ) → Prog κ Unit

/-- The two methods of the rent sysvar that programs call. -/
structure Rent where
  minimumBalance : ℕ → UInt64
  isExempt : UInt64 → ℕ → Bool

/-- Readers of the sysvar accounts: the value at the front of the bytes and what follows it. -/
structure Sysvars where
  rent : List UInt8 → Option (Rent × List UInt8)
  clockSlot : List UInt8 → Option (UInt64 × List UInt8)

namespace Sysvars

/-- Decoding with `bincode::options`, which refuses trailing bytes. -/
def rentExact (v : Sysvars) (data : List UInt8) : Option Rent :=
  match v.rent data with
  | some (rent,[]) => some rent
  | _ => none

/-- Decoding with `bincode::deserialize`, which ignores trailing bytes. -/
def rentPrefix (v : Sysvars) (data : List UInt8) : Option Rent := (v.rent data).map Prod.fst

def clockPrefix (v : Sysvars) (data : List UInt8) : Option UInt64 := (v.clockSlot data).map Prod.fst

end Sysvars

variable {κ : Type}

namespace Machine

variable [DecidableEq κ]

def update (m : Machine κ) (c : κ) (f : Account → Account) : Machine κ :=
  { m with cells := Function.update m.cells c (f (m.cells c)) }

@[simp] theorem update_self (m : Machine κ) (c : κ) (f : Account → Account) :
    (m.update c f).cells c = f (m.cells c) := Function.update_self ..

@[simp] theorem update_of_ne (m : Machine κ) {c d : κ} (h : d ≠ c) (f : Account → Account) :
    (m.update c f).cells d = m.cells d := Function.update_of_ne h ..

theorem update_cells (m : Machine κ) (c d : κ) (f : Account → Account) :
    (m.update c f).cells d = if d = c then f (m.cells d) else m.cells d := by
  by_cases h : d = c
  · subst h
    simp
  · simp [h]

theorem update_update (m : Machine κ) (c : κ) (f g : Account → Account) :
    (m.update c f).update c g = m.update c fun a => g (f a) := by
  simp [update,Function.update_idem]

@[simp] theorem update_computeMeter (m : Machine κ) (c : κ) (f : Account → Account) :
    (m.update c f).computeMeter = m.computeMeter := rfl

@[simp] theorem update_programCache (m : Machine κ) (c : κ) (f : Account → Account) :
    (m.update c f).programCache = m.programCache := rfl

end Machine

namespace AccountInfo

def borrow (info : AccountInfo κ) : Prog κ Account := fun m => (.ok (m.cells info.account),m)

def lamports (info : AccountInfo κ) : Prog κ UInt64 := do return (← info.borrow).lamports

def tryBorrowData (info : AccountInfo κ) : Prog κ (List UInt8) := do return (← info.borrow).data

def owner (info : AccountInfo κ) : Prog κ Pubkey := do return (← info.borrow).owner

@[simp] theorem borrow_run (info : AccountInfo κ) (m : Machine κ) :
    info.borrow m = (.ok (m.cells info.account),m) := rfl

@[simp] theorem lamports_run (info : AccountInfo κ) (m : Machine κ) :
    info.lamports m = (.ok (m.cells info.account).lamports,m) := rfl

@[simp] theorem tryBorrowData_run (info : AccountInfo κ) (m : Machine κ) :
    info.tryBorrowData m = (.ok (m.cells info.account).data,m) := rfl

@[simp] theorem owner_run (info : AccountInfo κ) (m : Machine κ) :
    info.owner m = (.ok (m.cells info.account).owner,m) := rfl

@[simp] theorem borrow_bind {β : Type} (info : AccountInfo κ) (f : Account → Prog κ β)
    (m : Machine κ) :
    (info.borrow >>= f) m = f (m.cells info.account) m := rfl

@[simp] theorem lamports_bind {β : Type} (info : AccountInfo κ) (f : UInt64 → Prog κ β)
    (m : Machine κ) :
    (info.lamports >>= f) m = f (m.cells info.account).lamports m := rfl

@[simp] theorem tryBorrowData_bind {β : Type} (info : AccountInfo κ) (f : List UInt8 → Prog κ β)
    (m : Machine κ) : (info.tryBorrowData >>= f) m = f (m.cells info.account).data m := rfl

@[simp] theorem owner_bind {β : Type} (info : AccountInfo κ) (f : Pubkey → Prog κ β)
    (m : Machine κ) :
    (info.owner >>= f) m = f (m.cells info.account).owner m := rfl

variable [DecidableEq κ]

def borrowMut (info : AccountInfo κ) (f : Account → Account) : Prog κ Unit :=
  Exec.modify fun m => m.update info.account f

def setLamports (info : AccountInfo κ) (lamports : UInt64) : Prog κ Unit :=
  info.borrowMut fun a => { a with lamports }

def setOwner (info : AccountInfo κ) (owner : Pubkey) : Prog κ Unit :=
  info.borrowMut fun a => { a with owner }

/-- Assignment through `try_borrow_mut_data`. -/
def setData (info : AccountInfo κ) (data : List UInt8) : Prog κ Unit :=
  info.borrowMut fun a => { a with data }

@[simp] theorem borrowMut_run (info : AccountInfo κ) (f : Account → Account) (m : Machine κ) :
    info.borrowMut f m = (.ok (),m.update info.account f) := rfl

@[simp] theorem setLamports_run (info : AccountInfo κ) (l : UInt64) (m : Machine κ) :
    info.setLamports l m = (.ok (),m.update info.account fun a => { a with lamports := l }) := rfl

@[simp] theorem setOwner_run (info : AccountInfo κ) (o : Pubkey) (m : Machine κ) :
    info.setOwner o m = (.ok (),m.update info.account fun a => { a with owner := o }) := rfl

@[simp] theorem setData_run (info : AccountInfo κ) (d : List UInt8) (m : Machine κ) :
    info.setData d m = (.ok (),m.update info.account fun a => { a with data := d }) := rfl

@[simp] theorem borrowMut_bind {β : Type} (info : AccountInfo κ) (f : Account → Account)
    (g : Unit → Prog κ β) (m : Machine κ) :
    (info.borrowMut f >>= g) m = g () (m.update info.account f) := rfl

@[simp] theorem setLamports_bind {β : Type} (info : AccountInfo κ) (l : UInt64)
    (g : Unit → Prog κ β) (m : Machine κ) : (info.setLamports l >>= g) m =
      g () (m.update info.account fun a => { a with lamports := l }) := rfl

@[simp] theorem setOwner_bind {β : Type} (info : AccountInfo κ) (o : Pubkey) (g : Unit → Prog κ β)
    (m : Machine κ) : (info.setOwner o >>= g) m =
      g () (m.update info.account fun a => { a with owner := o }) := rfl

@[simp] theorem setData_bind {β : Type} (info : AccountInfo κ) (d : List UInt8)
    (g : Unit → Prog κ β) (m : Machine κ) : (info.setData d >>= g) m =
      g () (m.update info.account fun a => { a with data := d }) := rfl

/-- Write a packed record over the front of the data; slicing panics on shorter data. -/
def packIntoData (info : AccountInfo κ) (packed : List UInt8) : Prog κ Unit := do
  let data ← info.tryBorrowData
  Exec.panicIf (data.length < packed.length)
  info.setData (packed ++ data.drop packed.length)

end AccountInfo

/-- `InvokeContext::invoke`. The callee is run in the caller's context: the executor gets the new
instruction, and the context it hands on to the entrypoint is unchanged. -/
def InvokeContext.invoke (exec : ProgramExecutor κ) (ctx : InvokeContext)
    (instruction : Instruction) (accounts : List (AccountInfo κ)) : Prog κ Unit :=
  exec instruction ctx accounts

end TinySolana
