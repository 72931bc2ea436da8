import TinySolana.Executor
import TinySolana.Foundations.Failures
import TinySolana.Foundations.Simulation

/-!
# Native programs only read and assign cells

However a native instruction ends, it gets from one machine to the other by assignments to account
cells, and it has looked at nothing but cells. A relation that holds across assignments holds across
its runs, and from machines with the same cells it does the same. Where it fails, the error is one
of programs: the rules that a bank checks in front of a transaction have other ones.
-/

namespace TinySolana
open Foundations Exec

variable {κ α : Type} [DecidableEq κ]

/-- Code made of reads of cells and assignments to cells. -/
inductive CellCode : {α : Type} → Prog κ α → Prop where
  | pure {α : Type} (a : α) : CellCode (Pure.pure a)
  | throw {α : Type} (e : ProgramError) : CellCode (Exec.throw e : Prog κ α)
  | abort {α : Type} : CellCode (Exec.abort : Prog κ α)
  | borrow (info : AccountInfo κ) : CellCode info.borrow
  | borrowMut (info : AccountInfo κ) (F : Account → Account) : CellCode (info.borrowMut F)
  | bind {α β : Type} {x : Prog κ α} {f : α → Prog κ β} (hx : CellCode x)
      (hf : ∀ a, CellCode (f a)) :
      CellCode (x >>= f)

/-- The relation holds across every assignment to a cell. -/
def AcrossUpdates (R : Machine κ → Machine κ → Prop) : Prop := ∀ m c F, R m (m.update c F)

/-- Related machines have the same cells, and assigning to a cell of both keeps them related. -/
structure AlongUpdates (S : Machine κ → Machine κ → Prop) : Prop where
  cells : ∀ m n, S m n → m.cells = n.cells
  update : ∀ m n c F, S m n → S (m.update c F) (n.update c F)

namespace CellCode

theorem failIf (c : Prop) [Decidable c] (e : ProgramError) :
    CellCode (Exec.failIf c e : Prog κ Unit) := by
  unfold Exec.failIf
  split
  · exact .throw e
  · exact .pure ()

theorem panicIf (c : Prop) [Decidable c] : CellCode (Exec.panicIf c : Prog κ Unit) := by
  unfold Exec.panicIf
  split
  · exact .abort
  · exact .pure ()

theorem orFail (e : ProgramError) (o : Option α) : CellCode (Exec.orFail e o : Prog κ α) := by
  cases o with
  | none => exact .throw e
  | some a => exact .pure a

/-- The frame rule of such code. -/
theorem keeps {R : Machine κ → Machine κ → Prop} [Std.Refl R] [IsTrans _ R] (hR : AcrossUpdates R)
    {x : Prog κ α} (h : CellCode x) : Keeps R x := by
  induction h with
  | pure a => exact .pure a
  | throw e => exact .throw e
  | abort => exact .abort
  | borrow info => exact fun m => Std.Refl.refl m
  | borrowMut info F => exact fun m => hR m info.account F
  | bind hx hf ihx ihf => exact .bind ihx ihf

/-- Such code does the same on related machines. -/
theorem simulates {S : Machine κ → Machine κ → Prop} (hS : AlongUpdates S) {x : Prog κ α}
    (h : CellCode x) : Simulates S id x x := by
  induction h with
  | pure a => exact .pure id a
  | throw e => exact fun m n hs => ⟨rfl,hs⟩
  | abort => exact .abort
  | borrow info =>
    intro m n hs
    refine ⟨?_,hs⟩
    rw [AccountInfo.borrow_run,AccountInfo.borrow_run,hS.cells m n hs]
    rfl
  | borrowMut info F => exact fun m n hs => ⟨rfl,hS.update m n info.account F hs⟩
  | bind hx hf ihx ihf => exact .bind ihx ihf

end CellCode

/-! ## Errors of programs -/

/-- Any program error but the one that the rules of a bank use. -/
def ProgramError.OfProgram (e : ProgramError) : Prop := e ≠ .internalError "bank is frozen"

instance : DecidablePred ProgramError.OfProgram := fun _ => inferInstanceAs (Decidable (_ ≠ _))

/-- A text that begins otherwise is another one, whatever follows. -/
theorem ProgramError.ofProgram_append {message : String} {c : Char} {cs : List Char}
    (hm : message.toList = c :: cs) (hc : c ≠ 'b') (e : String) :
    (internalError (message ++ e)).OfProgram := by
  intro h
  have hl := congrArg String.toList (ProgramError.internalError.inj h)
  rw [String.toList_append,hm] at hl
  exact hc (List.cons.inj hl).1

/-- Code of cells that only fails with errors of programs. -/
structure ProgramCode (x : Prog κ α) : Prop where
  code : CellCode x
  fails : FailsIn ProgramError.OfProgram x

namespace ProgramCode

theorem pure (a : α) : ProgramCode (Pure.pure a : Prog κ α) := ⟨.pure a,.pure a⟩

theorem throw {e : ProgramError} (h : e.OfProgram) : ProgramCode (Exec.throw e : Prog κ α) :=
  ⟨.throw e,.throw h⟩

theorem borrow (info : AccountInfo κ) : ProgramCode info.borrow :=
  ⟨.borrow info,fun m e h => by cases h⟩

theorem borrowMut (info : AccountInfo κ) (F : Account → Account) : ProgramCode (info.borrowMut F) :=
  ⟨.borrowMut info F,(NeverFails.modify _).failsIn⟩

theorem bind {β : Type} {x : Prog κ α} {f : α → Prog κ β} (hx : ProgramCode x)
    (hf : ∀ a, ProgramCode (f a)) : ProgramCode (x >>= f) :=
  ⟨.bind hx.code fun a => (hf a).code,.bind hx.fails fun a => (hf a).fails⟩

theorem failIf (c : Prop) [Decidable c] {e : ProgramError} (h : e.OfProgram) :
    ProgramCode (Exec.failIf c e : Prog κ Unit) := ⟨.failIf c e,.failIf c h⟩

theorem panicIf (c : Prop) [Decidable c] : ProgramCode (Exec.panicIf c : Prog κ Unit) :=
  ⟨.panicIf c,.panicIf c⟩

theorem orFail {e : ProgramError} (h : e.OfProgram) (o : Option α) :
    ProgramCode (Exec.orFail e o : Prog κ α) := ⟨.orFail e o,.orFail h o⟩

end ProgramCode

/-! ## Reading and packing accounts -/

theorem AccountInfo.lamports_code (info : AccountInfo κ) : ProgramCode info.lamports :=
  .bind (.borrow info) fun _ => .pure _

theorem AccountInfo.tryBorrowData_code (info : AccountInfo κ) : ProgramCode info.tryBorrowData :=
  .bind (.borrow info) fun _ => .pure _

namespace TokenProgram

theorem unpackMint_code (info : AccountInfo κ) : ProgramCode (unpackMint info) :=
  .bind info.tryBorrowData_code fun _ => .orFail (by decide) _

theorem unpackTokenAccount_code (info : AccountInfo κ) : ProgramCode (unpackTokenAccount info) :=
  .bind info.tryBorrowData_code fun _ => .orFail (by decide) _

theorem readRent_code (sysvars : Sysvars) (info : AccountInfo κ) :
    ProgramCode (readRent sysvars info) :=
  .bind info.tryBorrowData_code fun _ => .orFail (by decide) _

end TokenProgram

namespace BpfLoaderProgram

theorem readState_code (info : AccountInfo κ) : ProgramCode (readState info) :=
  .bind info.tryBorrowData_code fun _ => .orFail (by decide) _

theorem bufferDataLen_code (maxDataLen : UInt64) (info : AccountInfo κ) :
    ProgramCode (bufferDataLen maxDataLen info) :=
  .bind info.tryBorrowData_code fun _ => .bind (.failIf _ (by decide)) fun _ =>
    .bind (.failIf _ (by decide)) fun _ => .pure _

end BpfLoaderProgram

theorem AccountInfo.packIntoData_code (info : AccountInfo κ) (packed : List UInt8) :
    ProgramCode (info.packIntoData packed) :=
  .bind info.tryBorrowData_code fun _ => .bind (.panicIf _) fun _ => .borrowMut info _

theorem SystemProgram.run_code (accounts : List (AccountInfo κ)) (i : SystemInstruction) :
    ProgramCode (run accounts i) := by
  cases i with
  | transfer lamports =>
    match accounts with
    | [] | [_] => exact .throw (by decide)
    | fromInfo :: toInfo :: rest =>
      exact .bind (.failIf _ (by decide)) fun _ => .bind fromInfo.lamports_code fun _ =>
        .bind (.failIf _ (by decide)) fun _ => .bind fromInfo.lamports_code fun _ =>
        .bind (.borrowMut fromInfo _) fun _ => .bind toInfo.lamports_code fun _ =>
        .borrowMut toInfo _
  | assign owner =>
    match accounts with
    | [] => exact .throw (by decide)
    | target :: rest => exact .bind (.failIf _ (by decide)) fun _ => .borrowMut target _
  | createAccount lamports space owner =>
    match accounts with
    | [] | [_] => exact .throw (by decide)
    | fromInfo :: toInfo :: rest =>
      exact .bind (.failIf _ (by decide)) fun _ => .bind fromInfo.lamports_code fun _ =>
        .bind (.failIf _ (by decide)) fun _ => .bind fromInfo.lamports_code fun _ =>
        .bind (.borrowMut fromInfo _) fun _ => .bind toInfo.lamports_code fun _ =>
        .bind (.borrowMut toInfo _) fun _ => .bind (.panicIf _) fun _ =>
        .bind (.borrowMut toInfo _) fun _ => .borrowMut toInfo _

theorem SystemProgram.entrypoint_code (ctx : InvokeContext) (accounts : List (AccountInfo κ)) :
    ProgramCode (entrypoint ctx accounts) :=
  .bind (.orFail (by decide) _) fun i => run_code accounts i

namespace TokenProgram

theorem run_code (sysvars : Sysvars) {exec : ProgramExecutor κ}
    (hx : ∀ ix ctx accounts, ix.programId = systemProgramId → ProgramCode (exec ix ctx accounts))
    (ctx : InvokeContext) (accounts : List (AccountInfo κ)) (i : TokenInstruction) :
    ProgramCode (run sysvars exec ctx accounts i) := by
  cases i with
  | mint amount =>
    match accounts with
    | [] | [_] | [_,_] => exact .throw (by decide)
    | authority :: mintInfo :: destination :: rest =>
      exact .bind (.failIf _ (by decide)) fun _ => .bind (unpackMint_code _) fun _ =>
        .bind (.failIf _ (by decide)) fun _ => .bind (unpackTokenAccount_code _) fun _ =>
        .bind (.failIf _ (by decide)) fun _ =>
        .bind (mintInfo.packIntoData_code _) fun _ => destination.packIntoData_code _
  | transfer amount =>
    match accounts with
    | [] | [_] | [_,_] => exact .throw (by decide)
    | owner :: source :: destination :: rest =>
      exact .bind (.failIf _ (by decide)) fun _ => .bind (unpackTokenAccount_code _) fun _ =>
        .bind (.failIf _ (by decide)) fun _ => .bind (unpackTokenAccount_code _) fun _ =>
        .bind (.failIf _ (by decide)) fun _ => .bind (.failIf _ (by decide)) fun _ =>
        .bind (source.packIntoData_code _) fun _ => destination.packIntoData_code _
  | setAuthority newAuthority =>
    match accounts with
    | [] | [_] => exact .throw (by decide)
    | target :: current :: rest => exact .bind (.failIf _ (by decide)) fun _ => hx _ _ _ rfl
  | initializeMint decimals mintAuthority =>
    match accounts with
    | [] | [_] => exact .throw (by decide)
    | mintInfo :: rentInfo :: rest =>
      exact .bind (readRent_code _ _) fun _ => .bind (unpackMint_code _) fun _ =>
        .bind (.failIf _ (by decide)) fun _ => .bind mintInfo.lamports_code fun _ =>
        .bind mintInfo.tryBorrowData_code fun _ => .bind (.failIf _ (by decide)) fun _ =>
        mintInfo.packIntoData_code _
  | initializeAccount =>
    match accounts with
    | [] | [_] | [_,_] | [_,_,_] => exact .throw (by decide)
    | accountInfo :: mintInfo :: ownerInfo :: rentInfo :: rest =>
      exact .bind (readRent_code _ _) fun _ => .bind (unpackTokenAccount_code _) fun _ =>
        .bind (.failIf _ (by decide)) fun _ => .bind accountInfo.lamports_code fun _ =>
        .bind accountInfo.tryBorrowData_code fun _ => .bind (.failIf _ (by decide)) fun _ =>
        .bind (unpackMint_code _) fun _ => .bind (.failIf _ (by decide)) fun _ =>
        accountInfo.packIntoData_code _

end TokenProgram

namespace BpfLoaderProgram
open UpgradeableLoaderState

theorem packIntoAccount_code (state : UpgradeableLoaderState)
    (info : AccountInfo κ) : ProgramCode (packIntoAccount state info) :=
  .bind info.tryBorrowData_code fun _ => .bind (.failIf _ (by decide)) fun _ => .borrowMut info _

theorem copyCode_code (len : ℕ) (bufferInfo programdataInfo : AccountInfo κ) :
    ProgramCode (copyCode len bufferInfo programdataInfo) :=
  .bind bufferInfo.tryBorrowData_code fun _ => .bind (.failIf _ (by decide)) fun _ =>
    .bind programdataInfo.tryBorrowData_code fun _ => .bind (.panicIf _) fun _ =>
    .bind (.panicIf _) fun _ => .borrowMut programdataInfo _

theorem write_code (offset : UInt32) (bytes : List UInt8)
    (accounts : List (AccountInfo κ)) : ProgramCode (write offset bytes accounts) := by
  match accounts with
  | [] | [_] => exact .throw (by decide)
  | bufferInfo :: authority :: rest =>
    refine .bind (readState_code _) fun state => ?_
    cases state with
    | buffer authorityAddress =>
      exact .bind (.failIf _ (by decide)) fun _ => .bind (.failIf _ (by decide)) fun _ =>
        .bind (.failIf _ (by decide)) fun _ => .bind bufferInfo.tryBorrowData_code fun _ =>
        .bind (.failIf _ (by decide)) fun _ =>
        .bind (.borrowMut bufferInfo _) fun _ => packIntoAccount_code _ _
    | uninitialized | program _ | programData _ _ => exact .throw (by decide)

theorem deployWithMaxDataLen_code (sysvars : Sysvars) {exec : ProgramExecutor κ}
    (hx : ∀ ix ctx accounts, ix.programId = systemProgramId → ProgramCode (exec ix ctx accounts))
    (ctx : InvokeContext) (maxDataLen : UInt64) (accounts : List (AccountInfo κ)) :
    ProgramCode (deployWithMaxDataLen sysvars exec ctx maxDataLen accounts) := by
  match accounts with
  | [] | [_] | [_,_] | [_,_,_] | [_,_,_,_] | [_,_,_,_,_] | [_,_,_,_,_,_] | [_,_,_,_,_,_,_] =>
    exact .throw (by decide)
  | payerInfo :: programdataInfo :: programInfo :: bufferInfo :: rentInfo :: clockInfo ::
      systemInfo :: authority :: rest =>
    exact .bind (.failIf _ (by decide)) fun _ => .bind rentInfo.tryBorrowData_code fun _ =>
      .bind (.orFail (by decide) _) fun _ => .bind (bufferDataLen_code _ _) fun _ =>
      .bind programdataInfo.lamports_code fun _ => .bind (hx _ _ _ rfl) fun _ =>
      .bind clockInfo.tryBorrowData_code fun _ => .bind (.orFail (by decide) _) fun _ =>
      .bind (packIntoAccount_code _ _) fun _ => .bind (copyCode_code _ _ _) fun _ =>
      .bind (packIntoAccount_code _ _) fun _ => .bind (.borrowMut programInfo _) fun _ =>
      .bind payerInfo.lamports_code fun _ => .bind bufferInfo.lamports_code fun _ =>
      .bind (.borrowMut payerInfo _) fun _ => .bind (.borrowMut bufferInfo _) fun _ =>
      .borrowMut bufferInfo _

theorem setAuthority_code (newAuthority : Option Pubkey)
    (accounts : List (AccountInfo κ)) : ProgramCode (setAuthority newAuthority accounts) := by
  match accounts with
  | [] | [_] => exact .throw (by decide)
  | target :: authority :: rest =>
    refine .bind (.failIf _ (by decide)) fun _ => .bind (readState_code _) fun state => ?_
    cases state with
    | buffer authorityAddress | programData slot authorityAddress =>
      exact .bind (.failIf _ (by decide)) fun _ => packIntoAccount_code _ _
    | uninitialized | program _ => exact .throw (by decide)

theorem run_code (sysvars : Sysvars) {exec : ProgramExecutor κ}
    (hx : ∀ ix ctx accounts, ix.programId = systemProgramId → ProgramCode (exec ix ctx accounts))
    (ctx : InvokeContext) (accounts : List (AccountInfo κ)) (i : LoaderInstruction) :
    ProgramCode (run sysvars exec ctx accounts i) := by
  cases i with
  | initializeBuffer =>
    match accounts with
    | [] => exact .throw (by decide)
    | bufferInfo :: rest =>
      exact .bind bufferInfo.tryBorrowData_code fun _ => .bind (.failIf _ (by decide)) fun _ =>
        packIntoAccount_code _ _
  | write offset bytes => exact write_code offset bytes accounts
  | deployWithMaxDataLen maxDataLen =>
    exact deployWithMaxDataLen_code sysvars hx ctx maxDataLen accounts
  | upgrade => exact .throw (by decide)
  | setAuthority newAuthority => exact setAuthority_code newAuthority accounts
  | close =>
    match accounts with
    | [] | [_] | [_,_] => exact .throw (by decide)
    | target :: recipient :: authority :: rest =>
      exact .bind (.failIf _ (by decide)) fun _ => .bind recipient.lamports_code fun _ =>
        .bind target.lamports_code fun _ => .bind (.borrowMut recipient _) fun _ =>
        .bind (.borrowMut target _) fun _ => .borrowMut target _

end BpfLoaderProgram

/-- Native instructions only read and assign cells, and fail with errors of programs. -/
theorem execute_code (host : Host) {instruction : Instruction}
    (hn : instruction.programId ∈ nativePrograms) (ctx : InvokeContext)
    (accounts : List (AccountInfo κ)) :
    ProgramCode (ChainedProgramExecutor.execute host instruction ctx accounts) := by
  have hx : ∀ (ix : Instruction) (ctx : InvokeContext) (accounts : List (AccountInfo κ)),
      ix.programId = systemProgramId →
        ProgramCode (ChainedProgramExecutor.executeAt host 1 ix ctx accounts) := by
    intro ix ctx accounts hix
    rw [ChainedProgramExecutor.executeAt_system host 0 hix]
    exact SystemProgram.entrypoint_code ctx accounts
  unfold ChainedProgramExecutor.execute
  rw [ChainedProgramExecutor.executeAt]
  simp only [ChainedProgramExecutor.step,hn,if_true,NativeProgramExecutor.execute]
  split
  · exact SystemProgram.entrypoint_code ctx accounts
  · split
    · exact .bind (.orFail (by decide) _) fun i => TokenProgram.run_code host.sysvars
        hx ctx accounts i
    · split
      · exact .bind (.orFail (by decide) _) fun i =>
          BpfLoaderProgram.run_code host.sysvars hx ctx accounts i
      · exact .throw (by simp [ProgramError.OfProgram])

/-- The frame rule for native instructions. -/
theorem execute_keeps {R : Machine κ → Machine κ → Prop} [Std.Refl R] [IsTrans _ R]
    (hR : AcrossUpdates R) (host : Host) {instruction : Instruction}
    (hn : instruction.programId ∈ nativePrograms) (ctx : InvokeContext)
    (accounts : List (AccountInfo κ)) :
    Keeps R (ChainedProgramExecutor.execute host instruction ctx accounts) :=
  (execute_code host hn ctx accounts).code.keeps hR

/-! ## Reading the input region back -/

theorem usizeAdd_code (a b : ℕ) : ProgramCode (usizeAdd a b : Prog κ ℕ) :=
  .bind (.panicIf _) fun _ => .pure _

theorem skipRecord_code (input : List UInt8) (offset : ℕ) :
    ProgramCode (skipRecord input offset : Prog κ ℕ) :=
  .bind (.failIf _ (by decide)) fun _ => .bind (usizeAdd_code _ _) fun _ =>
    .bind (usizeAdd_code _ _) fun _ => .bind (usizeAdd_code _ _) fun _ =>
    .bind (.failIf _ (by decide)) fun _ => .pure _

theorem loadRecord_code (input : List UInt8) (offset : ℕ) (info : AccountInfo κ) :
    ProgramCode (loadRecord input offset info) :=
  .bind (.failIf _ (by decide)) fun _ => .bind (.orFail (by decide) _) fun _ =>
    .bind (.borrowMut info _) fun _ => .bind (.failIf _ (by decide)) fun _ =>
    .bind (.borrowMut info _) fun _ => .bind (.failIf _ (by decide)) fun _ =>
    .bind (usizeAdd_code _ _) fun _ => .bind (.failIf _ (by decide)) fun _ =>
    .bind (.borrowMut info _) fun _ => .bind (usizeAdd_code _ _) fun _ =>
    .bind (.failIf _ (by decide)) fun _ => .pure _

theorem deserializeFrom_code (input : List UInt8) (offset : ℕ) (accounts : List (AccountInfo κ)) :
    ProgramCode (deserializeFrom input offset accounts) := by
  induction accounts generalizing offset with
  | nil => exact .pure ()
  | cons info rest ih =>
    refine .bind (.failIf _ (by decide)) fun _ => ?_
    split
    · exact ih _
    · refine .bind (.panicIf _) fun _ => ?_
      dsimp only
      split
      · exact .bind (loadRecord_code input _ info) fun offset => ih offset
      · exact .bind (skipRecord_code input _) fun offset => ih offset

/-- Reading the input region back only assigns cells, also where it fails. -/
theorem deserializeParameters_code (accounts : List (AccountInfo κ)) (input : List UInt8) :
    ProgramCode (deserializeParameters accounts input) := deserializeFrom_code input 8 accounts

end TinySolana
