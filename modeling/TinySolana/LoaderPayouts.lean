import TinySolana.LoaderAuthority
import TinySolana.SystemExactness
import Mathlib.Data.Fin.VecNotation

/-!
# Payouts of the loader

`Close` and `DeployWithMaxDataLen` end alike: what one account holds is added to another, and then
the first one is cleared. Where both are one account, everything it holds is lost.
-/

namespace TinySolana
open Foundations

variable {κ : Type} [DecidableEq κ]

/-- The account that is cleared is not the one that was paid, or has nothing to lose. The payer of a
deployment has by then paid `max_data_len`, which is what the nested call reads as the lamports. -/
def LoaderInstruction.PaysAnother (i : LoaderInstruction) (accounts : List (AccountInfo κ))
    (m : Machine κ) : Prop :=
  match i,accounts with
  | .close,target :: recipient :: _ =>
    target.account ≠ recipient.account ∨ (m.cells target.account).lamports = 0
  | .deployWithMaxDataLen maxDataLen,payer :: _ :: _ :: buffer :: _ =>
    buffer.account ≠ payer.account ∨ (m.cells payer.account).lamports = maxDataLen
  | _,_ => True

namespace BpfLoaderProgram

variable {m m' : Machine κ} {accounts : List (AccountInfo κ)} {c d : κ}

theorem closed_lamports_target : ((closed m c d).cells c).lamports = 0 := by
  simp [closed]

theorem closed_lamports_recipient (h : c ≠ d) :
    ((closed m c d).cells d).lamports = satAdd (m.cells d).lamports (m.cells c).lamports := by
  simp [closed,h.symm]

theorem closed_of_ne {e : κ} (hc : e ≠ c) (hd : e ≠ d) : (closed m c d).cells e = m.cells e := by
  simp [closed,hc,hd]

/-- Clearing an account keeps the lamports exactly when another one was paid or there were none. -/
theorem closed_total_iff (hc : c ∈ accountCells accounts) (hd : d ∈ accountCells accounts)
    (hfit : lamportsIn accounts m < 2^64) :
    lamportsIn accounts (closed m c d) = lamportsIn accounts m ↔
      c ≠ d ∨ (m.cells c).lamports = 0 := by
  by_cases hcd : c = d
  · subst hcd
    have hrest : ∑ e ∈ (accountCells accounts).erase c, ((closed m c c).cells e).lamports.toNat =
        ∑ e ∈ (accountCells accounts).erase c, (m.cells e).lamports.toNat :=
      Finset.sum_congr rfl fun e he => by
        rw [closed_of_ne (Finset.ne_of_mem_erase he) (Finset.ne_of_mem_erase he)]
    rw [lamportsIn,lamportsIn,← Finset.add_sum_erase _ _ hc,← Finset.add_sum_erase _ _ hc,hrest,
      closed_lamports_target,← UInt64.toNat_inj]
    simp
  · refine iff_of_true ?_ (.inl hcd)
    have hle := lamports_add_le hc hd hcd m
    refine sum_move (n := (m.cells c).lamports.toNat) hc hd hcd le_rfl ?_ ?_ fun e hec hed => ?_
    · rw [closed_lamports_target]
      simp
    · rw [closed_lamports_recipient hcd,satAdd_toNat_of_lt (by omega)]
    · rw [closed_of_ne hec hed]

theorem sameLamports_packState (m : Machine κ) (c : κ) (state : UpgradeableLoaderState) :
    SameLamports m (m.packState c state) := fun e => by
  simp only [Machine.packState,Machine.update_lamports,implies_true]

theorem sameLamports_setData (m : Machine κ) (c : κ) (data : List UInt8) :
    SameLamports m (m.setData c data) := fun e => by
  simp only [Machine.setData,Machine.update_lamports,implies_true]

variable {programId authority programdataKey : Pubkey} {slot : UInt64} {len : ℕ}
  {payer programdata program buffer : κ}

/-- A deployment ends with closing the buffer in favour of the payer. -/
theorem deployed_eq_closed : ∃ m₁, SameLamports m m₁ ∧
    deployed m programId authority programdataKey slot len payer programdata program buffer =
      closed m₁ buffer payer := by
  refine ⟨_,fun e => ?_,rfl⟩
  simp only [copied,Machine.packState,Machine.setData,Machine.update_lamports,implies_true]

theorem deployed_total_iff (hb : buffer ∈ accountCells accounts)
    (hp : payer ∈ accountCells accounts) (hfit : lamportsIn accounts m < 2^64) :
    lamportsIn accounts (deployed m programId authority programdataKey slot len payer
      programdata program
      buffer) = lamportsIn accounts m ↔ buffer ≠ payer ∨ (m.cells buffer).lamports = 0 := by
  obtain ⟨m₁,hsame,heq⟩ : ∃ m₁, SameLamports m m₁ ∧
    deployed m programId authority programdataKey slot len
    payer programdata program buffer = closed m₁ buffer payer := deployed_eq_closed
  rw [heq,← lamportsIn_congr hsame,closed_total_iff hb hp (lamportsIn_congr hsame ▸ hfit),hsame]

/-- The data of the other instructions are all they change. -/
theorem Effect.total_iff {host : Host} {ctx : InvokeContext} {n : ℕ} {i : LoaderInstruction}
    (hi : LoaderInstruction.codec.decodePrefix ctx.instructionData = some i)
    (hfit : lamportsIn accounts m < 2^64)
    (h : Effect host.sysvars (ChainedProgramExecutor.executeAt host (n+1)) ctx i accounts m m') :
    lamportsIn accounts m' = lamportsIn accounts m ↔ i.PaysAnother accounts m := by
  cases h with
  | initializeBuffer hu hl =>
    exact iff_of_true (lamportsIn_congr (sameLamports_packState _ _ _)) trivial
  | write hb hs hl =>
    exact iff_of_true (lamportsIn_congr fun e => (sameLamports_packState _ _ _ e).trans
      (sameLamports_setData _ _ _ e)) trivial
  | setBufferAuthority hs hb hl =>
    exact iff_of_true (lamportsIn_congr (sameLamports_packState _ _ _)) trivial
  | setProgramAuthority hs hb hl =>
    exact iff_of_true (lamportsIn_congr (sameLamports_packState _ _ _)) trivial
  | close hs =>
    exact closed_total_iff (mem_accountCells List.mem_cons_self)
      (mem_accountCells (List.mem_cons_of_mem _ List.mem_cons_self)) hfit
  | @deploy maxDataLen payer programdata program buffer rentInfo clockInfo systemInfo
      authority rest _ m₁ rent slot hs hr hb hlen hinv hc hne =>
    obtain ⟨space,owner,he⟩ := invoke_createAccount_effect hi hinv
    obtain ⟨hl,hcreated⟩ := he.moves
    have hpayer : payer.account ∈
      accountCells (payer :: programdata :: program :: buffer :: rentInfo ::
        clockInfo :: systemInfo :: authority :: rest) := mem_accountCells (by simp)
    have hdata : programdata.account ∈ accountCells (payer :: programdata :: program :: buffer ::
        rentInfo :: clockInfo :: systemInfo :: authority :: rest) := mem_accountCells (by simp)
    have hbuffer : buffer.account ∈ accountCells (payer :: programdata :: program :: buffer ::
        rentInfo :: clockInfo :: systemInfo :: authority :: rest) := mem_accountCells (by simp)
    have htotal := (Machine.MoveFits.of_total hpayer hdata hfit hl).total hpayer hdata
    rw [← lamportsIn_congr hcreated] at htotal
    refine (Eq.congr_right htotal.symm).trans ((deployed_total_iff hbuffer hpayer
      (htotal.trans_lt hfit)).trans ?_)
    rw [hcreated]
    -- A buffer that is the payer has paid into the programdata account, which is another one.
    refine or_congr_right' fun hbp => ?_
    rw [not_not] at hbp
    rw [hbp] at hne ⊢
    rw [UInt64.le_iff_toNat_le] at hl
    rw [Machine.move,Machine.update_of_ne _ hne,Machine.update_self,← UInt64.toNat_inj,satSub_toNat,
      ← UInt64.toNat_inj,UInt64.toNat_zero]
    exact ⟨fun h => le_antisymm (Nat.sub_eq_zero_iff_le.mp h) hl,fun h =>
      Nat.sub_eq_zero_of_le h.le⟩

end BpfLoaderProgram

/-- A loader instruction that returns keeps the lamports of its list, as far as they fit into 64
bits, exactly when what it pays out goes to another account. -/
theorem loader_payouts_iff {κ : Type} [DecidableEq κ] (host : Host) (m m' : Machine κ)
    (call : InvokeContext × List (AccountInfo κ)) (i : LoaderInstruction)
    (hi : LoaderInstruction.codec.decodePrefix call.1.instructionData = some i)
    (hfit : lamportsIn call.2 m < 2^64) (h : LoaderStep host m call m') :
    lamportsIn call.2 m' = lamportsIn call.2 m ↔ i.PaysAnother call.2 m := by
  obtain ⟨j,hj,he⟩ := BpfLoaderProgram.entrypoint_effect h
  obtain rfl := Option.some.inj (hi.symm.trans hj)
  exact he.total_iff (n := 1) hi hfit

/-- An account with five lamports is closed in favour of itself: it comes first as a writable
account and then as a read-only one. -/
def closeItself : Instruction :=
  ⟨bpfLoaderUpgradeableProgramId,
    [⟨.ofByte 1,false,true⟩,⟨.ofByte 1,false,false⟩,⟨.ofByte 2,true,false⟩],
    LoaderInstruction.codec.encode .close⟩

/-- The lamports of the account are lost: it is credited first and emptied after that. -/
theorem closed_in_favour_of_itself :
    let m : Machine (Fin [Pubkey.ofByte 1,.ofByte 2].length) := ⟨![wallet 1 5,wallet 2 0],0,∅⟩
    ∃ infos, Bank.prepareAccountInfos closeItself m.cells = .ok infos ∧ lamportsIn infos m < 2^64 ∧
      ∃ m', LoaderStep default m (⟨closeItself.programId,closeItself.data,300⟩,infos) m' ∧
        lamportsIn infos m' ≠ lamportsIn infos m := by
  intro m
  exact ⟨_,rfl,by decide,_,Exec.run_of_result rfl,by decide⟩

theorem buffer_closed_conserved :
    lamportsIn closeCall.2 (BpfLoaderProgram.closed (bufferWith none) false true) =
      lamportsIn closeCall.2 (bufferWith none) :=
  (loader_payouts_iff default _ _ closeCall .close (by decide) (by decide) rfl).mpr
    (.inl (by decide))

end TinySolana
