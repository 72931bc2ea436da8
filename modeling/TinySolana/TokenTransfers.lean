import TinySolana.Conservation
import TinySolana.TokenAuthority

/-!
# Conservation of tokens

A token `Transfer` decodes both records before it writes either of them back. When both are one
account the credit is written over the debit, and a credit past `u64::MAX` is cut off; in every
other case the tokens move as they should.
-/

namespace TinySolana
open Foundations

section

variable {κ : Type}

/-- The `amount` of an account whose data unpack as a token account. -/
def tokenAmount (m : Machine κ) (c : κ) : ℕ :=
  ((TokenAccount.unpackFromSlice (m.cells c).data).map fun t => t.amount.toNat).getD 0

theorem tokenAmount_of_unpack {m : Machine κ} {c : κ} {t : TokenAccount}
    (h : TokenAccount.unpackFromSlice (m.cells c).data = some t) :
      tokenAmount m c = t.amount.toNat := by
  rw [tokenAmount,h]
  rfl

theorem tokenAmount_congr {m m' : Machine κ} {c : κ} (h : m'.cells c = m.cells c) :
    tokenAmount m' c = tokenAmount m c := by
  rw [tokenAmount,h,tokenAmount]

variable [DecidableEq κ]

/-- The tokens that the accounts of a list hold together. -/
def tokensIn (accounts : List (AccountInfo κ)) (m : Machine κ) : ℕ :=
  ∑ c ∈ accountCells accounts, tokenAmount m c

/-- What a transfer between two cells should do: nothing to a single account, and otherwise take the
amount from the source and give it to the destination. -/
def TokensMoved (amount : UInt64) (source destination : κ) (m m' : Machine κ) : Prop :=
  if source = destination then m'.cells source = m.cells source
  else tokenAmount m' source+amount.toNat = tokenAmount m source ∧
    tokenAmount m' destination = tokenAmount m destination+amount.toNat

/-- Nothing is cut off or written over: a transfer to the same account is of nothing, or that
account is full, and another destination has room. -/
def TransferFits (amount : UInt64) (source destination : κ) (m : Machine κ) : Prop :=
  if source = destination then amount = 0 ∨ tokenAmount m source = 2^64-1
  else tokenAmount m destination+amount.toNat < 2^64

/-- A transfer keeps the tokens of its list and moves the amount. -/
def TransferConserves (amount : UInt64) (accounts : List (AccountInfo κ))
    (m m' : Machine κ) : Prop :=
  tokensIn accounts m' = tokensIn accounts m ∧
    ∀ owner source destination rest, accounts = owner :: source :: destination :: rest →
      TokensMoved amount source.account destination.account m m'

/-- The accounts at positions one and two can take part in the transfer. -/
def TransferRoom (amount : UInt64) (accounts : List (AccountInfo κ)) (m : Machine κ) : Prop :=
  ∀ owner source destination rest, accounts = owner :: source :: destination :: rest →
    TransferFits amount source.account destination.account m

variable {m : Machine κ} {c d : κ} {from_ to_ : TokenAccount} {amount : UInt64}

/-- The cells after the debit and the credit were packed. -/
def transferred (m : Machine κ) (c d : κ) (from_ to_ : TokenAccount)
    (amount : UInt64) : Machine κ :=
  (m.setData c
    (TokenAccount.codec.encode { from_ with amount := satSub from_.amount amount })).setData d
    (TokenAccount.codec.encode { to_ with amount := satAdd to_.amount amount })

theorem transferred_destination :
    tokenAmount (transferred m c d from_ to_ amount) d = (satAdd to_.amount amount).toNat :=
  tokenAmount_of_unpack (t := { to_ with amount := satAdd to_.amount amount }) (by
    rw [transferred,Machine.setData_self,TokenAccount.unpack_encode])

theorem transferred_source (hcd : c ≠ d) :
    tokenAmount (transferred m c d from_ to_ amount) c = (satSub from_.amount amount).toNat :=
  tokenAmount_of_unpack (t := { from_ with amount := satSub from_.amount amount }) (by
    rw [transferred,Machine.setData_of_ne _ hcd,Machine.setData_self,TokenAccount.unpack_encode])

theorem transferred_of_ne {e : κ} (hc : e ≠ c) (hd : e ≠ d) :
    (transferred m c d from_ to_ amount).cells e = m.cells e := by
  rw [transferred,Machine.setData_of_ne _ hd,Machine.setData_of_ne _ hc]

/-- Over itself an account ends with the amount added. -/
theorem transferred_itself (ht : TokenAccount.unpackFromSlice (m.cells c).data = some to_) :
    (transferred m c c from_ to_ amount).cells c = m.cells c ↔
      satAdd to_.amount amount = to_.amount := by
  have hdata := TokenAccount.unpack_eq_some.mp ht
  rw [transferred,Machine.setData_self,Machine.setData_self]
  constructor
  · intro h
    have hd := congrArg (fun a => TokenAccount.unpackFromSlice a.data) h
    simp only [TokenAccount.unpack_encode,ht,Option.some.injEq] at hd
    exact congrArg TokenAccount.amount hd
  · intro h
    rw [h,← hdata]

end

/-- The cells after a transfer are as they should be exactly when it fits, and then no tokens are
lost. -/
theorem transferred_moved {κ : Type} [DecidableEq κ] {m : Machine κ} {c d : κ}
    {from_ to_ : TokenAccount} {amount : UInt64}
    (hf : TokenAccount.unpackFromSlice (m.cells c).data = some from_)
    (ht : TokenAccount.unpackFromSlice (m.cells d).data = some to_) (ha : amount ≤ from_.amount) :
    TokensMoved amount c d m (transferred m c d from_ to_ amount) ↔ TransferFits amount c d m := by
  unfold TokensMoved TransferFits
  by_cases hcd : c = d
  · subst hcd
    rw [if_pos rfl,if_pos rfl,transferred_itself ht,satAdd_eq_left,tokenAmount_of_unpack ht,
      ← UInt64.toNat_inj (b := maxU64),maxU64_toNat]
  · rw [UInt64.le_iff_toNat_le] at ha
    rw [if_neg hcd,if_neg hcd,transferred_source hcd,transferred_destination,
      tokenAmount_of_unpack hf,tokenAmount_of_unpack ht,satSub_toNat,satAdd_toNat]
    omega

theorem transferred_total {κ : Type} [DecidableEq κ] {m m' : Machine κ} {c d : κ} {amount : UInt64}
    {accounts : List (AccountInfo κ)} (hc : c ∈ accountCells accounts)
    (hd : d ∈ accountCells accounts) (hout : ∀ e, e ≠ c → e ≠ d → m'.cells e = m.cells e)
    (h : TokensMoved amount c d m m') :
    tokensIn accounts m' = tokensIn accounts m := by
  unfold TokensMoved at h
  by_cases hcd : c = d
  · subst hcd
    rw [if_pos rfl] at h
    refine Finset.sum_congr rfl fun e _ => tokenAmount_congr ?_
    by_cases he : e = c
    · rw [he,h]
    · exact hout e he he
  · rw [if_neg hcd] at h
    exact sum_move (n := amount.toNat) hc hd hcd (by omega) (by omega) h.2 fun e hec hed =>
      tokenAmount_congr (hout e hec hed)

/-- A transfer that returns keeps the tokens and moves the amount exactly when it fits. -/
theorem transfer_conserves_iff {κ : Type} [DecidableEq κ] (sysvars : Sysvars)
    (exec : ProgramExecutor κ) (ctx : InvokeContext) (amount : UInt64)
    (accounts : List (AccountInfo κ)) (m m' : Machine κ)
    (hd : TokenInstruction.codec.decodeAll ctx.instructionData = some (.transfer amount))
    (h : TokenProgram.entrypoint sysvars exec ctx accounts m = (.ok (),m')) :
    TransferConserves amount accounts m m' ↔ TransferRoom amount accounts m := by
  obtain ⟨i,hi,he⟩ := TokenProgram.entrypoint_effect h
  obtain rfl := Option.some.inj (hd.symm.trans hi)
  cases he with
  | @transfer _ owner source destination rest _ from_ to_ hs hf ho ht hm ha =>
    have hroom : TransferRoom amount (owner :: source :: destination :: rest) m ↔
        TransferFits amount source.account destination.account m :=
      ⟨fun h => h _ _ _ _ rfl,by rintro h _ _ _ _ ⟨⟩; exact h⟩
    rw [hroom,← transferred_moved hf ht ha]
    constructor
    · exact fun h => h.2 _ _ _ _ rfl
    · intro hmoved
      refine ⟨transferred_total (mem_accountCells (List.mem_cons_of_mem _ List.mem_cons_self))
        (mem_accountCells (List.mem_cons_of_mem _ (List.mem_cons_of_mem _ List.mem_cons_self)))
        (fun e => transferred_of_ne) hmoved,?_⟩
      rintro _ _ _ _ ⟨⟩
      exact hmoved

/-! ## A transfer to oneself -/

/-- A transfer of five units from the first account to itself, once writable and once read-only. -/
def selfTransfer : Instruction :=
  ⟨tokenProgramId,[⟨.ofByte 3,true,false⟩,⟨.ofByte 1,false,true⟩,⟨.ofByte 1,false,false⟩],
    TokenInstruction.codec.encode (.transfer 5)⟩

/-- The account ends with ten units. -/
theorem self_transfer_creates_tokens :
    ∃ infos, @Bank.prepareAccountInfos selfTransfer [.ofByte 1,.ofByte 2,.ofByte 3]
      accountsMachine.cells = .ok infos ∧
    ∃ m', TokenProgram.entrypoint (default : Host).sysvars (ChainedProgramExecutor.execute default)
      ⟨tokenProgramId,selfTransfer.data,300⟩ infos accountsMachine = (.ok (),m') ∧
      ¬TransferConserves 5 infos accountsMachine m' := by
  refine ⟨_,rfl,_,Exec.run_of_result (by decide +kernel),fun h => ?_⟩
  exact absurd h.1 (by decide +kernel)

/-- Two units from the first account to the second. -/
theorem two_units_conserved :
    let call := transferCall 2
    let ctx : InvokeContext := ⟨tokenProgramId,call.instruction.data,300⟩
    let run := TokenProgram.entrypoint (default : Host).sysvars
      (ChainedProgramExecutor.execute default) ctx call.accounts accountsMachine
    run.1 = .ok () ∧ TransferConserves 2 call.accounts accountsMachine run.2 := by
  intro call ctx run
  have hok : run.1 = .ok () := by decide +kernel
  refine ⟨hok,(transfer_conserves_iff _ _ ctx 2 _ _ _ (by decide) (Exec.run_of_result hok)).mpr ?_⟩
  rintro _ _ _ _ ⟨⟩
  unfold TransferFits
  decide

end TinySolana
