import TinySolana.Programs.SystemProgram

/-!
# Effects of the System program

What a successful System instruction does to the cells, with the checks it has passed.
-/

namespace TinySolana
open Foundations

variable {κ : Type} [DecidableEq κ]

namespace Machine

/-- Take lamports from one cell and give them to another, saturating on both sides. -/
def move (m : Machine κ) (c d : κ) (lamports : UInt64) : Machine κ :=
  (m.update c fun a => { a with lamports := satSub a.lamports lamports }).update d
    fun a => { a with lamports := satAdd a.lamports lamports }

theorem move_cells_of_ne (m : Machine κ) {c d e : κ} (hc : e ≠ c) (hd : e ≠ d) (lamports : UInt64) :
    (m.move c d lamports).cells e = m.cells e := by
  rw [move,update_of_ne _ hd,update_of_ne _ hc]

/-- Moving lamports changes nothing but lamports. -/
theorem move_cells (m : Machine κ) (c d e : κ) (lamports : UInt64) :
    ∃ l, (m.move c d lamports).cells e = { m.cells e with lamports := l } := by
  rw [move,update_cells,update_cells]
  split
  · split <;> exact ⟨_,rfl⟩
  · split
    · exact ⟨_,rfl⟩
    · exact ⟨(m.cells e).lamports,rfl⟩

/-- Only the cell that pays can lose lamports, and not when it pays itself what it has. -/
theorem move_lowers {m : Machine κ} {c d e : κ} {lamports : UInt64}
    (h : ((m.move c d lamports).cells e).lamports < (m.cells e).lamports) : e = c := by
  by_contra hc
  rw [move,update_cells,update_of_ne _ hc] at h
  split at h
  · exact absurd (le_satAdd (m.cells e).lamports lamports) (UInt64.not_le.mpr h)
  · exact UInt64.lt_irrefl _ h

theorem move_self {m : Machine κ} {c : κ} {lamports : UInt64}
    (h : lamports ≤ (m.cells c).lamports) :
    ((m.move c c lamports).cells c).lamports = (m.cells c).lamports := by
  rw [move,update_self,update_self]
  exact satAdd_satSub_cancel h

end Machine

namespace SystemProgram

/-- The new account that `CreateAccount` leaves behind. -/
def allocate (m : Machine κ) (c : κ) (space : UInt64) (owner : Pubkey) : Machine κ :=
  (m.update c fun a => { a with data := List.replicate space.toNat 0 }).update c
    fun a => { a with owner }

theorem allocate_self (m : Machine κ) (c : κ) (space : UInt64) (owner : Pubkey) :
    (allocate m c space owner).cells c =
      { m.cells c with data := List.replicate space.toNat 0, owner } := by
  rw [allocate,Machine.update_self,Machine.update_self]

theorem allocate_of_ne (m : Machine κ) {c d : κ} (h : d ≠ c) (space : UInt64) (owner : Pubkey) :
    (allocate m c space owner).cells d = m.cells d := by
  rw [allocate,Machine.update_of_ne _ h,Machine.update_of_ne _ h]

theorem allocate_lamports (m : Machine κ) (c d : κ) (space : UInt64) (owner : Pubkey) :
    ((allocate m c space owner).cells d).lamports = (m.cells d).lamports := by
  by_cases h : d = c
  · subst h
    rw [allocate_self]
  · rw [allocate_of_ne m h]

/-- A successful instruction, with the checks it has passed. -/
inductive Effect : SystemInstruction → List (AccountInfo κ) → Machine κ → Machine κ → Prop where
  | transfer {lamports : UInt64} {fromInfo toInfo : AccountInfo κ} {rest : List (AccountInfo κ)}
      {m : Machine κ} : fromInfo.isSigner = true → lamports ≤ (m.cells fromInfo.account).lamports →
      Effect (.transfer lamports) (fromInfo :: toInfo :: rest) m
        (m.move fromInfo.account toInfo.account lamports)
  | assign {owner : Pubkey} {target : AccountInfo κ} {rest : List (AccountInfo κ)} {m : Machine κ} :
      target.isSigner = true → Effect (.assign owner) (target :: rest) m
        (m.update target.account fun a => { a with owner })
  | createAccount {lamports space : UInt64} {owner : Pubkey} {fromInfo toInfo : AccountInfo κ}
      {rest : List (AccountInfo κ)} {m : Machine κ} :
      fromInfo.isSigner = true → toInfo.isSigner = true →
      lamports ≤ (m.cells fromInfo.account).lamports → space.toNat < 2^63 →
      Effect (.createAccount lamports space owner) (fromInfo :: toInfo :: rest) m
        (allocate (m.move fromInfo.account toInfo.account lamports) toInfo.account space owner)

theorem transfer_ok {lamports : UInt64} {accounts : List (AccountInfo κ)} {m m' : Machine κ} :
    transfer lamports accounts m = (.ok (),m') ↔ Effect (.transfer lamports) accounts m m' := by
  constructor
  · intro h
    match accounts with
    | [] => simp [transfer] at h
    | [_] => simp [transfer] at h
    | fromInfo :: toInfo :: rest =>
      simp only [transfer,Exec.failIf_bind_ok,not_not,AccountInfo.lamports_bind,
        AccountInfo.setLamports_bind,AccountInfo.setLamports_run,Prod.mk.injEq,true_and] at h
      obtain ⟨hs,hl,rfl⟩ := h
      exact .transfer hs (UInt64.not_lt.mp hl)
  · intro h
    cases h with
    | transfer hs hl =>
      simp only [transfer,Exec.failIf_bind_ok,AccountInfo.lamports_bind]
      exact ⟨not_not.mpr hs,UInt64.not_lt.mpr hl,rfl⟩

theorem assign_ok {owner : Pubkey} {accounts : List (AccountInfo κ)} {m m' : Machine κ} :
    assign owner accounts m = (.ok (),m') ↔ Effect (.assign owner) accounts m m' := by
  constructor
  · intro h
    match accounts with
    | [] => simp [assign] at h
    | target :: rest =>
      simp only [assign,Exec.failIf_bind_ok,not_not,AccountInfo.setOwner_run,Prod.mk.injEq,
        true_and] at h
      obtain ⟨hs,rfl⟩ := h
      exact .assign hs
  · intro h
    cases h with
    | assign hs =>
      simp only [assign,Exec.failIf_bind_ok]
      exact ⟨not_not.mpr hs,rfl⟩

theorem createAccount_ok {lamports space : UInt64} {owner : Pubkey}
    {accounts : List (AccountInfo κ)}
    {m m' : Machine κ} : createAccount lamports space owner accounts m = (.ok (),m') ↔
      Effect (.createAccount lamports space owner) accounts m m' := by
  constructor
  · intro h
    match accounts with
    | [] => simp [createAccount] at h
    | [_] => simp [createAccount] at h
    | fromInfo :: toInfo :: rest =>
      simp only [createAccount,Exec.failIf_bind_ok,not_or,not_not,AccountInfo.lamports_bind,
        AccountInfo.setLamports_bind,Exec.panicIf_bind_ok,AccountInfo.setData_bind,
        AccountInfo.setOwner_run,Prod.mk.injEq,true_and] at h
      obtain ⟨⟨hs,ht⟩,hl,hp,rfl⟩ := h
      exact .createAccount hs ht (UInt64.not_lt.mp hl) (Nat.not_le.mp hp)
  · intro h
    cases h with
    | createAccount hs ht hl hp =>
      simp only [createAccount,Exec.failIf_bind_ok,AccountInfo.lamports_bind,
        AccountInfo.setLamports_bind,Exec.panicIf_bind_ok]
      exact ⟨by simp [hs,ht],UInt64.not_lt.mpr hl,Nat.not_le.mpr hp,rfl⟩

theorem run_ok {i : SystemInstruction} {accounts : List (AccountInfo κ)} {m m' : Machine κ} :
    run accounts i m = (.ok (),m') ↔ Effect i accounts m m' := by
  cases i with
  | transfer lamports => exact transfer_ok
  | assign owner => exact assign_ok
  | createAccount lamports space owner => exact createAccount_ok

theorem entrypoint_ok {ctx : InvokeContext} {accounts : List (AccountInfo κ)} {m m' : Machine κ} :
    entrypoint ctx accounts m = (.ok (),m') ↔
      ∃ i, SystemInstruction.codec.decodeAll ctx.instructionData = some i ∧
        Effect i accounts m m' := by
  simp only [entrypoint,Exec.orFail_bind_ok,run_ok]

/-- Lamports are only taken from the cell of an account that signed. -/
theorem Effect.debits_signer {i : SystemInstruction} {accounts : List (AccountInfo κ)}
    {m m' : Machine κ} (h : Effect i accounts m m') {c : κ}
    (hc : (m'.cells c).lamports < (m.cells c).lamports) :
    ∃ info ∈ accounts, info.isSigner = true ∧ info.account = c := by
  cases h with
  | transfer hs hl => exact ⟨_,List.mem_cons_self,hs,(Machine.move_lowers hc).symm⟩
  | @assign owner target rest m hs =>
    rw [Machine.update_cells] at hc
    split at hc <;> exact absurd hc (UInt64.lt_irrefl _)
  | createAccount hs ht hl hp =>
    rw [allocate_lamports] at hc
    exact ⟨_,List.mem_cons_self,hs,(Machine.move_lowers hc).symm⟩

end SystemProgram

/-- An account was created, field by field. -/
structure Created (m m' : Machine κ) (payer created : κ) (lamports space : UInt64)
    (owner : Pubkey) :
    Prop where
  lamports : ∀ c, (m'.cells c).lamports = ((m.move payer created lamports).cells c).lamports
  data : ∀ c, (m'.cells c).data = if c = created then List.replicate space.toNat 0
    else (m.cells c).data
  owner : ∀ c, (m'.cells c).owner = if c = created then owner else (m.cells c).owner
  pubkey : ∀ c, (m'.cells c).pubkey = (m.cells c).pubkey
  executable : ∀ c, (m'.cells c).executable = (m.cells c).executable
  rentEpoch : ∀ c, (m'.cells c).rentEpoch = (m.cells c).rentEpoch

theorem created_of_effect {payerInfo createdInfo : AccountInfo κ} {rest : List (AccountInfo κ)}
    {lamports space : UInt64} {owner : Pubkey}
    (h : SystemProgram.Effect (.createAccount lamports space owner)
      (payerInfo :: createdInfo :: rest) m
      m') : Created m m' payerInfo.account createdInfo.account lamports space owner := by
  cases h with
  | createAccount hs ht hl hp =>
    refine ⟨fun c => SystemProgram.allocate_lamports _ _ _ _ _,?_,?_,?_,?_,?_⟩
    all_goals
      intro c
      obtain ⟨l,hmove⟩ := m.move_cells payerInfo.account createdInfo.account c lamports
      by_cases hc : c = createdInfo.account
      · subst hc
        simp [SystemProgram.allocate_self,hmove]
      · simp [SystemProgram.allocate_of_ne _ hc,hmove,hc]

end TinySolana
