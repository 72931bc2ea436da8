import TinySolana.LoaderAuthority
import TinySolana.Programs.LoaderStates
import TinySolana.SystemExactness
import TinySolana.TokenTransfers
import TinySolana.WritableRecords

/-!
# Read-only accounts of native programs

No native program looks at `is_writable`. An account stays as it is exactly when what the
instruction assigns to it is what it has already, so a read-only account is safe only where it is
not written or where the write makes no difference.
-/

namespace TinySolana
open Foundations

/-- Accounts are equal field by field. -/
theorem Account.eq_iff {a b : Account} : a = b ↔ a.pubkey = b.pubkey ∧ a.lamports = b.lamports ∧
    a.data = b.data ∧ a.owner = b.owner ∧ a.executable = b.executable ∧
      a.rentEpoch = b.rentEpoch := by
  cases a
  cases b
  simp only [mk.injEq]

variable {κ : Type} [DecidableEq κ]

/-! ## System program -/

/-- Moving lamports makes no difference to a cell. -/
def Machine.MoveKeeps (m : Machine κ) (c d : κ) (lamports : UInt64) (e : κ) : Prop :=
  c ≠ d → (e = c → lamports = 0) ∧ (e = d → lamports = 0 ∨ (m.cells e).lamports = maxU64)

theorem Machine.move_lamports_iff {m : Machine κ} {c d e : κ} {lamports : UInt64}
    (hl : lamports ≤ (m.cells c).lamports) :
    ((m.move c d lamports).cells e).lamports = (m.cells e).lamports ↔
      m.MoveKeeps c d lamports e := by
  unfold MoveKeeps
  by_cases hcd : c = d
  · subst hcd
    rw [move_same_eq hl]
    exact iff_of_true rfl fun h => absurd rfl h
  · simp only [ne_eq,hcd,not_false_eq_true,true_imp_iff]
    by_cases hc : e = c
    · subst hc
      rw [move,update_of_ne _ hcd,update_self,satSub_eq_left hl]
      simp [hcd]
    · by_cases hd : e = d
      · subst hd
        rw [move,update_self,update_of_ne _ hc,satAdd_eq_left]
        simp [hc]
      · rw [move_cells_of_ne m hc hd]
        simp [hc,hd]

theorem Machine.move_cells_iff {m : Machine κ} {c d e : κ} {lamports : UInt64}
    (hl : lamports ≤ (m.cells c).lamports) :
    (m.move c d lamports).cells e = m.cells e ↔ m.MoveKeeps c d lamports e := by
  rw [← move_lamports_iff hl]
  obtain ⟨l,he⟩ := m.move_cells c d e lamports
  rw [he,Account.eq_iff]
  simp

/-- A System instruction makes no difference to a cell. -/
def SystemInstruction.Keeps (i : SystemInstruction) (accounts : List (AccountInfo κ))
    (m : Machine κ) (e : κ) : Prop :=
  match i,accounts with
  | .transfer lamports,from_ :: to_ :: _ => m.MoveKeeps from_.account to_.account lamports e
  | .assign owner,target :: _ => e = target.account → (m.cells e).owner = owner
  | .createAccount lamports space owner,from_ :: to_ :: _ =>
    m.MoveKeeps from_.account to_.account lamports e ∧ (e = to_.account →
      (m.cells e).data = List.replicate space.toNat 0 ∧ (m.cells e).owner = owner)
  | _,_ => True

theorem SystemProgram.Effect.keeps_iff {i : SystemInstruction} {accounts : List (AccountInfo κ)}
    {m m' : Machine κ} (h : Effect i accounts m m') (e : κ) :
    m'.cells e = m.cells e ↔ i.Keeps accounts m e := by
  cases h with
  | transfer hs hl => exact Machine.move_cells_iff hl
  | @assign owner target rest m hs =>
    rw [SystemInstruction.Keeps,Machine.update_cells]
    split
    · next he => simp [Account.eq_iff,he,eq_comm]
    · next he => simp [he]
  | @createAccount lamports space owner fromInfo toInfo rest m hs ht hl hp =>
    rw [SystemInstruction.Keeps,← Machine.move_lamports_iff hl]
    obtain ⟨l,he⟩ := m.move_cells fromInfo.account toInfo.account e lamports
    by_cases hto : e = toInfo.account
    · subst hto
      rw [allocate_self,he,Account.eq_iff]
      simp [eq_comm]
    · rw [allocate_of_ne _ hto,he,Account.eq_iff]
      simp [hto]

/-! ## Token program -/

/-- The `supply` of an account whose data unpack as a mint. -/
def mintSupply (m : Machine κ) (c : κ) : ℕ :=
  ((Mint.unpackFromSlice (m.cells c).data).map fun t => t.supply.toNat).getD 0

/-- A token instruction makes no difference to a cell. What is initialized was not before. -/
def TokenInstruction.Keeps (i : TokenInstruction) (accounts : List (AccountInfo κ)) (m : Machine κ)
    (e : κ) : Prop :=
  match i,accounts with
  | .mint amount,_ :: mintInfo :: destination :: _ =>
    (e = mintInfo.account → amount = 0 ∨ mintSupply m e = 2^64-1) ∧
      (e = destination.account → amount = 0 ∨ tokenAmount m e = 2^64-1)
  | .transfer amount,_ :: source :: destination :: _ =>
    (e = source.account → e ≠ destination.account → amount = 0) ∧
      (e = destination.account → amount = 0 ∨ tokenAmount m e = 2^64-1)
  | .initializeMint _ _,info :: _ => e ≠ info.account
  | .initializeAccount,info :: _ => e ≠ info.account
  | _,_ => True

omit [DecidableEq κ] in
theorem mintSupply_of_unpack {m : Machine κ} {c : κ} {mint : Mint}
    (h : Mint.unpackFromSlice (m.cells c).data = some mint) :
      mintSupply m c = mint.supply.toNat := by
  rw [mintSupply,h]
  rfl

theorem Machine.setData_cells_iff {m : Machine κ} {c : κ} {data : List UInt8} :
    (m.setData c data).cells c = m.cells c ↔ (m.cells c).data = data := by
  rw [setData_self,Account.eq_iff]
  simp [eq_comm]

/-- Data that are replaced twice are what they were replaced by last. -/
theorem Machine.setData_setData (m : Machine κ) (c d : κ) (data data' : List UInt8) :
    ((m.setData c data).setData d data').cells d = (m.setData d data').cells d := by
  rw [setData_self,setData_self]
  by_cases h : d = c
  · rw [h,setData_self]
  · rw [setData_of_ne _ h]

theorem Mint.supply_eq_iff {mint : Mint} {amount : UInt64} :
    { mint with supply := satAdd mint.supply amount } = mint ↔
      amount = 0 ∨ mint.supply.toNat = 2^64-1 := by
  rw [← maxU64_toNat,UInt64.toNat_inj,← satAdd_eq_left]
  cases mint
  simp only [mk.injEq,true_and,and_true]

theorem TokenAccount.amount_eq_iff {t : TokenAccount} {amount : UInt64} :
    { t with amount } = t ↔ amount = t.amount := by
  cases t
  simp only [mk.injEq,true_and,and_true]

theorem TokenAccount.credit_eq_iff {t : TokenAccount} {amount : UInt64} :
    { t with amount := satAdd t.amount amount } = t ↔ amount = 0 ∨ t.amount.toNat = 2^64-1 := by
  rw [amount_eq_iff,satAdd_eq_left,← maxU64_toNat,UInt64.toNat_inj]

namespace TokenProgram

variable {m m' : Machine κ} {c e : κ}

theorem setMint_iff {old new : Mint} (h : Mint.unpackFromSlice (m.cells c).data = some old) :
    (m.setData c (Mint.codec.encode new)).cells c = m.cells c ↔ new = old := by
  rw [Machine.setData_cells_iff,← Mint.unpack_eq_some,h,Option.some.injEq,eq_comm]

theorem setTokenAccount_iff {old new : TokenAccount}
    (h : TokenAccount.unpackFromSlice (m.cells c).data = some old) :
    (m.setData c (TokenAccount.codec.encode new)).cells c = m.cells c ↔ new = old := by
  rw [Machine.setData_cells_iff,← TokenAccount.unpack_eq_some,h,Option.some.injEq,eq_comm]

theorem Effect.keeps_iff {host : Host} {ctx : InvokeContext} {n : ℕ} {i : TokenInstruction}
    {accounts : List (AccountInfo κ)}
    (hd : TokenInstruction.codec.decodeAll ctx.instructionData = some i)
    (h : Effect host.sysvars (ChainedProgramExecutor.executeAt host (n+1)) ctx i accounts m m')
    (e : κ) :
    m'.cells e = m.cells e ↔ i.Keeps accounts m e := by
  cases h with
  | @mint amount authority mintInfo destination rest _ mint account hs hm ha ht hk =>
    have hne : destination.account ≠ mintInfo.account := by
      intro he
      rw [he,Mint.not_tokenAccount hm] at ht
      cases ht
    simp only [TokenInstruction.Keeps]
    by_cases he : e = destination.account
    · subst he
      rw [Machine.setData_setData,setTokenAccount_iff ht,TokenAccount.credit_eq_iff,
        tokenAmount_of_unpack ht]
      simp [hne]
    · rw [Machine.setData_of_ne _ he]
      by_cases hm' : e = mintInfo.account
      · subst hm'
        rw [setMint_iff hm,Mint.supply_eq_iff,mintSupply_of_unpack hm]
        simp [he]
      · rw [Machine.setData_of_ne _ hm']
        simp [he,hm']
  | @transfer amount owner source destination rest _ from_ to_ hs hf ho ht hm ha =>
    simp only [TokenInstruction.Keeps]
    by_cases he : e = destination.account
    · subst he
      rw [Machine.setData_setData,setTokenAccount_iff ht,TokenAccount.credit_eq_iff,
        tokenAmount_of_unpack ht]
      simp
    · rw [Machine.setData_of_ne _ he]
      by_cases hs' : e = source.account
      · subst hs'
        rw [setTokenAccount_iff hf,TokenAccount.amount_eq_iff,satSub_eq_left ha]
        simp [he]
      · rw [Machine.setData_of_ne _ hs']
        simp [he,hs']
  | setAuthority hs hi =>
    rw [invoke_assign_fails hd] at hi
    cases hi
  | @initializeMint decimals mintAuthority mintInfo rentInfo rest _ rent mint hr hm hi he =>
    simp only [TokenInstruction.Keeps]
    by_cases hc : e = mintInfo.account
    · subst hc
      rw [setMint_iff hm]
      refine iff_of_false ?_ (by simp)
      rintro rfl
      cases hi
    · rw [Machine.setData_of_ne _ hc]
      simp [hc]
  | @initializeAccount accountInfo mintInfo ownerInfo rentInfo rest _ rent account
      mint hr ha hi he hm hmi =>
    simp only [TokenInstruction.Keeps]
    by_cases hc : e = accountInfo.account
    · subst hc
      rw [setTokenAccount_iff ha]
      refine iff_of_false ?_ (by simp)
      rintro rfl
      cases hi
    · rw [Machine.setData_of_ne _ hc]
      simp [hc]

end TokenProgram

/-! ## Loader -/

namespace BpfLoaderProgram
open UpgradeableLoaderState

/-- What a deployment leaves in the programdata account: the record, the code and zeros. -/
def programdataImage (slot : UInt64) (authority : Pubkey) (space : ℕ) (code : List UInt8) :
    List UInt8 :=
  codec.encode (programData slot (some authority)) ++ (code ++
    List.replicate (space-sizeOfProgramdataMetadata-code.length) 0)

/-- A deployment makes no difference to a cell: it is not the buffer, it gets back what it pays, and
it holds the records already. -/
structure DeployKeeps (m : Machine κ) (payer programdata program buffer : κ) (maxDataLen : UInt64)
    (owner programId programdataKey : Pubkey) (image : List UInt8) (e : κ) : Prop where
  notClosed : e ≠ buffer
  repaid : e = payer →
    if payer = programdata then (m.cells buffer).lamports = 0 ∨ (m.cells e).lamports = maxU64
    else (m.cells buffer).lamports = maxDataLen ∨
      (m.cells e).lamports = maxU64 ∧ maxDataLen ≤ (m.cells buffer).lamports
  funded : e = programdata → e ≠ payer → maxDataLen = 0 ∨ (m.cells e).lamports = maxU64
  data : if e = program then
      if e = programdata then
        (m.cells e).data = (UpgradeableLoaderState.program programdataKey).packedOver image
      else codec.decodePrefix (m.cells e).data =
        some (UpgradeableLoaderState.program programdataKey)
    else e = programdata → (m.cells e).data = image
  owner : if e = program then (m.cells e).owner = programId
    else e = programdata → (m.cells e).owner = owner
  executable : e = program → (m.cells e).executable = true

section

variable {m : Machine κ} {programId authority programdataKey : Pubkey} {slot : UInt64} {len : ℕ}
  {payer programdata program buffer : κ}

theorem deployed_lamports {e : κ} (h : e ≠ buffer) :
    ((deployed m programId authority programdataKey slot len payer programdata program buffer).cells
      e).lamports = if e = payer then satAdd (m.cells payer).lamports (m.cells buffer).lamports
        else (m.cells e).lamports := by
  rw [deployed,Machine.setData_of_ne _ h,Machine.update_of_ne _ h,Machine.update_cells]
  split
  · next he =>
    subst he
    simp only [Machine.update_lamports,copied,Machine.packState,Machine.setData,implies_true]
  · simp only [Machine.update_lamports,copied,Machine.packState,Machine.setData,implies_true]

theorem deployed_owner (e : κ) :
    ((deployed m programId authority programdataKey slot len payer programdata program buffer).cells
      e).owner = if e = program then programId else (m.cells e).owner := by
  rw [deployed,Machine.setData,Machine.update_field Account.owner,
    Machine.update_field Account.owner,Machine.update_field Account.owner,Machine.update_cells]
  · split
    · rfl
    · simp only [copied,Machine.packState,Machine.setData,Machine.update_field Account.owner,
        implies_true]
  all_goals exact fun _ => rfl

theorem deployed_executable_eq (e : κ) :
    ((deployed m programId authority programdataKey slot len payer programdata program buffer).cells
      e).executable = if e = program then true else (m.cells e).executable := by
  rw [deployed,Machine.setData,Machine.update_field Account.executable,
    Machine.update_field Account.executable,Machine.update_field Account.executable,
    Machine.update_cells]
  · split
    · rfl
    · simp only [copied,Machine.packState,Machine.setData,Machine.update_field Account.executable,
        implies_true]
  all_goals exact fun _ => rfl

/-- A field that deployments leave alone. -/
theorem deployed_field {β : Type} (f : Account → β)
    (hf : ∀ (a : Account) (l : UInt64) (data : List UInt8) (owner : Pubkey) (executable : Bool),
      f { a with lamports := l, data, owner, executable } = f a) (e : κ) :
    f ((deployed m programId authority programdataKey slot len payer programdata
      program buffer).cells e) = f (m.cells e) := by
  rw [deployed,Machine.setData,Machine.update_field f,Machine.update_field f,Machine.update_field f,
    Machine.update_field f,Machine.packState,Machine.update_field f,copied,Machine.setData,
    Machine.update_field f,Machine.packState,Machine.update_field f]
  all_goals exact fun a => hf a _ _ _ _

/-- The code is copied between the record and zeros. -/
theorem copied_image {space : ℕ} (hne : buffer ≠ programdata)
    (hzero : (m.cells programdata).data = List.replicate space 0)
    (hlen : len = (m.cells buffer).data.length-sizeOfBufferMetadata) :
    ((copied (m.packState programdata (programData slot (some authority))) len buffer
      programdata).cells programdata).data = programdataImage slot authority space
        ((m.cells buffer).data.drop sizeOfBufferMetadata) := by
  have hcode : ((m.cells buffer).data.drop sizeOfBufferMetadata).take len =
      (m.cells buffer).data.drop sizeOfBufferMetadata :=
    List.take_of_length_le (by rw [List.length_drop,hlen])
  have hsize : (programData slot (some authority)).serializedSize = sizeOfProgramdataMetadata :=
    encode_programData_length slot authority
  rw [copied,Machine.setData_self,Machine.packState_data,Machine.packState,
    Machine.update_of_ne _ hne,hcode,hzero,hsize,List.drop_replicate,programdataImage]
  have hover := overwriteAt_append (codec.encode (programData slot (some authority)))
    (List.replicate (space-sizeOfProgramdataMetadata) 0)
    ((m.cells buffer).data.drop sizeOfBufferMetadata) 0
  rw [encode_programData_length,Nat.add_zero] at hover
  rw [hover,overwriteAt,List.take_zero,List.nil_append,Nat.zero_add,List.drop_replicate]

end

/-- A payer that gives and gets ends where it was when both are the same, or when it was full. -/
theorem satAdd_satSub_eq {a b c : UInt64} (h : b ≤ a) :
    satAdd (satSub a b) c = a ↔ c = b ∨ a = maxU64 ∧ b ≤ c := by
  have ha := a.toNat_lt
  have hc := c.toNat_lt
  rw [UInt64.le_iff_toNat_le] at h
  rw [UInt64.le_iff_toNat_le,← UInt64.toNat_inj,← UInt64.toNat_inj,← UInt64.toNat_inj,satAdd_toNat,
    satSub_toNat,maxU64_toNat]
  omega

variable {m m' : Machine κ} {payer programdata program buffer : κ} {maxDataLen : UInt64}

theorem repaid_iff {e : κ} (hl : maxDataLen ≤ (m.cells payer).lamports) (hne : buffer ≠ programdata)
    (he : e ≠ buffer) :
    (if e = payer then satAdd ((m.move payer programdata maxDataLen).cells payer).lamports
        ((m.move payer programdata maxDataLen).cells buffer).lamports
      else ((m.move payer programdata maxDataLen).cells e).lamports) = (m.cells e).lamports ↔
    (e = payer →
      if payer = programdata then (m.cells buffer).lamports = 0 ∨ (m.cells e).lamports = maxU64
      else (m.cells buffer).lamports = maxDataLen ∨
        (m.cells e).lamports = maxU64 ∧ maxDataLen ≤ (m.cells buffer).lamports) ∧
    (e = programdata → e ≠ payer → maxDataLen = 0 ∨ (m.cells e).lamports = maxU64) := by
  by_cases hp : e = payer
  · subst hp
    rw [if_pos rfl,Machine.move_cells_of_ne m he.symm hne]
    simp only [true_imp_iff,ne_eq,not_true_eq_false,false_imp_iff,implies_true,and_true]
    by_cases hd : e = programdata
    · subst hd
      rw [if_pos rfl,Machine.move_same_eq hl,satAdd_eq_left]
    · rw [if_neg hd,Machine.move,Machine.update_of_ne _ hd,Machine.update_self,satAdd_satSub_eq hl]
  · rw [if_neg hp,Machine.move_lamports_iff hl]
    simp only [hp,false_imp_iff,true_and,ne_eq,not_false_eq_true,true_imp_iff,Machine.MoveKeeps]
    constructor
    · rintro h rfl
      exact h (Ne.symm hp) rfl
    · exact fun h _ => h

section

variable {m₁ : Machine κ} {space : UInt64} {owner programId authority programdataKey : Pubkey}
  {slot : UInt64} {len : ℕ}

theorem deployed_data_iff {e : κ} (hc : Created m m₁ payer programdata maxDataLen space owner)
    (hne : buffer ≠ programdata) (he : e ≠ buffer)
    (hlen : len = (m.cells buffer).data.length-sizeOfBufferMetadata) :
    ((deployed m₁ programId authority programdataKey slot len payer programdata
      program buffer).cells e).data = (m.cells e).data ↔
    if e = program then
      if e = programdata then
        (m.cells e).data = (UpgradeableLoaderState.program programdataKey).packedOver
          (programdataImage slot authority space.toNat
            ((m.cells buffer).data.drop sizeOfBufferMetadata))
      else codec.decodePrefix (m.cells e).data =
        some (UpgradeableLoaderState.program programdataKey)
    else e = programdata → (m.cells e).data = programdataImage slot authority space.toNat
      ((m.cells buffer).data.drop sizeOfBufferMetadata) := by
  have hzero : (m₁.cells programdata).data = List.replicate space.toNat 0 := by
    rw [hc.data,if_pos rfl]
  have hbuffer : (m₁.cells buffer).data = (m.cells buffer).data := by rw [hc.data,if_neg hne]
  have himage : ((copied (m₁.packState programdata (programData slot (some authority))) len buffer
      programdata).cells programdata).data = programdataImage slot authority space.toNat
        ((m.cells buffer).data.drop sizeOfBufferMetadata) :=
    hbuffer ▸ copied_image hne hzero (hbuffer.symm ▸ hlen)
  rw [deployed_data he]
  by_cases hd : e = programdata
  · subst hd
    by_cases hp : e = program
    · subst hp
      rw [if_pos rfl,if_pos rfl,Machine.packState_data,himage,eq_comm]
      rfl
    · rw [if_neg hp,Machine.packState,Machine.update_of_ne _ hp,himage,eq_comm]
      simp
  · have hcopied :
      ((copied (m₁.packState programdata (programData slot (some authority))) len buffer
        programdata).cells e).data = (m.cells e).data := by
      rw [copied,Machine.setData_of_ne _ hd,Machine.packState,Machine.update_of_ne _ hd,
        hc.data,if_neg hd]
    by_cases hp : e = program
    · subst hp
      rw [if_pos rfl,if_neg hd,Machine.packState_data,hcopied,← packedOver_eq_iff]
      rfl
    · rw [if_neg hp,Machine.packState,Machine.update_of_ne _ hp,hcopied]
      simp [hd]

/-- A deployment behind the creation of the programdata account. -/
theorem deployed_keeps_iff (hc : Created m m₁ payer programdata maxDataLen space owner)
    (hl : maxDataLen ≤ (m.cells payer).lamports) (hne : buffer ≠ programdata)
    (hb : sizeOfBufferMetadata ≤ (m.cells buffer).data.length)
    (hlen : len = (m.cells buffer).data.length-sizeOfBufferMetadata) (e : κ) :
    (deployed m₁ programId authority programdataKey slot len payer programdata program
      buffer).cells e = m.cells e ↔
    DeployKeeps m payer programdata program buffer maxDataLen owner programId programdataKey
      (programdataImage slot authority space.toNat
        ((m.cells buffer).data.drop sizeOfBufferMetadata)) e := by
  by_cases he : e = buffer
  · subst he
    refine iff_of_false (fun h => ?_) fun h => h.notClosed rfl
    have hd := congrArg Account.data h
    rw [deployed_buffer] at hd
    rw [← hd] at hb
    exact absurd hb (by decide)
  · have howner : (if e = program then programId else (m₁.cells e).owner) = (m.cells e).owner ↔
        if e = program then (m.cells e).owner = programId
        else e = programdata → (m.cells e).owner = owner := by
      rw [hc.owner]
      split
      · exact eq_comm
      · split
        · next hd => exact ⟨fun h _ => h.symm,fun h => (h hd).symm⟩
        · next hd => simp [hd]
    have hexec : (if e = program then true else (m₁.cells e).executable) = (m.cells e).executable ↔
        (e = program → (m.cells e).executable = true) := by
      rw [hc.executable]
      split
      · next hp => exact ⟨fun h _ => h.symm,fun h => (h hp).symm⟩
      · next hp => simp [hp]
    rw [Account.eq_iff,deployed_data_iff hc hne he hlen,deployed_lamports he,
      hc.lamports,hc.lamports,hc.lamports,repaid_iff hl hne he,deployed_owner,howner,
      deployed_executable_eq,hexec,deployed_field Account.pubkey fun _ _ _ _ _ => rfl,hc.pubkey,
      deployed_field Account.rentEpoch fun _ _ _ _ _ => rfl,hc.rentEpoch]
    constructor
    · rintro ⟨-,⟨hrepaid,hfunded⟩,hdata,howner,hexec,-⟩
      exact ⟨he,hrepaid,hfunded,hdata,howner,hexec⟩
    · rintro ⟨-,hrepaid,hfunded,hdata,howner,hexec⟩
      exact ⟨rfl,⟨hrepaid,hfunded⟩,hdata,howner,hexec,rfl⟩

end

theorem packState_keeps_iff {c e : κ} {state : UpgradeableLoaderState} :
    (m.packState c state).cells e = m.cells e ↔
      (e = c → codec.decodePrefix (m.cells e).data = some state) := by
  by_cases he : e = c
  · subst he
    rw [Machine.packState,Machine.update_self,Account.eq_iff,← packedOver_eq_iff]
    simp [packedOver]
  · rw [Machine.packState,Machine.update_of_ne _ he]
    simp [he]

/-- Writing behind the header of a buffer leaves the header. -/
theorem write_keeps_iff {c e : κ} {a : Pubkey} {offset : ℕ} {bytes : List UInt8}
    (hd : codec.decodePrefix (m.cells c).data = some (UpgradeableLoaderState.buffer (some a)))
    (hl : sizeOfBufferMetadata+offset+bytes.length ≤ (m.cells c).data.length) :
    ((m.setData c (overwriteAt (m.cells c).data (sizeOfBufferMetadata+offset) bytes)).packState c
      (UpgradeableLoaderState.buffer (some a))).cells e = m.cells e ↔ (e = c →
        ((m.cells e).data.drop (sizeOfBufferMetadata+offset)).take bytes.length = bytes) := by
  by_cases he : e = c
  · subst he
    have hsize : serializedSize (.buffer (some a)) ≤ sizeOfBufferMetadata+offset :=
      (serializedSize_buffer_le (some a)).trans (Nat.le_add_right _ _)
    rw [Machine.packState_eq_self (by
      rw [Machine.setData_self]
      exact decodePrefix_overwriteAt hd hsize),Machine.setData_self,Account.eq_iff,
      ← overwriteAt_eq_self_iff hl]
    simp
  · rw [Machine.packState,Machine.update_of_ne _ he,Machine.setData_of_ne _ he]
    simp [he]

theorem closed_keeps_iff {c d e : κ} : (closed m c d).cells e = m.cells e ↔
    (e = c → (m.cells e).lamports = 0 ∧ (m.cells e).data = []) ∧
      (e = d → e ≠ c → (m.cells c).lamports = 0 ∨ (m.cells e).lamports = maxU64) := by
  by_cases hc : e = c
  · subst hc
    have hcell : (closed m e d).cells e = { m.cells e with lamports := 0, data := [] } := by
      rw [closed,Machine.setData_self,Machine.update_self,Machine.update_cells]
      split <;> rfl
    rw [hcell,Account.eq_iff]
    constructor
    · rintro ⟨-,hl,hdata,-⟩
      exact ⟨fun _ => ⟨hl.symm,hdata.symm⟩,fun _ hne => absurd rfl hne⟩
    · rintro ⟨h,-⟩
      obtain ⟨hl,hdata⟩ := h rfl
      exact ⟨rfl,hl.symm,hdata.symm,rfl,rfl,rfl⟩
  · by_cases hd : e = d
    · subst hd
      rw [closed,Machine.setData_of_ne _ hc,Machine.update_of_ne _ hc,Machine.update_self,
        Account.eq_iff,satAdd_eq_left]
      simp [hc]
    · simp [closed,hc,hd]

end BpfLoaderProgram

open BpfLoaderProgram UpgradeableLoaderState in
/-- A loader instruction makes no difference to a cell. What is initialized was not before. -/
def LoaderInstruction.Keeps (sysvars : Sysvars) (ctx : InvokeContext) (i : LoaderInstruction)
    (accounts : List (AccountInfo κ)) (m : Machine κ) (e : κ) : Prop :=
  match i,accounts with
  | .initializeBuffer,info :: _ => e ≠ info.account
  | .write offset bytes,info :: _ => e = info.account →
    ((m.cells e).data.drop (sizeOfBufferMetadata+offset.toNat)).take bytes.length = bytes
  | .deployWithMaxDataLen maxDataLen,
      payerInfo :: programdataInfo :: programInfo :: bufferInfo :: _ :: clockInfo :: _ ::
        authority :: _ =>
    ∀ space owner slot, SystemInstruction.codec.decodeAll ctx.instructionData =
        some (.createAccount maxDataLen space owner) →
      sysvars.clockPrefix (if clockInfo.account = programdataInfo.account then
        List.replicate space.toNat 0 else (m.cells clockInfo.account).data) = some slot →
      DeployKeeps m payerInfo.account programdataInfo.account programInfo.account bufferInfo.account
        maxDataLen owner ctx.programId programdataInfo.pubkey
          (programdataImage slot authority.pubkey
          space.toNat ((m.cells bufferInfo.account).data.drop sizeOfBufferMetadata)) e
  | .setAuthority newAuthority,target :: authority :: _ => e = target.account →
    newAuthority = some authority.pubkey
  | .close,target :: recipient :: _ =>
    (e = target.account → (m.cells e).lamports = 0 ∧ (m.cells e).data = []) ∧
      (e = recipient.account → e ≠ target.account →
        (m.cells target.account).lamports = 0 ∨ (m.cells e).lamports = maxU64)
  | _,_ => True

namespace BpfLoaderProgram
open UpgradeableLoaderState

variable {m m' : Machine κ}

theorem Effect.keeps_iff {host : Host} {ctx : InvokeContext} {n : ℕ} {i : LoaderInstruction}
    {accounts : List (AccountInfo κ)}
    (hi : LoaderInstruction.codec.decodePrefix ctx.instructionData = some i)
    (h : Effect host.sysvars (ChainedProgramExecutor.executeAt host (n+1)) ctx i accounts m m')
    (e : κ) :
    m'.cells e = m.cells e ↔ i.Keeps host.sysvars ctx accounts m e := by
  cases h with
  | @initializeBuffer info authority _ hu hl =>
    rw [packState_keeps_iff,LoaderInstruction.Keeps]
    refine forall_congr' fun he => iff_false_intro fun hd => ?_
    rw [ofDataOrDefault,← he,hd] at hu
    cases hu
  | write hb hs hl => exact write_keeps_iff hb hl
  | setBufferAuthority hs hb hl =>
    rw [packState_keeps_iff,LoaderInstruction.Keeps]
    refine forall_congr' fun he => ?_
    rw [he,hb]
    simp [eq_comm]
  | setProgramAuthority hs hb hl =>
    rw [packState_keeps_iff,LoaderInstruction.Keeps]
    refine forall_congr' fun he => ?_
    rw [he,hb]
    simp [eq_comm]
  | close hs => exact closed_keeps_iff
  | @deploy maxDataLen payer programdata program buffer rentInfo clock systemInfo
      authority rest _ m₁ rent slot hs hr hb hlen hinv hc hne =>
    rw [InvokeContext.invoke,ChainedProgramExecutor.executeAt_system host n rfl] at hinv
    obtain ⟨j,hj,he⟩ := SystemProgram.entrypoint_ok.mp hinv
    obtain ⟨space,owner,rfl⟩ := deploy_as_createAccount hi hj
    have hcreated := created_of_effect he
    have hclock : (m₁.cells clock.account).data = if clock.account = programdata.account then
        List.replicate space.toNat 0 else (m.cells clock.account).data :=
          hcreated.data clock.account
    rw [deployed_keeps_iff hcreated he.moves.1 hne hb rfl,LoaderInstruction.Keeps]
    constructor
    · intro hk space' owner' slot' hj' hc'
      obtain ⟨⟩ := Option.some.inj (hj.symm.trans hj')
      rw [hclock] at hc
      obtain rfl := Option.some.inj (hc.symm.trans hc')
      exact hk
    · exact fun hk => hk space owner slot hj (hclock ▸ hc)

end BpfLoaderProgram

/-! ## All three programs -/

/-- The instruction that a native program reads from its context makes no difference to a cell. -/
def NativeKeeps (host : Host) (programId : Pubkey) (ctx : InvokeContext)
    (accounts : List (AccountInfo κ)) (m : Machine κ) (e : κ) : Prop :=
  if programId = systemProgramId then ∀ i,
    SystemInstruction.codec.decodeAll ctx.instructionData = some i → i.Keeps accounts m e
  else if programId = tokenProgramId then ∀ i,
    TokenInstruction.codec.decodeAll ctx.instructionData = some i → i.Keeps accounts m e
  else ∀ i, LoaderInstruction.codec.decodePrefix ctx.instructionData = some i →
    i.Keeps host.sysvars ctx accounts m e

theorem execute_keeps_iff {host : Host} {instruction : Instruction} {ctx : InvokeContext}
    {accounts : List (AccountInfo κ)} {m m' : Machine κ}
    (hn : instruction.programId ∈ nativePrograms)
    (h : ChainedProgramExecutor.execute host instruction ctx accounts m = (.ok (),m')) (e : κ) :
    m'.cells e = m.cells e ↔ NativeKeeps host instruction.programId ctx accounts m e := by
  simp only [ChainedProgramExecutor.execute,ChainedProgramExecutor.executeAt,
    ChainedProgramExecutor.step,hn,if_true,NativeProgramExecutor.execute] at h
  unfold NativeKeeps
  split at h
  · next hs =>
    obtain ⟨i,hd,he⟩ := SystemProgram.entrypoint_ok.mp h
    simp only [if_pos hs,hd,Option.some.injEq,forall_eq']
    exact he.keeps_iff e
  · next hs =>
    rw [if_neg hs]
    split at h
    · next ht =>
      obtain ⟨i,hd,he⟩ := TokenProgram.entrypoint_effect h
      simp only [if_pos ht,hd,Option.some.injEq,forall_eq']
      exact he.keeps_iff (n := 0) hd e
    · next ht =>
      rw [if_neg ht]
      split at h
      · obtain ⟨i,hd,he⟩ := BpfLoaderProgram.entrypoint_effect h
        simp only [hd,Option.some.injEq,forall_eq']
        exact he.keeps_iff (n := 0) hd e
      · cases h

/-- A native instruction that returns leaves the read-only accounts of its list as they are exactly
when what it assigns to each of them makes no difference. -/
theorem native_read_only_iff {κ : Type} [DecidableEq κ] (host : Host) (instruction : Instruction)
    (ctx : InvokeContext) (accounts : List (AccountInfo κ)) (m m' : Machine κ)
    (hn : instruction.programId ∈ nativePrograms)
    (h : ChainedProgramExecutor.execute host instruction ctx accounts m = (.ok (),m')) :
    (∀ e, ReadOnly accounts e → m'.cells e = m.cells e) ↔
      ∀ e, ReadOnly accounts e → NativeKeeps host instruction.programId ctx accounts m e :=
  forall_congr' fun e => forall_congr' fun _ => execute_keeps_iff hn h e

/-- A payment of three lamports by a signer that is only read. -/
def readOnlyPayment : Instruction :=
  ⟨systemProgramId,[⟨.ofByte 1,true,false⟩,⟨.ofByte 2,false,true⟩],
    SystemInstruction.codec.encode (.transfer 3)⟩

/-- The payment succeeds and takes the lamports of the read-only account. -/
theorem read_only_payer_pays :
    let m : Machine (Fin [Pubkey.ofByte 1,.ofByte 2].length) := ⟨![wallet 1 10,wallet 2 0],0,∅⟩
    ∃ infos, Bank.prepareAccountInfos readOnlyPayment m.cells = .ok infos ∧
      ∃ m', ChainedProgramExecutor.execute default readOnlyPayment
        ⟨readOnlyPayment.programId,readOnlyPayment.data,300⟩ infos m = (.ok (),m') ∧
        ∃ e, ReadOnly infos e ∧ m'.cells e ≠ m.cells e := by
  intro m
  refine ⟨_,rfl,_,Exec.run_of_result (by decide),⟨0,by decide⟩,
    ⟨⟨_,List.mem_cons_self,rfl⟩,?_⟩,by decide⟩
  decide

/-- Assigning the first wallet leaves the second one, which is only read. -/
theorem read_only_wallet_kept :
    let accounts := [walletInfo false,{ walletInfo true with isWritable := false }]
    let ctx : InvokeContext :=
      ⟨systemProgramId,SystemInstruction.codec.encode (.assign tokenProgramId),300⟩
    let run := ChainedProgramExecutor.execute default ⟨systemProgramId,[],ctx.instructionData⟩ ctx
      accounts walletPair
    run.1 = .ok () ∧ ReadOnly accounts true ∧
      ∀ e, ReadOnly accounts e → run.2.cells e = walletPair.cells e := by
  intro accounts ctx run
  have hok : run.1 = .ok () := by decide
  refine ⟨hok,⟨⟨_,List.mem_cons_of_mem _ List.mem_cons_self,rfl⟩,by decide⟩,
    (native_read_only_iff default ⟨systemProgramId,[],ctx.instructionData⟩ ctx accounts walletPair _
      (by decide) (Exec.run_of_result hok)).mpr ?_⟩
  rintro e ⟨-,he⟩ i hi
  have hd : SystemInstruction.codec.decodeAll ctx.instructionData =
      some (.assign tokenProgramId) := by
    decide
  obtain rfl := Option.some.inj (hd.symm.trans hi)
  rintro rfl
  exact absurd (he _ List.mem_cons_self rfl) (by decide)

end TinySolana
