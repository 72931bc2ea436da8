import TinySolana.Footprint
import TinySolana.Foundations.Runs

/-!
# Authority over loader accounts

A buffer or programdata account names the key that may change it, or no key at all. `Close` and
`DeployWithMaxDataLen` ask for some signature but not for that of the key, so an instruction keeps
to the authorities exactly when whoever signs it happens to hold them.
-/

namespace TinySolana
open Foundations

/-- The authority that the state of a buffer or programdata account names. -/
def UpgradeableLoaderState.authority : UpgradeableLoaderState → Option (Option Pubkey)
  | buffer authorityAddress => some authorityAddress
  | programData _ authorityAddress => some authorityAddress
  | _ => none

/-- The authority that governs an account with the given data. -/
def governing (data : List UInt8) : Option (Option Pubkey) :=
  (UpgradeableLoaderState.codec.decodePrefix data).bind UpgradeableLoaderState.authority

theorem governing_of_decode {data : List UInt8} {state : UpgradeableLoaderState}
    (h : UpgradeableLoaderState.codec.decodePrefix data = some state) :
    governing data = state.authority := by
  rw [governing,h]
  rfl

@[simp] theorem governing_encode (state : UpgradeableLoaderState) (rest : List UInt8) :
    governing (UpgradeableLoaderState.codec.encode state ++ rest) = state.authority :=
  governing_of_decode ((Codec.decodePrefix_eq_some _).mpr
    ⟨UpgradeableLoaderState.codec_fits state,rest,rfl⟩)

@[simp] theorem governing_nil : governing [] = none := by decide

variable {κ : Type}

/-- An account info with the key signed. -/
def Signed (accounts : List (AccountInfo κ)) (a : Pubkey) : Prop :=
  ∃ info ∈ accounts, info.pubkey = a ∧ info.isSigner = true

/-- No account is changed or loses lamports but by the authority that governs it. -/
structure AuthorityLaw (accounts : List (AccountInfo κ)) (m m' : Machine κ) : Prop where
  removed : ∀ c, governing (m.cells c).data = some none →
    (m'.cells c).data = (m.cells c).data ∧ (m.cells c).lamports ≤ (m'.cells c).lamports
  held : ∀ c a, governing (m.cells c).data = some (some a) →
    (m'.cells c).data ≠ (m.cells c).data ∨ (m'.cells c).lamports < (m.cells c).lamports →
      Signed accounts a

/-- Whatever governs the account has signed. -/
def Authorized (accounts : List (AccountInfo κ)) (m : Machine κ) (c : κ) : Prop :=
  ∀ authority, governing (m.cells c).data = some authority →
    ∃ a, authority = some a ∧ Signed accounts a

/-- The data changed or lamports are gone. -/
def Harmed (m m' : Machine κ) (c : κ) : Prop :=
  (m'.cells c).data ≠ (m.cells c).data ∨ (m'.cells c).lamports < (m.cells c).lamports

/-- What the loader would have to check for an instruction. The payer of a deployment gets the
lamports of the buffer and loses `max_data_len`. -/
def LoaderInstruction.Guarded (i : LoaderInstruction) (accounts : List (AccountInfo κ))
    (m : Machine κ) : Prop :=
  match i,accounts with
  | .close,target :: _ => Authorized accounts m target.account
  | .deployWithMaxDataLen maxDataLen,payer :: programdata :: program :: buffer :: _ =>
    Authorized accounts m programdata.account ∧ Authorized accounts m program.account ∧
      Authorized accounts m buffer.account ∧
      (Authorized accounts m payer.account ∨ maxDataLen ≤ (m.cells buffer.account).lamports)
  | _,_ => True

section Law

variable {accounts : List (AccountInfo κ)} {m m' : Machine κ} {c : κ}

theorem authorityLaw_iff :
    AuthorityLaw accounts m m' ↔ ∀ c, Harmed m m' c → Authorized accounts m c := by
  constructor
  · rintro ⟨hr,hh⟩ c hc (_ | a) hg
    · obtain ⟨hd,hl⟩ := hr c hg
      exact absurd hc (not_or.mpr ⟨not_not.mpr hd,UInt64.not_lt.mpr hl⟩)
    · exact ⟨a,rfl,hh c a hg hc⟩
  · intro h
    refine ⟨fun c hg => ?_,fun c a hg hc => ?_⟩
    · by_contra hn
      have hc : Harmed m m' c := by
        rw [not_and_or,UInt64.not_le] at hn
        exact hn
      obtain ⟨a,ha,-⟩ := h c hc none hg
      cases ha
    · obtain ⟨b,hb,hs⟩ := h c hc (some a) hg
      cases hb
      exact hs

theorem authorized_of_signer {state : UpgradeableLoaderState} {info : AccountInfo κ}
    (h : UpgradeableLoaderState.codec.decodePrefix (m.cells c).data = some state)
    (ha : state.authority = some (some info.pubkey)) (hi : info ∈ accounts)
    (hs : info.isSigner = true) : Authorized accounts m c := by
  intro authority hg
  rw [governing_of_decode h,ha] at hg
  cases hg
  exact ⟨info.pubkey,rfl,info,hi,rfl,hs⟩

/-- Where the instruction leaves nothing that its signers do not govern, they governed before. -/
theorem Authorized.before (hl : ∀ c, Harmed m m' c → Authorized accounts m c)
    (h : Authorized accounts m' c) : Authorized accounts m c := by
  by_cases hd : (m'.cells c).data = (m.cells c).data
  · intro authority hg
    exact h authority (by rwa [hd])
  · exact hl c (.inl hd)

theorem authorized_of_governing (h : governing (m.cells c).data = none) :
    Authorized accounts m c := by
  intro authority hg
  rw [h] at hg
  cases hg

/-- Harm is done only where the footprint allows it. -/
theorem Footprint.Within.harmed {f : Footprint κ} (h : f.Within m m') (hc : Harmed m m' c) :
    c ∈ f.data ∨ c ∈ f.debit := by
  by_contra hn
  rw [not_or] at hn
  rcases hc with hd | hl
  · exact hd (h.data c hn.1)
  · exact UInt64.not_lt.mpr (h.debit c hn.2) hl

/-- All instructions but deployment harm their first account only. -/
theorem harmed_head {i : LoaderInstruction} {target : AccountInfo κ} {rest : List (AccountInfo κ)}
    {c : κ} (hi : ∀ n, i ≠ .deployWithMaxDataLen n)
    (h : c ∈ (i.writes.resolve (target :: rest)).data ∨
      c ∈ (i.writes.resolve (target :: rest)).debit) : c = target.account := by
  cases i with
  | deployWithMaxDataLen n => exact absurd rfl (hi n)
  | upgrade =>
      simp [Footprint.resolve,Footprint.cellsAt,LoaderInstruction.writes,Footprint.empty] at h
  | _ => simpa [Footprint.resolve,Footprint.cellsAt,LoaderInstruction.writes] using h

end Law

/-! ## Deployment -/

variable [DecidableEq κ]

theorem Machine.packState_data (m : Machine κ) (c : κ) (state : UpgradeableLoaderState) :
    ((m.packState c state).cells c).data = UpgradeableLoaderState.codec.encode state ++
      (m.cells c).data.drop state.serializedSize := by
  rw [Machine.packState,Machine.update_self]

/-- Assignments to other fields keep a field. -/
theorem Machine.update_field {β : Type} (f : Account → β) (m : Machine κ) {F : Account → Account}
    (hF : ∀ a, f (F a) = f a) (c d : κ) : f ((m.update c F).cells d) = f (m.cells d) := by
  rw [Machine.update_cells]
  split
  · exact hF _
  · rfl

theorem Machine.update_lamports (m : Machine κ) {F : Account → Account}
    (hF : ∀ a, (F a).lamports = a.lamports) (c d : κ) :
    ((m.update c F).cells d).lamports = (m.cells d).lamports :=
      m.update_field Account.lamports hF c d

namespace BpfLoaderProgram
open UpgradeableLoaderState

theorem encode_programData_length (slot : UInt64) (a : Pubkey) :
    (codec.encode (programData slot (some a))).length = sizeOfProgramdataMetadata := by
  have hs : sizeOfProgramdataMetadata = 45 := by decide
  rw [hs]
  change (leBytes 4 3 ++ (leBytes 8 slot.toNat ++ ([1] ++ a.bytes))).length = 45
  simp [a.size]

/-- The code is copied behind the header of the programdata account. -/
theorem copied_data (m : Machine κ) (slot : UInt64) (a : Pubkey) (len : ℕ) (b d : κ) : ∃ rest,
    ((copied (m.packState d (programData slot (some a))) len b d).cells d).data =
      codec.encode (programData slot (some a)) ++ (((((m.packState d (programData slot
        (some a))).cells b).data.drop sizeOfBufferMetadata).take len) ++ rest) := by
  rw [copied,Machine.setData_self,overwriteAt,m.packState_data d,← encode_programData_length slot a,
    List.take_left,List.append_assoc]
  exact ⟨_,rfl⟩

variable {m : Machine κ} {programId authority programdataKey : Pubkey} {slot : UInt64} {len : ℕ}
  {payer programdata program buffer : κ}

theorem deployed_buffer : ((deployed m programId authority programdataKey slot len payer programdata
    program buffer).cells buffer).data = [] := by
  rw [deployed,Machine.setData_self]

/-- Only the buffer loses its data where the lamports are paid out. -/
theorem deployed_data {c : κ} (h : c ≠ buffer) :
    ((deployed m programId authority programdataKey slot len payer programdata program buffer).cells
      c).data = (((copied (m.packState programdata (programData slot (some authority))) len buffer
        programdata).packState program (.program programdataKey)).cells c).data := by
  rw [deployed,Machine.setData_of_ne _ h,Machine.update_of_ne _ h,Machine.update_cells]
  split
  all_goals
    rw [Machine.update_cells]
    split <;> rfl

theorem deployed_program (h : program ≠ buffer) : ∃ rest,
    ((deployed m programId authority programdataKey slot len payer programdata program buffer).cells
      program).data = codec.encode (.program programdataKey) ++ rest := by
  rw [deployed_data h,Machine.packState_data]
  exact ⟨_,rfl⟩

theorem deployed_programdata (h : programdata ≠ buffer) (hp : programdata ≠ program) : ∃ rest,
    ((deployed m programId authority programdataKey slot len payer programdata program buffer).cells
      programdata).data = codec.encode (programData slot (some authority)) ++ rest := by
  obtain ⟨rest,hr⟩ := copied_data m slot authority len buffer programdata
  rw [deployed_data h,Machine.packState,Machine.update_of_ne _ hp,hr]
  exact ⟨_,rfl⟩

/-- A payer of its own gets the lamports of the buffer. -/
theorem deployed_payer (hb : payer ≠ buffer) :
    ((deployed m programId authority programdataKey slot len payer programdata program buffer).cells
      payer).lamports = satAdd (m.cells payer).lamports (m.cells buffer).lamports := by
  rw [deployed,Machine.setData_of_ne _ hb,Machine.update_of_ne _ hb,Machine.update_self]
  simp only [Machine.update_lamports,copied,Machine.packState,Machine.setData,implies_true]

end BpfLoaderProgram

/-! ## Steps -/

variable {accounts : List (AccountInfo κ)} {m m₁ m' : Machine κ} {host : Host} {ctx : InvokeContext}

theorem SystemProgram.created_payer {maxDataLen space : UInt64} {owner : Pubkey}
    {payer programdata : κ} (h : payer ≠ programdata) :
    ((allocate (m.move payer programdata maxDataLen) programdata space owner).cells
      payer).lamports = satSub (m.cells payer).lamports maxDataLen := by
  rw [allocate_lamports,Machine.move,Machine.update_of_ne _ h,Machine.update_self]

/-- A payer that gives and gets is out of pocket exactly when it gets less than it gives. -/
theorem satAdd_satSub_lt {a b c : UInt64} (h : b ≤ a) : satAdd (satSub a b) c < a ↔ c < b := by
  have ha := a.toNat_lt
  rw [UInt64.le_iff_toNat_le] at h
  rw [UInt64.lt_iff_toNat_lt,UInt64.lt_iff_toNat_lt,satAdd_toNat,satSub_toNat]
  omega

/-- The payer of a deployment loses lamports unless the buffer holds as many as it pays. -/
theorem SystemProgram.Effect.deployed_payer_lt {maxDataLen space : UInt64} {owner : Pubkey}
    {payerInfo programdataInfo : AccountInfo κ} {rest : List (AccountInfo κ)}
    {programId authority programdataKey : Pubkey} {slot : UInt64} {len : ℕ} {program buffer : κ}
    (h : Effect (.createAccount maxDataLen space owner) (payerInfo :: programdataInfo :: rest) m m₁)
    (hd : payerInfo.account ≠ programdataInfo.account) (hb : payerInfo.account ≠ buffer)
    (hbd : buffer ≠ programdataInfo.account) :
    ((BpfLoaderProgram.deployed m₁ programId authority programdataKey slot len payerInfo.account
      programdataInfo.account program buffer).cells payerInfo.account).lamports <
        (m.cells payerInfo.account).lamports ↔ (m.cells buffer).lamports < maxDataLen := by
  cases h with
  | createAccount hs ht hl hp =>
    rw [BpfLoaderProgram.deployed_payer hb,created_payer hd,allocate_lamports,
      Machine.move_cells_of_ne m hb.symm hbd]
    exact satAdd_satSub_lt hl

theorem BpfLoaderProgram.Effect.guarded_of_lawful {d : ℕ} {i : LoaderInstruction}
    (hi : LoaderInstruction.codec.decodePrefix ctx.instructionData = some i)
    (h : Effect host.sysvars (ChainedProgramExecutor.executeAt host (d+1)) ctx i accounts m m')
    (hl : ∀ c, Harmed m m' c → Authorized accounts m c) : i.Guarded accounts m := by
  cases h with
  | initializeBuffer hu hf => trivial
  | write hb hs hf => trivial
  | setBufferAuthority hs hb hf => trivial
  | setProgramAuthority hs hb hf => trivial
  | @close target recipient authority rest m hs =>
    -- What is left is governed by no one.
    refine Authorized.before hl (authorized_of_governing ?_)
    rw [closed,Machine.setData_self]
    exact governing_nil
  | @deploy maxDataLen payer programdata program buffer _ _ system authority _ _ m₁ _ slot hs hr hb
      hm hv hc hne =>
    obtain ⟨space,owner,he⟩ := invoke_createAccount_effect hi hv
    set accounts := payer :: programdata :: program :: buffer :: _
    have hbuf : Authorized accounts m buffer.account :=
      Authorized.before hl (authorized_of_governing (by rw [deployed_buffer,governing_nil]))
    have hprog : Authorized accounts m program.account := by
      by_cases hpb : program.account = buffer.account
      · rwa [hpb]
      · obtain ⟨rest,hr⟩ := deployed_program (m := m₁) hpb
        exact Authorized.before hl (authorized_of_governing (by rw [hr,governing_encode]; rfl))
    have hdata : Authorized accounts m programdata.account := by
      by_cases hdp : programdata.account = program.account
      · rwa [hdp]
      · -- The account is left to the authority, which has signed.
        refine Authorized.before hl fun a ha => ?_
        obtain ⟨rest,hr⟩ := deployed_programdata (m := m₁) hne.symm hdp
        rw [hr,governing_encode] at ha
        cases ha
        exact ⟨_,rfl,authority,by simp [accounts],rfl,hs⟩
    refine ⟨hdata,hprog,hbuf,?_⟩
    by_cases hpd : payer.account = programdata.account
    · exact .inl (by rwa [hpd])
    by_cases hpb : payer.account = buffer.account
    · exact .inl (by rwa [hpb])
    by_cases hlt : (m.cells buffer.account).lamports < maxDataLen
    · exact .inl (hl _ (.inr ((he.deployed_payer_lt hpd hpb hne).mpr hlt)))
    · exact .inr (UInt64.not_lt.mp hlt)

theorem BpfLoaderProgram.Effect.lawful_of_guarded {d : ℕ} {i : LoaderInstruction}
    (hi : LoaderInstruction.codec.decodePrefix ctx.instructionData = some i)
    (h : Effect host.sysvars (ChainedProgramExecutor.executeAt host (d+1)) ctx i accounts m m')
    (hg : i.Guarded accounts m) {c : κ} (hc : Harmed m m' c) : Authorized accounts m c := by
  have hw := h.within hi
  have hp := hw.harmed hc
  cases h with
  | @initializeBuffer bufferInfo authority m hu hf =>
    obtain rfl : c = bufferInfo.account := harmed_head (by simp) hp
    refine authorized_of_governing ?_
    rw [governing]
    rw [UpgradeableLoaderState.ofDataOrDefault] at hu
    cases hd : UpgradeableLoaderState.codec.decodePrefix (m.cells bufferInfo.account).data with
    | none => rfl
    | some state =>
      rw [hd] at hu
      cases hu
      rfl
  | @write offset bytes bufferInfo authority rest m hb hs hf =>
    obtain rfl : c = bufferInfo.account := harmed_head (by simp) hp
    exact authorized_of_signer hb rfl (by simp) hs
  | @setBufferAuthority newAuthority target authority rest m hs hb hf =>
    obtain rfl : c = target.account := harmed_head (by simp) hp
    exact authorized_of_signer hb rfl (by simp) hs
  | @setProgramAuthority newAuthority target authority rest m slot hs hb hf =>
    obtain rfl : c = target.account := harmed_head (by simp) hp
    exact authorized_of_signer hb rfl (by simp) hs
  | @close target recipient authority rest m hs =>
    obtain rfl : c = target.account := harmed_head (by simp) hp
    exact hg
  | @deploy maxDataLen payer programdata program buffer _ _ system authority _ _ m₁ _ slot hs hr hb
      hm hv hn hne =>
    obtain ⟨space,owner,he⟩ := invoke_createAccount_effect hi hv
    obtain ⟨hdata,hprog,hbuf,hpay⟩ := hg
    by_cases hcd : c = programdata.account
    · rwa [hcd]
    by_cases hcp : c = program.account
    · rwa [hcp]
    by_cases hcb : c = buffer.account
    · rwa [hcb]
    -- What is left of the footprint is the payer, and the payer only pays.
    rw [LoaderInstruction.deploy_places] at hw hp
    have hdc := hw.data c (by simp [hcd,hcp,hcb])
    obtain rfl : c = payer.account := by simpa [hcd,hcp,hcb] using hp
    have hlt := hc.resolve_left (not_not.mpr hdc)
    exact hpay.resolve_right (UInt64.not_le.mpr ((he.deployed_payer_lt hcd hcb hne).mp hlt))

/-! ## Runs -/

/-- A loader instruction that returns `Ok`, with the context and the accounts it was given. -/
def LoaderStep (host : Host) (m : Machine κ) (call : InvokeContext × List (AccountInfo κ))
    (m' : Machine κ) : Prop :=
  BpfLoaderProgram.entrypoint host.sysvars (ChainedProgramExecutor.execute host) call.1 call.2 m =
    (.ok (),m')

/-- The call decodes as an instruction that is guarded. -/
def GuardedCall (m : Machine κ) (call : InvokeContext × List (AccountInfo κ)) : Prop :=
  ∀ i, LoaderInstruction.codec.decodePrefix call.1.instructionData = some i → i.Guarded call.2 m

theorem LoaderStep.lawful_iff {call : InvokeContext × List (AccountInfo κ)}
    (h : LoaderStep host m call m') : AuthorityLaw call.2 m m' ↔ GuardedCall m call := by
  obtain ⟨i,hi,he⟩ := BpfLoaderProgram.entrypoint_effect h
  rw [authorityLaw_iff]
  constructor
  · intro hl j hj
    rw [hi] at hj
    cases hj
    exact he.guarded_of_lawful (d := 1) hi hl
  · exact fun hg c hc => he.lawful_of_guarded (d := 1) hi (hg i hi) hc

/-- Loader instructions keep to the authorities exactly when they are guarded; where all of a run
are, an account without an authority keeps its data. -/
theorem loader_authority_iff (host : Host) :
    (∀ (m m' : Machine κ) (call : InvokeContext × List (AccountInfo κ)), LoaderStep host m call m' →
      (AuthorityLaw call.2 m m' ↔ GuardedCall m call)) ∧
    ∀ (m m' : Machine κ) (calls : List (InvokeContext × List (AccountInfo κ))),
      Run.Always (LoaderStep host) GuardedCall m calls m' → ∀ c,
        governing (m.cells c).data = some none →
        (m'.cells c).data = (m.cells c).data := by
  refine ⟨fun m m' call h => h.lawful_iff,fun m m' calls hr c hc => ?_⟩
  refine Run.Always.invariant (P := fun t => (t.cells c).data = (m.cells c).data) ?_ hr rfl
  intro s call t hs hg hst
  have hl := hst.lawful_iff.mpr hg
  exact (hl.removed c (by rw [hs,hc])).1.trans hs

/-- A buffer in the first of two cells, with five lamports and the given authority. -/
def bufferWith (authority : Option Pubkey) : Machine Bool where
  cells c := if c then default else
    { (default : Account) with
      lamports := 5
      data := UpgradeableLoaderState.codec.encode (.buffer authority) }
  computeMeter := 0
  programCache := ∅

/-- Close the first cell in favour of the second, signed for by the loader's own key. -/
def closeCall : InvokeContext × List (AccountInfo Bool) :=
  (⟨bpfLoaderUpgradeableProgramId,LoaderInstruction.codec.encode .close,0⟩,
    [⟨default,false,true,false,false,0⟩,⟨default,false,true,true,false,0⟩,
      ⟨bpfLoaderUpgradeableProgramId,true,false,true,false,0⟩])

/-- The authority itself closes its buffer, and the law is kept. -/
theorem buffer_closed_by_authority :
    AuthorityLaw closeCall.2 (bufferWith (some bpfLoaderUpgradeableProgramId))
      (BpfLoaderProgram.closed (bufferWith (some bpfLoaderUpgradeableProgramId)) false true) := by
  refine ((loader_authority_iff default).1 (bufferWith (some bpfLoaderUpgradeableProgramId))
    _ closeCall rfl).mpr ?_
  intro i hi
  obtain rfl : i = .close := by
    have hd : LoaderInstruction.codec.decodePrefix closeCall.1.instructionData = some .close := by
      decide
    rw [hd] at hi
    cases hi
    rfl
  intro authority hg
  have hb : governing ((bufferWith (some bpfLoaderUpgradeableProgramId)).cells false).data =
      some (some bpfLoaderUpgradeableProgramId) := by decide
  cases hg.symm.trans hb
  exact ⟨_,rfl,⟨bpfLoaderUpgradeableProgramId,true,false,true,false,0⟩,by simp [closeCall],rfl,rfl⟩

/-- Any signature closes a buffer whose authority was removed. -/
theorem immutable_buffer_closed :
    LoaderStep default (bufferWith none) closeCall
      (BpfLoaderProgram.closed (bufferWith none) false true) ∧
    governing ((bufferWith none).cells false).data = some none ∧
    ((BpfLoaderProgram.closed (bufferWith none) false true).cells false).data = [] ∧
    ¬AuthorityLaw closeCall.2 (bufferWith none)
      (BpfLoaderProgram.closed (bufferWith none) false true) := by
  refine ⟨rfl,by decide,rfl,fun h => ?_⟩
  have hd := (h.removed false (by decide)).1
  revert hd
  decide

end TinySolana
