import TinySolana.Invocation

/-!
# Footprints of native programs

Which accounts a native instruction writes: no program checks who owns an account, so the positions
in the account list alone decide, together with the signer flags (System program) and the record
that the data hold (token program).
-/

namespace TinySolana
open Foundations

/-- Where an instruction may replace data, reassign accounts, and take or give lamports. The places
are positions of the account list, cells or keys. -/
structure Footprint (ι : Type) where
  data : List ι
  owner : List ι
  debit : List ι
  credit : List ι

namespace Footprint

def empty {ι : Type} : Footprint ι := ⟨[],[],[],[]⟩

/-- All places together. -/
def touched {ι : Type} (f : Footprint ι) : List ι := f.data ++ f.owner ++ f.debit ++ f.credit

variable {κ : Type}

/-- The cells at some positions of an account list. -/
def cellsAt (accounts : List (AccountInfo κ)) (positions : List ℕ) : List κ :=
  positions.filterMap fun i => accounts[i]?.map AccountInfo.account

def resolve (f : Footprint ℕ) (accounts : List (AccountInfo κ)) : Footprint κ where
  data := cellsAt accounts f.data
  owner := cellsAt accounts f.owner
  debit := cellsAt accounts f.debit
  credit := cellsAt accounts f.credit

theorem cellsAt_mono {accounts : List (AccountInfo κ)} {positions positions' : List ℕ}
    (h : positions ⊆ positions') : cellsAt accounts positions ⊆ cellsAt accounts positions' :=
  List.filterMap_subset _ h

theorem cellsAt_touched (f : Footprint ℕ) (accounts : List (AccountInfo κ)) :
    cellsAt accounts f.touched = (f.resolve accounts).touched := by
  simp [touched,resolve,cellsAt]

/-- A machine reached by changing no more than the footprint allows. -/
structure Within (f : Footprint κ) (m m' : Machine κ) : Prop where
  data : ∀ c, c ∉ f.data → (m'.cells c).data = (m.cells c).data
  owner : ∀ c, c ∉ f.owner → (m'.cells c).owner = (m.cells c).owner
  debit : ∀ c, c ∉ f.debit → (m.cells c).lamports ≤ (m'.cells c).lamports
  untouched : ∀ c, c ∉ f.touched → m'.cells c = m.cells c
  pubkey : ∀ c, (m'.cells c).pubkey = (m.cells c).pubkey

namespace Within

variable {f g : Footprint κ} {m m' m'' : Machine κ}

theorem refl (f : Footprint κ) (m : Machine κ) : Within f m m :=
  ⟨fun _ _ => rfl,fun _ _ => rfl,fun _ _ => UInt64.le_refl _,fun _ _ => rfl,fun _ => rfl⟩

theorem trans (h : Within f m m') (h' : Within f m' m'') : Within f m m'' where
  data c hc := (h'.data c hc).trans (h.data c hc)
  owner c hc := (h'.owner c hc).trans (h.owner c hc)
  debit c hc := UInt64.le_trans (h.debit c hc) (h'.debit c hc)
  untouched c hc := (h'.untouched c hc).trans (h.untouched c hc)
  pubkey c := (h'.pubkey c).trans (h.pubkey c)

theorem mono (h : Within f m m') (hd : f.data ⊆ g.data) (ho : f.owner ⊆ g.owner)
    (hl : f.debit ⊆ g.debit) (ht : f.touched ⊆ g.touched) : Within g m m' where
  data c hc := h.data c fun hm => hc (hd hm)
  owner c hc := h.owner c fun hm => hc (ho hm)
  debit c hc := h.debit c fun hm => hc (hl hm)
  untouched c hc := h.untouched c fun hm => hc (ht hm)
  pubkey := h.pubkey

variable [DecidableEq κ] {c d : κ}

/-- One more assignment to a touched cell. -/
theorem update (h : Within f m m') {F : Account → Account} (ht : c ∈ f.touched)
    (hd : c ∈ f.data ∨ ∀ a, (F a).data = a.data) (ho : c ∈ f.owner ∨ ∀ a, (F a).owner = a.owner)
    (hl : c ∈ f.debit ∨ (m'.cells c).lamports ≤ (F (m'.cells c)).lamports)
    (hp : ∀ a, (F a).pubkey = a.pubkey) : Within f m (m'.update c F) := by
  refine h.trans ⟨?_,?_,?_,?_,?_⟩
  · intro d h
    rw [Machine.update_cells]
    split
    · next hc => exact (hd.resolve_left (hc ▸ h)) _
    · rfl
  · intro d h
    rw [Machine.update_cells]
    split
    · next hc => exact (ho.resolve_left (hc ▸ h)) _
    · rfl
  · intro d h
    rw [Machine.update_cells]
    split
    · next hc =>
      subst hc
      exact hl.resolve_left h
    · exact UInt64.le_refl _
  · intro d h
    refine Machine.update_of_ne _ (fun hc => h ?_) _
    rwa [hc]
  · intro d
    rw [Machine.update_cells]
    split
    · exact hp _
    · rfl

theorem setData (h : Within f m m') {data : List UInt8} (hc : c ∈ f.data) :
    Within f m (m'.setData c data) :=
  h.update (by simp [touched,hc]) (.inl hc) (.inr fun _ => rfl)
    (.inr (UInt64.le_refl _)) fun _ => rfl

theorem packState (h : Within f m m') {state : UpgradeableLoaderState} (hc : c ∈ f.data) :
    Within f m (m'.packState c state) :=
  h.update (by simp [touched,hc]) (.inl hc) (.inr fun _ => rfl)
    (.inr (UInt64.le_refl _)) fun _ => rfl

theorem setLamports (h : Within f m m') {l : UInt64} (ht : c ∈ f.touched)
    (hl : c ∈ f.debit ∨ (m'.cells c).lamports ≤ l) :
    Within f m (m'.update c fun a => { a with lamports := l }) :=
  h.update ht (.inr fun _ => rfl) (.inr fun _ => rfl) hl fun _ => rfl

theorem setOwner (h : Within f m m') {owner : Pubkey} (hc : c ∈ f.owner) :
    Within f m (m'.update c fun a => { a with owner }) :=
  h.update (by simp [touched,hc]) (.inr fun _ => rfl) (.inl hc)
    (.inr (UInt64.le_refl _)) fun _ => rfl

theorem move (h : Within f m m') {lamports : UInt64} (hc : c ∈ f.debit) (hd : d ∈ f.credit) :
    Within f m (m'.move c d lamports) := by
  refine Within.update ?_ (by simp [touched,hd]) (.inr fun _ => rfl) (.inr fun _ => rfl)
    (.inr (le_satAdd _ _)) fun _ => rfl
  exact Within.update h (by simp [touched,hc]) (.inr fun _ => rfl) (.inr fun _ => rfl) (.inl hc)
    fun _ => rfl

end Within

end Footprint

open Footprint

/-! ## The tables -/

def SystemInstruction.writes : SystemInstruction → Footprint ℕ
  | transfer _ => ⟨[],[],[0],[1]⟩
  | assign _ => ⟨[],[0],[],[]⟩
  | createAccount _ _ _ => ⟨[1],[1],[0],[1]⟩

/-- `SetAuthority` never succeeds, so it writes nothing. -/
def TokenInstruction.writes : TokenInstruction → Footprint ℕ
  | mint _ | transfer _ => ⟨[1,2],[],[],[]⟩
  | setAuthority _ => .empty
  | initializeMint _ _ | initializeAccount => ⟨[0],[],[],[]⟩

def LoaderInstruction.writes : LoaderInstruction → Footprint ℕ
  | initializeBuffer | write _ _ | setAuthority _ => ⟨[0],[],[],[]⟩
  | deployWithMaxDataLen _ => ⟨[1,2,3],[1,2],[0,3],[0,1]⟩
  | upgrade => .empty
  | close => ⟨[0],[],[0],[1]⟩

/-- What an instruction of a native program with the given data writes. -/
def nativeWrites (programId : Pubkey) (data : List UInt8) : Footprint ℕ :=
  if programId = systemProgramId then
    (SystemInstruction.codec.decodeAll data).elim .empty SystemInstruction.writes
  else if programId = tokenProgramId then
    (TokenInstruction.codec.decodeAll data).elim .empty TokenInstruction.writes
  else (LoaderInstruction.codec.decodePrefix data).elim .empty LoaderInstruction.writes

/-! ## Footprints of effects -/

section Places

variable {κ : Type} {payer programdata program buffer target recipient : AccountInfo κ}
  {rest : List (AccountInfo κ)}

theorem SystemInstruction.createAccount_places (lamports space : UInt64) (owner : Pubkey) :
    (createAccount lamports space owner).writes.resolve (payer :: programdata :: rest) =
      ⟨[programdata.account],[programdata.account],[payer.account],[programdata.account]⟩ := rfl

theorem LoaderInstruction.deploy_places (maxDataLen : UInt64) :
    (deployWithMaxDataLen maxDataLen).writes.resolve
        (payer :: programdata :: program :: buffer :: rest) =
      ⟨[programdata.account,program.account,buffer.account],[programdata.account,program.account],
        [payer.account,buffer.account],[payer.account,programdata.account]⟩ := rfl

theorem LoaderInstruction.close_places : close.writes.resolve (target :: recipient :: rest) =
    ⟨[target.account],[],[target.account],[recipient.account]⟩ := rfl

end Places

variable {κ : Type} [DecidableEq κ] {accounts : List (AccountInfo κ)} {m m' : Machine κ}

theorem SystemProgram.Effect.within {i : SystemInstruction} (h : Effect i accounts m m') :
    Within (i.writes.resolve accounts) m m' := by
  cases h with
  | transfer hs hl => exact (Within.refl _ m).move List.mem_cons_self List.mem_cons_self
  | assign hs => exact (Within.refl _ m).setOwner List.mem_cons_self
  | createAccount hs ht hl hp =>
    exact (((Within.refl _ m).move List.mem_cons_self List.mem_cons_self).setData
      List.mem_cons_self).setOwner List.mem_cons_self

/-- The nested call of a token `SetAuthority` fails on the caller's data. -/
theorem invoke_assign_fails {host : Host} {ctx : InvokeContext} {newAuthority target owner : Pubkey}
    (h : TokenInstruction.codec.decodeAll ctx.instructionData = some (.setAuthority newAuthority))
    (d : ℕ) :
    ctx.invoke (ChainedProgramExecutor.executeAt host (d+1))
      (SystemProgram.createAssignInstruction target owner) accounts m =
        (.err .invalidInstructionData,m) := by
  rw [InvokeContext.invoke,ChainedProgramExecutor.executeAt_system host d rfl,
    SystemProgram.entrypoint,setAuthority_not_system h]
  rfl

theorem TokenProgram.Effect.within {host : Host} {ctx : InvokeContext} {d : ℕ}
    {i : TokenInstruction} (hd : TokenInstruction.codec.decodeAll ctx.instructionData = some i)
    (h : Effect host.sysvars (ChainedProgramExecutor.executeAt host (d+1)) ctx i accounts m m') :
    Within (i.writes.resolve accounts) m m' := by
  cases h with
  | mint hs hm ha hd hk =>
    exact ((Within.refl _ m).setData List.mem_cons_self).setData
      (List.mem_cons_of_mem _ List.mem_cons_self)
  | transfer hs hf ho ht hm ha =>
    exact ((Within.refl _ m).setData List.mem_cons_self).setData
      (List.mem_cons_of_mem _ List.mem_cons_self)
  | setAuthority hs hi =>
    rw [invoke_assign_fails hd] at hi
    cases hi
  | initializeMint hr hm hi he => exact (Within.refl _ m).setData List.mem_cons_self
  | initializeAccount hr ha hi he hm hmi => exact (Within.refl _ m).setData List.mem_cons_self

/-- The nested call of a deployment creates an account, of a size and for an owner that it reads
from the caller's data. -/
theorem invoke_createAccount_effect {host : Host} {ctx : InvokeContext} {d : ℕ}
    {maxDataLen lamports space : UInt64} {from_ to_ owner : Pubkey}
    (hd : LoaderInstruction.codec.decodePrefix ctx.instructionData =
      some (.deployWithMaxDataLen maxDataLen))
    (h : ctx.invoke (ChainedProgramExecutor.executeAt host (d+1))
      (SystemProgram.createAccountInstruction from_ to_ lamports space owner) accounts m =
      (.ok (),m')) :
    ∃ space owner, SystemProgram.Effect (.createAccount maxDataLen space owner) accounts m m' := by
  rw [InvokeContext.invoke,ChainedProgramExecutor.executeAt_system host d rfl] at h
  obtain ⟨i,hi,he⟩ := SystemProgram.entrypoint_ok.mp h
  obtain ⟨space,owner,rfl⟩ := deploy_as_createAccount hd hi
  exact ⟨space,owner,he⟩

theorem BpfLoaderProgram.deployed_within {f : Footprint κ}
    {programId authority programdataKey : Pubkey} {slot : UInt64} {len : ℕ}
    {payer programdata program buffer : κ} (hd : [programdata,program,buffer] ⊆ f.data)
    (ho : program ∈ f.owner) (hb : buffer ∈ f.debit) (hc : payer ∈ f.credit) : Within f m
      (deployed m programId authority programdataKey slot len payer programdata
        program buffer) := by
  have h₁ : programdata ∈ f.data := hd (by simp)
  have h₂ : program ∈ f.data := hd (by simp)
  have h₃ : buffer ∈ f.data := hd (by simp)
  refine Within.setData (Within.setLamports (Within.setLamports ?_ (by simp [touched,hc])
    (.inr (le_satAdd _ _))) (by simp [touched,hb]) (.inl hb)) h₃
  refine Within.update ?_ (by simp [touched,ho]) (.inr fun _ => rfl) (.inl ho)
    (.inr (UInt64.le_refl _)) fun _ => rfl
  exact Within.packState (Within.setData (Within.packState (.refl f m) h₁) h₁) h₂

theorem BpfLoaderProgram.Effect.within {host : Host} {ctx : InvokeContext} {d : ℕ}
    {i : LoaderInstruction} (hd : LoaderInstruction.codec.decodePrefix ctx.instructionData = some i)
    (h : Effect host.sysvars (ChainedProgramExecutor.executeAt host (d+1)) ctx i accounts m m') :
    Within (i.writes.resolve accounts) m m' := by
  cases h with
  | initializeBuffer hu hl => exact (Within.refl _ m).packState List.mem_cons_self
  | write hb hs hl =>
    exact ((Within.refl _ m).setData List.mem_cons_self).packState List.mem_cons_self
  | deploy hs hr hb hm hi hc hne =>
    obtain ⟨space,owner,he⟩ := invoke_createAccount_effect hd hi
    have hw := he.within
    rw [SystemInstruction.createAccount_places] at hw
    rw [LoaderInstruction.deploy_places]
    refine (hw.mono ?_ ?_ ?_ ?_).trans (deployed_within ?_ ?_ ?_ ?_)
    all_goals simp [touched]
  | setBufferAuthority hs hb hl => exact (Within.refl _ m).packState List.mem_cons_self
  | setProgramAuthority hs hb hl => exact (Within.refl _ m).packState List.mem_cons_self
  | @close target recipient authority rest m hs =>
    rw [LoaderInstruction.close_places]
    exact (((Within.refl _ m).setLamports (by simp [touched]) (.inr (le_satAdd _ _))).setLamports
      (by simp [touched])
      (.inl List.mem_cons_self)).setData List.mem_cons_self

/-- A successful native instruction stays within what the tables say. -/
theorem execute_within {host : Host} {instruction : Instruction} {ctx : InvokeContext}
    (hn : instruction.programId ∈ nativePrograms)
    (h : ChainedProgramExecutor.execute host instruction ctx accounts m = (.ok (),m')) :
    Within ((nativeWrites instruction.programId ctx.instructionData).resolve accounts) m m' := by
  simp only [ChainedProgramExecutor.execute,ChainedProgramExecutor.executeAt,
    ChainedProgramExecutor.step,hn,if_true,NativeProgramExecutor.execute] at h
  unfold nativeWrites
  split at h
  · next hs =>
    obtain ⟨i,hd,he⟩ := SystemProgram.entrypoint_ok.mp h
    rw [if_pos hs,hd]
    exact he.within
  · next hs =>
    rw [if_neg hs]
    split at h
    · next ht =>
      obtain ⟨i,hd,he⟩ := TokenProgram.entrypoint_effect h
      rw [if_pos ht,hd]
      exact he.within (d := 0) hd
    · next ht =>
      rw [if_neg ht]
      split at h
      · obtain ⟨i,hd,he⟩ := BpfLoaderProgram.entrypoint_effect h
        rw [hd]
        exact he.within (d := 0) hd
      · cases h

end TinySolana
