import TinySolana.LoaderAuthority
import TinySolana.ProgramCalls
import Mathlib.Data.Fin.VecNotation

/-!
# What a deployed program runs

A deployment copies the code of the buffer behind the header of the programdata account and writes
into the program account where that is. The executor takes the bytecode from the program account, so
a call hands over this record and not the code.
-/

namespace TinySolana
open Foundations UpgradeableLoaderState

/-- The code in the data of a buffer account. -/
def bufferCode (data : List UInt8) : List UInt8 := data.drop sizeOfBufferMetadata

/-- The code and zeros behind it, at most `maxDataLen` bytes together. -/
def Padded (code : List UInt8) (maxDataLen : UInt64) (bytes : List UInt8) : Prop :=
  ∃ padding, bytes = code ++ List.replicate padding 0 ∧ code.length+padding ≤ maxDataLen.toNat

/-- The record of a program, over the data that its account has held. -/
def recordOver (programdataKey : Pubkey) (data : List UInt8) : List UInt8 :=
  codec.encode (.program programdataKey) ++ data.drop sizeOfProgram

theorem encode_program (programdataKey : Pubkey) :
    codec.encode (.program programdataKey) = 2 :: 0 :: 0 :: 0 :: programdataKey.bytes := by
  have ht : leBytes 4 2 = [2,0,0,0] := by decide
  change leBytes 4 2 ++ programdataKey.bytes = _
  rw [ht]
  rfl

theorem encode_program_length (programdataKey : Pubkey) :
    serializedSize (.program programdataKey) = sizeOfProgram := by
  have hs : sizeOfProgram = 36 := by decide
  rw [hs,serializedSize,encode_program]
  simp [programdataKey.size]

/-- A record in front of the code leaves a byte too many that is not zero. -/
theorem not_padded_record {code pre tail : List UInt8} {maxDataLen : UInt64}
    {programdataKey : Pubkey} :
    ¬Padded code maxDataLen
      (codec.encode (.program programdataKey) ++ (pre ++ (code ++ tail))) := by
  rintro ⟨padding,h,-⟩
  have hc := congrArg (List.countP fun b => b ≠ 0) h
  have hz : (List.replicate padding (0 : UInt8)).countP (fun b => b ≠ 0) = 0 := by
    rw [List.countP_eq_zero]
    intro b hb
    simp [List.eq_of_mem_replicate hb]
  have h2 : (2 : UInt8) ≠ 0 := by decide
  rw [encode_program] at hc
  simp only [List.cons_append,List.countP_append,List.countP_cons,hz,decide_eq_true h2,
    if_true] at hc
  omega

/-- In code the first byte is that of the record only by accident: the header of an ELF file has
another. -/
theorem not_padded_of_head {code : List UInt8} {maxDataLen : UInt64} {programdataKey : Pubkey}
    {data : List UInt8} {b : UInt8} (hc : code.head? = some b) (hb : b ≠ 2) :
    ¬Padded code maxDataLen (recordOver programdataKey data) := by
  rintro ⟨padding,h,-⟩
  obtain ⟨rest,rfl⟩ := List.head?_eq_some_iff.mp hc
  rw [recordOver,encode_program] at h
  exact hb (List.cons.inj h).1.symm

variable {κ : Type} [DecidableEq κ]

/-- Creating an account changes no data but its own. -/
theorem SystemProgram.Effect.created_data {lamports space : UInt64} {owner : Pubkey}
    {payer created : AccountInfo κ} {rest : List (AccountInfo κ)} {m m' : Machine κ}
    (h : Effect (.createAccount lamports space owner) (payer :: created :: rest) m m') {c : κ}
    (hc : c ≠ created.account) : (m'.cells c).data = (m.cells c).data := by
  cases h with
  | createAccount hs ht hl hp =>
    obtain ⟨l,hmove⟩ := m.move_cells payer.account created.account c lamports
    rw [allocate_of_ne _ hc,hmove]

namespace BpfLoaderProgram

variable {m : Machine κ} {programId authority programdataKey : Pubkey} {slot : UInt64} {len : ℕ}
  {payer programdata program buffer : κ}

/-- The program account belongs to the loader and is executable. -/
theorem deployed_executable :
    ((deployed m programId authority programdataKey slot len payer programdata program buffer).cells
      program).owner = programId ∧
    ((deployed m programId authority programdataKey slot len payer programdata program buffer).cells
      program).executable = true := by
  rw [deployed,Machine.setData]
  constructor
  · rw [Machine.update_field Account.owner,Machine.update_field Account.owner,
      Machine.update_field Account.owner,Machine.update_self]
    all_goals exact fun _ => rfl
  · rw [Machine.update_field Account.executable,Machine.update_field Account.executable,
      Machine.update_field Account.executable,Machine.update_self]
    all_goals exact fun _ => rfl

/-- A program account of its own holds the record. -/
theorem deployed_program_data (hb : program ≠ buffer) (hd : program ≠ programdata) :
    ((deployed m programId authority programdataKey slot len payer programdata program buffer).cells
      program).data = recordOver programdataKey (m.cells program).data := by
  rw [deployed_data hb,Machine.packState_data,copied,Machine.setData_of_ne _ hd,Machine.packState,
    Machine.update_of_ne _ hd,encode_program_length]
  rfl

/-- Where program and programdata are one account, the record is written over part of the header of
the code. -/
theorem deployed_merged_not_padded (hb : programdata ≠ buffer)
    (hl : (bufferCode (m.cells buffer).data).length ≤ len) {maxDataLen : UInt64} :
    ¬Padded (bufferCode (m.cells buffer).data) maxDataLen ((deployed m programId authority
      programdataKey slot len payer programdata programdata buffer).cells programdata).data := by
  obtain ⟨tail,ht⟩ := copied_data m slot authority len buffer programdata
  rw [Machine.packState,Machine.update_of_ne _ hb.symm,← Machine.packState] at ht
  have hle : (UpgradeableLoaderState.program programdataKey).serializedSize ≤
      (codec.encode (programData slot (some authority))).length := by
    rw [encode_program_length,encode_programData_length]
    decide
  rw [deployed_data hb,Machine.packState_data,ht,List.drop_append_of_le_length hle,← bufferCode,
    List.take_of_length_le hl]
  exact not_padded_record

end BpfLoaderProgram

/-! ## The call of a deployed program -/

/-- The first info under the key of the program is one of its account, with the flag of the
account. -/
def Finds (accounts : List (AccountInfo κ)) (m : Machine κ) (program : AccountInfo κ) : Prop :=
  ∃ info, accounts.find? (fun a => a.pubkey = program.pubkey) = some info ∧
    info.account = program.account ∧ info.executable = (m.cells program.account).executable

/-- The instruction hands the code, padded with zeros, to `Executable::from_elf`. -/
def HandsOver (call : Instruction) (accounts : List (AccountInfo κ)) (m : Machine κ)
    (code : List UInt8) (maxDataLen : UInt64) : Prop :=
  ∃ c, ChainedProgramExecutor.programCall call accounts m = some c ∧
    Padded code maxDataLen c.bytecode

/-- What is found in the program account after a deployment happens to be the code: the program
takes the place of the buffer, which had no code, or the record and what was behind it read like the
code. -/
def RecordIsCode (m : Machine κ) (maxDataLen : UInt64)
    (programdata program buffer : AccountInfo κ) :
    Prop :=
  program.pubkey ∉ nativePrograms ∧
    if program.account = buffer.account then bufferCode (m.cells buffer.account).data = []
    else program.account ≠ programdata.account ∧ Padded (bufferCode (m.cells buffer.account).data)
      maxDataLen (recordOver programdata.pubkey (m.cells program.account).data)

variable {m m' : Machine κ} {host : Host} {call deploy : Instruction}
  {computeBudget maxDataLen : UInt64}
  {payer programdata program buffer : AccountInfo κ} {rest accounts : List (AccountInfo κ)}

omit [DecidableEq κ] in
/-- A program that was not called before is handed over as its account has it. -/
theorem handsOver_iff {code : List UInt8} (hcall : call.programId = program.pubkey)
    (hf : Finds accounts m program) (hfresh : m.programCache.lookup program.pubkey = none)
    (ho : (m.cells program.account).owner = bpfLoaderUpgradeableProgramId)
    (he : (m.cells program.account).executable = true) : HandsOver call accounts m code maxDataLen ↔
      program.pubkey ∉ nativePrograms ∧ Padded code maxDataLen (m.cells program.account).data := by
  obtain ⟨info,hfind,hacc,hexe⟩ := hf
  have hanswer : m.programCache.answer program.pubkey (m.cells program.account).data =
      (m.cells program.account).data := FiniteMap.answer_of_none hfresh
  simp only [HandsOver,ChainedProgramExecutor.programCall_eq_some,hcall]
  constructor
  · rintro ⟨c,⟨hn,info',hfind',-,-,rfl⟩,hp⟩
    obtain rfl := Option.some.inj (hfind.symm.trans hfind')
    rw [hacc,hanswer] at hp
    exact ⟨hn,hp⟩
  · rintro ⟨hn,hp⟩
    refine ⟨_,⟨hn,info,hfind,hexe.trans he,hacc ▸ ho,rfl⟩,?_⟩
    rw [hacc,hanswer]
    exact hp

/-- After a deployment a call of the program, if it is the first one, hands the deployed code over
exactly when the record that the program account got instead happens to be that code. -/
theorem deployed_code_handed_iff
    (hd : LoaderInstruction.codec.decodePrefix deploy.data =
      some (.deployWithMaxDataLen maxDataLen))
    (hp : deploy.programId = bpfLoaderUpgradeableProgramId)
    (h : ChainedProgramExecutor.execute host deploy ⟨deploy.programId,deploy.data,computeBudget⟩
      (payer :: programdata :: program :: buffer :: rest) m = (.ok (),m'))
    (hcall : call.programId = program.pubkey) (hf : Finds accounts m' program)
    (hfresh : m.programCache.lookup program.pubkey = none) :
    HandsOver call accounts m' (bufferCode (m.cells buffer.account).data) maxDataLen ↔
      RecordIsCode m maxDataLen programdata program buffer := by
  have hcache : m'.programCache = m.programCache := by
    have hnative : ChainedProgramExecutor.programCall deploy
        (payer :: programdata :: program :: buffer :: rest) m = none := if_pos (by rw [hp]; decide)
    have hc :
      (ChainedProgramExecutor.execute host deploy ⟨deploy.programId,deploy.data,computeBudget⟩
        (payer :: programdata :: program :: buffer :: rest) m).2.programCache =
          m'.programCache := by
      rw [h]
    rw [ChainedProgramExecutor.execute_programCache,hnative] at hc
    exact hc.symm
  rw [ChainedProgramExecutor.execute_loader host hp] at h
  obtain ⟨i,hi,heff⟩ := BpfLoaderProgram.entrypoint_effect h
  cases hi.symm.trans hd
  cases heff with
  | @deploy _ _ _ _ _ _ _ system authority _ _ m₁ _ slot hs hr hb hm hv hc hne =>
    obtain ⟨space,owner,hcreated⟩ := invoke_createAccount_effect (d := 0) hi hv
    have hbuf : (m₁.cells buffer.account).data = (m.cells buffer.account).data :=
      hcreated.created_data hne
    rw [handsOver_iff hcall hf (hcache ▸ hfresh) (BpfLoaderProgram.deployed_executable.1.trans hp)
      BpfLoaderProgram.deployed_executable.2,RecordIsCode]
    refine and_congr_right fun _ => ?_
    by_cases hpb : program.account = buffer.account
    · rw [if_pos hpb,hpb,BpfLoaderProgram.deployed_buffer]
      constructor
      · rintro ⟨padding,heq,-⟩
        exact (List.append_eq_nil_iff.mp heq.symm).1
      · intro hnil
        exact ⟨0,by rw [hnil]; rfl,by rw [hnil]; exact Nat.zero_le _⟩
    · rw [if_neg hpb]
      by_cases hpd : program.account = programdata.account
      · refine iff_of_false ?_ fun hr => hr.1 hpd
        rw [hpd,← hbuf]
        refine BpfLoaderProgram.deployed_merged_not_padded (Ne.symm hne) ?_
        rw [hbuf,bufferCode,List.length_drop]
      · rw [BpfLoaderProgram.deployed_program_data hpb hpd,hcreated.created_data hpd]
        exact (and_iff_right hpd).symm

/-! ## Four bytes of code -/

/-- The magic number of ELF files. -/
def elfCode : List UInt8 := [127,69,76,70]

/-- A payer, an account for the code, one for the program, a buffer with the code and an account for
the sysvars. -/
def deployMachine : Machine (Fin 5) where
  cells := ![wallet 1 10,wallet 2 0,{ wallet 9 0 with data := List.replicate sizeOfProgram 0 },
    { wallet 3 0 with data := codec.encode (.buffer (some (.ofByte 1))) ++ elfCode },wallet 4 0]
  computeMeter := 0
  programCache := ∅

def deployInfo (key : UInt8) (isSigner : Bool) (c : Fin 5) : AccountInfo (Fin 5) :=
  ⟨.ofByte key,isSigner,true,c,false,0⟩

/-- The four accounts that a deployment changes, and the others that it reads. -/
def deployRest : List (AccountInfo (Fin 5)) :=
  [deployInfo 4 false 4,deployInfo 4 false 4,deployInfo 4 false 4,deployInfo 1 true 0]

/-- The buffer, and the payer, who signs. -/
def deployBuffer : AccountInfo (Fin 5) := deployInfo 3 false 3
def deployPayer : AccountInfo (Fin 5) := deployInfo 1 true 0

/-- A deployment whose data also read as the creation of the programdata account. -/
def deployElf : Instruction :=
  ⟨bpfLoaderUpgradeableProgramId,[],LoaderInstruction.codec.encode (.deployWithMaxDataLen 4) ++
    (leBytes 8 49 ++ bpfLoaderUpgradeableProgramId.bytes)⟩

def runDeployElf : Outcome ProgramError Unit × Machine (Fin 5) :=
  ChainedProgramExecutor.execute default deployElf ⟨deployElf.programId,deployElf.data,300⟩
    (deployInfo 1 true 0 :: deployInfo 2 true 1 :: deployInfo 9 false 2 :: deployInfo 3 false 3 ::
      deployRest) deployMachine

/-- The program account as the next instruction is given it. -/
def calledInfos : List (AccountInfo (Fin 5)) := [⟨.ofByte 9,false,false,2,true,0⟩]

theorem deployElf_ok : runDeployElf.1 = .ok () ∧
    Finds calledInfos runDeployElf.2 (deployInfo 9 false 2) ∧
    bufferCode (deployMachine.cells 3).data = elfCode := by
  refine ⟨by decide,⟨_,rfl,rfl,?_⟩,by decide⟩
  decide

/-- What is handed over is where the code would be. -/
theorem elf_record_handed : runDeployElf.1 = .ok () ∧
    Finds calledInfos runDeployElf.2 (deployInfo 9 false 2) ∧
    deployMachine.programCache.lookup (.ofByte 9) = none ∧
    (∃ c, ChainedProgramExecutor.programCall runProgram calledInfos runDeployElf.2 = some c ∧
      c.bytecode = codec.encode (.program (.ofByte 2))) ∧
    ¬HandsOver runProgram calledInfos runDeployElf.2
      (bufferCode (deployMachine.cells 3).data) 4 := by
  obtain ⟨hok,hf,hcode⟩ := deployElf_ok
  have hc : ChainedProgramExecutor.programCall runProgram calledInfos runDeployElf.2 =
      some ⟨.ofByte 9,recordOver (.ofByte 2) [],recordOver (.ofByte 2) []⟩ := by decide
  refine ⟨hok,hf,rfl,⟨_,hc,by decide⟩,?_⟩
  rintro ⟨c,hc',hp⟩
  cases hc.symm.trans hc'
  rw [hcode] at hp
  exact not_padded_of_head (b := 127) rfl (by decide) hp

theorem elf_handed_iff_record :
    HandsOver runProgram calledInfos runDeployElf.2 (bufferCode (deployMachine.cells 3).data) 4 ↔
      RecordIsCode deployMachine 4 (deployInfo 2 true 1) (deployInfo 9 false 2)
        (deployInfo 3 false 3) := by
  have hrun : ChainedProgramExecutor.execute default deployElf
    ⟨deployElf.programId,deployElf.data,300⟩
      (deployInfo 1 true 0 :: deployInfo 2 true 1 :: deployInfo 9 false 2 :: deployInfo 3 false 3 ::
        deployRest) deployMachine = (.ok (),runDeployElf.2) := Exec.run_of_result deployElf_ok.1
  exact deployed_code_handed_iff (by decide) rfl hrun rfl deployElf_ok.2.1 rfl

end TinySolana
