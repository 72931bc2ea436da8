import TinySolana.Parameters

/-!
# Records of the input region

Reading a program's input region back is parsing followed by assignment: the bytes alone decide
which entries carry a record marked writable and what these records say, and a successful
`deserialize_parameters` assigns these records in order. The writable flag of an `AccountInfo` plays
no part in it.
-/

namespace TinySolana
open Foundations

variable {κ : Type}

/-- Owner, lamports and data of an account as the buffer has them. -/
structure AccountRecord where
  owner : Pubkey
  lamports : UInt64
  data : List UInt8
  deriving DecidableEq

/-- The account with the owner, lamports and data of a record. -/
def AccountRecord.assign (r : AccountRecord) (a : Account) : Account :=
  { a with owner := r.owner, lamports := r.lamports, data := r.data }

/-- The account already has what the record says. -/
def AccountRecord.Repeats (r : AccountRecord) (a : Account) : Prop :=
  r.owner = a.owner ∧ r.lamports = a.lamports ∧ r.data = a.data

instance (r : AccountRecord) (a : Account) : Decidable (r.Repeats a) :=
  inferInstanceAs (Decidable (_ ∧ _))

/-- The length field of the record at an offset. -/
def recordDataLen (input : List UInt8) (offset : ℕ) : ℕ := (readU64 input (offset+32+8)).toNat

/-- Where the record at an offset ends, with its padding. -/
def recordEnd (input : List UInt8) (offset : ℕ) : ℕ :=
  offset+48+recordDataLen input offset+padding (recordDataLen input offset)

/-- The record at an offset lies within the buffer. -/
def RecordFits (input : List UInt8) (offset : ℕ) : Prop :=
  offset+48 ≤ input.length ∧ recordEnd input offset < 2^64 ∧ recordEnd input offset ≤ input.length

instance (input : List UInt8) (offset : ℕ) : Decidable (RecordFits input offset) :=
  inferInstanceAs (Decidable (_ ∧ _))

def recordAt (input : List UInt8) (offset : ℕ) : AccountRecord where
  owner := (readPubkey input offset).getD default
  lamports := readU64 input (offset+32)
  data := slice input (offset+32+8+8) (recordDataLen input offset)

/-- The records that the buffer marks writable, from an offset on, each with the cell of its entry.
There is no result when the buffer ends too early. -/
def writableRecordsFrom (input : List UInt8) :
    ℕ → List (AccountInfo κ) → Option (List (κ × AccountRecord))
  | _, [] => some []
  | offset, info :: rest =>
    if input.length ≤ offset then none
    else if input[offset]? ≠ some nonDupMarker then writableRecordsFrom input (offset+1) rest
    else if offset+2 < input.length ∧ RecordFits input (offset+35) then
      (writableRecordsFrom input (recordEnd input (offset+35)) rest).map fun records =>
        if input[offset+2]? ≠ some 0 then (info.account,recordAt input (offset+35)) :: records
        else records
    else none

def writableRecords (accounts : List (AccountInfo κ)) (input : List UInt8) :
    List (κ × AccountRecord) :=
  (writableRecordsFrom input 8 accounts).getD []

theorem readPubkey_of_fits {input : List UInt8} {offset : ℕ} (h : offset+32 ≤ input.length) :
    readPubkey input offset = some (recordAt input offset).owner := by
  have hl : (slice input offset 32).length = 32 := by
    simp only [slice,List.length_take,List.length_drop]
    omega
  simp [recordAt,readPubkey,hl]

theorem usizeAdd_bind_ok {β : Type} {a b : ℕ} {f : ℕ → Prog κ β} {m m' : Machine κ} {x : β} :
    (usizeAdd a b >>= f) m = (.ok x,m') ↔ a+b < 2^64 ∧ f (a+b) m = (.ok x,m') := by
  rw [usizeAdd,Exec.bind_assoc,Exec.panicIf_bind_ok,Nat.not_le]
  rfl

theorem skipRecord_ok {input : List UInt8} {offset e : ℕ} {m m' : Machine κ} :
    skipRecord input offset m = (.ok e,m') ↔
      RecordFits input offset ∧ e = recordEnd input offset ∧ m' = m := by
  simp only [skipRecord,Exec.failIf_bind_ok,usizeAdd_bind_ok,Exec.pure_run,Prod.mk.injEq,
    Outcome.ok.injEq,RecordFits,recordEnd,recordDataLen]
  constructor
  · rintro ⟨h₁,h₂,h₃,h₄,h₅,rfl,rfl⟩
    exact ⟨⟨by omega,by omega,by omega⟩,by omega,rfl⟩
  · rintro ⟨⟨h₁,h₂,h₃⟩,rfl,rfl⟩
    exact ⟨by omega,by omega,by omega,by omega,by omega,by omega,rfl⟩

variable [DecidableEq κ]

/-- Assign a record to the cell of its entry. -/
def assignRecord (m : Machine κ) (r : κ × AccountRecord) : Machine κ := m.update r.1 r.2.assign

theorem loadRecord_ok {input : List UInt8} {offset e : ℕ} {info : AccountInfo κ}
    {m m' : Machine κ} :
    loadRecord input offset info m = (.ok e,m') ↔ RecordFits input offset ∧
      e = recordEnd input offset ∧ m' = assignRecord m (info.account,recordAt input offset) := by
  constructor
  · intro h
    simp only [loadRecord,Exec.failIf_bind_ok,Exec.orFail_bind_ok,AccountInfo.setOwner_bind,
      AccountInfo.setLamports_bind,AccountInfo.setData_bind,usizeAdd_bind_ok,Exec.pure_run,
      Prod.mk.injEq,Outcome.ok.injEq] at h
    obtain ⟨h₁,owner,ho,h₂,h₃,h₄,h₅,h₆,h₇,rfl,rfl⟩ := h
    rw [readPubkey_of_fits (by omega)] at ho
    cases ho
    refine ⟨?_,?_,?_⟩
    · simp only [RecordFits,recordEnd,recordDataLen]
      omega
    · simp only [recordEnd,recordDataLen]
    · rw [Machine.update_update,Machine.update_update]
      rfl
  · rintro ⟨⟨h₁,h₂,h₃⟩,rfl,rfl⟩
    simp only [recordEnd,recordDataLen] at h₂ h₃
    simp only [loadRecord,Exec.failIf_bind_ok,Exec.orFail_bind_ok,AccountInfo.setOwner_bind,
      AccountInfo.setLamports_bind,AccountInfo.setData_bind,usizeAdd_bind_ok,Exec.pure_run,
      Prod.mk.injEq,Outcome.ok.injEq]
    refine ⟨by omega,_,readPubkey_of_fits (by omega),by omega,by omega,by omega,by omega,by omega,
      by omega,rfl,?_⟩
    rw [Machine.update_update,Machine.update_update]
    rfl

omit [DecidableEq κ] in
/-- What comes behind a record that is read whole. -/
theorem record_bind_ok {input : List UInt8} {offset : ℕ} {x : Prog κ ℕ} {f : ℕ → Prog κ Unit}
    {m m₁ m' : Machine κ} (hx : ∀ e t, x m = (.ok e,t) ↔
      RecordFits input offset ∧ e = recordEnd input offset ∧ t = m₁) :
    (x >>= f) m = (.ok (),m') ↔
      RecordFits input offset ∧ f (recordEnd input offset) m₁ = (.ok (),m') := by
  rw [Exec.bind_ok]
  constructor
  · rintro ⟨e,t,h,hf⟩
    obtain ⟨hfits,rfl,rfl⟩ := (hx e t).mp h
    exact ⟨hfits,hf⟩
  · rintro ⟨hfits,hf⟩
    exact ⟨_,_,(hx _ _).mpr ⟨hfits,rfl,rfl⟩,hf⟩

/-- Reading the buffer back from an offset on succeeds exactly when it can be parsed, and assigns
the records that it marks writable. -/
theorem deserializeFrom_ok {input : List UInt8} {offset : ℕ} {accounts : List (AccountInfo κ)}
    {m m' : Machine κ} : deserializeFrom input offset accounts m = (.ok (),m') ↔
      ∃ records, writableRecordsFrom input offset accounts = some records ∧
        m' = records.foldl assignRecord m := by
  induction accounts generalizing offset m with
  | nil => simp [deserializeFrom,writableRecordsFrom,eq_comm]
  | cons info accounts ih =>
    simp only [deserializeFrom,writableRecordsFrom,Exec.failIf_bind_ok]
    by_cases hl : input.length ≤ offset
    · simp [hl]
    · simp only [hl,not_false_eq_true,true_and,if_false]
      by_cases hm : input[offset]? ≠ some nonDupMarker
      · simp only [if_pos hm]
        exact ih
      · rw [if_neg hm,if_neg hm,Exec.panicIf_bind_ok,Nat.not_le]
        -- The record is read and the rest behind it, whichever way the record is read.
        have hrest : ∀ (m₁ : Machine κ) (g : List (κ × AccountRecord) → List (κ × AccountRecord)),
            (∀ records, (g records).foldl assignRecord m = records.foldl assignRecord m₁) →
            ((offset+2 < input.length ∧ RecordFits input (offset+35) ∧
              deserializeFrom input (recordEnd input (offset+35)) accounts m₁ = (.ok (),m')) ↔
            ∃ records, (if offset+2 < input.length ∧ RecordFits input (offset+35) then
              (writableRecordsFrom input (recordEnd input (offset+35)) accounts).map g else none) =
                some records ∧ m' = records.foldl assignRecord m) := by
          intro m₁ g hg
          rw [ih,← and_assoc]
          constructor
          · rintro ⟨hf,records,hr,rfl⟩
            exact ⟨g records,by rw [if_pos hf,hr,Option.map_some],(hg records).symm⟩
          · rintro ⟨records,hr,rfl⟩
            split at hr
            · next hf =>
              obtain ⟨rest,hrest,rfl⟩ := Option.map_eq_some_iff.mp hr
              exact ⟨hf,rest,hrest,hg rest⟩
            · cases hr
        by_cases hw : input[offset+2]? ≠ some 0
        · simp only [if_pos hw]
          rw [record_bind_ok fun e t => loadRecord_ok]
          exact hrest _ _ fun _ => rfl
        · simp only [if_neg hw]
          rw [record_bind_ok fun e t => skipRecord_ok]
          exact hrest _ _ fun _ => rfl

theorem deserializeParameters_ok {accounts : List (AccountInfo κ)} {input : List UInt8}
    {m m' : Machine κ} (h : deserializeParameters accounts input m = (.ok (),m')) :
    m' = (writableRecords accounts input).foldl assignRecord m := by
  obtain ⟨records,hr,rfl⟩ := deserializeFrom_ok.mp h
  rw [writableRecords,hr]
  rfl

/-! ## Read-only accounts -/

/-- The last record for a cell. -/
def lastRecord (records : List (κ × AccountRecord)) (c : κ) : Option AccountRecord :=
  ((records.filter fun r => r.1 = c).getLast?).map Prod.snd

theorem foldl_assignRecord_cells (records : List (κ × AccountRecord)) (m : Machine κ) (c : κ) :
    (records.foldl assignRecord m).cells c =
      ((lastRecord records c).map fun r => r.assign (m.cells c)).getD (m.cells c) := by
  induction records using List.reverseRecOn with
  | nil => rfl
  | append_singleton records r ih =>
    rw [List.foldl_append,List.foldl_cons,List.foldl_nil,assignRecord,Machine.update_cells]
    by_cases hc : c = r.1
    · subst hc
      have hl : lastRecord (records ++ [r]) r.1 = some r.2 := by simp [lastRecord]
      rw [if_pos rfl,ih,hl]
      cases lastRecord records r.1 <;> rfl
    · have hl : lastRecord (records ++ [r]) c = lastRecord records c := by
        simp [lastRecord,Ne.symm hc]
      rw [if_neg hc,ih,hl]

/-- A cell of the list all of whose infos are read-only. -/
def ReadOnly (accounts : List (AccountInfo κ)) (c : κ) : Prop :=
  (∃ info ∈ accounts, info.account = c) ∧
    ∀ info ∈ accounts, info.account = c → info.isWritable = false

/-- The account has the same owner, lamports and data. -/
def SameContent (a b : Account) : Prop := b.owner = a.owner ∧ b.lamports = a.lamports ∧
    b.data = a.data

theorem sameContent_assign {r : AccountRecord} {a : Account} :
    SameContent a (r.assign a) ↔ r.Repeats a := Iff.rfl

/-- For every read-only account, the last record that the buffer marks writable for it, if there is
one, repeats what the account has. -/
def RepeatsReadOnly (accounts : List (AccountInfo κ)) (input : List UInt8)
    (cells : κ → Account) : Prop :=
  ∀ c, ReadOnly accounts c → ∀ r, lastRecord (writableRecords accounts input) c = some r →
    r.Repeats (cells c)

/-- A buffer that is read back keeps the read-only accounts exactly when the records it marks
writable repeat what they have. -/
theorem read_only_kept_iff {accounts : List (AccountInfo κ)} {input : List UInt8} {m m' : Machine κ}
    (h : deserializeParameters accounts input m = (.ok (),m')) :
    (∀ c, ReadOnly accounts c → SameContent (m.cells c) (m'.cells c)) ↔
      RepeatsReadOnly accounts input m.cells := by
  have hm := deserializeParameters_ok h
  subst hm
  refine forall_congr' fun c => forall_congr' fun hc => ?_
  rw [foldl_assignRecord_cells]
  cases lastRecord (writableRecords accounts input) c with
  | none =>
    refine iff_of_true ⟨rfl,rfl,rfl⟩ ?_
    intro r hr
    cases hr
  | some r =>
    rw [Option.map_some,Option.getD_some,sameContent_assign]
    exact ⟨fun hr r' h' => Option.some.inj h' ▸ hr,fun hr => hr r rfl⟩

/-- A read-only info of the one cell, and the buffer that is written for it. -/
def readOnlyInfo : AccountInfo Unit := ⟨.ofByte 1,false,false,(),false,0⟩

def readOnlyMachine : Machine Unit := ⟨fun _ => { (default : Account) with lamports := 10 },0,∅⟩

def readOnlyBuffer : List UInt8 :=
  leBytes 8 1 ++ [nonDupMarker,0,0] ++ (Pubkey.ofByte 1).bytes ++ List.replicate 32 0 ++
    leBytes 8 10 ++ leBytes 8 0 ++ leBytes 8 0

/-- A program that sets the flag byte of a read-only account and other lamports behind it changes
the account. -/
theorem forged_flag_changes_account :
    (serializeParameters [readOnlyInfo] [] readOnlyMachine).1 = .ok readOnlyBuffer ∧
    ∃ bytes : List UInt8, bytes.length = readOnlyBuffer.length ∧
      ∃ m', deserializeParameters [readOnlyInfo] bytes readOnlyMachine = (.ok (),m') ∧
        ReadOnly [readOnlyInfo] () ∧ ¬SameContent (readOnlyMachine.cells ()) (m'.cells ()) := by
  refine ⟨by decide,(readOnlyBuffer.set 10 1).set 75 99,by decide,_,
    Exec.run_of_result (by decide),?_,?_⟩
  · exact ⟨⟨_,List.mem_cons_self,rfl⟩,by simp [readOnlyInfo]⟩
  · unfold SameContent
    decide

/-- A read-only info and a writable one, of a cell each. -/
def mixedInfos : List (AccountInfo Bool) :=
  [⟨.ofByte 1,false,false,false,false,0⟩,⟨.ofByte 2,false,true,true,false,0⟩]

def mixedMachine : Machine Bool := ⟨fun _ => { (default : Account) with lamports := 10 },0,∅⟩

/-- The entry of an account with ten lamports and nothing else. -/
def emptyEntry (n writable : UInt8) : List UInt8 :=
  [nonDupMarker,0,writable] ++ (Pubkey.ofByte n).bytes ++ List.replicate 32 0 ++ leBytes 8 10 ++
    leBytes 8 0

/-- A program that sets the flag byte of the read-only account but repeats what the account has, and
edits the writable one, has changed that one only. -/
theorem repeated_record_keeps_account :
    let buffer := leBytes 8 2 ++ emptyEntry 1 0 ++ emptyEntry 2 1 ++ leBytes 8 0
    let run := deserializeParameters mixedInfos ((buffer.set 10 1).set 158 99) mixedMachine
    (serializeParameters mixedInfos [] mixedMachine).1 = .ok buffer ∧
      run.1 = .ok () ∧ (run.2.cells true).lamports = 99 ∧ ReadOnly mixedInfos false ∧
      ∀ c, ReadOnly mixedInfos c → SameContent (mixedMachine.cells c) (run.2.cells c) := by
  intro buffer run
  have hok : run.1 = .ok () := by decide +kernel
  have hr : run = (.ok (),run.2) := by rw [← hok]
  have hreadOnly : ReadOnly mixedInfos false :=
    ⟨⟨_,List.mem_cons_self,rfl⟩,by simp [mixedInfos]⟩
  refine ⟨by decide +kernel,hok,by decide +kernel,hreadOnly,(read_only_kept_iff hr).mpr ?_⟩
  intro c hc r hl
  have hflagged : lastRecord (writableRecords mixedInfos ((buffer.set 10 1).set 158 99)) false =
      some ⟨default,10,[]⟩ := by decide +kernel
  cases c with
  | false =>
    obtain rfl := Option.some.inj (hflagged.symm.trans hl)
    exact ⟨rfl,rfl,rfl⟩
  | true => exact absurd (hc.2 _ (List.mem_cons_of_mem _ List.mem_cons_self) rfl) (by decide)

end TinySolana
