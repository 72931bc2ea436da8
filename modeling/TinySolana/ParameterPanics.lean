import TinySolana.WritableRecords

/-!
# Panics of reading the parameters back

The cursor moves by lengths that the program has written. The flags of an entry are read without a
check, and a length is added to the cursor before the sum is compared with the end of the buffer.
-/

namespace TinySolana
open Foundations

/-- The length in the record at an offset carries the cursor past the last `usize`. Where the record
is loaded, the data must end in the buffer before the padding is added. -/
def RecordOverflows (input : List UInt8) (offset : ℕ) (isWritable : Prop) : Prop :=
  offset+48 ≤ input.length ∧ 2^64 ≤ recordEnd input offset ∧
    (isWritable → 2^64 ≤ offset+48+recordDataLen input offset ∨
      offset+48+recordDataLen input offset ≤ input.length)

/-- An entry is marked as an original, and its flags lie past the end or its record overflows. -/
def BadEntry (input : List UInt8) (offset : ℕ) : Prop :=
  input[offset]? = some nonDupMarker ∧
    (input.length ≤ offset+2 ∨ RecordOverflows input (offset+35) (input[offset+2]? ≠ some 0))

/-- The offsets of the entries that the cursor comes to, from an offset on. -/
def entryOffsets (input : List UInt8) : ℕ → ℕ → List ℕ
  | _, 0 => []
  | offset, count+1 => offset ::
    if input[offset]? = some nonDupMarker then
      if offset+2 < input.length ∧ RecordFits input (offset+35) then
        entryOffsets input (recordEnd input (offset+35)) count
      else []
    else if offset < input.length then entryOffsets input (offset+1) count
    else []

section

variable {κ : Type} {input : List UInt8} {offset : ℕ} {m : Machine κ}

theorem usizeAdd_bind_panic {β : Type} {a b : ℕ} {f : ℕ → Prog κ β} :
    ((usizeAdd a b >>= f) m).1 = .panic ↔ 2^64 ≤ a+b ∨ (f (a+b) m).1 = .panic := by
  rw [usizeAdd,Exec.bind_assoc,Exec.panicIf_bind_panic]
  rfl

theorem skipRecord_panic :
    (skipRecord input offset m).1 = .panic ↔ RecordOverflows input offset False := by
  simp only [skipRecord,Exec.failIf_bind_panic,usizeAdd_bind_panic,Exec.pure_run,RecordOverflows,
    recordEnd,recordDataLen,reduceCtorEq,and_false,or_false,false_imp_iff,and_true]
  omega

theorem record_bind_panic {x : Prog κ ℕ} {f : ℕ → Prog κ Unit} {isWritable Q : Prop}
    (hp : (x m).1 = .panic ↔ RecordOverflows input offset isWritable)
    (hok : ∀ e, (∃ t, x m = (.ok e,t)) ↔ RecordFits input offset ∧ e = recordEnd input offset)
    (hf : ∀ t, (f (recordEnd input offset) t).1 = .panic ↔ Q) :
    ((x >>= f) m).1 = .panic ↔
      RecordOverflows input offset isWritable ∨ RecordFits input offset ∧ Q := by
  rw [Exec.bind_panic,hp]
  refine or_congr_right ?_
  constructor
  · rintro ⟨e,t,hx,h⟩
    obtain ⟨hfits,rfl⟩ := (hok e).mp ⟨t,hx⟩
    exact ⟨hfits,(hf t).mp h⟩
  · rintro ⟨hfits,h⟩
    obtain ⟨t,hx⟩ := (hok _).mpr ⟨hfits,rfl⟩
    exact ⟨_,t,hx,(hf t).mpr h⟩

variable [DecidableEq κ]

theorem loadRecord_panic {info : AccountInfo κ} :
    (loadRecord input offset info m).1 = .panic ↔ RecordOverflows input offset True := by
  simp only [loadRecord,Exec.failIf_bind_panic,Exec.orFail_bind_panic,AccountInfo.setOwner_bind,
    AccountInfo.setLamports_bind,AccountInfo.setData_bind,usizeAdd_bind_panic,Exec.pure_run,
    RecordOverflows,recordEnd,recordDataLen,reduceCtorEq,and_false,or_false,true_imp_iff]
  constructor
  · rintro ⟨h₁,owner,-,h₂,h₃,h⟩
    omega
  · rintro ⟨h₁,h₂,h⟩
    exact ⟨by omega,_,readPubkey_of_fits (by omega),by omega,by omega,by omega⟩

theorem badEntry_unmarked (hm : input[offset]? ≠ some nonDupMarker) (count : ℕ) :
    (∃ o ∈ entryOffsets input offset (count+1), BadEntry input o) ↔
      offset < input.length ∧ ∃ o ∈ entryOffsets input (offset+1) count, BadEntry input o := by
  have hhead : ¬BadEntry input offset := fun h => hm h.1
  rw [entryOffsets,if_neg hm]
  split
  · next hl => simp [hhead,hl]
  · next hl => simp [hhead,hl]

theorem badEntry_marked (hm : input[offset]? = some nonDupMarker) (count : ℕ) :
    (∃ o ∈ entryOffsets input offset (count+1), BadEntry input o) ↔ BadEntry input offset ∨
      RecordFits input (offset+35) ∧
        ∃ o ∈ entryOffsets input (recordEnd input (offset+35)) count, BadEntry input o := by
  rw [entryOffsets,if_pos hm]
  split
  · next hf => simp [hf.2]
  · next hf =>
    have hn : ¬RecordFits input (offset+35) := fun h => hf ⟨by have := h.1; omega,h⟩
    simp [hn]

/-- Reading back panics exactly at a bad entry that the cursor comes to. -/
theorem deserializeFrom_panic {accounts : List (AccountInfo κ)} :
    (deserializeFrom input offset accounts m).1 = .panic ↔
      ∃ o ∈ entryOffsets input offset accounts.length, BadEntry input o := by
  induction accounts generalizing offset m with
  | nil => simp [deserializeFrom,entryOffsets]
  | cons info accounts ih =>
    rw [deserializeFrom,Exec.failIf_bind_panic,List.length_cons]
    by_cases hm : input[offset]? = some nonDupMarker
    · have hl : ¬input.length ≤ offset := fun h => by
        rw [List.getElem?_eq_none h] at hm
        cases hm
      rw [and_iff_right hl,if_neg (not_not.mpr hm),Exec.panicIf_bind_panic,
        badEntry_marked hm,BadEntry,and_iff_right hm,or_assoc]
      refine or_congr_right ?_
      by_cases hw : input[offset+2]? = some 0
      · rw [if_neg (not_not.mpr hw)]
        refine (record_bind_panic skipRecord_panic (fun e => ?_) fun t => ih).trans (by simp [hw])
        constructor
        · rintro ⟨t,h⟩
          obtain ⟨hf,he,-⟩ := skipRecord_ok.mp h
          exact ⟨hf,he⟩
        · exact fun h => ⟨_,skipRecord_ok.mpr ⟨h.1,h.2,rfl⟩⟩
      · rw [if_pos hw]
        refine (record_bind_panic loadRecord_panic (fun e => ?_) fun t => ih).trans (by simp [hw])
        constructor
        · rintro ⟨t,h⟩
          obtain ⟨hf,he,-⟩ := loadRecord_ok.mp h
          exact ⟨hf,he⟩
        · exact fun h => ⟨_,loadRecord_ok.mpr ⟨h.1,h.2,rfl⟩⟩
    · rw [if_pos hm,ih,badEntry_unmarked hm,not_le]

end

/-- Reading the parameters back returns exactly when the cursor comes to no bad entry. -/
theorem deserialize_returns_iff {κ : Type} [DecidableEq κ] (accounts : List (AccountInfo κ))
    (input : List UInt8) (m : Machine κ) :
    (deserializeParameters accounts input m).1 ≠ .panic ↔
      ∀ o ∈ entryOffsets input 8 accounts.length, ¬BadEntry input o := by
  rw [deserializeParameters,ne_eq,deserializeFrom_panic]
  exact ⟨fun h o ho hb => h ⟨o,ho,hb⟩,fun h ⟨o,ho,hb⟩ => h o ho hb⟩

/-- The buffer of the read-only account with all the bits of its length set. -/
def overlongBuffer : List UInt8 :=
  readOnlyBuffer.take 83 ++ List.replicate 8 255 ++ readOnlyBuffer.drop 91

/-- The length sends the cursor past the last address. -/
theorem forged_length_panics :
    ∃ written, serializeParameters [readOnlyInfo] [] readOnlyMachine =
      (.ok written,readOnlyMachine) ∧
      overlongBuffer.length = written.length ∧
      (deserializeParameters [readOnlyInfo] overlongBuffer readOnlyMachine).1 = .panic := by
  exact ⟨_,rfl,by decide,by decide +kernel⟩

end TinySolana
