import TinySolana.WritableRecords

/-!
# Layout of the parameters

Where the entries of the input region lie. Entries follow each other without gaps, so a position
belongs to one of them only, and the bytes of an entry are found at its offset.
-/

namespace TinySolana
open Foundations

variable {κ : Type}

/-! ## Windows -/

theorem slice_length {input : List UInt8} {offset len : ℕ} (h : offset+len ≤ input.length) :
    (slice input offset len).length = len := by
  simp only [slice,List.length_take,List.length_drop]
  omega

/-- A part of a buffer is its window. -/
theorem slice_append {front part back : List UInt8} {offset len : ℕ} (hf : front.length = offset)
    (hp : part.length = len) : slice (front ++ (part ++ back)) offset len = part := by
  rw [slice,List.drop_left' hf,List.take_left' hp]

/-- Buffers that agree on a window have the same window. -/
theorem slice_congr {input input' : List UInt8} {offset len : ℕ}
    (h : ∀ p, offset ≤ p → p < offset+len → input[p]? = input'[p]?) :
    slice input offset len = slice input' offset len := by
  refine List.ext_getElem? fun k => ?_
  rw [slice,slice,List.getElem?_take,List.getElem?_take]
  split
  · next hk =>
    rw [List.getElem?_drop,List.getElem?_drop]
    exact h _ (by omega) (by omega)
  · rfl

theorem recordDataLen_of_window {input : List UInt8} {offset len : ℕ}
    (h : slice input (offset+75) 8 = leBytes 8 len) (hl : len < 2^64) :
    recordDataLen input (offset+35) = len := by
  have hr : readU64 input (offset+75) = UInt64.ofNat len := by
    rw [readU64,h,ofLeBytes_leBytes hl]
  rw [recordDataLen,hr,UInt64.toNat_ofNat',Nat.mod_eq_of_lt hl]

/-! ## Entries -/

/-- An entry and the offset at which it is written. -/
structure PlacedEntry (κ : Type) where
  offset : ℕ
  info : AccountInfo κ
  account : SerializeAccount

/-- The entries one behind the other, from an offset on. -/
def layoutFrom : ℕ → List (AccountInfo κ × SerializeAccount) → List (PlacedEntry κ)
  | _, [] => []
  | offset, (info,account) :: rest => ⟨offset,info,account⟩ :: layoutFrom (offset+account.size) rest

/-- The entries that `serialize_parameters` writes behind the account count. -/
def parameterLayout (cells : κ → Account) (accounts : List (AccountInfo κ)) :
    List (PlacedEntry κ) :=
  layoutFrom 8 (accounts.zip (markDuplicates cells 0 ∅ accounts))

/-- The offset behind an entry. -/
def PlacedEntry.stop (e : PlacedEntry κ) : ℕ := e.offset+e.account.size

theorem serializeEntry_length (info : AccountInfo κ) (account : SerializeAccount) :
    (serializeEntry info account).length = account.size := by
  cases account with
  | original account =>
    simp only [serializeEntry,SerializeAccount.size,List.length_append,List.length_cons,
      List.length_nil,info.pubkey.size,account.owner.size,leBytes_length,List.length_replicate]
  | duplicate index => rfl

theorem markDuplicates_length (cells : κ → Account) (accounts : List (AccountInfo κ)) (i : ℕ)
    (firstIndices : FiniteMap Pubkey ℕ) :
    (markDuplicates cells i firstIndices accounts).length = accounts.length := by
  induction accounts generalizing i firstIndices with
  | nil => rfl
  | cons info accounts ih =>
    rw [markDuplicates]
    split <;> rw [List.length_cons,List.length_cons,ih]

theorem entries_length (es : List (AccountInfo κ × SerializeAccount)) :
    (es.flatMap fun p => serializeEntry p.1 p.2).length = (es.map fun p => p.2.size).sum := by
  rw [List.length_flatMap]
  simp only [serializeEntry_length]

/-- The bytes of an entry are found at its offset. -/
theorem mem_layoutFrom {e : PlacedEntry κ} {offset : ℕ}
    {es : List (AccountInfo κ × SerializeAccount)} (h : e ∈ layoutFrom offset es) :
    ∃ front back, (es.flatMap fun p => serializeEntry p.1 p.2) =
      front ++ (serializeEntry e.info e.account ++ back) ∧ offset+front.length = e.offset := by
  induction es generalizing offset with
  | nil => simp [layoutFrom] at h
  | cons p es ih =>
    obtain ⟨info,account⟩ := p
    rw [List.flatMap_cons]
    rcases List.mem_cons.mp h with rfl | h
    · exact ⟨[],_,rfl,rfl⟩
    · obtain ⟨front,back,heq,ho⟩ := ih h
      refine ⟨serializeEntry info account ++ front,back,by rw [heq,List.append_assoc],?_⟩
      rw [List.length_append,serializeEntry_length,← Nat.add_assoc,ho]

/-- The entries end where the bytes do. -/
theorem stop_le {e : PlacedEntry κ} {offset : ℕ} {es : List (AccountInfo κ × SerializeAccount)}
    (h : e ∈ layoutFrom offset es) :
    offset ≤ e.offset ∧ e.stop ≤ offset+(es.map fun p => p.2.size).sum := by
  obtain ⟨front,back,heq,ho⟩ := mem_layoutFrom h
  have hl := congrArg List.length heq
  rw [entries_length,List.length_append,List.length_append,serializeEntry_length] at hl
  rw [PlacedEntry.stop]
  omega

/-- Two entries are one, or one of them ends before the other begins. -/
theorem layoutFrom_apart {e e' : PlacedEntry κ} {offset : ℕ}
    {es : List (AccountInfo κ × SerializeAccount)} (h : e ∈ layoutFrom offset es)
    (h' : e' ∈ layoutFrom offset es) : e = e' ∨ e.stop ≤ e'.offset ∨ e'.stop ≤ e.offset := by
  induction es generalizing offset with
  | nil => simp [layoutFrom] at h
  | cons p es ih =>
    obtain ⟨info,account⟩ := p
    rcases List.mem_cons.mp h with rfl | h <;> rcases List.mem_cons.mp h' with rfl | h'
    · exact .inl rfl
    · exact .inr (.inl (stop_le h').1)
    · exact .inr (.inr (stop_le h).1)
    · exact ih h h'

theorem mem_of_layoutFrom {e : PlacedEntry κ} {offset : ℕ}
    {es : List (AccountInfo κ × SerializeAccount)} (h : e ∈ layoutFrom offset es) :
    (e.info,e.account) ∈ es := by
  induction es generalizing offset with
  | nil => simp [layoutFrom] at h
  | cons p es ih =>
    rcases List.mem_cons.mp h with rfl | h
    · exact List.mem_cons_self
    · exact List.mem_cons_of_mem _ (ih h)

/-! ## The region -/

/-- The bytes that `serialize_parameters` writes. -/
def parameterBytes (cells : κ → Account) (accounts : List (AccountInfo κ))
    (instructionData : List UInt8) : List UInt8 :=
  leBytes 8 accounts.length ++
    (accounts.zip (markDuplicates cells 0 ∅ accounts)).flatMap (fun p => serializeEntry p.1 p.2) ++
    leBytes 8 instructionData.length ++ instructionData

section Region

variable {cells : κ → Account} {accounts : List (AccountInfo κ)} {instructionData : List UInt8}

theorem serializeParameters_run {m : Machine κ} :
    serializeParameters accounts instructionData m =
      (.ok (parameterBytes m.cells accounts instructionData),m) := rfl

theorem zip_sizes (marks : List SerializeAccount) (h : marks.length = accounts.length) :
    ((accounts.zip marks).map fun p => p.2.size) = marks.map SerializeAccount.size := by
  rw [show (fun p : AccountInfo κ × SerializeAccount => p.2.size) = SerializeAccount.size ∘ Prod.snd
    from rfl,← List.map_map,List.map_snd_zip h.le]

/-- The region is as long as the size that was computed. -/
theorem parameterBytes_length :
    (parameterBytes cells accounts instructionData).length =
      parametersSize cells accounts instructionData := by
  rw [parameterBytes,parametersSize,List.length_append,List.length_append,List.length_append,
    entries_length,zip_sizes _ (markDuplicates_length cells accounts 0 ∅),leBytes_length,
    leBytes_length]
  omega

variable (instructionData) in
theorem mem_layout_bytes {e : PlacedEntry κ} (he : e ∈ parameterLayout cells accounts) :
    ∃ front back, parameterBytes cells accounts instructionData =
      front ++ (serializeEntry e.info e.account ++ back) ∧ front.length = e.offset := by
  obtain ⟨front,back,heq,ho⟩ := mem_layoutFrom he
  refine ⟨leBytes 8 accounts.length ++ front,
    back ++ (leBytes 8 instructionData.length ++ instructionData),?_,?_⟩
  · rw [parameterBytes,heq]
    simp only [List.append_assoc]
  · rw [List.length_append,leBytes_length,ho]

variable (instructionData) in
/-- The entries end before the instruction data. -/
theorem layout_stop_le {e : PlacedEntry κ} (he : e ∈ parameterLayout cells accounts) :
    e.stop ≤ (parameterBytes cells accounts instructionData).length := by
  obtain ⟨front,back,heq,ho⟩ := mem_layout_bytes instructionData he
  rw [heq,List.length_append,List.length_append,serializeEntry_length,PlacedEntry.stop]
  omega

end Region

/-! ## The bytes of an original entry -/

section Original

variable {input front back : List UInt8} {info : AccountInfo κ} {account : Account}

/-- The marker, the flags and the key of an original entry. -/
def entryHeader (info : AccountInfo κ) : List UInt8 :=
  [nonDupMarker,boolByte info.isSigner,boolByte info.isWritable] ++ info.pubkey.bytes

theorem entryHeader_length (info : AccountInfo κ) : (entryHeader info).length = 35 := by
  rw [entryHeader,List.length_append,info.pubkey.size]
  rfl

theorem serializeEntry_original (info : AccountInfo κ) (account : Account) :
    serializeEntry info (.original account) = entryHeader info ++ (account.owner.bytes ++
      (leBytes 8 account.lamports.toNat ++ (leBytes 8 account.data.length ++
        (account.data ++ List.replicate (padding account.data.length) 0)))) := by
  simp only [serializeEntry,entryHeader,List.append_assoc]

/-- A part of an entry is found behind what is in front of it. -/
theorem entry_window {part before after : List UInt8} {offset len : ℕ}
    (h : input = front ++ (serializeEntry info (.original account) ++ back))
    (he : serializeEntry info (.original account) = before ++ (part ++ after))
    (ho : front.length+before.length = offset) (hl : part.length = len) :
    slice input offset len = part := by
  have hs := @slice_append (front ++ before) part (after ++ back) offset len
    (by rw [List.length_append,ho]) hl
  rw [← hs,h,he]
  simp only [List.append_assoc]

variable (h : input = front ++ (serializeEntry info (.original account) ++ back))

include h

theorem original_marker : input[front.length]? = some nonDupMarker := by
  subst h
  simp [serializeEntry]

theorem original_isWritable : input[front.length+2]? = some (boolByte info.isWritable) := by
  subst h
  rw [List.getElem?_append_right (by omega),Nat.add_sub_cancel_left]
  simp [serializeEntry]

theorem original_owner : slice input (front.length+35) 32 = account.owner.bytes :=
  entry_window h (serializeEntry_original info account) (by rw [entryHeader_length])
    account.owner.size

theorem original_lamports : slice input (front.length+67) 8 = leBytes 8 account.lamports.toNat := by
  have he := (serializeEntry_original info account).trans (List.append_assoc ..).symm
  refine entry_window h he ?_ (leBytes_length _ _)
  rw [List.length_append,entryHeader_length,account.owner.size]

theorem original_dataLen : slice input (front.length+75) 8 = leBytes 8 account.data.length := by
  have he := ((serializeEntry_original info account).trans (List.append_assoc ..).symm).trans
    (List.append_assoc ..).symm
  refine entry_window h he ?_ (leBytes_length _ _)
  rw [List.length_append,List.length_append,entryHeader_length,account.owner.size,leBytes_length]

theorem original_data : slice input (front.length+83) account.data.length = account.data := by
  have he := (((serializeEntry_original info account).trans (List.append_assoc ..).symm).trans
    (List.append_assoc ..).symm).trans (List.append_assoc ..).symm
  refine entry_window h he ?_ rfl
  rw [List.length_append,List.length_append,List.length_append,entryHeader_length,
    account.owner.size,leBytes_length,leBytes_length]

/-- The record of an entry that was not changed is the account's own. -/
theorem original_record (hl : account.data.length < 2^64) :
    recordAt input (front.length+35) = ⟨account.owner,account.lamports,account.data⟩ := by
  have howner : readPubkey input (front.length+35) = some account.owner := by
    simp only [readPubkey,original_owner h,account.owner.size,dif_pos]
  have hlamports : readU64 input (front.length+67) = account.lamports := by
    rw [readU64,original_lamports h,ofLeBytes_leBytes account.lamports.toNat_lt,UInt64.ofNat_toNat]
  simp only [recordAt,howner,Option.getD_some,recordDataLen_of_window (original_dataLen h) hl,
    AccountRecord.mk.injEq,true_and]
  exact ⟨hlamports,original_data h⟩

end Original

end TinySolana
