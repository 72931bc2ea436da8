import TinySolana.ParameterLayout

/-!
# Round trip of the parameters

A program that edits nothing but owners, lamports and data of writable accounts gets these back, and
nothing else: the reader comes to the entries at the offsets at which they were written, and the
first entry of an account is the only one that is read.
-/

namespace TinySolana
open Foundations

variable {κ : Type}

/-! ## Originals and duplicates -/

section Marks

variable {cells : κ → Account} {accounts : List (AccountInfo κ)} {i : ℕ}
  {firstIndices : FiniteMap Pubkey ℕ} {info : AccountInfo κ}

/-- The marks behind an entry, and what the entry is, by whether its key was seen before. -/
theorem mem_marks_cons {first : AccountInfo κ} {p : AccountInfo κ × SerializeAccount}
    (h : p ∈ (first :: accounts).zip (markDuplicates cells i firstIndices (first :: accounts))) :
    (∃ k, firstIndices.lookup first.pubkey = some k ∧ (p = (first,.duplicate (UInt8.ofNat k)) ∨
        p ∈ accounts.zip (markDuplicates cells (i+1) firstIndices accounts))) ∨
      (firstIndices.lookup first.pubkey = none ∧ (p = (first,.original (cells first.account)) ∨
        p ∈ accounts.zip (markDuplicates cells (i+1) (firstIndices.insert first.pubkey i)
          accounts))) := by
  rw [markDuplicates] at h
  split at h
  · next k hk => exact .inl ⟨k,hk,List.mem_cons.mp h⟩
  · next hn => exact .inr ⟨hn,List.mem_cons.mp h⟩

/-- An original entry holds the account of its info. -/
theorem original_account {account : Account}
    (h : (info,.original account) ∈ accounts.zip (markDuplicates cells i firstIndices accounts)) :
    account = cells info.account := by
  induction accounts generalizing i firstIndices with
  | nil => simp [markDuplicates] at h
  | cons first accounts ih =>
    obtain ⟨k,-,h | h⟩ | ⟨-,h | h⟩ := mem_marks_cons h
    · cases h
    · exact ih h
    · cases h
      rfl
    · exact ih h

/-- Up to 256 entries, the index of an original is no marker. -/
theorem duplicate_ne_marker {index : UInt8} (hi : i+accounts.length ≤ 256)
    (hf : ∀ key k, firstIndices.lookup key = some k → k < i)
    (h : (info,.duplicate index) ∈ accounts.zip (markDuplicates cells i firstIndices accounts)) :
    index ≠ nonDupMarker := by
  induction accounts generalizing i firstIndices with
  | nil => simp [markDuplicates] at h
  | cons first accounts ih =>
    rw [List.length_cons] at hi
    obtain ⟨k,hk,h | h⟩ | ⟨-,h | h⟩ := mem_marks_cons h
    · cases h
      have hlt := hf _ _ hk
      intro he
      have hn := congrArg UInt8.toNat he
      rw [UInt8.toNat_ofNat',Nat.mod_eq_of_lt (by omega)] at hn
      simp only [nonDupMarker,UInt8.reduceToNat] at hn
      omega
    · exact ih (by omega) (fun key k' hk' => Nat.lt_succ_of_lt (hf key k' hk')) h
    · cases h
    · refine ih (by omega) (fun key k' hk' => ?_) h
      rw [FiniteMap.lookup_insert] at hk'
      split at hk'
      · cases hk'
        exact Nat.lt_succ_self i
      · exact Nat.lt_succ_of_lt (hf key k' hk')

/-- The key of an original has not been seen before. -/
theorem original_unseen {account : Account}
    (h : (info,.original account) ∈ accounts.zip (markDuplicates cells i firstIndices accounts)) :
    firstIndices.lookup info.pubkey = none := by
  induction accounts generalizing i firstIndices with
  | nil => simp [markDuplicates] at h
  | cons first accounts ih =>
    obtain ⟨k,-,h | h⟩ | ⟨hn,h | h⟩ := mem_marks_cons h
    · cases h
    · exact ih h
    · cases h
      exact hn
    · have hi := ih h
      rw [FiniteMap.lookup_insert] at hi
      split at hi
      · cases hi
      · exact hi

/-- A key has one original entry. -/
theorem original_unique {e e' : PlacedEntry κ} {offset : ℕ} {a a' : Account}
    (h : e ∈ layoutFrom offset (accounts.zip (markDuplicates cells i firstIndices accounts)))
    (h' : e' ∈ layoutFrom offset (accounts.zip (markDuplicates cells i firstIndices accounts)))
    (ha : e.account = .original a) (ha' : e'.account = .original a')
    (hk : e.info.pubkey = e'.info.pubkey) : e = e' := by
  induction accounts generalizing i firstIndices offset with
  | nil => simp [markDuplicates,layoutFrom] at h
  | cons first accounts ih =>
    rw [markDuplicates] at h h'
    cases hl : firstIndices.lookup first.pubkey with
    | some k =>
      rw [hl] at h h'
      rcases List.mem_cons.mp h with rfl | h
      · cases ha
      rcases List.mem_cons.mp h' with rfl | h'
      · cases ha'
      exact ih h h'
    | none =>
      rw [hl] at h h'
      -- The key of the first entry is seen from there on.
      have hrest : ∀ (d : PlacedEntry κ) (b : Account), d ∈ layoutFrom
          (offset+(SerializeAccount.original (cells first.account)).size) (accounts.zip
            (markDuplicates cells (i+1) (firstIndices.insert first.pubkey i) accounts)) →
          d.account = .original b → d.info.pubkey ≠ first.pubkey := by
        intro d b hd hb heq
        have hmem := mem_of_layoutFrom hd
        rw [hb] at hmem
        have hunseen := original_unseen hmem
        rw [FiniteMap.lookup_insert,if_pos heq] at hunseen
        cases hunseen
      rcases List.mem_cons.mp h with rfl | h <;> rcases List.mem_cons.mp h' with rfl | h'
      · rfl
      · exact absurd hk.symm (hrest e' a' h' ha')
      · exact absurd hk (hrest e a h ha)
      · exact ih h h'

end Marks

/-! ## Edits -/

/-- The entry of a writable account that is not a duplicate. -/
def PlacedEntry.Writes (e : PlacedEntry κ) (account : Account) : Prop :=
  e.account = .original account ∧ e.info.isWritable = true

/-- A byte of the owner, the lamports or the data of a writable original entry. -/
def PlacedEntry.Editable (e : PlacedEntry κ) (p : ℕ) : Prop :=
  ∃ account, e.Writes account ∧ (e.offset+35 ≤ p ∧ p < e.offset+75 ∨
    e.offset+83 ≤ p ∧ p < e.offset+83+account.data.length)

/-- The bytes differ in editable positions only. -/
structure EditedOnly (layout : List (PlacedEntry κ)) (written bytes : List UInt8) : Prop where
  length : bytes.length = written.length
  kept : ∀ p, (∀ e ∈ layout, ¬e.Editable p) → bytes[p]? = written[p]?

theorem EditedOnly.refl (layout : List (PlacedEntry κ)) (written : List UInt8) :
    EditedOnly layout written written := ⟨rfl,fun _ _ => rfl⟩

/-- A position of an entry that is not editable in it is not editable at all. -/
theorem not_editable {e : PlacedEntry κ} {offset k : ℕ}
    {es : List (AccountInfo κ × SerializeAccount)} (he : e ∈ layoutFrom offset es)
    (hk : k < e.account.size) (hn : ¬e.Editable (e.offset+k)) :
    ∀ e' ∈ layoutFrom offset es, ¬e'.Editable (e.offset+k) := by
  rintro e' he' hp
  obtain rfl | h | h := layoutFrom_apart he he'
  · exact hn hp
  · obtain ⟨account,-,hp⟩ := hp
    rw [PlacedEntry.stop] at h
    omega
  · obtain ⟨account,⟨ha,-⟩,hp⟩ := hp
    rw [PlacedEntry.stop,ha,SerializeAccount.size] at h
    omega

/-! ## What the reader finds -/

/-- The marker, the flag and the length of an entry are in place. -/
def PlacedEntry.Framed (e : PlacedEntry κ) (input : List UInt8) : Prop :=
  e.stop ≤ input.length ∧
    match e.account with
    | .original account => input[e.offset]? = some nonDupMarker ∧
      input[e.offset+2]? = some (boolByte e.info.isWritable) ∧
      slice input (e.offset+75) 8 = leBytes 8 account.data.length
    | .duplicate _ => input[e.offset]? ≠ some nonDupMarker

/-- The record that the reader takes from an entry. -/
def PlacedEntry.record (input : List UInt8) (e : PlacedEntry κ) : Option (κ × AccountRecord) :=
  match e.account with
  | .original _ =>
    if e.info.isWritable then some (e.info.account,recordAt input (e.offset+35)) else none
  | .duplicate _ => none

theorem boolByte_ne_zero {b : Bool} : some (boolByte b) ≠ some 0 ↔ b = true := by
  cases b <;> decide

/-- Framed entries are parsed one after the other, and the rest behind them. -/
theorem writableRecordsFrom_append {input : List UInt8} {offset : ℕ} (hl : input.length < 2^64)
    {es : List (AccountInfo κ × SerializeAccount)} (h : ∀ e ∈ layoutFrom offset es, e.Framed input)
    (rest : List (AccountInfo κ)) :
    writableRecordsFrom input offset (es.map Prod.fst ++ rest) =
      (writableRecordsFrom input (offset+(es.map fun p => p.2.size).sum) rest).map
        ((layoutFrom offset es).filterMap (PlacedEntry.record input) ++ ·) := by
  induction es generalizing offset with
  | nil => exact Option.map_id'.symm
  | cons p es ih =>
    obtain ⟨info,account⟩ := p
    obtain ⟨hstop,hframe⟩ := h _ List.mem_cons_self
    have hrest := ih fun e he => h e (List.mem_cons_of_mem _ he)
    simp only [PlacedEntry.stop] at hstop
    rw [List.map_cons,List.cons_append,writableRecordsFrom,layoutFrom,List.filterMap_cons,
      List.map_cons,List.sum_cons,← Nat.add_assoc]
    cases account with
    | duplicate index =>
      simp only [SerializeAccount.size] at hstop hrest
      rw [if_neg (by omega),if_pos hframe,hrest]
      rfl
    | original account =>
      obtain ⟨hm,hw,hd⟩ := hframe
      simp only [SerializeAccount.size] at hstop hrest
      have hlen : recordDataLen input (offset+35) = account.data.length :=
        recordDataLen_of_window hd (by omega)
      have hend : recordEnd input (offset+35) =
          offset+(1+(1+1+32+32+8+8)+account.data.length+padding account.data.length) := by
        rw [recordEnd,hlen]
        omega
      have hfits : RecordFits input (offset+35) := ⟨by omega,by omega,by omega⟩
      rw [if_neg (by omega),if_neg (not_not.mpr hm),if_pos ⟨by omega,hfits⟩,hend,hrest,hw,
        Option.map_map]
      refine congrArg (Option.map · _) (funext fun records => ?_)
      simp only [Function.comp_apply,boolByte_ne_zero,PlacedEntry.record]
      split <;> rfl

/-- Framed entries are parsed one after the other. -/
theorem writableRecordsFrom_layout {input : List UInt8} {offset : ℕ} (hl : input.length < 2^64)
    {es : List (AccountInfo κ × SerializeAccount)}
    (h : ∀ e ∈ layoutFrom offset es, e.Framed input) :
    writableRecordsFrom input offset (es.map Prod.fst) =
      some ((layoutFrom offset es).filterMap (PlacedEntry.record input)) := by
  have hparse := writableRecordsFrom_append hl h []
  rwa [List.append_nil,writableRecordsFrom,Option.map_some,List.append_nil] at hparse

/-- A byte of an entry that frames it. -/
def PlacedEntry.Frames (e : PlacedEntry κ) (k : ℕ) : Prop :=
  match e.account with
  | .original _ => k < 35 ∨ 75 ≤ k ∧ k < 83
  | .duplicate _ => k = 0

/-- No duplicate has the marker of an original. -/
def MarkersReadable (cells : κ → Account) (accounts : List (AccountInfo κ)) : Prop :=
  ∀ e ∈ parameterLayout cells accounts, ∀ index, e.account = .duplicate index → index ≠ nonDupMarker

/-- Up to 256 entries, every marker is readable. -/
theorem markersReadable_of_length {cells : κ → Account} {accounts : List (AccountInfo κ)}
    (hc : accounts.length ≤ 256) : MarkersReadable cells accounts := by
  intro e he index ha
  have hmem := mem_of_layoutFrom he
  rw [ha] at hmem
  exact duplicate_ne_marker (by omega) (fun key k hk => by simp at hk) hmem

/-- An entry is framed by the bytes that frame it. -/
theorem framed_of_kept {cells : κ → Account} {accounts : List (AccountInfo κ)}
    (instructionData : List UInt8) {bytes : List UInt8} {e : PlacedEntry κ}
    (he : e ∈ parameterLayout cells accounts)
    (hm : ∀ index, e.account = .duplicate index → index ≠ nonDupMarker)
    (hlen : e.stop ≤ bytes.length) (hkept : ∀ k < e.account.size, e.Frames k →
      bytes[e.offset+k]? = (parameterBytes cells accounts instructionData)[e.offset+k]?) :
    e.Framed bytes := by
  obtain ⟨front,back,hw,hfront⟩ := mem_layout_bytes instructionData he
  refine ⟨hlen,?_⟩
  cases ha : e.account with
  | duplicate index =>
    have hbyte := hkept 0 (by rw [ha,SerializeAccount.size]; omega) (by rw [PlacedEntry.Frames,ha])
    rw [ha] at hw
    rw [Nat.add_zero,hw,← hfront] at hbyte
    dsimp only
    rw [← hfront,hbyte]
    simpa [serializeEntry] using hm index ha
  | original account =>
    have hframe : ∀ k < 83, k < 35 ∨ 75 ≤ k →
        bytes[e.offset+k]? = (parameterBytes cells accounts instructionData)[e.offset+k]? := by
      intro k hk hk'
      refine hkept k (by rw [ha,SerializeAccount.size]; omega) ?_
      rw [PlacedEntry.Frames,ha]
      exact hk'.imp id fun h => ⟨h,hk⟩
    rw [ha] at hw
    rw [← hfront] at hframe ⊢
    refine ⟨(hframe 0 (by omega) (by omega)).trans (original_marker hw),
      (hframe 2 (by omega) (by omega)).trans (original_isWritable hw),?_⟩
    refine (slice_congr fun p hp hp' => ?_).trans (original_dataLen hw)
    obtain ⟨k,rfl⟩ := Nat.exists_eq_add_of_le (show front.length ≤ p by omega)
    exact hframe k (by omega) (by omega)

/-- Edits leave the frame of every entry. -/
theorem EditedOnly.framed {cells : κ → Account} {accounts : List (AccountInfo κ)}
    {instructionData bytes : List UInt8} (hm : MarkersReadable cells accounts)
    (h : EditedOnly (parameterLayout cells accounts) (parameterBytes cells accounts instructionData)
      bytes) {e : PlacedEntry κ} (he : e ∈ parameterLayout cells accounts) : e.Framed bytes := by
  have hstop : e.stop ≤ bytes.length := h.length.symm ▸ layout_stop_le instructionData he
  refine framed_of_kept instructionData he (hm e he) hstop fun k hk hf => ?_
  refine h.kept _ (not_editable he hk ?_)
  rintro ⟨account,⟨ha,-⟩,hp⟩
  rw [PlacedEntry.Frames,ha] at hf
  omega

/-! ## The accounts behind it -/

variable [DecidableEq κ]

theorem lastRecord_eq_some {records : List (κ × AccountRecord)} {c : κ} {r : AccountRecord}
    (hm : (c,r) ∈ records) (hu : ∀ r', (c,r') ∈ records → r' = r) :
      lastRecord records c = some r := by
  cases hp : (records.filter fun p => p.1 = c).getLast? with
  | none =>
    have hnil := List.getLast?_eq_none_iff.mp hp
    exact absurd (List.mem_filter.mpr ⟨hm,by simp⟩) (hnil ▸ List.not_mem_nil)
  | some p =>
    obtain ⟨d,r'⟩ := p
    obtain ⟨hmem,hd⟩ := List.mem_filter.mp (List.mem_of_getLast? hp)
    obtain rfl : d = c := of_decide_eq_true hd
    rw [lastRecord,hp,Option.map_some,hu r' hmem]

theorem lastRecord_eq_none {records : List (κ × AccountRecord)} {c : κ}
    (h : ∀ r, (c,r) ∉ records) : lastRecord records c = none := by
  have hnil : records.filter (fun p => p.1 = c) = [] := by
    refine List.filter_eq_nil_iff.mpr fun p hp hc => h p.2 ?_
    rwa [← of_decide_eq_true hc]
  rw [lastRecord,hnil]
  rfl

omit [DecidableEq κ] in
theorem mem_records {layout : List (PlacedEntry κ)} {input : List UInt8} {c : κ}
    {r : AccountRecord} :
    (c,r) ∈ layout.filterMap (PlacedEntry.record input) ↔ ∃ e ∈ layout, ∃ account,
      e.Writes account ∧
      e.info.account = c ∧ recordAt input (e.offset+35) = r := by
  rw [List.mem_filterMap]
  refine exists_congr fun e => and_congr_right fun _ => ?_
  cases ha : e.account with
  | duplicate index => simp [PlacedEntry.record,PlacedEntry.Writes,ha]
  | original account =>
    cases hw : e.info.isWritable with
    | false => simp [PlacedEntry.record,PlacedEntry.Writes,ha,hw]
    | true => simp [PlacedEntry.record,PlacedEntry.Writes,ha,hw]

theorem foldl_assignRecord_rest (records : List (κ × AccountRecord)) (m : Machine κ) :
    (records.foldl assignRecord m).computeMeter = m.computeMeter ∧
      (records.foldl assignRecord m).programCache = m.programCache := by
  induction records generalizing m with
  | nil => exact ⟨rfl,rfl⟩
  | cons r records ih => exact ih (assignRecord m r)

omit [DecidableEq κ] in
/-- A machine is its cells, its meter and its cache. -/
theorem Machine.eq_of_fields {m m' : Machine κ} (hcells : m.cells = m'.cells)
    (hmeter : m.computeMeter = m'.computeMeter) (hcache : m.programCache = m'.programCache) : m =
      m' := by
  cases m
  cases m'
  cases hcells
  cases hmeter
  cases hcache
  rfl

/-- Infos share a cell exactly when they share a key. -/
def SharedCells (accounts : List (AccountInfo κ)) : Prop :=
  ∀ a ∈ accounts, ∀ b ∈ accounts, a.pubkey = b.pubkey ↔ a.account = b.account

section Effect

variable {accounts : List (AccountInfo κ)} {bytes : List UInt8} {m : Machine κ}

/-- The record is read from the bytes of an entry, with the length that the account had. -/
structure PlacedEntry.Spells (e : PlacedEntry κ) (bytes : List UInt8) (account : Account)
    (r : AccountRecord) : Prop where
  owner : r.owner.bytes = slice bytes (e.offset+35) 32
  lamports : leBytes 8 r.lamports.toNat = slice bytes (e.offset+67) 8
  data : r.data = slice bytes (e.offset+83) account.data.length

/-- The writable accounts have what the bytes of their entries spell, and the other ones what they
had. -/
structure WrittenBack (layout : List (PlacedEntry κ)) (bytes : List UInt8)
    (m m' : Machine κ) : Prop where
  edited : ∀ e ∈ layout, ∀ account, e.Writes account → ∃ r, e.Spells bytes account r ∧
    m'.cells e.info.account = r.assign (m.cells e.info.account)
  kept : ∀ c, (∀ e ∈ layout, ∀ account, e.Writes account → e.info.account ≠ c) →
    m'.cells c = m.cells c
  computeMeter : m'.computeMeter = m.computeMeter
  programCache : m'.programCache = m.programCache

omit [DecidableEq κ] in
theorem PlacedEntry.Framed.spells {e : PlacedEntry κ} {account : Account} (hl : bytes.length < 2^64)
    (h : e.Framed bytes) (ha : e.account = .original account) :
    e.Spells bytes account (recordAt bytes (e.offset+35)) := by
  obtain ⟨hstop,hframe⟩ := h
  rw [PlacedEntry.stop,ha,SerializeAccount.size] at hstop
  rw [ha] at hframe
  have hlen : recordDataLen bytes (e.offset+35) = account.data.length :=
    recordDataLen_of_window hframe.2.2 (by omega)
  have howner := readPubkey_of_fits (show e.offset+35+32 ≤ bytes.length by omega)
  have hlamports := slice_length (show e.offset+67+8 ≤ bytes.length by omega)
  refine ⟨?_,?_,?_⟩
  · rw [readPubkey,dif_pos (slice_length (by omega)),Option.some_inj] at howner
    rw [← howner]
  · have hlt : ofLeBytes (slice bytes (e.offset+67) 8) < 2^64 :=
      (ofLeBytes_lt _).trans_eq (by rw [hlamports]; rfl)
    change leBytes 8 (readU64 bytes (e.offset+67)).toNat = _
    have hle := leBytes_ofLeBytes (slice bytes (e.offset+67) 8)
    rw [hlamports] at hle
    rwa [readU64,UInt64.toNat_ofNat',Nat.mod_eq_of_lt hlt]
  · rw [← hlen]
    rfl

omit [DecidableEq κ] in
/-- Where cells are shared by key, an entry that writes is the only one for its cell. -/
theorem writes_unique (hs : SharedCells accounts) {e e' : PlacedEntry κ}
    (he : e ∈ parameterLayout m.cells accounts) (he' : e' ∈ parameterLayout m.cells accounts)
    {a a' : Account} (ha : e.Writes a) (ha' : e'.Writes a')
    (hc : e.info.account = e'.info.account) : e = e' := by
  have hmem : ∀ d ∈ parameterLayout m.cells accounts, d.info ∈ accounts := fun d hd =>
    (List.of_mem_zip (mem_of_layoutFrom hd)).1
  exact original_unique he he' ha.1 ha'.1 ((hs _ (hmem e he) _ (hmem e' he')).mpr hc)

/-- A region whose entries are framed is read back, and its records are assigned. -/
theorem deserialize_framed (hs : SharedCells accounts) (hl : bytes.length < 2^64)
    (hf : ∀ e ∈ parameterLayout m.cells accounts, e.Framed bytes) :
    ∃ m', deserializeParameters accounts bytes m = (.ok (),m') ∧
      (∀ e ∈ parameterLayout m.cells accounts, ∀ account, e.Writes account →
        m'.cells e.info.account = (recordAt bytes (e.offset+35)).assign (m.cells e.info.account)) ∧
      (∀ c, (∀ e ∈ parameterLayout m.cells accounts, ∀ account, e.Writes account →
        e.info.account ≠ c) → m'.cells c = m.cells c) ∧
      m'.computeMeter = m.computeMeter ∧ m'.programCache = m.programCache := by
  have hparse : writableRecordsFrom bytes 8 accounts =
      some ((parameterLayout m.cells accounts).filterMap (PlacedEntry.record bytes)) := by
    have h := writableRecordsFrom_layout hl hf
    rwa [List.map_fst_zip (markDuplicates_length _ accounts 0 ∅).ge] at h
  refine ⟨_,deserializeFrom_ok.mpr ⟨_,hparse,rfl⟩,fun e he account hw => ?_,fun c hc => ?_,
    (foldl_assignRecord_rest _ m).1,(foldl_assignRecord_rest _ m).2⟩
  · have hlast :
      lastRecord ((parameterLayout m.cells accounts).filterMap (PlacedEntry.record bytes))
        e.info.account = some (recordAt bytes (e.offset+35)) := by
      refine lastRecord_eq_some (mem_records.mpr ⟨e,he,account,hw,rfl,rfl⟩) fun r' hr' => ?_
      obtain ⟨e',he',account',hw',hc,rfl⟩ := mem_records.mp hr'
      rw [writes_unique hs he' he hw' hw hc]
    rw [foldl_assignRecord_cells,hlast]
    rfl
  · have hlast :
      lastRecord ((parameterLayout m.cells accounts).filterMap (PlacedEntry.record bytes))
        c = none := by
      refine lastRecord_eq_none fun r hr => ?_
      obtain ⟨e,he,account,hw,hcell,-⟩ := mem_records.mp hr
      exact hc e he account hw hcell
    rw [foldl_assignRecord_cells,hlast]
    rfl

/-- Records that repeat what the cells hold leave the machine as it is. -/
theorem foldl_assignRecord_repeats {records : List (κ × AccountRecord)}
    (h : ∀ p ∈ records, p.2.assign (m.cells p.1) = m.cells p.1) :
    records.foldl assignRecord m = m := by
  have hcells : (records.foldl assignRecord m).cells = m.cells := by
    funext c
    rw [foldl_assignRecord_cells]
    cases hl : lastRecord records c with
    | none => rfl
    | some r =>
      rw [lastRecord,Option.map_eq_some_iff] at hl
      obtain ⟨⟨d,r'⟩,hd,rfl⟩ := hl
      obtain ⟨hmem,hc⟩ := List.mem_filter.mp (List.mem_of_getLast? hd)
      obtain rfl : d = c := of_decide_eq_true hc
      exact h _ hmem
  obtain ⟨hmeter,hcache⟩ := foldl_assignRecord_rest records m
  exact Machine.eq_of_fields hcells hmeter hcache

/-- Where markers are readable, a region that was not edited restores every account. -/
theorem deserialize_written {instructionData : List UInt8} (hm : MarkersReadable m.cells accounts)
    (hl : (parameterBytes m.cells accounts instructionData).length < 2^64) :
    deserializeParameters accounts (parameterBytes m.cells accounts instructionData) m
      = (.ok (),m) := by
  have hparse := writableRecordsFrom_layout hl fun e he => (EditedOnly.refl _ _).framed hm he
  rw [List.map_fst_zip (markDuplicates_length _ accounts 0 ∅).ge] at hparse
  refine deserializeFrom_ok.mpr ⟨_,hparse,(foldl_assignRecord_repeats ?_).symm⟩
  rintro ⟨c,r⟩ hr
  obtain ⟨e,he,account,hw,rfl,rfl⟩ := mem_records.mp hr
  obtain ⟨front,back,heq,ho⟩ := mem_layout_bytes instructionData he
  have hmem := mem_of_layoutFrom he
  have hstop := layout_stop_le instructionData he
  rw [hw.1] at heq hmem
  rw [PlacedEntry.stop,hw.1,SerializeAccount.size] at hstop
  dsimp only
  rw [← ho,original_record heq (by omega),original_account hmem]
  rfl

end Effect

/-- The parameters are written in the size that was computed for them. Up to 256 entries, and as
long as the length of a vector can count its bytes, edits of writable accounts are read back as they
are, and a region without edits restores every account. -/
theorem parameter_round_trip (accounts : List (AccountInfo κ)) (instructionData : List UInt8)
    (m : Machine κ) :
    ∃ written, serializeParameters accounts instructionData m = (.ok written,m) ∧
      written.length = parametersSize m.cells accounts instructionData ∧
      (accounts.length ≤ 256 → SharedCells accounts → written.length < 2^64 →
        (∀ bytes, EditedOnly (parameterLayout m.cells accounts) written bytes →
          ∃ m', deserializeParameters accounts bytes m = (.ok (),m') ∧
            WrittenBack (parameterLayout m.cells accounts) bytes m m') ∧
        deserializeParameters accounts written m = (.ok (),m)) := by
  refine ⟨_,serializeParameters_run,parameterBytes_length,fun hc hs hl => ⟨fun bytes h => ?_,
    deserialize_written (markersReadable_of_length hc) hl⟩⟩
  have hf : ∀ e ∈ parameterLayout m.cells accounts, e.Framed bytes := fun e he =>
    h.framed (markersReadable_of_length hc) he
  have hlen : bytes.length < 2^64 := h.length.symm ▸ hl
  obtain ⟨m',hrun,hedited,hkept,hmeter,hcache⟩ := deserialize_framed hs hlen hf
  exact ⟨m',hrun,fun e he account hw => ⟨_,(hf e he).spells hlen hw.1,hedited e he account hw⟩,
    hkept,hmeter,hcache⟩

/-- A writable account and a duplicate of it. -/
def writableTwice : List (AccountInfo Unit) :=
  [⟨.ofByte 1,false,true,(),false,0⟩,⟨.ofByte 1,false,false,(),false,0⟩]

/-- The lamports that a program writes over those of the account are read back. -/
theorem edited_lamports_read_back :
    ∃ written m', serializeParameters writableTwice [] readOnlyMachine =
      (.ok written,readOnlyMachine) ∧
      deserializeParameters writableTwice (written.set 75 7) readOnlyMachine = (.ok (),m') ∧
      WrittenBack (parameterLayout readOnlyMachine.cells writableTwice) (written.set 75 7)
        readOnlyMachine m' := by
  obtain ⟨written,hw,hlen,h⟩ := parameter_round_trip writableTwice [] readOnlyMachine
  have hs : SharedCells writableTwice := by simp [SharedCells,writableTwice]
  have hl : written.length < 2^64 := hlen.trans_lt (by decide)
  have he : EditedOnly (parameterLayout readOnlyMachine.cells writableTwice) written
      (written.set 75 7) := by
    refine ⟨List.length_set,fun p hp => List.getElem?_set_ne ?_⟩
    rintro rfl
    exact hp _ List.mem_cons_self ⟨_,⟨rfl,rfl⟩,.inl ⟨by decide,by decide⟩⟩
  obtain ⟨m',hrun,hback⟩ := (h (by decide) hs hl).1 _ he
  exact ⟨written,m',hw,hrun,hback⟩

end TinySolana
