import Mathlib.Algebra.Order.BigOperators.Group.List
import TinySolana.ParameterRoundTrip

/-!
# Markers of duplicates

The marker of a duplicate is the index of the first entry with its key, cut to a byte, and shares
its values with the marker of an original. Which markers are right depends on how far down the list
a repeated key comes up first.
-/

namespace TinySolana
open Foundations

variable {κ : Type}

/-- The index of the first entry with a key. -/
def firstIndex (accounts : List (AccountInfo κ)) (key : Pubkey) : ℕ :=
  (accounts.map AccountInfo.pubkey).idxOf key

theorem firstIndex_append_of_mem {accounts rest : List (AccountInfo κ)} {key : Pubkey}
    (h : key ∈ accounts.map AccountInfo.pubkey) :
    firstIndex (accounts ++ rest) key = firstIndex accounts key := by
  rw [firstIndex,List.map_append,List.idxOf_append_of_mem h,firstIndex]

theorem firstIndex_lt_of_mem {accounts : List (AccountInfo κ)} {key : Pubkey}
    (h : key ∈ accounts.map AccountInfo.pubkey) : firstIndex accounts key < accounts.length := by
  have hlt := List.idxOf_lt_length_of_mem h
  rwa [List.length_map] at hlt

theorem firstIndex_append_self {accounts rest : List (AccountInfo κ)} {info : AccountInfo κ}
    (h : info.pubkey ∉ accounts.map AccountInfo.pubkey) :
    firstIndex (accounts ++ info :: rest) info.pubkey = accounts.length := by
  rw [firstIndex,List.map_append,List.idxOf_append_of_notMem h,List.map_cons,List.idxOf_cons_self,
    List.length_map,Nat.add_zero]

/-- The first index of a key holds an info with this key. -/
theorem getElem?_firstIndex {accounts : List (AccountInfo κ)} {key : Pubkey}
    (h : key ∈ accounts.map AccountInfo.pubkey) :
    ∃ info, accounts[firstIndex accounts key]? = some info ∧ info.pubkey = key := by
  have hget := List.getElem?_idxOf h
  rw [List.getElem?_map,Option.map_eq_some_iff] at hget
  exact hget

/-- Every repeated key comes up first at an index that is no marker of an original. -/
def RepeatsBelowMarker (accounts : List (AccountInfo κ)) : Prop :=
  ∀ i info, accounts[i]? = some info → firstIndex accounts info.pubkey ≠ i →
    firstIndex accounts info.pubkey < nonDupMarker.toNat

/-- No index of a first entry is cut to the marker of an original. -/
def RepeatsReadable (accounts : List (AccountInfo κ)) : Prop :=
  ∀ i info, accounts[i]? = some info → firstIndex accounts info.pubkey ≠ i →
    firstIndex accounts info.pubkey % 256 ≠ nonDupMarker.toNat

theorem RepeatsBelowMarker.readable {accounts : List (AccountInfo κ)}
    (h : RepeatsBelowMarker accounts) :
    RepeatsReadable accounts := by
  intro i info hi hne
  have hlt := h i info hi hne
  rw [Nat.mod_eq_of_lt (hlt.trans (UInt8.toNat_lt _))]
  exact hlt.ne

/-! ## The marks -/

/-- How the entry at an index is marked. -/
def markAt (cells : κ → Account) (accounts : List (AccountInfo κ)) (i : ℕ) (info : AccountInfo κ) :
    SerializeAccount :=
  if firstIndex accounts info.pubkey = i then .original (cells info.account)
  else .duplicate (UInt8.ofNat (firstIndex accounts info.pubkey))

/-- The map holds the first index of every key that was seen. -/
def Indexes (firstIndices : FiniteMap Pubkey ℕ) (seen : List (AccountInfo κ)) : Prop :=
  ∀ key, firstIndices.lookup key =
    if key ∈ seen.map AccountInfo.pubkey then some (firstIndex seen key) else none

theorem indexes_nil : Indexes ∅ ([] : List (AccountInfo κ)) := fun key => by
  rw [Finmap.lookup_empty,List.map_nil,if_neg List.not_mem_nil]

section Step

variable {firstIndices : FiniteMap Pubkey ℕ} {seen : List (AccountInfo κ)} {info : AccountInfo κ}

/-- A key that was seen before leaves the map as it is. -/
theorem Indexes.repeated (h : Indexes firstIndices seen)
    (hs : info.pubkey ∈ seen.map AccountInfo.pubkey) :
    Indexes firstIndices (seen ++ [info]) := by
  intro key
  rw [h key,List.map_append,List.map_singleton]
  by_cases hk : key ∈ seen.map AccountInfo.pubkey
  · rw [if_pos hk,if_pos (List.mem_append_left _ hk),firstIndex_append_of_mem hk]
  · rw [if_neg hk,if_neg]
    intro hm
    rcases List.mem_append.mp hm with hm | hm
    · exact hk hm
    · exact hk (List.mem_singleton.mp hm ▸ hs)

/-- A new key is inserted with its index. -/
theorem Indexes.insert (h : Indexes firstIndices seen)
    (hs : info.pubkey ∉ seen.map AccountInfo.pubkey) :
    Indexes (firstIndices.insert info.pubkey seen.length) (seen ++ [info]) := by
  intro key
  rw [FiniteMap.lookup_insert,h key,List.map_append,List.map_singleton]
  by_cases he : key = info.pubkey
  · subst he
    rw [if_pos rfl,if_pos (List.mem_append_right _ List.mem_cons_self),firstIndex_append_self hs]
  · rw [if_neg he]
    by_cases hk : key ∈ seen.map AccountInfo.pubkey
    · rw [if_pos hk,if_pos (List.mem_append_left _ hk),firstIndex_append_of_mem hk]
    · rw [if_neg hk,if_neg]
      intro hm
      rcases List.mem_append.mp hm with hm | hm
      · exact hk hm
      · exact he (List.mem_singleton.mp hm)

end Step

/-- Every entry is marked by whether its key comes up first at its index. -/
theorem markDuplicates_getElem (cells : κ → Account) {accounts seen : List (AccountInfo κ)}
    {firstIndices : FiniteMap Pubkey ℕ} (h : Indexes firstIndices seen) {j : ℕ}
    {info : AccountInfo κ} (hi : accounts[j]? = some info) :
    (markDuplicates cells seen.length firstIndices accounts)[j]? =
      some (markAt cells (seen ++ accounts) (seen.length+j) info) := by
  induction accounts generalizing seen firstIndices j with
  | nil => cases hi
  | cons first accounts ih =>
    have hlength : (seen ++ [first]).length = seen.length+1 := List.length_append
    have happend : seen ++ first :: accounts = (seen ++ [first]) ++ accounts :=
      List.append_cons ..
    by_cases hs : first.pubkey ∈ seen.map AccountInfo.pubkey
    · have hlookup := h first.pubkey
      rw [if_pos hs] at hlookup
      rw [markDuplicates,hlookup]
      cases j with
      | zero =>
        cases hi
        have hlt := firstIndex_lt_of_mem hs
        rw [List.getElem?_cons_zero,markAt,firstIndex_append_of_mem hs,if_neg (by omega)]
      | succ j =>
        have hrest := ih (h.repeated hs) hi
        rw [hlength,← happend] at hrest
        rw [List.getElem?_cons_succ,hrest,Nat.add_assoc,Nat.add_comm 1]
    · have hlookup := h first.pubkey
      rw [if_neg hs] at hlookup
      rw [markDuplicates,hlookup]
      cases j with
      | zero =>
        cases hi
        rw [List.getElem?_cons_zero,markAt,firstIndex_append_self hs,if_pos (Nat.add_zero _).symm]
      | succ j =>
        have hrest := ih (h.insert hs) hi
        rw [hlength,← happend] at hrest
        rw [List.getElem?_cons_succ,hrest,Nat.add_assoc,Nat.add_comm 1]

/-- The mark of a last entry stands behind the marks of the entries before it. -/
theorem markDuplicates_concat {cells : κ → Account} {front : List (AccountInfo κ)}
    {last : AccountInfo κ} : markDuplicates cells 0 ∅ (front ++ [last]) =
      markDuplicates cells 0 ∅ front ++ [markAt cells (front ++ [last]) front.length last] := by
  have hmark := fun {accounts : List (AccountInfo κ)} {i : ℕ} {info : AccountInfo κ}
    (h : accounts[i]? = some info) => markDuplicates_getElem cells indexes_nil h
  simp only [List.nil_append,List.length_nil,Nat.zero_add] at hmark
  refine List.ext_getElem (by simp [markDuplicates_length]) fun i h₁ h₂ => ?_
  rw [markDuplicates_length] at h₁
  have hi := hmark (List.getElem?_eq_getElem h₁)
  rw [List.getElem?_eq_getElem (by rwa [markDuplicates_length]),Option.some_inj] at hi
  rw [hi]
  rw [List.length_append,List.length_singleton] at h₁
  by_cases hlt : i < front.length
  · have hfront := hmark (List.getElem?_eq_getElem hlt)
    rw [List.getElem?_eq_getElem (by rwa [markDuplicates_length]),Option.some_inj] at hfront
    rw [List.getElem_append_left hlt,
      List.getElem_append_left (by rwa [markDuplicates_length]),hfront,markAt,markAt,
      firstIndex_append_of_mem (List.mem_map_of_mem (List.getElem_mem hlt))]
  · obtain rfl : i = front.length := by omega
    rw [List.getElem_concat_length rfl,
      List.getElem_concat_length (markDuplicates_length ..).symm]

theorem layoutFrom_append (es es' : List (AccountInfo κ × SerializeAccount)) (offset : ℕ) :
    layoutFrom offset (es ++ es') =
      layoutFrom offset es ++ layoutFrom (offset+(es.map fun p => p.2.size).sum) es' := by
  induction es generalizing offset with
  | nil => rfl
  | cons p es ih =>
    rw [List.cons_append,layoutFrom,layoutFrom,ih,List.cons_append,List.map_cons,List.sum_cons,
      ← Nat.add_assoc]

theorem layoutFrom_getElem {es : List (AccountInfo κ × SerializeAccount)} {offset i : ℕ}
    {e : PlacedEntry κ} (h : (layoutFrom offset es)[i]? = some e) :
    es[i]? = some (e.info,e.account) := by
  induction es generalizing offset i with
  | nil => cases h
  | cons p es ih =>
    cases i with
    | zero =>
      cases h
      rfl
    | succ i => exact ih h

theorem layoutFrom_length (es : List (AccountInfo κ × SerializeAccount)) (offset : ℕ) :
    (layoutFrom offset es).length = es.length := by
  induction es generalizing offset with
  | nil => rfl
  | cons p es ih => rw [layoutFrom,List.length_cons,List.length_cons,ih]

section Layout

variable {cells : κ → Account} {accounts : List (AccountInfo κ)} {instructionData : List UInt8}
  {i : ℕ} {e : PlacedEntry κ}

/-- The entry at an index is the info there, with its mark. -/
theorem parameterLayout_getElem (h : (parameterLayout cells accounts)[i]? = some e) :
    accounts[i]? = some e.info ∧ e.account = markAt cells accounts i e.info := by
  have hzip := layoutFrom_getElem h
  rw [List.getElem?_zip_eq_some] at hzip
  obtain ⟨hinfo,hmark⟩ := hzip
  have hm := markDuplicates_getElem cells indexes_nil hinfo
  rw [List.nil_append,List.length_nil,Nat.zero_add,hmark] at hm
  exact ⟨hinfo,Option.some.inj hm⟩

variable (cells accounts) in
theorem parameterLayout_length : (parameterLayout cells accounts).length = accounts.length := by
  rw [parameterLayout,layoutFrom_length,List.length_zip,markDuplicates_length,Nat.min_self]

variable (cells) in
/-- Every info has its entry. -/
theorem exists_placed {info : AccountInfo κ} (h : accounts[i]? = some info) :
    ∃ e, (parameterLayout cells accounts)[i]? = some e ∧ e.info = info ∧
      e.account = markAt cells accounts i info := by
  have hlt := (List.getElem?_eq_some_iff.mp h).1.trans_eq
    (parameterLayout_length cells accounts).symm
  obtain ⟨hinfo,hmark⟩ := parameterLayout_getElem (List.getElem?_eq_getElem hlt)
  rw [h,Option.some_inj] at hinfo
  exact ⟨_,List.getElem?_eq_getElem hlt,hinfo.symm,hinfo.symm ▸ hmark⟩

/-- The byte at the offset of an entry. -/
theorem entry_marker (h : (parameterLayout cells accounts)[i]? = some e) :
    (parameterBytes cells accounts instructionData)[e.offset]? =
      some (if firstIndex accounts e.info.pubkey = i then nonDupMarker
        else UInt8.ofNat (firstIndex accounts e.info.pubkey)) := by
  obtain ⟨front,back,hbytes,hoffset⟩ := mem_layout_bytes instructionData (List.mem_of_getElem? h)
  rw [hbytes,(parameterLayout_getElem h).2,markAt,← hoffset]
  split <;> simp [serializeEntry]

end Layout

/-! ## Unambiguous markers -/

/-- The marker of an entry says that it is the first one with its key, or at which index that one
is. -/
def MarkersUnambiguous (cells : κ → Account) (accounts : List (AccountInfo κ))
    (written : List UInt8) :
    Prop :=
  ∀ i info e, accounts[i]? = some info → (parameterLayout cells accounts)[i]? = some e →
    (written[e.offset]? = some nonDupMarker ↔ firstIndex accounts info.pubkey = i) ∧
    (firstIndex accounts info.pubkey ≠ i →
      ∃ marker, written[e.offset]? = some marker ∧ marker.toNat = firstIndex accounts info.pubkey)

section Markers

variable {cells : κ → Account} {accounts : List (AccountInfo κ)} {instructionData : List UInt8}

theorem RepeatsBelowMarker.toNat_ofNat {i : ℕ} {info : AccountInfo κ}
    (h : RepeatsBelowMarker accounts) (hi : accounts[i]? = some info)
    (hne : firstIndex accounts info.pubkey ≠ i) :
    (UInt8.ofNat (firstIndex accounts info.pubkey)).toNat = firstIndex accounts info.pubkey ∧
      UInt8.ofNat (firstIndex accounts info.pubkey) ≠ nonDupMarker := by
  have hlt := h i info hi hne
  have hnat : (UInt8.ofNat (firstIndex accounts info.pubkey)).toNat =
      firstIndex accounts info.pubkey := by
    rw [UInt8.toNat_ofNat']
    exact Nat.mod_eq_of_lt (hlt.trans (UInt8.toNat_lt _))
  refine ⟨hnat,fun heq => ?_⟩
  rw [heq] at hnat
  exact hlt.ne hnat.symm

theorem markersUnambiguous_iff :
    MarkersUnambiguous cells accounts (parameterBytes cells accounts instructionData) ↔
      RepeatsBelowMarker accounts := by
  constructor
  · intro h i info hi hne
    -- A marker that is the index of the first entry is a byte, and not the marker of an original.
    obtain ⟨e,he,-,-⟩ := exists_placed cells hi
    obtain ⟨horiginal,hduplicate⟩ := h i info e hi he
    obtain ⟨marker,hm,hnat⟩ := hduplicate hne
    have hnot : marker ≠ nonDupMarker := by
      rintro rfl
      exact hne (horiginal.mp hm)
    have hlt := marker.toNat_lt
    have hne' : marker.toNat ≠ 255 := fun heq => hnot (UInt8.toNat_inj.mp heq)
    rw [← hnat]
    change marker.toNat < 255
    omega
  · intro h i info e hi he
    have hinfo := (parameterLayout_getElem he).1
    rw [hi,Option.some_inj] at hinfo
    subst hinfo
    rw [entry_marker he]
    by_cases hfirst : firstIndex accounts e.info.pubkey = i
    · rw [if_pos hfirst]
      exact ⟨iff_of_true rfl hfirst,fun hne => absurd hfirst hne⟩
    · obtain ⟨hnat,hnot⟩ := h.toNat_ofNat hi hfirst
      rw [if_neg hfirst]
      exact ⟨iff_of_false (fun heq => hnot (Option.some.inj heq)) hfirst,fun _ => ⟨_,rfl,hnat⟩⟩

/-- Where no first index is cut to the marker of an original, no duplicate is taken for one. -/
theorem RepeatsReadable.markers (h : RepeatsReadable accounts) :
    MarkersReadable cells accounts := by
  intro e he index ha
  obtain ⟨i,hi⟩ := List.getElem?_of_mem he
  obtain ⟨hinfo,hmark⟩ := parameterLayout_getElem hi
  rw [hmark,markAt] at ha
  split at ha
  · cases ha
  · next hne =>
    cases ha
    intro heq
    have hnat := congrArg UInt8.toNat heq
    rw [UInt8.toNat_ofNat'] at hnat
    exact h i e.info hinfo hne hnat

end Markers

variable [DecidableEq κ]

/-- The markers tell the first entry of every key from its repeats, and a region that was not edited
restores every account, exactly when repeated keys come up first below index 255. -/
theorem duplicate_markers_iff (accounts : List (AccountInfo κ)) (instructionData : List UInt8)
    (m : Machine κ) :
    ∃ written, serializeParameters accounts instructionData m = (.ok written,m) ∧
      ((MarkersUnambiguous m.cells accounts written ∧
          (written.length < 2^64 → deserializeParameters accounts written m = (.ok (),m))) ↔
        RepeatsBelowMarker accounts) :=
  ⟨_,serializeParameters_run,fun h => markersUnambiguous_iff.mp h.1,fun h =>
    ⟨markersUnambiguous_iff.mpr h,deserialize_written h.readable.markers⟩⟩

/-- A last entry whose marker is that of an original is read as one, and the region is too short for
it. -/
theorem misread_last_fails {front : List (AccountInfo κ)} {last : AccountInfo κ}
    {instructionData : List UInt8} {m : Machine κ} (hf : front.length ≤ 256)
    (hk : last.pubkey ∈ front.map AccountInfo.pubkey) (hindex : firstIndex front last.pubkey = 255)
    (hi : instructionData.length < 74)
    (hl : (parameterBytes m.cells (front ++ [last]) instructionData).length < 2^64)
    (m' : Machine κ) :
    deserializeParameters (front ++ [last])
      (parameterBytes m.cells (front ++ [last]) instructionData) m ≠ (.ok (),m') := by
  have hmark : markAt m.cells (front ++ [last]) front.length last = .duplicate nonDupMarker := by
    have hlt := firstIndex_lt_of_mem hk
    rw [markAt,firstIndex_append_of_mem hk,if_neg hlt.ne,hindex]
    rfl
  have hzip : (front ++ [last]).zip (markDuplicates m.cells 0 ∅ (front ++ [last])) =
      front.zip (markDuplicates m.cells 0 ∅ front) ++ [(last,.duplicate nonDupMarker)] := by
    rw [markDuplicates_concat,hmark,List.zip_append (markDuplicates_length ..).symm]
    rfl
  have hlayout : parameterLayout m.cells (front ++ [last]) = parameterLayout m.cells front ++
      [⟨8+((front.zip (markDuplicates m.cells 0 ∅ front)).map fun p => p.2.size).sum,last,
        .duplicate nonDupMarker⟩] := by
    rw [parameterLayout,hzip,layoutFrom_append]
    rfl
  have hlength := @parameterBytes_length _ m.cells (front ++ [last]) instructionData
  rw [parametersSize,← zip_sizes _ (markDuplicates_length ..),hzip,List.map_append,
    List.sum_append] at hlength
  have hframed : ∀ e ∈ layoutFrom 8 (front.zip (markDuplicates m.cells 0 ∅ front)),
      e.Framed (parameterBytes m.cells (front ++ [last]) instructionData) := by
    intro e he
    have hmem : e ∈ parameterLayout m.cells (front ++ [last]) :=
      hlayout ▸ List.mem_append_left _ he
    exact framed_of_kept _ hmem (markersReadable_of_length hf e he) (layout_stop_le _ hmem)
      fun _ _ _ => rfl
  intro h
  obtain ⟨records,hparse,-⟩ := deserializeFrom_ok.mp h
  have happend := writableRecordsFrom_append hl hframed [last]
  rw [List.map_fst_zip (markDuplicates_length ..).ge,hparse] at happend
  have hone : ([(last,SerializeAccount.duplicate nonDupMarker)].map fun p => p.2.size).sum =
    1 := rfl
  rw [hone] at hlength
  generalize ((front.zip (markDuplicates m.cells 0 ∅ front)).map fun p => p.2.size).sum = size at *
  -- Behind the marker there is nothing but the instruction data.
  have hmem := hlayout ▸ List.mem_append_right (parameterLayout m.cells front) List.mem_cons_self
  obtain ⟨before,back,hbytes,hoffset⟩ := mem_layout_bytes instructionData hmem
  have hmarker : (parameterBytes m.cells (front ++ [last]) instructionData)[8+size]? =
      some nonDupMarker := by
    change before.length = 8+size at hoffset
    rw [hbytes,← hoffset]
    simp [serializeEntry]
  have hfits : ¬RecordFits (parameterBytes m.cells (front ++ [last]) instructionData)
      (8+size+35) := by
    rintro ⟨hend,-⟩
    omega
  rw [writableRecordsFrom,if_neg (by omega),if_neg (not_not.mpr hmarker),
    if_neg (fun h => hfits h.2)] at happend
  cases happend

def byteAccount (n : ℕ) : AccountInfo UInt8 := ⟨.ofByte (.ofNat n),false,false,.ofNat n,false,0⟩

/-- An account for every byte. -/
def byteAccounts : List (AccountInfo UInt8) := (List.range 256).map byteAccount

/-- The account of index 255 once more behind them. -/
def lateRepeat : List (AccountInfo UInt8) := byteAccounts ++ [byteAccount 255]

theorem byteAccounts_length : byteAccounts.length = 256 := by
  rw [byteAccounts,List.length_map,List.length_range]

theorem byteAccounts_last : byteAccounts = (List.range 255).map byteAccount ++
    [byteAccount 255] := by
  rw [byteAccounts,List.range_succ,List.map_append,List.map_singleton]

theorem byteAccount_mem : (byteAccount 255).pubkey ∈ byteAccounts.map AccountInfo.pubkey :=
  List.mem_map_of_mem (List.mem_map_of_mem (List.mem_range.mpr (by decide)))

theorem byteAccount_firstIndex : firstIndex byteAccounts (byteAccount 255).pubkey = 255 := by
  rw [byteAccounts_last,firstIndex_append_self,List.length_map,List.length_range]
  intro hm
  obtain ⟨info,hinfo,heq⟩ := List.mem_map.mp hm
  obtain ⟨n,hn,rfl⟩ := List.mem_map.mp hinfo
  rw [List.mem_range] at hn
  -- Two keys of this form agree in their last byte.
  have hbyte := List.append_cancel_left (congrArg Pubkey.bytes heq)
  have hnat := congrArg UInt8.toNat (List.singleton_inj.mp hbyte)
  rw [UInt8.toNat_ofNat',Nat.mod_eq_of_lt (by omega)] at hnat
  exact hn.ne hnat

def emptyMachine : Machine UInt8 := ⟨fun _ => default,0,∅⟩

theorem lateRepeat_length {instructionData : List UInt8} (hi : instructionData.length < 74) :
    (parameterBytes emptyMachine.cells lateRepeat instructionData).length < 2^64 := by
  have hsizes :
    ∀ size ∈ (markDuplicates emptyMachine.cells 0 ∅ lateRepeat).map SerializeAccount.size,
      size ≤ 83 := by
    intro size hs
    rw [← zip_sizes _ (markDuplicates_length ..)] at hs
    obtain ⟨⟨info,mark⟩,hp,rfl⟩ := List.mem_map.mp hs
    cases mark with
    | duplicate index => exact (by decide : 1 ≤ 83)
    | original account =>
      obtain rfl := original_account hp
      exact (by decide : SerializeAccount.size (.original default) ≤ 83)
  have hsum := List.sum_le_card_nsmul _ _ hsizes
  rw [List.length_map,markDuplicates_length,Nat.nsmul_eq_mul] at hsum
  have hlength : lateRepeat.length = 257 := by
    rw [lateRepeat,List.length_append,byteAccounts_length,List.length_singleton]
  rw [parameterBytes_length,parametersSize]
  omega

/-- The repeat of index 255 has the marker of an original, and the region that was written cannot be
read back. -/
theorem late_repeat_misread :
    ∃ written, serializeParameters lateRepeat [] emptyMachine = (.ok written,emptyMachine) ∧
      ¬MarkersUnambiguous emptyMachine.cells lateRepeat written ∧
      ∀ m', deserializeParameters lateRepeat written emptyMachine ≠ (.ok (),m') := by
  refine ⟨_,serializeParameters_run,fun h => ?_,fun m' => misread_last_fails byteAccounts_length.le
    byteAccount_mem byteAccount_firstIndex (by decide) (lateRepeat_length (by decide)) m'⟩
  have hlast : lateRepeat[256]? = some (byteAccount 255) := by
    rw [lateRepeat,← byteAccounts_length,List.getElem?_concat_length]
  have hlt := markersUnambiguous_iff.mp h 256 _ hlast
  rw [lateRepeat,firstIndex_append_of_mem byteAccount_mem,byteAccount_firstIndex] at hlt
  exact absurd (hlt (by decide)) (by decide)

end TinySolana
