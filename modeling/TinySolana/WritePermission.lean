import TinySolana.AccountInfos
import TinySolana.DuplicateMarkers
import TinySolana.Programs.LoaderStates

/-!
# Write permission of repeated metas

An account that an instruction mentions several times is serialized once, with the flag of its first
meta, and read back by that flag. What a program writes into the entry is kept where the first meta
is writable, and lost where only a later one is.
-/

namespace TinySolana
open Foundations BpfLoaderProgram

variable {κ : Type}

/-! ## Overwriting a record -/

theorem getElem?_overwriteAt {data bytes : List UInt8} {start p : ℕ}
    (h : start+bytes.length ≤ data.length) (hp : p < start ∨ start+bytes.length ≤ p) :
    (overwriteAt data start bytes)[p]? = data[p]? := by
  have hfront : (data.take start).length = start := List.length_take_of_le (by omega)
  rw [overwriteAt,List.append_assoc]
  rcases hp with hp | hp
  · rw [List.getElem?_append_left (by omega),List.getElem?_take_of_lt hp]
  · rw [List.getElem?_append_right (by omega),List.getElem?_append_right (by omega),
      List.getElem?_drop,hfront]
    congr 1
    omega

theorem slice_overwriteAt {data bytes : List UInt8} {start : ℕ}
    (h : start+bytes.length ≤ data.length) :
    slice (overwriteAt data start bytes) start bytes.length = bytes := by
  rw [overwriteAt,List.append_assoc]
  exact slice_append (List.length_take_of_le (by omega)) rfl

/-- Bytes elsewhere leave a window alone. -/
theorem slice_overwriteAt_apart {data bytes : List UInt8} {start offset len : ℕ}
    (h : start+bytes.length ≤ data.length) (ho : offset+len ≤ start ∨ start+bytes.length ≤ offset) :
    slice (overwriteAt data start bytes) offset len = slice data offset len :=
  slice_congr fun p _ _ => getElem?_overwriteAt h (by omega)

/-- The region with the owner, the lamports and the data of a record in the entry at an offset. -/
def overwriteRecord (written : List UInt8) (offset : ℕ) (r : AccountRecord) : List UInt8 :=
  overwriteAt (overwriteAt (overwriteAt written (offset+35) r.owner.bytes) (offset+67)
    (leBytes 8 r.lamports.toNat)) (offset+83) r.data

section Overwrite

variable {written : List UInt8} {offset : ℕ} {r : AccountRecord}
  (h : offset+83+r.data.length ≤ written.length)

include h

/-- Each part of the record fits where it is written. -/
theorem overwriteRecord_fits :
    offset+35+r.owner.bytes.length ≤ written.length ∧
      offset+67+(leBytes 8 r.lamports.toNat).length ≤
        (overwriteAt written (offset+35) r.owner.bytes).length ∧
      offset+83+r.data.length ≤
        (overwriteAt (overwriteAt written (offset+35) r.owner.bytes) (offset+67)
        (leBytes 8 r.lamports.toNat)).length := by
  have howner : offset+35+r.owner.bytes.length ≤ written.length := by
    rw [r.owner.size]
    omega
  have hlamports : offset+67+(leBytes 8 r.lamports.toNat).length ≤
      (overwriteAt written (offset+35) r.owner.bytes).length := by
    rw [overwriteAt_length howner,leBytes_length]
    omega
  refine ⟨howner,hlamports,?_⟩
  rwa [overwriteAt_length hlamports,overwriteAt_length howner]

theorem overwriteRecord_length : (overwriteRecord written offset r).length = written.length := by
  obtain ⟨howner,hlamports,hdata⟩ := overwriteRecord_fits h
  rw [overwriteRecord,overwriteAt_length hdata,overwriteAt_length hlamports,
    overwriteAt_length howner]

/-- Bytes outside the record are left alone. -/
theorem getElem?_overwriteRecord {p : ℕ}
    (hp : p < offset+35 ∨ offset+75 ≤ p ∧ p < offset+83 ∨ offset+83+r.data.length ≤ p) :
    (overwriteRecord written offset r)[p]? = written[p]? := by
  obtain ⟨howner,hlamports,hdata⟩ := overwriteRecord_fits h
  have hsize := r.owner.size
  have hle := leBytes_length 8 r.lamports.toNat
  rw [overwriteRecord,getElem?_overwriteAt hdata (by omega),
    getElem?_overwriteAt hlamports (by omega),getElem?_overwriteAt howner (by omega)]

theorem overwriteRecord_owner :
    slice (overwriteRecord written offset r) (offset+35) 32 = r.owner.bytes := by
  obtain ⟨howner,hlamports,hdata⟩ := overwriteRecord_fits h
  have hslice := slice_overwriteAt howner
  rw [r.owner.size] at hslice
  rw [overwriteRecord,slice_overwriteAt_apart hdata (by omega),
    slice_overwriteAt_apart hlamports (by omega),hslice]

theorem overwriteRecord_lamports :
    slice (overwriteRecord written offset r) (offset+67) 8 = leBytes 8 r.lamports.toNat := by
  obtain ⟨-,hlamports,hdata⟩ := overwriteRecord_fits h
  have hslice := slice_overwriteAt hlamports
  rw [leBytes_length] at hslice
  rw [overwriteRecord,slice_overwriteAt_apart hdata (by omega),hslice]

theorem overwriteRecord_data :
    slice (overwriteRecord written offset r) (offset+83) r.data.length = r.data :=
  slice_overwriteAt (overwriteRecord_fits h).2.2

end Overwrite

/-! ## What an entry spells -/

section Spells

variable {e : PlacedEntry κ} {bytes bytes' : List UInt8} {account : Account} {r r' : AccountRecord}

/-- An entry spells one record. -/
theorem PlacedEntry.Spells.unique (h : e.Spells bytes account r) (h' : e.Spells bytes account r') :
    r = r' := by
  obtain ⟨owner,lamports,data⟩ := r
  obtain ⟨owner',lamports',data'⟩ := r'
  obtain rfl : owner = owner' := Pubkey.ext (h.owner.trans h'.owner.symm)
  obtain rfl : data = data' := h.data.trans h'.data.symm
  have hbytes : leBytes 8 lamports.toNat = leBytes 8 lamports'.toNat :=
    h.lamports.trans h'.lamports.symm
  have hnat := congrArg ofLeBytes hbytes
  rw [ofLeBytes_leBytes lamports.toNat_lt,ofLeBytes_leBytes lamports'.toNat_lt] at hnat
  obtain rfl : lamports = lamports' := UInt64.toNat_inj.mp hnat
  rfl

/-- Regions that agree on an entry spell the same record there. -/
theorem PlacedEntry.Spells.congr (h : e.Spells bytes account r) (ha : e.account = .original account)
    (hp : ∀ p, e.offset ≤ p → p < e.stop → bytes'[p]? = bytes[p]?) : e.Spells bytes' account r := by
  rw [PlacedEntry.stop,ha,SerializeAccount.size] at hp
  refine ⟨h.owner.trans ?_,h.lamports.trans ?_,h.data.trans ?_⟩ <;>
    exact slice_congr fun p _ _ => (hp p (by omega) (by omega)).symm

variable {cells : κ → Account} {accounts : List (AccountInfo κ)} {instructionData : List UInt8}

variable (instructionData) in
/-- What was written spells the account itself. -/
theorem written_spells (he : e ∈ parameterLayout cells accounts)
    (ha : e.account = .original account) :
    e.Spells (parameterBytes cells accounts instructionData) account
      ⟨account.owner,account.lamports,account.data⟩ := by
  obtain ⟨front,back,hbytes,hoffset⟩ := mem_layout_bytes instructionData he
  rw [ha] at hbytes
  constructor <;> rw [← hoffset]
  · exact (original_owner hbytes).symm
  · exact (original_lamports hbytes).symm
  · exact (original_data hbytes).symm

/-- An overwritten entry spells the record it was overwritten with. -/
theorem overwritten_spells (hfit : e.offset+83+r.data.length ≤ bytes.length)
    (hr : r.data.length = account.data.length) :
    e.Spells (overwriteRecord bytes e.offset r) account r :=
  ⟨(overwriteRecord_owner hfit).symm,(overwriteRecord_lamports hfit).symm,
    (hr ▸ overwriteRecord_data hfit).symm⟩

variable (instructionData) in
theorem overwrite_fits (he : e ∈ parameterLayout cells accounts)
    (ha : e.account = .original account) (hr : r.data.length = account.data.length) :
    e.offset+83+r.data.length ≤ (parameterBytes cells accounts instructionData).length := by
  have hstop := layout_stop_le instructionData he
  rw [PlacedEntry.stop,ha,SerializeAccount.size] at hstop
  omega

/-- Where an entry is overwritten, every entry keeps its frame. -/
theorem overwritten_framed (hm : MarkersReadable cells accounts)
    (he : e ∈ parameterLayout cells accounts) (ha : e.account = .original account)
    (hr : r.data.length = account.data.length) {e' : PlacedEntry κ}
    (he' : e' ∈ parameterLayout cells accounts) :
    e'.Framed (overwriteRecord (parameterBytes cells accounts instructionData) e.offset r) := by
  have hfit := overwrite_fits instructionData he ha hr
  refine framed_of_kept instructionData he' (hm e' he') ?_ fun k hk hf => ?_
  · rw [overwriteRecord_length hfit]
    exact layout_stop_le instructionData he'
  · refine getElem?_overwriteRecord hfit ?_
    obtain rfl | h | h := layoutFrom_apart he he'
    · rw [PlacedEntry.Frames,ha] at hf
      omega
    · rw [PlacedEntry.stop,ha,SerializeAccount.size] at h
      omega
    · rw [PlacedEntry.stop] at h
      omega

/-- The other entries spell what they did. -/
theorem overwritten_apart (he : e ∈ parameterLayout cells accounts)
    (ha : e.account = .original account) (hr : r.data.length = account.data.length)
    {e' : PlacedEntry κ} (he' : e' ∈ parameterLayout cells accounts) (hne : e ≠ e')
    {account' : Account} (ha' : e'.account = .original account') :
    e'.Spells (overwriteRecord (parameterBytes cells accounts instructionData) e.offset r) account'
      ⟨account'.owner,account'.lamports,account'.data⟩ := by
  refine (written_spells instructionData he' ha').congr ha' fun p hp hp' => ?_
  refine getElem?_overwriteRecord (overwrite_fits instructionData he ha hr) ?_
  obtain rfl | h | h := layoutFrom_apart he he'
  · exact absurd rfl hne
  · rw [PlacedEntry.stop,ha,SerializeAccount.size] at h
    omega
  · omega

end Spells

/-! ## Reading it back -/

variable [DecidableEq κ]

/-- A program that overwrites one entry changes its account where the entry is flagged writable, and
nothing where it is not. -/
theorem deserialize_overwritten {accounts : List (AccountInfo κ)} {instructionData : List UInt8}
    {m : Machine κ} (hs : SharedCells accounts) (hm : MarkersReadable m.cells accounts)
    (hl : (parameterBytes m.cells accounts instructionData).length < 2^64) {e : PlacedEntry κ}
    (he : e ∈ parameterLayout m.cells accounts) {account : Account}
    (ha : e.account = .original account) {r : AccountRecord}
    (hr : r.data.length = account.data.length) :
    deserializeParameters accounts
        (overwriteRecord (parameterBytes m.cells accounts instructionData) e.offset r) m =
      (.ok (),if e.info.isWritable then assignRecord m (e.info.account,r) else m) := by
  have hfit := overwrite_fits instructionData he ha hr
  have hl' := (overwriteRecord_length hfit).trans_lt hl
  have hframed : ∀ e' ∈ parameterLayout m.cells accounts, e'.Framed
      (overwriteRecord (parameterBytes m.cells accounts instructionData) e.offset r) :=
    fun e' he' => overwritten_framed hm he ha hr he'
  obtain ⟨m',hrun,hedited,hkept,hmeter,hcache⟩ := deserialize_framed hs hl' hframed
  have hcells : m'.cells =
      (if e.info.isWritable then assignRecord m (e.info.account,r) else m).cells := by
    funext c
    by_cases hc : ∀ e' ∈ parameterLayout m.cells accounts, ∀ account', e'.Writes account' →
        e'.info.account ≠ c
    · rw [hkept c hc]
      split
      · next hw => exact (Machine.update_of_ne m (hc e he account ⟨ha,hw⟩).symm _).symm
      · rfl
    · simp only [not_forall,not_not] at hc
      obtain ⟨e',he',account',hw,rfl⟩ := hc
      rw [hedited e' he' account' hw]
      have hspells := (hframed e' he').spells hl' hw.1
      by_cases hne : e = e'
      · subst hne
        obtain rfl : account = account' := SerializeAccount.original.inj (ha.symm.trans hw.1)
        rw [hspells.unique (overwritten_spells hfit hr),if_pos hw.2]
        exact (Machine.update_self m _ _).symm
      · -- The record of another entry is the account's own.
        have hmem := mem_of_layoutFrom he'
        rw [hw.1] at hmem
        rw [hspells.unique (overwritten_apart he ha hr he' hne hw.1),original_account hmem]
        split
        · next hew =>
          have hcell : e'.info.account ≠ e.info.account := fun heq =>
            hne (writes_unique hs he he' ⟨ha,hew⟩ hw heq.symm)
          exact (Machine.update_of_ne m hcell _).symm
        · rfl
  have hrest : m' = if e.info.isWritable then assignRecord m (e.info.account,r) else m := by
    refine Machine.eq_of_fields hcells (hmeter.trans ?_) (hcache.trans ?_) <;> split <;> rfl
  rw [hrun,hrest]

/-! ## The flag of an entry -/

section FirstInfo

variable {accounts : List (AccountInfo κ)} {cells : κ → Account} {e : PlacedEntry κ}

omit [DecidableEq κ] in
/-- The original entry of a key belongs to the first info of the key. -/
theorem original_find? (he : e ∈ parameterLayout cells accounts) {account : Account}
    (ha : e.account = .original account) :
    accounts.find? (fun info => info.pubkey = e.info.pubkey) = some e.info := by
  obtain ⟨i,hi⟩ := List.getElem?_of_mem he
  obtain ⟨hinfo,hmark⟩ := parameterLayout_getElem hi
  obtain ⟨hlt,hget⟩ := List.getElem?_eq_some_iff.mp hinfo
  have hfirst : firstIndex accounts e.info.pubkey = i := by
    rw [hmark,markAt] at ha
    split at ha
    · assumption
    · cases ha
  refine List.find?_eq_some_iff_getElem.mpr ⟨by simp,i,hlt,hget,fun j hj => ?_⟩
  have hbefore := List.not_of_lt_findIdx (hj.trans_eq hfirst.symm)
  simpa using hbefore

variable (cells) in
omit [DecidableEq κ] in
/-- Every key of the list has an original entry. -/
theorem exists_original {info : AccountInfo κ} (h : info ∈ accounts) :
    ∃ e ∈ parameterLayout cells accounts, ∃ account, e.account = .original account ∧
      e.info.pubkey = info.pubkey := by
  obtain ⟨first,hfirst,hkey⟩ := getElem?_firstIndex (List.mem_map_of_mem h)
  obtain ⟨e,he,hinfo,hmark⟩ := exists_placed cells hfirst
  refine ⟨e,List.mem_of_getElem? he,cells first.account,?_,by rw [hinfo,hkey]⟩
  rw [hmark,markAt,if_pos (by rw [hkey])]

end FirstInfo

namespace Bank

variable {keys : List Pubkey} {cells : Cells keys} {instruction : Instruction}
  {infos : List (AccountInfo (Fin keys.length))}

/-- Prepared infos share a cell exactly when they share a key. -/
theorem sharedCells_of_prepared (h : prepareAccountInfos instruction cells = .ok infos) :
    SharedCells infos := by
  intro a ha b hb
  obtain ⟨ma,-,hra⟩ := exists_meta h ha
  obtain ⟨mb,-,hrb⟩ := exists_meta h hb
  constructor
  · intro hk
    have hposition := hra.account
    rw [← hra.pubkey,hk,hrb.pubkey,hrb.account,Option.some_inj] at hposition
    exact hposition.symm
  · intro hc
    rw [← hra.key,← hrb.key,hc]

/-- The first info of a key stands for the first meta of the key. -/
theorem find?_resolves {metas : List AccountMeta} (h : List.Forall₂ Resolves metas infos)
    {key : Pubkey} {info : AccountInfo (Fin keys.length)}
    (hf : infos.find? (fun info => info.pubkey = key) = some info) :
    ∃ accountMeta, metas.find? (fun accountMeta => accountMeta.pubkey = key) = some accountMeta ∧
      Resolves accountMeta info := by
  induction h with
  | nil => cases hf
  | @cons accountMeta first metas infos hr h ih =>
    rw [List.find?_cons] at hf ⊢
    by_cases hk : first.pubkey = key
    · rw [decide_eq_true hk] at hf
      cases hf
      rw [decide_eq_true (hr.pubkey ▸ hk)]
      exact ⟨_,rfl,hr⟩
    · rw [decide_eq_false hk] at hf
      rw [decide_eq_false (hr.pubkey ▸ hk)]
      exact ih hf

end Bank

/-! ## Permission by meta -/

/-- Some meta of the key is writable. -/
def MetaWrites (metas : List AccountMeta) (key : Pubkey) : Prop :=
  ∃ accountMeta ∈ metas, accountMeta.pubkey = key ∧ accountMeta.isWritable = true

instance (metas : List AccountMeta) (key : Pubkey) : Decidable (MetaWrites metas key) :=
  inferInstanceAs (Decidable (∃ accountMeta ∈ metas, _ ∧ _))

/-- The first meta of the key is writable. -/
def FirstMetaWrites (metas : List AccountMeta) (key : Pubkey) : Prop :=
  ∃ accountMeta, metas.find? (fun accountMeta => accountMeta.pubkey = key) = some accountMeta ∧
    accountMeta.isWritable = true

/-- Whatever owner, lamports and data of the same length a program writes into the entry of the key,
they are read back where some meta of the key is writable, and dropped where none is. -/
def PermissionByMetas (metas : List AccountMeta) (accounts : List (AccountInfo κ)) (m : Machine κ)
    (written : List UInt8) (key : Pubkey) : Prop :=
  ∀ e ∈ parameterLayout m.cells accounts, ∀ account, e.account = .original account →
    e.info.pubkey = key → ∀ r : AccountRecord, r.data.length = account.data.length →
      deserializeParameters accounts (overwriteRecord written e.offset r) m =
        (.ok (),if MetaWrites metas key then assignRecord m (e.info.account,r) else m)

/-- A record with other lamports changes the machine. -/
theorem exists_changing (m : Machine κ) (c : κ) : ∃ r : AccountRecord,
    r.data.length = (m.cells c).data.length ∧ assignRecord m (c,r) ≠ m := by
  refine ⟨⟨default,(m.cells c).lamports+1,(m.cells c).data⟩,rfl,fun h => ?_⟩
  have hcell := congrArg (fun m' : Machine κ => (m'.cells c).lamports) h
  simp [assignRecord,AccountRecord.assign] at hcell

section Prepared

variable {keys : List Pubkey} {instruction : Instruction} {m : Machine (Fin keys.length)}
  {infos : List (AccountInfo (Fin keys.length))}
  (hp : Bank.prepareAccountInfos instruction m.cells = .ok infos)

include hp

/-- The flag in the entry of a key is that of its first meta. -/
theorem firstMetaWrites_iff {e : PlacedEntry (Fin keys.length)}
    (he : e ∈ parameterLayout m.cells infos) {account : Account}
    (ha : e.account = .original account) :
    FirstMetaWrites instruction.accounts e.info.pubkey ↔ e.info.isWritable = true := by
  obtain ⟨accountMeta,hmeta,hr⟩ :=
    Bank.find?_resolves (Bank.prepareAccountInfos_resolves hp) (original_find? he ha)
  rw [hr.isWritable]
  exact ⟨fun ⟨_,h,hw⟩ => Option.some.inj (hmeta.symm.trans h) ▸ hw,fun hw => ⟨_,hmeta,hw⟩⟩

/-- A key with a writable meta has an entry. -/
theorem exists_entry_of_metaWrites {key : Pubkey} (h : MetaWrites instruction.accounts key) :
    ∃ e ∈ parameterLayout m.cells infos, ∃ account, e.account = .original account ∧
      e.info.pubkey = key := by
  obtain ⟨accountMeta,hmem,rfl,-⟩ := h
  obtain ⟨info,hinfo,hr⟩ := Bank.exists_info hp hmem
  obtain ⟨e,he,account,ha,hk⟩ := exists_original m.cells hinfo
  exact ⟨e,he,account,ha,hk.trans hr.pubkey⟩

theorem permissionByMetas_iff (hm : RepeatsReadable infos) {instructionData : List UInt8}
    (hl : (parameterBytes m.cells infos instructionData).length < 2^64) {key : Pubkey} :
    PermissionByMetas instruction.accounts infos m
      (parameterBytes m.cells infos instructionData) key ↔
      (MetaWrites instruction.accounts key → FirstMetaWrites instruction.accounts key) := by
  have hs := Bank.sharedCells_of_prepared hp
  constructor
  · intro h hmeta
    obtain ⟨e,he,account,ha,rfl⟩ := exists_entry_of_metaWrites hp hmeta
    refine (firstMetaWrites_iff hp he ha).mpr ?_
    by_contra hro
    -- A change of the lamports is dropped, although a meta is writable.
    have hmark := mem_of_layoutFrom he
    rw [ha] at hmark
    obtain ⟨r,hr,hne⟩ := exists_changing m e.info.account
    rw [← original_account hmark] at hr
    have happlied := h e he account ha rfl r hr
    rw [if_pos hmeta,deserialize_overwritten hs hm.markers hl he ha hr,if_neg hro] at happlied
    exact hne (congrArg Prod.snd happlied).symm
  · rintro h e he account ha rfl r hr
    rw [deserialize_overwritten hs hm.markers hl he ha hr]
    have hflag := firstMetaWrites_iff hp he ha
    by_cases hmeta : MetaWrites instruction.accounts e.info.pubkey
    · rw [if_pos hmeta,if_pos (hflag.mp (h hmeta))]
    · have hro : ¬e.info.isWritable = true := by
        intro hwritable
        obtain ⟨accountMeta,hfind,hw⟩ := hflag.mpr hwritable
        have hkey := List.find?_some hfind
        exact hmeta ⟨accountMeta,List.mem_of_find?_eq_some hfind,by simpa using hkey,hw⟩
      rw [if_neg hmeta,if_neg hro]

end Prepared

/-- As long as the markers can be read, write permission follows the metas of a key exactly when its
first meta is writable if any of them is. -/
theorem write_permission_iff {keys : List Pubkey} (instruction : Instruction)
    (m : Machine (Fin keys.length)) (infos : List (AccountInfo (Fin keys.length)))
    (hp : Bank.prepareAccountInfos instruction m.cells = .ok infos) (hm : RepeatsReadable infos)
    (written : List UInt8) (hw : serializeParameters infos instruction.data m = (.ok written,m))
    (hl : written.length < 2^64) (key : Pubkey) :
    PermissionByMetas instruction.accounts infos m written key ↔
      (MetaWrites instruction.accounts key → FirstMetaWrites instruction.accounts key) := by
  rw [serializeParameters_run] at hw
  cases hw
  exact permissionByMetas_iff hp hm hl

/-- An account mentioned twice, once writable. -/
def mentionedTwice (first second : Bool) : Instruction :=
  ⟨.ofByte 9,[⟨.ofByte 1,false,first⟩,⟨.ofByte 1,false,second⟩],[]⟩

def oneAccountMachine : Machine (Fin [Pubkey.ofByte 1].length) := ⟨fun _ => default,0,∅⟩

/-- The infos of the two metas. -/
def infosTwice (first second : Bool) : List (AccountInfo (Fin [Pubkey.ofByte 1].length)) :=
  [⟨.ofByte 1,false,first,0,false,0⟩,⟨.ofByte 1,false,second,0,false,0⟩]

theorem infosTwice_readable (first second : Bool) : RepeatsReadable (infosTwice first second) := by
  have hfirst : firstIndex (infosTwice first second) (.ofByte 1) = 0 := by
    rw [firstIndex,infosTwice,List.map_cons,List.idxOf_cons_self]
  intro i info hi _
  obtain rfl | rfl := List.mem_pair.mp (List.mem_of_getElem? hi) <;>
    (rw [hfirst]; decide)

/-- With the writable meta in front, what a program writes is kept. -/
theorem writable_first_kept :
    ∃ written, serializeParameters (infosTwice true false) [] oneAccountMachine =
        (.ok written,oneAccountMachine) ∧
      PermissionByMetas (mentionedTwice true false).accounts (infosTwice true false)
        oneAccountMachine written (.ofByte 1) :=
  ⟨_,serializeParameters_run,
    (write_permission_iff (mentionedTwice true false) oneAccountMachine _ rfl
    (infosTwice_readable true false) _ serializeParameters_run (by decide) (.ofByte 1)).mpr
      fun _ => ⟨_,rfl,rfl⟩⟩

/-- With the writable meta behind the other one, it is dropped. -/
theorem read_only_first_dropped :
    ∃ written, Bank.prepareAccountInfos (mentionedTwice false true) oneAccountMachine.cells =
        .ok (infosTwice false true) ∧
      serializeParameters (infosTwice false true) [] oneAccountMachine =
        (.ok written,oneAccountMachine) ∧
      MetaWrites (mentionedTwice false true).accounts (.ofByte 1) ∧
      ¬PermissionByMetas (mentionedTwice false true).accounts (infosTwice false true)
        oneAccountMachine written (.ofByte 1) := by
  have hp : Bank.prepareAccountInfos (mentionedTwice false true) oneAccountMachine.cells =
      .ok (infosTwice false true) := rfl
  have hmeta : MetaWrites (mentionedTwice false true).accounts (.ofByte 1) := by decide
  refine ⟨_,hp,serializeParameters_run,hmeta,fun h => ?_⟩
  obtain ⟨first,hfind,hw⟩ :=
    (permissionByMetas_iff hp (infosTwice_readable false true) (by decide)).mp h hmeta
  cases hfind
  cases hw

end TinySolana
