import TinySolana.Bank
import TinySolana.Programs.SystemEffects

/-!
# Account infos of an instruction

`prepare_account_infos` resolves each meta to the first position of its key, so infos share a cell
exactly when they name the same key. It refuses a key that is not listed and a second writable meta
for a key.
-/

namespace TinySolana
open Foundations

namespace Bank

theorem position_eq_some {keys : List Pubkey} {k : Pubkey} {i : Fin keys.length} :
    position keys k = some i ↔ keys.get i = k ∧ ∀ j < i, keys.get j ≠ k := by
  simp [position]

theorem getElem_of_position {keys : List Pubkey} {k : Pubkey} {i : Fin keys.length}
    (h : position keys k = some i) : keys.get i = k := (position_eq_some.mp h).1

theorem position_eq_none {keys : List Pubkey} {k : Pubkey} : position keys k = none ↔ k ∉ keys := by
  simp only [position,List.findFinIdx?_eq_none_iff,decide_eq_true_eq]
  exact ⟨fun h hk => h k hk rfl,fun h x hx hxk => h (hxk ▸ hx)⟩

theorem exists_position {keys : List Pubkey} {k : Pubkey} (h : k ∈ keys) :
    ∃ i, position keys k = some i := by
  cases hp : position keys k with
  | none => exact absurd h (position_eq_none.mp hp)
  | some i => exact ⟨i,rfl⟩

/-- The info stands for the meta: it has its key and flags and the cell the key resolves to. -/
structure Resolves {keys : List Pubkey} (accountMeta : AccountMeta)
    (info : AccountInfo (Fin keys.length)) : Prop where
  pubkey : info.pubkey = accountMeta.pubkey
  isSigner : info.isSigner = accountMeta.isSigner
  isWritable : info.isWritable = accountMeta.isWritable
  account : position keys accountMeta.pubkey = some info.account

theorem Resolves.key {keys : List Pubkey} {m : AccountMeta} {info : AccountInfo (Fin keys.length)}
    (h : Resolves m info) : keys.get info.account = info.pubkey :=
  (getElem_of_position h.account).trans h.pubkey.symm

/-- What the list of metas must satisfy for the loop to accept it. -/
def Preparable (keys : List Pubkey) (metas : List AccountMeta) : Prop :=
  (∀ m ∈ metas, m.pubkey ∈ keys) ∧ (metaKeys true metas).Nodup

theorem preparable_cons {keys : List Pubkey} {m : AccountMeta} {metas : List AccountMeta} :
    Preparable keys (m :: metas) ↔ m.pubkey ∈ keys ∧
      (m.isWritable = true → m.pubkey ∉ metaKeys true metas) ∧ Preparable keys metas := by
  unfold Preparable metaKeys
  cases hw : m.isWritable with
  | false => simp [hw,and_assoc]
  | true =>
    simp only [List.mem_cons,forall_eq_or_imp,List.filter_cons,hw,decide_true,if_true,List.map_cons,
      List.nodup_cons,true_imp_iff]
    tauto

variable {keys : List Pubkey} {cells : Cells keys} {borrowed : BTreeSet (Fin keys.length)}
  {metas : List AccountMeta} {infos : List (AccountInfo (Fin keys.length))}

/-- Every info of the result stands for the meta at its position. -/
theorem prepareFrom_resolves (h : prepareFrom cells borrowed metas = .ok infos) :
    List.Forall₂ Resolves metas infos := by
  induction metas generalizing borrowed infos with
  | nil =>
    cases h
    exact .nil
  | cons m metas ih =>
    simp only [prepareFrom] at h
    split at h
    · cases h
    · next i hi =>
      split at h
      · cases h
      · cases hr : prepareFrom cells (if m.isWritable = true then borrowed.insert i
          else borrowed) metas with
        | error e =>
          rw [hr] at h
          cases h
        | ok rest =>
          rw [hr] at h
          cases h
          exact .cons ⟨rfl,rfl,rfl,hi⟩ (ih hr)

theorem prepareFrom_ok_iff : (∃ infos, prepareFrom cells borrowed metas = .ok infos) ↔
    Preparable keys metas ∧ ∀ k ∈ metaKeys true metas, ∀ i ∈ borrowed,
      position keys k ≠ some i := by
  induction metas generalizing borrowed with
  | nil => simp [prepareFrom,Preparable,metaKeys]
  | cons m metas ih =>
    rw [preparable_cons]
    cases hp : position keys m.pubkey with
    | none =>
      have hk := position_eq_none.mp hp
      simp [prepareFrom,hp,hk]
    | some i =>
      have hk : m.pubkey ∈ keys := by
        by_contra hn
        rw [position_eq_none.mpr hn] at hp
        cases hp
      have hstep : (∃ infos, prepareFrom cells borrowed (m :: metas) = .ok infos) ↔
          ¬(m.isWritable = true ∧ i ∈ borrowed) ∧ ∃ infos, prepareFrom cells
            (if m.isWritable = true then borrowed.insert i else borrowed) metas = .ok infos := by
        simp only [prepareFrom,hp]
        split
        · next hc => simp [hc]
        · next hc =>
          simp only [hc,not_false_eq_true,true_and]
          cases prepareFrom cells (if m.isWritable = true then borrowed.insert i
            else borrowed) metas with
          | error e => simp [bind,Except.bind]
          | ok rest => simp [bind,Except.bind,pure,Except.pure]
      rw [hstep,ih]
      cases hw : m.isWritable with
      | false => simp [hk,metaKeys,hw]
      | true =>
        have hm : metaKeys true (m :: metas) = m.pubkey :: metaKeys true metas := by
          simp [metaKeys,hw]
        simp only [if_true,BTreeSet.mem_insert,forall_eq_or_imp,true_and,true_imp_iff,hk,hm,
          List.mem_cons,hp,ne_eq,Option.some.injEq]
        -- A key in the rest of the writable metas is at position `i` exactly when it is this key.
        have hpos : (∀ k ∈ metaKeys true metas, ¬position keys k = some i) ↔
            m.pubkey ∉ metaKeys true metas := by
          constructor
          · exact fun h hmem => h _ hmem hp
          · rintro h k hkm hki
            rw [← getElem_of_position hp,getElem_of_position hki] at h
            exact h hkm
        constructor
        · rintro ⟨hb,hpr,hall⟩
          refine ⟨⟨hpos.mp fun k hk => (hall k hk).1,hpr⟩,?_,fun k hk => (hall k hk).2⟩
          rintro j hj rfl
          exact hb hj
        · rintro ⟨⟨hn,hpr⟩,hb,hall⟩
          exact ⟨fun hi => hb i hi rfl,hpr,fun k hk => ⟨hpos.mpr hn k hk,hall k hk⟩⟩

/-- An instruction is prepared exactly when its keys are listed and its writable keys differ. -/
theorem prepareAccountInfos_ok_iff {instruction : Instruction} :
    (∃ infos, prepareAccountInfos instruction cells = .ok infos) ↔
      Preparable keys instruction.accounts := by
  unfold prepareAccountInfos
  rw [prepareFrom_ok_iff]
  simp

theorem prepareAccountInfos_resolves {instruction : Instruction}
    (h : prepareAccountInfos instruction cells = .ok infos) :
    List.Forall₂ Resolves instruction.accounts infos := prepareFrom_resolves h

/-- Each element of the right list of a related pair has its partner on the left. -/
private theorem exists_left_of_forall₂ {α β : Type} {R : α → β → Prop} {as : List α} {bs : List β}
    (h : List.Forall₂ R as bs) {b : β} (hb : b ∈ bs) : ∃ a ∈ as, R a b := by
  induction h with
  | nil => simp at hb
  | cons hr _ ih =>
    rcases List.mem_cons.mp hb with rfl | hb
    · exact ⟨_,List.mem_cons_self,hr⟩
    · obtain ⟨a,ha,hr⟩ := ih hb
      exact ⟨a,List.mem_cons_of_mem _ ha,hr⟩

/-- Every info comes from a meta. -/
theorem exists_meta {instruction : Instruction}
    (h : prepareAccountInfos instruction cells = .ok infos) {info : AccountInfo (Fin keys.length)}
    (hi : info ∈ infos) :
    ∃ m ∈ instruction.accounts, Resolves m info :=
  exists_left_of_forall₂ (prepareAccountInfos_resolves h) hi

/-- Every meta has its info. -/
theorem exists_info {instruction : Instruction}
    (h : prepareAccountInfos instruction cells = .ok infos) {m : AccountMeta}
    (hm : m ∈ instruction.accounts) : ∃ info ∈ infos, Resolves m info :=
  exists_left_of_forall₂ (prepareAccountInfos_resolves h).flip hm

/-! ## Executing one instruction -/

/-- A successful instruction ran in a context of its own over prepared infos. -/
theorem executeInstruction_ok {host : Host} {computeBudget : UInt64} {instruction : Instruction}
    {m m' : Machine (Fin keys.length)}
    (h : executeInstruction host keys computeBudget instruction m = (.ok (),m')) :
    ∃ infos, prepareAccountInfos instruction m.cells = .ok infos ∧
      ChainedProgramExecutor.execute host instruction
        ⟨instruction.programId,instruction.data,computeBudget⟩ infos { m with computeMeter := 0 } =
          (.ok (),m') := by
  simp only [executeInstruction,Exec.get_bind] at h
  cases hp : prepareAccountInfos instruction m.cells with
  | error e =>
    rw [hp] at h
    cases h
  | ok infos =>
    rw [hp] at h
    refine ⟨infos,rfl,?_⟩
    simp only [Exec.ofExcept_ok,Exec.pure_bind,Exec.modify_bind] at h
    cases hx : ChainedProgramExecutor.execute host instruction
        ⟨instruction.programId,instruction.data,computeBudget⟩ infos
          { m with computeMeter := 0 } with
    | mk r m₁ =>
      simp only [Exec.mapErr,hx] at h
      cases r <;> simp_all

end Bank

end TinySolana
