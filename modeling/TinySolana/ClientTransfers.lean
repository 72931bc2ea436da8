import TinySolana.Client
import TinySolana.SystemExactness
import TinySolana.Foundations.Transfers

/-!
# Transfers of the client

To the lamports of the store a transaction of the client is a transfer of a ledger: it is executed
where it fits, and then moves what it says between two accounts and leaves all others alone.
-/

namespace TinySolana
open Foundations

/-- The transfer that a transaction with one System instruction asks for. -/
def Transaction.transfer? (tx : Transaction) : Option (Transfer Pubkey) :=
  match tx.message.instructions with
  | [instruction] =>
    match SystemInstruction.codec.decodeAll instruction.data,instruction.accounts with
    | some (.transfer lamports),payer :: receiver :: _ =>
      some ⟨payer.pubkey,receiver.pubkey,lamports.toNat⟩
    | _,_ => none
  | _ => none

/-- A transaction that the client makes with the hash that a node starts with, between accounts
other than that of the System program. -/
structure ClientTransfer (tx : Transaction) (t : Transfer Pubkey) : Prop where
  made : ∃ (signer : Signer) (fromKeypair : Keypair) (lamports : UInt64),
    fromKeypair.pubkey signer = t.payer ∧ lamports.toNat = t.amount ∧
      tx = Client.createTransferTransaction signer fromKeypair t.receiver lamports default
  payer : t.payer ≠ systemProgramId
  receiver : t.receiver ≠ systemProgramId

namespace ClientTransfer

variable {tx : Transaction} {t : Transfer Pubkey}

theorem decoded (i : SystemInstruction) :
    SystemInstruction.codec.decodeAll (SystemInstruction.codec.encode i) = some i :=
  (Codec.decodeAll_eq_some _).mpr ⟨SystemInstruction.codec_fits i,rfl⟩

/-- The one instruction of the transaction. -/
def instruction (t : Transfer Pubkey) (lamports : UInt64) : Instruction where
  programId := systemProgramId
  accounts := [⟨t.payer,true,true⟩,⟨t.receiver,false,true⟩]
  data := SystemInstruction.codec.encode (.transfer lamports)

theorem shape (h : ClientTransfer tx t) : ∃ lamports : UInt64, lamports.toNat = t.amount ∧
    tx.message = ⟨[t.payer,t.receiver,systemProgramId],default,[instruction t lamports]⟩ ∧
    tx.signatures.length = 1 := by
  obtain ⟨⟨signer,fromKeypair,lamports,hp,hl,rfl⟩,-,-⟩ := h
  refine ⟨lamports,hl,?_,rfl⟩
  simp only [Client.createTransferTransaction,hp,instruction]

theorem transfer_eq (h : ClientTransfer tx t) : tx.transfer? = some t := by
  obtain ⟨lamports,hl,hm,-⟩ := h.shape
  simp only [Transaction.transfer?,hm,instruction,decoded,hl]

theorem payer_signs (h : ClientTransfer tx t) : t.payer ∈ tx.signerPubkeys := by
  obtain ⟨_,-,hm,hs⟩ := h.shape
  rw [Transaction.signerPubkeys,hm,hs]
  exact List.mem_cons_self

theorem systemOnly (h : ClientTransfer tx t) : tx.SystemOnly := by
  obtain ⟨lamports,-,hm,-⟩ := h.shape
  intro ix hix
  rw [hm] at hix
  rw [List.mem_singleton.mp hix]
  rfl

theorem accountKeys (h : ClientTransfer tx t) :
    tx.message.accountKeys = [t.payer,t.receiver,systemProgramId] := by
  obtain ⟨_,-,hm,-⟩ := h.shape
  rw [hm]

theorem touchedKeys (h : ClientTransfer tx t) : tx.touchedKeys ⊆ [t.payer,t.receiver] := by
  obtain ⟨lamports,-,hm,-⟩ := h.shape
  intro k hk
  rw [Transaction.touchedKeys,hm] at hk
  obtain ⟨ix,hix,hk⟩ := List.mem_flatMap.mp hk
  rw [List.mem_singleton.mp hix] at hk
  obtain ⟨i,-,hi⟩ := List.mem_filterMap.mp hk
  obtain ⟨m,hm',rfl⟩ := Option.map_eq_some_iff.mp hi
  have hmem : m ∈ (instruction t lamports).accounts := List.mem_of_getElem? hm'
  simp only [instruction,List.mem_cons,List.not_mem_nil,or_false] at hmem
  rcases hmem with rfl | rfl <;> simp

/-! ## The instruction -/

/-- The keys that the transaction lists. -/
abbrev keys (t : Transfer Pubkey) : List Pubkey := [t.payer,t.receiver,systemProgramId]

abbrev payerCell (t : Transfer Pubkey) : Fin (keys t).length := ⟨0,by simp⟩

abbrev receiverCell (t : Transfer Pubkey) : Fin (keys t).length := ⟨1,by simp⟩

variable {host : Host} {computeBudget lamports : UInt64} {m : Machine (Fin (keys t).length)}

theorem position_payer (t : Transfer Pubkey) :
    Bank.position (keys t) t.payer = some (payerCell t) :=
  Bank.position_eq_some.mpr ⟨rfl,fun _ hj => absurd hj (Nat.not_lt_zero _)⟩

theorem position_receiver (h : t.payer ≠ t.receiver) :
    Bank.position (keys t) t.receiver = some (receiverCell t) := by
  refine Bank.position_eq_some.mpr ⟨rfl,fun j hj => ?_⟩
  have hj' : j = payerCell t := Fin.ext (Nat.lt_one_iff.mp hj)
  rw [hj']
  exact h

variable (lamports) in
/-- The instruction is prepared unless the two keys are one. -/
theorem prepared (h : t.payer ≠ t.receiver) (cells : Cells (keys t)) : ∃ payer receiver,
    Bank.prepareAccountInfos (instruction t lamports) cells = .ok [payer,receiver] ∧
      payer.isSigner = true ∧ payer.account = payerCell t ∧ receiver.account = receiverCell t := by
  have hprep : Bank.Preparable (keys t) (instruction t lamports).accounts := by
    refine ⟨fun m hm => ?_,?_⟩
    · simp only [instruction,List.mem_cons,List.not_mem_nil,or_false] at hm
      rcases hm with rfl | rfl <;> simp
    · simp [metaKeys,instruction,h]
  obtain ⟨infos,hinfos⟩ := Bank.prepareAccountInfos_ok_iff.mpr hprep
  have hr := Bank.prepareAccountInfos_resolves hinfos
  obtain _ | ⟨hpayer,_ | ⟨hreceiver,_ | _⟩⟩ := hr
  exact ⟨_,_,hinfos,hpayer.isSigner,
    Option.some.inj (hpayer.account.symm.trans (position_payer t)),
    Option.some.inj (hreceiver.account.symm.trans (position_receiver h))⟩

variable (lamports) in
theorem not_prepared (h : t.payer = t.receiver) (cells : Cells (keys t)) :
    ∃ e, Bank.prepareAccountInfos (instruction t lamports) cells = .error e := by
  cases hp : Bank.prepareAccountInfos (instruction t lamports) cells with
  | error e => exact ⟨e,rfl⟩
  | ok infos =>
    obtain ⟨-,hnd⟩ := Bank.prepareAccountInfos_ok_iff.mp ⟨infos,hp⟩
    simp [metaKeys,instruction,h] at hnd

/-- A prepared instruction is run by the System program. -/
theorem executeInstruction_prepared {infos : List (AccountInfo (Fin (keys t).length))}
    (h : Bank.prepareAccountInfos (instruction t lamports) m.cells = .ok infos) :
    Bank.executeInstruction host (keys t) computeBudget (instruction t lamports) m =
      Exec.mapErr TransactionError.programError (SystemProgram.entrypoint
        ⟨systemProgramId,(instruction t lamports).data,computeBudget⟩ infos)
          { m with computeMeter := 0 } := by
  unfold Bank.executeInstruction
  have hsystem : (instruction t lamports).programId = systemProgramId := rfl
  rw [Exec.get_bind,h,← ChainedProgramExecutor.execute_system host hsystem]
  rfl

/-- The instruction moves the lamports where the transfer fits. -/
theorem executeInstruction_fits (h : t.payer ≠ t.receiver)
    (hl : lamports ≤ (m.cells (payerCell t)).lamports) :
    Bank.executeInstruction host (keys t) computeBudget (instruction t lamports) m =
      (.ok (),({ m with computeMeter := 0 } : Machine _).move (payerCell t) (receiverCell t)
        lamports) := by
  obtain ⟨payer,receiver,hprep,hsigner,hpayer,hreceiver⟩ := prepared lamports h m.cells
  have hrun : SystemProgram.entrypoint ⟨systemProgramId,(instruction t lamports).data,computeBudget⟩
      [payer,receiver] { m with computeMeter := 0 } =
        (.ok (),({ m with computeMeter := 0 } : Machine _).move (payerCell t) (receiverCell t)
          lamports) := by
    refine SystemProgram.entrypoint_ok.mpr ⟨.transfer lamports,decoded _,?_⟩
    have heffect : SystemProgram.Effect (.transfer lamports) [payer,receiver]
      { m with computeMeter := 0 }
        (({ m with computeMeter := 0 } : Machine _).move payer.account receiver.account lamports) :=
      .transfer hsigner (by rwa [hpayer])
    rwa [hpayer,hreceiver] at heffect
  rw [executeInstruction_prepared hprep,Exec.mapErr_run,hrun]
  rfl

/-- Where it does not, the instruction fails. -/
theorem executeInstruction_refused
    (h : t.payer = t.receiver ∨ (m.cells (payerCell t)).lamports < lamports) : ∃ e m',
      Bank.executeInstruction host (keys t) computeBudget (instruction t lamports) m =
        (.err e,m') := by
  by_cases hne : t.payer = t.receiver
  · obtain ⟨e,he⟩ := not_prepared lamports hne m.cells
    unfold Bank.executeInstruction
    rw [Exec.get_bind,he]
    exact ⟨e,m,rfl⟩
  obtain ⟨payer,receiver,hprep,hsigner,hpayer,-⟩ := prepared lamports hne m.cells
  have hfunds : (m.cells payer.account).lamports < lamports := by
    rw [hpayer]
    exact h.resolve_left hne
  have hrun : SystemProgram.entrypoint ⟨systemProgramId,(instruction t lamports).data,computeBudget⟩
      [payer,receiver] { m with computeMeter := 0 } =
        (.err .insufficientFunds,{ m with computeMeter := 0 }) := by
    unfold SystemProgram.entrypoint
    simp only [instruction,decoded,Exec.orFail_some,Exec.pure_bind,SystemProgram.run,
      SystemProgram.transfer]
    rw [Exec.failIf_false (not_not.mpr hsigner),Exec.pure_bind,AccountInfo.lamports_bind,
      Exec.failIf_true hfunds]
    rfl
  rw [executeInstruction_prepared hprep,Exec.mapErr_run,hrun]
  exact ⟨_,_,rfl⟩

/-! ## The transaction -/

section transaction

variable {accounts : InMemoryAccountStore}

/-- The amount is in reach of the payer exactly when it is in the cell that is loaded for him. -/
theorem fits_iff {l : UInt64} (hl : l.toNat = t.amount) : t.Fits accounts.lamportsOf ↔
    t.payer ≠ t.receiver ∧ l ≤ (Bank.loadAndVerifyAccounts (keys t) (OverlayStore.new.load accounts)
      (payerCell t)).lamports := by
  rw [Bank.loadAndVerifyAccounts_apply,UInt64.le_iff_toNat_le,hl]
  rfl

theorem nodup_keys (h : ClientTransfer tx t) (hne : t.payer ≠ t.receiver) : (keys t).Nodup := by
  simp [keys,hne,h.payer,h.receiver]

theorem movedKeys_subset (h : ClientTransfer tx t) : tx.movedKeys ⊆ [t.payer,t.receiver] := by
  obtain ⟨lamports,-,hm,-⟩ := h.shape
  intro k hk
  rw [Transaction.movedKeys,hm] at hk
  obtain ⟨ix,hix,hk⟩ := List.mem_flatMap.mp hk
  rw [List.mem_singleton.mp hix] at hk
  simp only [Instruction.movedKeys,instruction,decoded] at hk
  split at hk
  · exact absurd hk List.not_mem_nil
  · exact hk

theorem lamportsOf_flush {o : OverlayStore} {k : Pubkey} {a : Account}
    (h : o.dirty.lookup k = some a)
    (p : InMemoryAccountStore) : InMemoryAccountStore.lamportsOf (o.flush p) k =
      a.lamports.toNat := by
  have hlook : (o.flush p).lookup k = some a := by
    rw [OverlayStore.flush,FiniteMap.lookup_union,h]
    rfl
  rw [InMemoryAccountStore.lamportsOf_eq,hlook]
  rfl

/-- A transfer that fits is executed, and its overlay turns the ledger of the store into the one
after the transfer. -/
theorem executeOnOverlay_fits (host : Host) (computeBudget : UInt64) (cache : ProgramCache)
    (h : ClientTransfer tx t) (hk : accounts.Keyed) (hfit : accounts.totalLamports < 2^64)
    (ht : t.Fits accounts.lamportsOf) : ∃ o,
      Bank.executeOnOverlay host accounts tx computeBudget cache = (.ok o,cache) ∧
        (o.flush accounts).Keyed ∧
        InMemoryAccountStore.totalLamports (o.flush accounts) = accounts.totalLamports ∧
        InMemoryAccountStore.lamportsOf (o.flush accounts) =
          Transfer.moved accounts.lamportsOf t := by
  have hmoved := h.movedKeys_subset
  have hnd := h.nodup_keys ht.1
  have hsys := h.systemOnly
  obtain ⟨l,hl,hm,-⟩ := h.shape
  obtain ⟨signatures,message⟩ := tx
  dsimp only at hm
  subst hm
  have hfunds := ((fits_iff hl).mp ht).2
  let m : Machine (Fin (keys t).length) :=
    ⟨Bank.loadAndVerifyAccounts (keys t) (OverlayStore.new.load accounts),0,cache⟩
  let m' := m.move (payerCell t) (receiverCell t) l
  have hrun : Bank.executeInstructions host (keys t) computeBudget [instruction t l] m =
    (.ok (),m') :=
    Bank.executeInstructions_cons_ok.mpr ⟨m',executeInstruction_fits ht.1 hfunds,rfl⟩
  have hx : Bank.executeOnOverlay host accounts ⟨signatures,keys t,default,[instruction t l]⟩
      computeBudget cache = (.ok (Bank.writeBack m'.cells),cache) :=
    Bank.executeOnOverlay_ok.mpr ⟨m',hrun,rfl,rfl⟩
  refine ⟨_,hx,?_⟩
  have honce : Bank.ListsOnce ⟨signatures,keys t,default,[instruction t l]⟩ := fun k _ =>
    List.nodup_iff_count_le_one.mp hnd k
  obtain ⟨hkeyed,htotal,hsame⟩ :=
    (Bank.overlay_balanced hsys hk hfit honce hx).flush hk fun _ _ => rfl
  refine ⟨hkeyed,htotal,funext fun k => ?_⟩
  have hloadedNamed :
    Bank.Named (Bank.loadAndVerifyAccounts (keys t) (OverlayStore.new.load accounts)) :=
    @Bank.loaded_named accounts ⟨signatures,keys t,default,[instruction t l]⟩ fun k _ => hk k
  have hnamed : Bank.Named m'.cells := fun c =>
    ((Bank.executeInstructions_frame hsys.native hrun).2 c).trans (hloadedNamed c)
  -- a listed key has one cell
  have hcell : ∀ c : Fin (keys t).length, (Bank.writeBack m'.cells).dirty.lookup ((keys t).get c) =
      some (m'.cells c) := by
    intro c
    obtain ⟨d,hd,hlook⟩ := Bank.writeBack_lookup_of_mem hnamed (List.getElem_mem c.2)
    obtain rfl : d = c := List.nodup_iff_injective_get.mp hnd hd
    exact hlook
  have hne : payerCell t ≠ receiverCell t := by simp
  have hloaded : ∀ c : Fin (keys t).length, (m.cells c).lamports.toNat =
      accounts.lamportsOf ((keys t).get c) := fun c => by
    rw [InMemoryAccountStore.lamportsOf,← Bank.loadAndVerifyAccounts_apply]
  have hsum : accounts.lamportsOf t.payer+accounts.lamportsOf t.receiver < 2^64 := by
    have hle := accounts.sum_lamportsOf_le {t.payer,t.receiver}
    rw [Finset.sum_pair ht.1] at hle
    exact hle.trans_lt hfit
  have hroom : m.MoveFits (payerCell t) (receiverCell t) l := by
    refine ⟨hfunds,?_⟩
    rw [Machine.update_of_ne _ hne.symm,hloaded]
    have hle : l.toNat ≤ accounts.lamportsOf t.payer := hl ▸ ht.2
    have hget : (keys t).get (receiverCell t) = t.receiver := rfl
    rw [hget]
    omega
  by_cases hp : k = t.payer
  · subst hp
    have hpay : (m'.cells (payerCell t)).lamports.toNat+l.toNat =
      (m.cells (payerCell t)).lamports.toNat :=
      hroom.payer hne
    have hbefore : (m.cells (payerCell t)).lamports.toNat = accounts.lamportsOf t.payer :=
      hloaded (payerCell t)
    refine (lamportsOf_flush (hcell (payerCell t)) accounts).trans ?_
    rw [Transfer.moved_payer ht,← hl,← hbefore]
    omega
  by_cases hr : k = t.receiver
  · subst hr
    refine (lamportsOf_flush (hcell (receiverCell t)) accounts).trans ?_
    rw [Transfer.moved_receiver,← hl,hroom.receiver hne,hloaded]
    rfl
  · rw [Transfer.moved_of_ne hp hr]
    refine hsame k fun hk => ?_
    have hpr := hmoved hk
    simp [hp,hr] at hpr

/-- A transfer that does not fit fails. -/
theorem executeOnOverlay_refused (host : Host) (computeBudget : UInt64) (cache : ProgramCache)
    (h : ClientTransfer tx t) (ht : ¬t.Fits accounts.lamportsOf) : ∃ e,
    Bank.executeOnOverlay host accounts tx computeBudget cache = (.err e,cache) := by
  obtain ⟨l,hl,hm,-⟩ := h.shape
  have hcache : (Bank.executeOnOverlay host accounts tx computeBudget cache).2 = cache :=
    Bank.executeOnOverlay_programCache h.systemOnly.native
  obtain ⟨signatures,message⟩ := tx
  dsimp only at hm
  subst hm
  rw [fits_iff hl,not_and_or,not_not,UInt64.not_le] at ht
  let m : Machine (Fin (keys t).length) :=
    ⟨Bank.loadAndVerifyAccounts (keys t) (OverlayStore.new.load accounts),0,cache⟩
  obtain ⟨e,m',hx⟩ : ∃ e m', Bank.executeInstruction host (keys t) computeBudget
      (instruction t l) m = (.err e,m') := executeInstruction_refused ht
  have hrun : Bank.executeInstructions host (keys t) computeBudget [instruction t l] m =
      (.err e,m') := by
    rw [Bank.executeInstructions,Exec.bind_run,hx]
  have hloaded : Bank.executeLoaded host ⟨signatures,keys t,default,[instruction t l]⟩
      computeBudget m.cells cache = (.err e,m'.programCache) := by
    change ((Bank.executeInstructions host (keys t) computeBudget
      [instruction t l] m).1.map _,_) = _
    rw [hrun]
    rfl
  refine ⟨e,Prod.ext ?_ hcache⟩
  change ((Bank.executeLoaded host ⟨signatures,keys t,default,[instruction t l]⟩
    computeBudget m.cells >>=
    fun cells => pure (Bank.writeBack cells) : Exec ProgramCache TransactionError OverlayStore)
      cache).1 = _
  rw [Exec.bind_run,hloaded]

end transaction

end ClientTransfer

end TinySolana
