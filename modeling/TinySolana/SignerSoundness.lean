import TinySolana.AccountInfos
import Mathlib.Data.Fin.VecNotation

/-!
# Signers

What a verified transaction guarantees about the signer flags that programs trust. Verification
compares signatures with the first keys of the message; the flags are copied from the metas.
-/

namespace TinySolana
open Foundations

/-- Every account that an instruction of the transaction sees as a signer has signed, so no System
instruction takes lamports from an account that has not. -/
structure SignerSound (valid : Ed25519) (tx : Transaction) : Prop where
  infos : ∀ instruction ∈ tx.message.instructions,
    ∀ (accounts : Cells tx.message.accountKeys) infos,
    Bank.prepareAccountInfos instruction accounts = .ok infos → ∀ info ∈ infos,
      info.isSigner = true →
      info.pubkey ∈ tx.signerPubkeys ∧ tx.SignedBy valid info.pubkey
  debits : ∀ (host : Host) (computeBudget : UInt64), ∀ instruction ∈ tx.message.instructions,
    instruction.programId = systemProgramId → ∀ m m',
      Bank.executeInstruction host tx.message.accountKeys computeBudget instruction
        m = (.ok (),m') →
      ∀ i, (m'.cells i).lamports < (m.cells i).lamports →
        tx.SignedBy valid (tx.message.accountKeys.get i)

/-- Every meta that claims a signature, in an instruction that can be prepared, names a key that
must have signed. -/
def SignersListed (tx : Transaction) : Prop :=
  ∀ instruction ∈ tx.message.instructions,
    Bank.Preparable tx.message.accountKeys instruction.accounts →
      ∀ m ∈ instruction.accounts, m.isSigner = true → m.pubkey ∈ tx.signerPubkeys

/-- A successful System instruction takes lamports only from signers among its infos. -/
theorem Bank.executeInstruction_debits_signer {host : Host} {keys : List Pubkey}
    {computeBudget : UInt64} {instruction : Instruction} {m m' : Machine (Fin keys.length)}
    (hs : instruction.programId = systemProgramId)
    (h : executeInstruction host keys computeBudget instruction m = (.ok (),m'))
    {i : Fin keys.length} (hi : (m'.cells i).lamports < (m.cells i).lamports) :
    ∃ infos, prepareAccountInfos instruction m.cells = .ok infos ∧
      ∃ info ∈ infos, info.isSigner = true ∧ info.account = i := by
  obtain ⟨infos,hp,hx⟩ := executeInstruction_ok h
  rw [ChainedProgramExecutor.execute_system host hs] at hx
  obtain ⟨ix,-,he⟩ := SystemProgram.entrypoint_ok.mp hx
  exact ⟨infos,hp,he.debits_signer hi⟩

/-- Signer flags of a verified transaction are sound exactly when its metas claim no signature of a
key behind the signed ones. -/
theorem signerSound_iff {valid : Ed25519} {tx : Transaction}
    (hv : tx.verifySignaturesSync valid = .ok ()) : SignerSound valid tx ↔ SignersListed tx := by
  constructor
  · intro hs instruction hix hprep m hm hsig
    have hinfos : ∃ infos, Bank.prepareAccountInfos instruction
        (default : Cells tx.message.accountKeys) = .ok infos :=
          Bank.prepareAccountInfos_ok_iff.mpr hprep
    obtain ⟨infos,hp⟩ := hinfos
    obtain ⟨info,hi,hr⟩ := Bank.exists_info hp hm
    rw [← hr.pubkey]
    exact (hs.infos instruction hix _ infos hp info hi (hr.isSigner.trans hsig)).1
  · intro hl
    have hinfos : ∀ instruction ∈ tx.message.instructions,
        ∀ (accounts : Cells tx.message.accountKeys) infos,
        Bank.prepareAccountInfos instruction accounts = .ok infos → ∀ info ∈ infos,
          info.isSigner = true → info.pubkey ∈ tx.signerPubkeys := by
      intro instruction hix accounts infos hp info hi hsig
      obtain ⟨m,hm,hr⟩ := Bank.exists_meta hp hi
      rw [hr.pubkey]
      exact hl instruction hix (Bank.prepareAccountInfos_ok_iff.mp ⟨infos,hp⟩) m hm
        (hr.isSigner ▸ hsig)
    constructor
    · intro instruction hix accounts infos hp info hi hsig
      have hk := hinfos instruction hix accounts infos hp info hi hsig
      exact ⟨hk,tx.signedBy_of_verified hv hk⟩
    · intro host computeBudget instruction hix hsys m m' hx i hlow
      obtain ⟨infos,hp,info,hi,hsig,rfl⟩ := Bank.executeInstruction_debits_signer hsys hx hlow
      obtain ⟨a,-,hr⟩ := Bank.exists_meta hp hi
      rw [hr.key]
      exact tx.signedBy_of_verified hv (hinfos instruction hix _ infos hp info hi hsig)

/-- A payment without any signature passes verification and takes lamports from the first wallet. -/
theorem unsigned_payment_not_sound :
    (∀ valid, (payment [] 3).verifySignaturesSync valid = .ok ()) ∧
      ∀ valid, ¬SignerSound valid (payment [] 3) := by
  refine ⟨fun _ => rfl,fun valid hs => ?_⟩
  let m : Machine (Fin 2) := ⟨![wallet 1 10,wallet 2 0],0,∅⟩
  let ix := (payment [] 3).message.instructions[0]
  let r := Bank.executeInstruction default (payment [] 3).message.accountKeys 300 ix m
  have hr : r.1 = .ok () := by decide
  have hlow : (r.2.cells (0 : Fin 2)).lamports < (m.cells 0).lamports := by decide
  obtain ⟨sig,hsig,-⟩ := hs.debits default 300 ix List.mem_cons_self rfl m r.2 (Prod.ext hr rfl)
    (0 : Fin 2) hlow
  simp [payment] at hsig

theorem signed_payment_sound : SignerSound (fun _ _ _ => true)
    (payment [blankSignature] 3) :=
  (signerSound_iff (by decide)).mpr (by
    unfold SignersListed Bank.Preparable
    decide)

end TinySolana
