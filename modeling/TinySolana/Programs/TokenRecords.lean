import TinySolana.Programs.TokenEffects

/-!
# The records of the token program

A mint and a token account are packed over account data that has room for them and unpacked from
data that they fill. Unpacking accepts nothing but what packing writes, so the program can pack back
over whatever it has unpacked, and never mistakes one record for the other.
-/

namespace TinySolana
open Foundations

/-- `Mint::pack_into_slice`. -/
def Mint.packIntoSlice (mint : Mint) : Exec (List UInt8) ProgramError Unit :=
  copyFromSlice (codec.encode mint)

/-- `TokenAccount::pack_into_slice`. -/
def TokenAccount.packIntoSlice (account : TokenAccount) : Exec (List UInt8) ProgramError Unit :=
  copyFromSlice (codec.encode account)

/-- What a program relies on when it updates a record of `len` bytes in place. -/
structure PacksInPlace {α : Type} (len : ℕ) (unpackFromSlice : List UInt8 → Option α)
    (packIntoSlice : α → Exec (List UInt8) ProgramError Unit) : Prop where
  /-- What is packed is unpacked again, and the bytes behind it stay. -/
  unpack_pack : ∀ (v : α) (dst : List UInt8), len ≤ dst.length →
    ∃ dst', packIntoSlice v dst = (.ok (),dst') ∧ dst'.length = dst.length ∧
      unpackFromSlice (dst'.take len) = some v ∧ dst'.drop len = dst.drop len
  length_eq : ∀ (src : List UInt8) (v : α), unpackFromSlice src = some v → src.length = len
  /-- What is unpacked is packed again to the same bytes. -/
  pack_unpack : ∀ (src : List UInt8) (v : α), unpackFromSlice src = some v →
    packIntoSlice v src = (.ok (),src)
  pack_ne_panic : ∀ (src : List UInt8) (v w : α), unpackFromSlice src = some v →
    (packIntoSlice w src).1 ≠ .panic

/-- Records of a fixed size can be updated in place. -/
theorem PacksInPlace.of_fixedSize {α : Type} {c : Codec α} {len : ℕ} (h : c.FixedSize len) :
    PacksInPlace len c.decodeAll fun v => copyFromSlice (c.encode v) where
  unpack_pack v _ hn := h.copy_decodeAll v hn
  length_eq _ _ hs := h.length_of_decodeAll hs
  pack_unpack src v hs := by
    rw [h.copy_over hs v,← h.decodeAll_iff.mp hs]
  pack_ne_panic src v w hs := by
    rw [h.copy_over hs w]
    simp

section

variable {κ : Type}

/-- Unpacking the data of an account only reads it. -/
theorem TokenProgram.unpackMint_ok {info : AccountInfo κ} {m m' : Machine κ} {mint : Mint} :
    unpackMint info m = (.ok mint,m') ↔
      Mint.unpackFromSlice (m.cells info.account).data = some mint ∧ m' = m := by
  rw [unpackMint,AccountInfo.tryBorrowData_bind]
  cases Mint.unpackFromSlice (m.cells info.account).data <;> simp [eq_comm]

theorem TokenProgram.unpackTokenAccount_ok {info : AccountInfo κ} {m m' : Machine κ}
    {account : TokenAccount} : unpackTokenAccount info m = (.ok account,m') ↔
      TokenAccount.unpackFromSlice (m.cells info.account).data = some account ∧ m' = m := by
  rw [unpackTokenAccount,AccountInfo.tryBorrowData_bind]
  cases TokenAccount.unpackFromSlice (m.cells info.account).data <;> simp [eq_comm]

variable [DecidableEq κ]

theorem Machine.setData_data (m : Machine κ) (c : κ) : m.setData c (m.cells c).data = m := by
  rw [setData,update,Function.update_eq_self]

/-- Packing into account data is packing into the slice that is borrowed. -/
theorem AccountInfo.packIntoData_eq_zoom (info : AccountInfo κ) (packed : List UInt8) :
    info.packIntoData packed =
      (copyFromSlice packed).zoom (fun m => (m.cells info.account).data)
        fun m data => m.setData info.account data := by
  funext m
  by_cases h : (m.cells info.account).data.length < packed.length
  · have hslice : (copyFromSlice packed : Exec (List UInt8) ProgramError Unit)
        (m.cells info.account).data = (.panic,(m.cells info.account).data) := by
      rw [copyFromSlice,Exec.get_bind,Exec.panicIf_true h]
      rfl
    rw [packIntoData,tryBorrowData_bind,Exec.panicIf_true h,Exec.zoom,hslice,m.setData_data]
    rfl
  · rw [packIntoData,tryBorrowData_bind,Exec.panicIf_false h,Exec.zoom,
      copyFromSlice_run (not_lt.mp h)]
    rfl

/-- Whatever record is packed, it fits where one was unpacked. -/
theorem PacksInPlace.packIntoData_ne_panic {α : Type} {c : Codec α} {len : ℕ} (h : c.FixedSize len)
    {info : AccountInfo κ} {m : Machine κ} {old : α}
    (hold : c.decodeAll (m.cells info.account).data = some old) (new : α) :
    (info.packIntoData (c.encode new) m).1 ≠ .panic := by
  rw [info.packIntoData_eq_zoom]
  exact (PacksInPlace.of_fixedSize h).pack_ne_panic _ old new hold

end

/-- Both records are updated in place, no bytes are both, and an account from which a record has
been unpacked always takes one. -/
theorem token_records_codec :
    PacksInPlace Mint.len Mint.unpackFromSlice Mint.packIntoSlice ∧
      PacksInPlace TokenAccount.len TokenAccount.unpackFromSlice TokenAccount.packIntoSlice ∧
      (∀ (src : List UInt8) (mint : Mint) (account : TokenAccount),
        ¬(Mint.unpackFromSlice src = some mint ∧ TokenAccount.unpackFromSlice src = some account)) ∧
      ∀ (κ : Type) [DecidableEq κ] (info : AccountInfo κ) (m m' : Machine κ),
        (∀ old new, TokenProgram.unpackMint info m = (.ok old,m') →
          (TokenProgram.packMint new info m').1 ≠ .panic) ∧
        ∀ old new, TokenProgram.unpackTokenAccount info m = (.ok old,m') →
          (TokenProgram.packTokenAccount new info m').1 ≠ .panic := by
  refine ⟨.of_fixedSize Mint.fixedSize,.of_fixedSize TokenAccount.fixedSize,?_,
    fun κ _ info m m' => ⟨fun old new h => ?_,fun old new h => ?_⟩⟩
  · rintro src mint account ⟨hm,ht⟩
    rw [Mint.not_tokenAccount hm] at ht
    cases ht
  · obtain ⟨hold,rfl⟩ := TokenProgram.unpackMint_ok.mp h
    exact PacksInPlace.packIntoData_ne_panic Mint.fixedSize hold new
  · obtain ⟨hold,rfl⟩ := TokenProgram.unpackTokenAccount_ok.mp h
    exact PacksInPlace.packIntoData_ne_panic TokenAccount.fixedSize hold new

end TinySolana
