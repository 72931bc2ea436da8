import TinySolana.Bank

/-!
# Wire format of transactions

The client sends a transaction in the fixed-width encoding of bincode, and the RPC server reads it
back and refuses bytes behind it. A transaction has one encoding, and a message is signed under one.
-/

namespace TinySolana
open Foundations

/-! ## Lengths

A `Vec` has fewer than 2^64 elements; the lists of the model have no bound of their own.
-/

/-- The vectors of an instruction have lengths of 64 bits. -/
structure Instruction.UsizeLengths (i : Instruction) : Prop where
  accounts : i.accounts.length < 2^64
  data : i.data.length < 2^64

/-- The vectors of a message have lengths of 64 bits. -/
structure Message.UsizeLengths (m : Message) : Prop where
  accountKeys : m.accountKeys.length < 2^64
  instructions : m.instructions.length < 2^64
  each : ∀ i ∈ m.instructions, i.UsizeLengths

/-- The vectors of a transaction have lengths of 64 bits. -/
structure Transaction.UsizeLengths (t : Transaction) : Prop where
  signatures : t.signatures.length < 2^64
  message : t.message.UsizeLengths

theorem Instruction.fits_iff {i : Instruction} : Instruction.codec.Fits i ↔ i.UsizeLengths := by
  constructor
  · rintro ⟨-,⟨ha,-⟩,hd,-⟩
    exact ⟨ha,hd⟩
  · rintro ⟨ha,hd⟩
    exact ⟨trivial,⟨ha,fun _ _ => ⟨trivial,trivial,trivial⟩⟩,hd,fun _ _ => trivial⟩

theorem Message.fits_iff {m : Message} : Message.codec.Fits m ↔ m.UsizeLengths := by
  constructor
  · rintro ⟨⟨hk,-⟩,-,hl,hi⟩
    exact ⟨hk,hl,fun i hm => Instruction.fits_iff.mp (hi i hm)⟩
  · rintro ⟨hk,hl,hi⟩
    exact ⟨⟨hk,fun _ _ => trivial⟩,trivial,hl,fun i hm => Instruction.fits_iff.mpr (hi i hm)⟩

/-- The length field of a signature always holds 64. -/
theorem Signature.codec_fits (s : Signature) : Signature.codec.Fits s := by
  change s.bytes.length < 2^64 ∧ _
  rw [s.size]
  exact ⟨by norm_num,fun _ _ => trivial⟩

theorem Transaction.fits_iff {t : Transaction} : Transaction.codec.Fits t ↔ t.UsizeLengths := by
  constructor
  · rintro ⟨⟨hs,-⟩,hm⟩
    exact ⟨hs,Message.fits_iff.mp hm⟩
  · rintro ⟨hs,hm⟩
    exact ⟨⟨hs,fun s _ => s.codec_fits⟩,Message.fits_iff.mpr hm⟩

/-! ## Sending and receiving -/

/-- What `send_transaction` of the client sends, before it is written in base64. -/
def Transaction.serialize (t : Transaction) : List UInt8 := Transaction.codec.encode t

/-- `handle_send_transaction` reads the decoded bytes of a request, or answers with invalid
parameters. -/
def Transaction.deserialize (txBytes : List UInt8) : Option Transaction :=
  Transaction.codec.decodeAll txBytes

theorem Transaction.deserialize_eq_some {txBytes : List UInt8} {t : Transaction} :
    deserialize txBytes = some t ↔ t.UsizeLengths ∧ txBytes = t.serialize := by
  rw [deserialize,Codec.decodeAll_eq_some,fits_iff]
  rfl

/-- A signature is read from 64 bytes behind their length, and from nothing else. -/
theorem Signature.decodeAll_eq_some {bytes : List UInt8} {s : Signature} :
    codec.decodeAll bytes = some s ↔ bytes = leBytes 8 64 ++ s.bytes := by
  have hlayout : codec.encode s = leBytes 8 64 ++ s.bytes := by
    change leBytes 8 s.bytes.length ++ s.bytes.flatMap (fun b => [b]) = _
    rw [s.size,List.flatMap_singleton']
  rw [Codec.decodeAll_eq_some,hlayout]
  exact and_iff_right s.codec_fits

theorem Message.serializeForSigning_inj {m m' : Message} (hm : m.UsizeLengths)
    (hm' : m'.UsizeLengths) (h : m.serializeForSigning = m'.serializeForSigning) : m = m' :=
  codec.encode_inj (fits_iff.mpr hm) (fits_iff.mpr hm') h

/-- A transaction is read from its own bytes only, and so is a signature; no two messages are signed
under the same bytes. -/
theorem transaction_wire_format :
    (∀ txBytes (t : Transaction), Transaction.deserialize txBytes = some t ↔
      t.UsizeLengths ∧ txBytes = t.serialize) ∧
    (∀ bytes (s : Signature), Signature.codec.decodeAll bytes = some s ↔
      bytes = leBytes 8 64 ++ s.bytes) ∧
    ∀ m m' : Message, m.UsizeLengths → m'.UsizeLengths →
      m.serializeForSigning = m'.serializeForSigning → m = m' :=
  ⟨fun _ _ => Transaction.deserialize_eq_some,fun _ _ => Signature.decodeAll_eq_some,
    fun _ _ => Message.serializeForSigning_inj⟩

theorem payments_wire_format :
    Transaction.deserialize (payment [blankSignature] 3).serialize =
      some (payment [blankSignature] 3) ∧
      (payment [blankSignature] 3).message.serializeForSigning ≠
        (payment [blankSignature] 4).message.serializeForSigning := by
  have hlengths : ∀ l, (payment [blankSignature] l).UsizeLengths := by
    intro l
    refine ⟨?_,?_,?_,fun i hi => ?_⟩
    · exact (by decide : 1 < 2^64)
    · exact (by decide : 2 < 2^64)
    · exact (by decide : 1 < 2^64)
    · obtain rfl := List.mem_singleton.mp hi
      refine ⟨(by decide : 2 < 2^64),?_⟩
      change (leBytes 4 0 ++ leBytes 8 l.toNat).length < 2^64
      simp
  refine ⟨(transaction_wire_format.1 _ _).mpr ⟨hlengths 3,rfl⟩,fun h => ?_⟩
  exact absurd (transaction_wire_format.2.2 _ _ (hlengths 3).message (hlengths 4).message h)
    (by decide)

end TinySolana
