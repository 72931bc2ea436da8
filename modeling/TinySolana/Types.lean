import TinySolana.Foundations.BTreeSet
import TinySolana.Foundations.Codec
import Mathlib.Data.List.Lex
import Mathlib.Order.Lattice

/-!
# Keys, signatures and hashes

The fixed-size byte arrays of the validator and their wire format.
-/

namespace TinySolana
open Foundations

/-- `Pubkey([u8; 32])`. -/
structure Pubkey where
  bytes : List UInt8
  size : bytes.length = 32

/-- `Hash([u8; 32])`. -/
structure Hash where
  bytes : List UInt8
  size : bytes.length = 32

/-- `Signature([u8; 64])`. -/
structure Signature where
  bytes : List UInt8
  size : bytes.length = 64
  deriving DecidableEq

namespace Pubkey

theorem ext {a b : Pubkey} (h : a.bytes = b.bytes) : a = b := by
  cases a
  cases b
  cases h
  rfl

/-- The key whose last byte is `n` and whose other bytes are zero. -/
def ofByte (n : UInt8) : Pubkey := ⟨List.replicate 31 0 ++ [n],by simp⟩

theorem zeros_size : (List.replicate 32 (0 : UInt8)).length = 32 := List.length_replicate

instance : Inhabited Pubkey := ⟨⟨List.replicate 32 0,zeros_size⟩⟩

/-- The derived order of `[u8; 32]` is lexicographic. -/
instance : LinearOrder Pubkey := LinearOrder.lift' (fun k => k.bytes.map UInt8.toNat) fun _ _ h =>
  ext (List.map_injective_iff.mpr (fun _ _ => UInt8.toNat_inj.mp) h)

instance : LawfulBEq Pubkey := inferInstance

def codec : Codec Pubkey := .block 32
  { toFun b := ⟨b.1,b.2⟩
    invFun k := ⟨k.bytes,k.size⟩
    left_inv _ := rfl
    right_inv _ := rfl }

end Pubkey

namespace Hash

theorem ext {a b : Hash} (h : a.bytes = b.bytes) : a = b := by
  cases a
  cases b
  cases h
  rfl

/-- The order in which `hash_accounts` sorts its leaves. -/
instance : LinearOrder Hash := LinearOrder.lift' (fun k => k.bytes.map UInt8.toNat) fun _ _ h =>
  ext (List.map_injective_iff.mpr (fun _ _ => UInt8.toNat_inj.mp) h)

instance : Inhabited Hash := ⟨⟨List.replicate 32 0,List.length_replicate⟩⟩

def codec : Codec Hash := .block 32
  { toFun b := ⟨b.1,b.2⟩
    invFun k := ⟨k.bytes,k.size⟩
    left_inv _ := rfl
    right_inv _ := rfl }

end Hash

/-- The hand-written format of a signature: a length field, which must be 64, and the bytes. -/
def Signature.codec : Codec Signature := (Codec.vec .u8).refine Signature.bytes
  (fun bs => if h : bs.length = 64 then some ⟨bs,h⟩ else none) (by
    intro bs s
    by_cases h : bs.length = 64
    · rw [dif_pos h,Option.some.injEq]
      constructor
      · rintro rfl
        rfl
      · rintro rfl
        rfl
    · rw [dif_neg h]
      constructor
      · intro hn
        cases hn
      · rintro rfl
        exact absurd s.size h)

end TinySolana
