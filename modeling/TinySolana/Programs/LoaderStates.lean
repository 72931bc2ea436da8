import TinySolana.Programs.LoaderEffects

/-!
# Packed loader states

A state at the front of the data and the bytes behind it: what packing and overwriting change, and
what reads the same afterwards.
-/

namespace TinySolana
open Foundations

namespace UpgradeableLoaderState

variable {data rest : List UInt8} {state : UpgradeableLoaderState}

theorem decodePrefix_eq_some :
    codec.decodePrefix data = some state ↔ ∃ rest, data = codec.encode state ++ rest := by
  rw [Codec.decodePrefix_eq_some]
  exact and_iff_right state.codec_fits

theorem decodePrefix_encode (state : UpgradeableLoaderState) (rest : List UInt8) :
    codec.decodePrefix (codec.encode state ++ rest) = some state :=
      decodePrefix_eq_some.mpr ⟨rest,rfl⟩

/-- The data with a state packed over the front. -/
def packedOver (state : UpgradeableLoaderState) (data : List UInt8) : List UInt8 :=
  codec.encode state ++ data.drop state.serializedSize

theorem packedOver_length (h : state.serializedSize ≤ data.length) :
    (state.packedOver data).length = data.length := by
  rw [packedOver,List.length_append,List.length_drop,← serializedSize]
  omega

theorem packedOver_append (state : UpgradeableLoaderState) (rest : List UInt8) :
    state.packedOver (codec.encode state ++ rest) = codec.encode state ++ rest := by
  rw [packedOver,serializedSize,List.drop_left]

/-- Packing changes nothing exactly when the state is there already. -/
theorem packedOver_eq_iff : state.packedOver data = data ↔
    codec.decodePrefix data = some state := by
  rw [decodePrefix_eq_some]
  constructor
  · exact fun h => ⟨_,h.symm⟩
  · rintro ⟨rest,rfl⟩
    exact packedOver_append state rest

/-- The bytes behind the state are kept. -/
theorem packedOver_drop {n : ℕ} (h : state.serializedSize ≤ n) :
    (state.packedOver data).drop n = data.drop n := by
  rw [packedOver,List.drop_append,← serializedSize,List.drop_drop,List.drop_eq_nil_of_le h,
    List.nil_append,Nat.add_sub_of_le h]

theorem serializedSize_buffer_some (a : Pubkey) : serializedSize (buffer (some a)) = 37 := by
  change (leBytes 4 1 ++ ([1] ++ a.bytes)).length = 37
  simp [a.size]

theorem serializedSize_buffer_le (authority : Option Pubkey) :
    serializedSize (buffer authority) ≤ sizeOfBufferMetadata := by
  rw [show sizeOfBufferMetadata = 37 by decide]
  cases authority with
  | none => decide
  | some a => exact (serializedSize_buffer_some a).le

end UpgradeableLoaderState

namespace BpfLoaderProgram

variable {data bytes : List UInt8} {start : ℕ}

theorem overwriteAt_length (h : start+bytes.length ≤ data.length) :
    (overwriteAt data start bytes).length = data.length := by
  simp only [overwriteAt,List.length_append,List.length_take,List.length_drop]
  omega

/-- Bytes behind the front leave the front alone. -/
theorem overwriteAt_append (front rest bytes : List UInt8) (offset : ℕ) :
    overwriteAt (front ++ rest) (front.length+offset) bytes =
      front ++ overwriteAt rest offset bytes := by
  rw [overwriteAt,overwriteAt,List.take_length_add_append,Nat.add_assoc,List.drop_length_add_append,
    List.append_assoc,List.append_assoc,List.append_assoc]

/-- Bytes behind a state leave the state alone. -/
theorem decodePrefix_overwriteAt {state : UpgradeableLoaderState}
    (hd : UpgradeableLoaderState.codec.decodePrefix data = some state)
    (hs : state.serializedSize ≤ start) :
    UpgradeableLoaderState.codec.decodePrefix (overwriteAt data start bytes) = some state := by
  obtain ⟨rest,rfl⟩ := UpgradeableLoaderState.decodePrefix_eq_some.mp hd
  obtain ⟨offset,rfl⟩ := Nat.exists_eq_add_of_le hs
  rw [UpgradeableLoaderState.serializedSize,overwriteAt_append]
  exact UpgradeableLoaderState.decodePrefix_encode state _

/-- Bytes that are written behind a position are written into what is behind it. -/
theorem overwriteAt_drop {n offset : ℕ} (h : n ≤ data.length) :
    (overwriteAt data (n+offset) bytes).drop n = overwriteAt (data.drop n) offset bytes := by
  have hl : (data.take n).length = n := List.length_take_of_le h
  have hover := overwriteAt_append (data.take n) (data.drop n) bytes offset
  rw [List.take_append_drop,hl] at hover
  rw [hover]
  exact List.drop_left' hl

/-- Overwriting changes nothing exactly when the bytes are there already. -/
theorem overwriteAt_eq_self_iff (h : start+bytes.length ≤ data.length) :
    overwriteAt data start bytes = data ↔ (data.drop start).take bytes.length = bytes := by
  have hsplit : data = data.take start ++ (data.drop start).take bytes.length ++
      data.drop (start+bytes.length) := by
    rw [List.append_assoc,← List.drop_drop,List.take_append_drop,List.take_append_drop]
  have hlen : ((data.drop start).take bytes.length).length = bytes.length := by
    rw [List.length_take,List.length_drop]
    omega
  constructor
  · intro he
    rw [overwriteAt] at he
    have hfront := List.append_cancel_right (he.trans hsplit)
    exact (List.append_cancel_left hfront).symm
  · intro he
    rw [he] at hsplit
    rw [overwriteAt,← hsplit]

end BpfLoaderProgram

/-- Packing a state that is there already leaves the machine as it is. -/
theorem Machine.packState_eq_self {κ : Type} [DecidableEq κ] {m : Machine κ} {c : κ}
    {state : UpgradeableLoaderState}
    (h : UpgradeableLoaderState.codec.decodePrefix (m.cells c).data = some state) :
    m.packState c state = m := by
  have hdata := UpgradeableLoaderState.packedOver_eq_iff.mpr h
  rw [UpgradeableLoaderState.packedOver] at hdata
  rw [packState,update,hdata,Function.update_eq_self]

end TinySolana
