import Mathlib.Logic.Function.Basic

/-!
# Texts for byte strings

A text format writes every byte string as a text of its own and reads nothing but such texts back,
each as the bytes it was written for.
-/

namespace Foundations

structure TextFormat where
  encode : List UInt8 → String
  /-- The bytes of a text, or what is wrong with it. -/
  decode : String → Except String (List UInt8)
  decode_eq_ok : ∀ text bytes, decode text = .ok bytes ↔ encode bytes = text

namespace TextFormat

variable (f : TextFormat)

@[simp] theorem decode_encode (bytes : List UInt8) : f.decode (f.encode bytes) = .ok bytes :=
  (f.decode_eq_ok _ _).mpr rfl

/-! ### One character for every byte -/

theorem toNat_byte (b : UInt8) : (Char.ofNat b.toNat).toNat = b.toNat := by
  have h : b.toNat.isValidChar := Or.inl (by
    have hb := b.toNat_lt
    omega)
  unfold Char.ofNat
  rw [dif_pos h]
  rfl

def latin1 : TextFormat where
  encode bytes := String.ofList (bytes.map fun b => Char.ofNat b.toNat)
  decode text := if text.toList.all (fun c => c.toNat < 256) then
      .ok (text.toList.map fun c => UInt8.ofNat c.toNat) else .error "not a byte"
  decode_eq_ok text bytes := by
    constructor
    · intro h
      split at h
      · next hall =>
        cases h
        have hid : ∀ c ∈ text.toList,
            ((fun b : UInt8 => Char.ofNat b.toNat) ∘ fun c => UInt8.ofNat c.toNat) c = id c := by
          intro c hc
          have hlt : c.toNat < 2^8 := by simpa using List.all_eq_true.mp hall c hc
          rw [Function.comp_apply,UInt8.toNat_ofNat_of_lt' hlt,Char.ofNat_toNat]
          rfl
        rw [List.map_map,List.map_congr_left hid,List.map_id,String.ofList_toList]
      · cases h
    · rintro rfl
      rw [String.toList_ofList,if_pos]
      · rw [List.map_map]
        simp [Function.comp_def,toNat_byte]
      · simp only [List.all_eq_true,List.mem_map,decide_eq_true_eq]
        rintro c ⟨b,-,rfl⟩
        rw [toNat_byte]
        exact b.toNat_lt

instance : Inhabited TextFormat := ⟨latin1⟩

end TextFormat

end Foundations
