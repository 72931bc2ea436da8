import TinySolana.Foundations.Codec
import TinySolana.Foundations.Exec

/-!
# Records of a fixed size

A codec is of fixed size when all its encodings have one length. Records are then told apart by
their lengths, and a record can be packed over the front of a slice and unpacked again: an unpacked
record fills its bytes, so packing over them never runs out of room.
-/

namespace Foundations

/-- Copy bytes over the front of a slice; slicing panics where they do not fit. -/
def copyFromSlice {ε : Type} (src : List UInt8) : Exec (List UInt8) ε Unit := do
  let dst ← Exec.get
  Exec.panicIf (dst.length < src.length)
  Exec.modify fun _ => src ++ dst.drop src.length

theorem copyFromSlice_run {ε : Type} {src dst : List UInt8} (h : src.length ≤ dst.length) :
    (copyFromSlice src : Exec (List UInt8) ε Unit) dst = (.ok (),src ++ dst.drop src.length) := by
  rw [copyFromSlice,Exec.get_bind,Exec.panicIf_false (not_lt.mpr h)]
  rfl

namespace Codec

variable {α β : Type} {c : Codec α} {d : Codec β} {n k : ℕ}

/-- Every value can be written, and all encodings have the same length. -/
structure FixedSize (c : Codec α) (n : ℕ) : Prop where
  fits : ∀ a, c.Fits a
  length : ∀ a, (c.encode a).length = n

namespace FixedSize

/-! ### Codecs of a fixed size -/

theorem block (e : {bs : List UInt8 // bs.length = n} ≃ α) : (Codec.block n e).FixedSize n :=
  ⟨fun _ => trivial,fun a => (e.symm a).2⟩

theorem refine (h : c.FixedSize n) {toRaw : β → α} {ofRaw : α → Option β}
    {hraw : ∀ a b, ofRaw a = some b ↔ a = toRaw b} : (c.refine toRaw ofRaw hraw).FixedSize n :=
  ⟨fun b => h.fits (toRaw b),fun b => h.length (toRaw b)⟩

theorem iso (h : c.FixedSize n) (e : α ≃ β) : (c.iso e).FixedSize n := h.refine

theorem seq (hc : c.FixedSize n) (hd : d.FixedSize k) : (c.seq d).FixedSize (n+k) :=
  ⟨fun p => ⟨hc.fits p.1,hd.fits p.2⟩,
    fun p => List.length_append.trans (congrArg₂ _ (hc.length p.1) (hd.length p.2))⟩

theorem u8 : Codec.u8.FixedSize 1 := block _

theorem u64 : Codec.u64.FixedSize 8 := block _

theorem bool : Codec.bool.FixedSize 1 := u8.refine

/-! ### Unpacking and packing -/

/-- Exactly the encodings unpack. -/
theorem decodeAll_iff (h : c.FixedSize n) {bs : List UInt8} {a : α} :
    c.decodeAll bs = some a ↔ bs = c.encode a := by
  rw [c.decodeAll_eq_some]
  exact and_iff_right (h.fits a)

theorem length_of_decodeAll (h : c.FixedSize n) {bs : List UInt8} {a : α}
    (ha : c.decodeAll bs = some a) : bs.length = n := by
  rw [h.decodeAll_iff.mp ha,h.length]

/-- Records of different sizes are never unpacked from the same bytes. -/
theorem decodeAll_ne (hc : c.FixedSize n) (hd : d.FixedSize k) (hne : n ≠ k) {bs : List UInt8}
    {a : α} (ha : c.decodeAll bs = some a) : d.decodeAll bs = none := by
  cases hb : d.decodeAll bs with
  | none => rfl
  | some b => exact absurd ((hc.length_of_decodeAll ha).symm.trans (hd.length_of_decodeAll hb)) hne

/-- A record that is packed into a longer slice is unpacked from its front, and the bytes behind it
are those that were there. -/
theorem copy_decodeAll {ε : Type} (h : c.FixedSize n) (a : α) {dst : List UInt8}
    (hn : n ≤ dst.length) :
    ∃ dst', (copyFromSlice (c.encode a) : Exec (List UInt8) ε Unit) dst = (.ok (),dst') ∧
      dst'.length = dst.length ∧ c.decodeAll (dst'.take n) = some a ∧ dst'.drop n = dst.drop n := by
  have hl := h.length a
  refine ⟨_,copyFromSlice_run (hl.trans_le hn),?_,?_,?_⟩
  · rw [List.length_append,List.length_drop,hl]
    omega
  · rw [List.take_left' hl]
    exact h.decodeAll_iff.mpr rfl
  · rw [List.drop_left' hl,hl]

/-- Packing over the bytes of a record replaces all of them. -/
theorem copy_over {ε : Type} (h : c.FixedSize n) {bs : List UInt8} {a : α}
    (ha : c.decodeAll bs = some a) (b : α) :
    (copyFromSlice (c.encode b) : Exec (List UInt8) ε Unit) bs = (.ok (),c.encode b) := by
  have hl : (c.encode b).length = bs.length := (h.length b).trans (h.length_of_decodeAll ha).symm
  rw [copyFromSlice_run hl.le,hl,List.drop_length,List.append_nil]

end FixedSize

end Codec

end Foundations
