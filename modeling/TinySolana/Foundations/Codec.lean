import Mathlib.Logic.Equiv.Defs
import Mathlib.Tactic.NormNum

/-!
# Byte codecs

A `Codec α` writes values of type `α` as bytes and reads one from the front of a byte string. Its
two laws travel with it: reading back what was written gives the value and the bytes behind it,
and whatever is read was written in the one way the codec writes it. Codecs of records, options,
vectors and enumerations are assembled from smaller ones, so they satisfy both laws by
construction.

The integers are little-endian of fixed width, lengths take eight bytes and enumeration tags four.
-/

namespace Foundations

/-! ## Little-endian integers -/

def leBytes : ℕ → ℕ → List UInt8
  | 0, _ => []
  | n+1, x => UInt8.ofNat (x % 256) :: leBytes n (x / 256)

def ofLeBytes : List UInt8 → ℕ
  | [] => 0
  | b :: bs => b.toNat+256*ofLeBytes bs

@[simp] theorem leBytes_length (n x : ℕ) : (leBytes n x).length = n := by
  induction n generalizing x with
  | zero => rfl
  | succ n ih => simp [leBytes,ih]

theorem ofLeBytes_leBytes {n x : ℕ} (hx : x < 256^n) : ofLeBytes (leBytes n x) = x := by
  induction n generalizing x with
  | zero => simp at hx; simp [leBytes,ofLeBytes,hx]
  | succ n ih =>
    have hd : x/256 < 256^n := by
      rw [pow_succ] at hx
      omega
    simp only [leBytes,ofLeBytes,ih hd,UInt8.toNat_ofNat']
    omega

theorem ofLeBytes_lt (bs : List UInt8) : ofLeBytes bs < 256^bs.length := by
  induction bs with
  | nil => simp [ofLeBytes]
  | cons b bs ih =>
    have hb := b.toNat_lt
    simp only [ofLeBytes,List.length_cons,pow_succ]
    omega

theorem leBytes_ofLeBytes (bs : List UInt8) : leBytes bs.length (ofLeBytes bs) = bs := by
  induction bs with
  | nil => rfl
  | cons b bs ih =>
    have hb := b.toNat_lt
    have hm : (b.toNat+256*ofLeBytes bs) % 256 = b.toNat := by omega
    have hd : (b.toNat+256*ofLeBytes bs) / 256 = ofLeBytes bs := by omega
    simp only [ofLeBytes,List.length_cons,leBytes,hm,hd,ih,UInt8.ofNat_toNat]

/-! ## Codecs -/

structure Codec (α : Type) where
  encode : α → List UInt8
  decode : List UInt8 → Option (α × List UInt8)
  /-- The values whose length fields can hold their lengths. -/
  Fits : α → Prop
  decode_encode : ∀ a rest, Fits a → decode (encode a ++ rest) = some (a,rest)
  encode_decode : ∀ bs a rest, decode bs = some (a,rest) → Fits a ∧ bs = encode a ++ rest

namespace Codec

variable {α β : Type}

/-- Read a whole byte string; bytes behind the value are refused. -/
def decodeAll (c : Codec α) (bs : List UInt8) : Option α :=
  match c.decode bs with
  | some (a,[]) => some a
  | _ => none

/-- Read a value and ignore the bytes behind it. -/
def decodePrefix (c : Codec α) (bs : List UInt8) : Option α := (c.decode bs).map Prod.fst

theorem decodeAll_eq_some (c : Codec α) {bs : List UInt8} {a : α} :
    c.decodeAll bs = some a ↔ c.Fits a ∧ bs = c.encode a := by
  unfold decodeAll
  constructor
  · intro h
    split at h
    · next a' hd =>
      cases h
      simpa using c.encode_decode _ _ _ hd
    · simp at h
  · rintro ⟨hf,rfl⟩
    have h := c.decode_encode a [] hf
    rw [List.append_nil] at h
    rw [h]

theorem decodePrefix_eq_some (c : Codec α) {bs : List UInt8} {a : α} :
    c.decodePrefix bs = some a ↔ c.Fits a ∧ ∃ rest, bs = c.encode a ++ rest := by
  unfold decodePrefix
  constructor
  · intro h
    obtain ⟨⟨a',rest⟩,hd,rfl⟩ := Option.map_eq_some_iff.mp h
    obtain ⟨hf,he⟩ := c.encode_decode _ _ _ hd
    exact ⟨hf,rest,he⟩
  · rintro ⟨hf,rest,rfl⟩
    simp [c.decode_encode a rest hf]

/-- No encoding is the beginning of another one: what follows a value is determined, too. -/
theorem append_inj (c : Codec α) {a b : α} {rest rest' : List UInt8} (ha : c.Fits a) (hb : c.Fits b)
    (h : c.encode a ++ rest = c.encode b ++ rest') : a = b ∧ rest = rest' := by
  have h1 := c.decode_encode a rest ha
  rw [h,c.decode_encode b rest' hb] at h1
  cases h1
  exact ⟨rfl,rfl⟩

/-- Values that fit are told apart by their bytes. -/
theorem encode_inj (c : Codec α) {a b : α} (ha : c.Fits a) (hb : c.Fits b)
    (h : c.encode a = c.encode b) : a = b :=
  (c.append_inj ha hb (congrArg (· ++ []) h)).1

/-- A block of exactly `n` bytes, seen as a value through a bijection. -/
def block (n : ℕ) (e : {bs : List UInt8 // bs.length = n} ≃ α) : Codec α where
  encode a := (e.symm a).1
  decode bs := if h : n ≤ bs.length then
      some (e ⟨bs.take n,by simp [h]⟩,bs.drop n) else none
  Fits _ := True
  decode_encode a rest _ := by
    have hn := (e.symm a).2
    have ht : ((e.symm a).1 ++ rest).take n = (e.symm a).1 := List.take_left' hn
    simp [hn,ht,List.drop_left' hn]
  encode_decode bs a rest h := by
    split at h
    · next hn =>
      simp only [Option.some.injEq,Prod.mk.injEq] at h
      obtain ⟨rfl,rfl⟩ := h
      simp
    · simp at h

/-- A codec for the values that another codec's values stand for. -/
def refine (c : Codec α) (toRaw : β → α) (ofRaw : α → Option β)
    (h : ∀ a b, ofRaw a = some b ↔ a = toRaw b) : Codec β where
  encode b := c.encode (toRaw b)
  decode bs := (c.decode bs).bind fun r => (ofRaw r.1).map fun b => (b,r.2)
  Fits b := c.Fits (toRaw b)
  decode_encode b rest hf := by simp [c.decode_encode _ rest hf,(h _ b).mpr rfl]
  encode_decode bs b rest hd := by
    obtain ⟨⟨a,rest'⟩,hc,hm⟩ := Option.bind_eq_some_iff.mp hd
    obtain ⟨b',hb,he⟩ := Option.map_eq_some_iff.mp hm
    cases he
    have ha := (h a b).mp hb
    subst ha
    exact c.encode_decode _ _ _ hc

/-- A codec carried along a bijection. -/
def iso (c : Codec α) (e : α ≃ β) : Codec β :=
  c.refine e.symm (fun a => some (e a)) (fun a b => by
    rw [Option.some.injEq]
    exact ⟨fun h => by rw [← h,e.symm_apply_apply],fun h => by rw [h,e.apply_symm_apply]⟩)

/-- One value behind the other. -/
def seq (c : Codec α) (d : Codec β) : Codec (α × β) where
  encode p := c.encode p.1 ++ d.encode p.2
  decode bs := (c.decode bs).bind fun r => (d.decode r.2).map fun q => ((r.1,q.1),q.2)
  Fits p := c.Fits p.1 ∧ d.Fits p.2
  decode_encode p rest hf := by
    simp [List.append_assoc,c.decode_encode _ _ hf.1,d.decode_encode _ rest hf.2]
  encode_decode bs p rest hd := by
    obtain ⟨⟨a,mid⟩,hc,hm⟩ := Option.bind_eq_some_iff.mp hd
    obtain ⟨⟨b,last⟩,hb,he⟩ := Option.map_eq_some_iff.mp hm
    cases he
    obtain ⟨hfa,rfl⟩ := c.encode_decode _ _ _ hc
    obtain ⟨hfb,rfl⟩ := d.encode_decode _ _ _ hb
    exact ⟨⟨hfa,hfb⟩,(List.append_assoc _ _ _).symm⟩

/-- Nothing is written for a value without fields. -/
def unit : Codec Unit where
  encode _ := []
  decode bs := some ((),bs)
  Fits _ := True
  decode_encode _ _ _ := rfl
  encode_decode bs _ rest h := by simpa [eq_comm] using h

/-! ### Integers and booleans -/

def u8 : Codec UInt8 := block 1
  { toFun b := b.1.headD 0
    invFun b := ⟨[b],rfl⟩
    left_inv := by
      rintro ⟨bs,h⟩
      obtain ⟨b,rfl⟩ := List.length_eq_one_iff.mp h
      rfl
    right_inv _ := rfl }

def u32 : Codec UInt32 := block 4
  { toFun b := UInt32.ofNat (ofLeBytes b.1)
    invFun x := ⟨leBytes 4 x.toNat,leBytes_length _ _⟩
    left_inv := by
      rintro ⟨bs,h⟩
      have hlt : ofLeBytes bs < 2^32 := by have := ofLeBytes_lt bs; rw [h] at this; simpa using this
      apply Subtype.ext
      change leBytes 4 (UInt32.ofNat (ofLeBytes bs)).toNat = bs
      rw [UInt32.toNat_ofNat_of_lt' hlt]
      conv_lhs => rw [← h]
      exact leBytes_ofLeBytes bs
    right_inv x := by
      change UInt32.ofNat (ofLeBytes (leBytes 4 x.toNat)) = x
      rw [ofLeBytes_leBytes (by have := x.toNat_lt; omega),UInt32.ofNat_toNat] }

def u64 : Codec UInt64 := block 8
  { toFun b := UInt64.ofNat (ofLeBytes b.1)
    invFun x := ⟨leBytes 8 x.toNat,leBytes_length _ _⟩
    left_inv := by
      rintro ⟨bs,h⟩
      have hlt : ofLeBytes bs < 2^64 := by have := ofLeBytes_lt bs; rw [h] at this; simpa using this
      apply Subtype.ext
      change leBytes 8 (UInt64.ofNat (ofLeBytes bs)).toNat = bs
      rw [UInt64.toNat_ofNat_of_lt' hlt]
      conv_lhs => rw [← h]
      exact leBytes_ofLeBytes bs
    right_inv x := by
      change UInt64.ofNat (ofLeBytes (leBytes 8 x.toNat)) = x
      rw [ofLeBytes_leBytes (by have := x.toNat_lt; omega),UInt64.ofNat_toNat] }

/-- A length field; `usize` has 64 bits. -/
def len : Codec ℕ where
  encode n := leBytes 8 n
  decode bs := if 8 ≤ bs.length then some (ofLeBytes (bs.take 8),bs.drop 8) else none
  Fits n := n < 2^64
  decode_encode n rest hn := by
    have ht : (leBytes 8 n ++ rest).take 8 = leBytes 8 n := List.take_left' (leBytes_length 8 n)
    have hd : (leBytes 8 n ++ rest).drop 8 = rest := List.drop_left' (leBytes_length 8 n)
    rw [if_pos (by simp),ht,hd,ofLeBytes_leBytes (by simpa using hn)]
  encode_decode bs n rest h := by
    split at h
    · next hl =>
      simp only [Option.some.injEq,Prod.mk.injEq] at h
      obtain ⟨rfl,rfl⟩ := h
      have h8 : (bs.take 8).length = 8 := by simp [hl]
      have hlt := ofLeBytes_lt (bs.take 8)
      have hle := leBytes_ofLeBytes (bs.take 8)
      rw [h8] at hlt hle
      refine ⟨by simpa using hlt,?_⟩
      rw [hle,List.take_append_drop]
    · simp at h

/-- One byte, 0 or 1. -/
def bool : Codec Bool := u8.refine (fun b => if b then 1 else 0)
  (fun x => if x = 0 then some false else if x = 1 then some true else none) (by
    intro x b
    by_cases h0 : x = 0
    · subst h0
      cases b <;> simp
    · by_cases h1 : x = 1
      · subst h1
        cases b <;> simp
      · cases b <;> simp [h0,h1])

/-! ### Options, vectors and enumerations -/

def option (c : Codec α) : Codec (Option α) where
  encode
    | none => bool.encode false
    | some a => bool.encode true ++ c.encode a
  decode bs := (bool.decode bs).bind fun r =>
    if r.1 then (c.decode r.2).map fun q => (some q.1,q.2) else some (none,r.2)
  Fits o := ∀ a, o = some a → c.Fits a
  decode_encode o rest hf := by
    cases o with
    | none => simp [bool.decode_encode false rest trivial]
    | some a =>
      have hb := bool.decode_encode true (c.encode a ++ rest) trivial
      simp only [List.append_assoc]
      simp [hb,c.decode_encode a rest (hf a rfl)]
  encode_decode bs o rest hd := by
    obtain ⟨⟨b,mid⟩,hb,hm⟩ := Option.bind_eq_some_iff.mp hd
    obtain ⟨-,rfl⟩ := bool.encode_decode _ _ _ hb
    cases b with
    | false =>
      simp only [Bool.false_eq_true,if_false,Option.some.injEq,Prod.mk.injEq] at hm
      obtain ⟨rfl,rfl⟩ := hm
      simp
    | true =>
      simp only [if_true] at hm
      obtain ⟨⟨a,last⟩,ha,he⟩ := Option.map_eq_some_iff.mp hm
      cases he
      obtain ⟨hfa,rfl⟩ := c.encode_decode _ _ _ ha
      refine ⟨?_,by simp⟩
      rintro a' h
      cases h
      exact hfa

/-- Read exactly `n` values. -/
def decodeN (c : Codec α) : ℕ → List UInt8 → Option (List α × List UInt8)
  | 0, bs => some ([],bs)
  | n+1, bs => (c.decode bs).bind fun r => (c.decodeN n r.2).map fun q => (r.1 :: q.1,q.2)

theorem decodeN_encode (c : Codec α) (l : List α) (rest : List UInt8) (hf : ∀ a ∈ l, c.Fits a) :
    c.decodeN l.length (l.flatMap c.encode ++ rest) = some (l,rest) := by
  induction l with
  | nil => rfl
  | cons a l ih =>
    have ha := c.decode_encode a (l.flatMap c.encode ++ rest) (hf a (by simp))
    have ht := ih (fun b hb => hf b (List.mem_cons_of_mem a hb))
    simp [decodeN,List.append_assoc,ha,ht]

theorem encode_decodeN (c : Codec α) (n : ℕ) (bs : List UInt8) (l : List α) (rest : List UInt8)
    (h : c.decodeN n bs = some (l,rest)) :
    l.length = n ∧ (∀ a ∈ l, c.Fits a) ∧ bs = l.flatMap c.encode ++ rest := by
  induction n generalizing bs l with
  | zero =>
    simp only [decodeN,Option.some.injEq,Prod.mk.injEq] at h
    obtain ⟨rfl,rfl⟩ := h
    simp
  | succ n ih =>
    obtain ⟨⟨a,mid⟩,ha,hm⟩ := Option.bind_eq_some_iff.mp h
    obtain ⟨⟨t,last⟩,ht,he⟩ := Option.map_eq_some_iff.mp hm
    cases he
    obtain ⟨hfa,rfl⟩ := c.encode_decode _ _ _ ha
    obtain ⟨hl,hft,rfl⟩ := ih _ _ ht
    refine ⟨by simp [hl],?_,by simp⟩
    intro b hb
    rcases List.mem_cons.mp hb with rfl | hb
    · exact hfa
    · exact hft b hb

/-- A length field and that many values. -/
def vec (c : Codec α) : Codec (List α) where
  encode l := len.encode l.length ++ l.flatMap c.encode
  decode bs := (len.decode bs).bind fun r => c.decodeN r.1 r.2
  Fits l := l.length < 2^64 ∧ ∀ a ∈ l, c.Fits a
  decode_encode l rest hf := by
    have hl := len.decode_encode l.length (l.flatMap c.encode ++ rest) hf.1
    simp [List.append_assoc,hl,c.decodeN_encode l rest hf.2]
  encode_decode bs l rest hd := by
    obtain ⟨⟨n,mid⟩,hn,hm⟩ := Option.bind_eq_some_iff.mp hd
    obtain ⟨hlt,rfl⟩ := len.encode_decode _ _ _ hn
    obtain ⟨rfl,hf,rfl⟩ := c.encode_decodeN _ _ _ _ hm
    exact ⟨⟨hlt,hf⟩,by simp⟩

end Codec

/-- The variants of an enumeration whose tags count up from `start`. -/
structure EnumCodec (start : ℕ) (α : Type) where
  tag : α → ℕ
  payload : α → List UInt8
  decode : ℕ → List UInt8 → Option (α × List UInt8)
  Fits : α → Prop
  bound : start ≤ 2^32
  start_le : ∀ a, start ≤ tag a
  tag_lt : ∀ a, tag a < 2^32
  decode_payload : ∀ a rest, Fits a → decode (tag a) (payload a ++ rest) = some (a,rest)
  payload_decode : ∀ t bs a rest, decode t bs = some (a,rest) →
    Fits a ∧ t = tag a ∧ bs = payload a ++ rest

namespace EnumCodec

variable {α β : Type} {start : ℕ}

/-- No variants are left. -/
def done (start : ℕ) (h : start ≤ 2^32) : EnumCodec start Empty where
  tag a := a.elim
  payload a := a.elim
  decode _ _ := none
  Fits a := a.elim
  bound := h
  start_le a := a.elim
  tag_lt a := a.elim
  decode_payload a := a.elim
  payload_decode _ _ a := a.elim

/-- The variant with tag `start`, before the variants with larger tags. -/
def variant (c : Codec α) (d : EnumCodec (start+1) β) : EnumCodec start (α ⊕ β) where
  tag := Sum.elim (fun _ => start) d.tag
  payload := Sum.elim c.encode d.payload
  decode t bs := if t = start then (c.decode bs).map fun r => (.inl r.1,r.2)
    else (d.decode t bs).map fun r => (.inr r.1,r.2)
  Fits := Sum.elim c.Fits d.Fits
  bound := (Nat.le_succ start).trans d.bound
  start_le
    | .inl _ => le_rfl
    | .inr b => (Nat.le_succ start).trans (d.start_le b)
  tag_lt
    | .inl _ => d.bound
    | .inr b => d.tag_lt b
  decode_payload a rest hf := by
    cases a with
    | inl a => simp [c.decode_encode a rest hf]
    | inr b =>
      have hne : d.tag b ≠ start := by have := d.start_le b; omega
      simp [hne,d.decode_payload b rest hf]
  payload_decode t bs a rest h := by
    split at h
    · next ht =>
      obtain ⟨⟨v,last⟩,hv,he⟩ := Option.map_eq_some_iff.mp h
      cases he
      obtain ⟨hf,rfl⟩ := c.encode_decode _ _ _ hv
      exact ⟨hf,ht,rfl⟩
    · obtain ⟨⟨v,last⟩,hv,he⟩ := Option.map_eq_some_iff.mp h
      cases he
      exact d.payload_decode _ _ _ _ hv

/-- A four-byte tag and the payload of its variant. -/
def codec (d : EnumCodec 0 α) : Codec α where
  encode a := leBytes 4 (d.tag a) ++ d.payload a
  decode bs := if 4 ≤ bs.length then d.decode (ofLeBytes (bs.take 4)) (bs.drop 4) else none
  Fits := d.Fits
  decode_encode a rest hf := by
    have h4 := leBytes_length 4 (d.tag a)
    have hlt : d.tag a < 256^4 := by simpa using d.tag_lt a
    rw [List.append_assoc,if_pos (by simp),List.take_left' h4,List.drop_left' h4,
      ofLeBytes_leBytes hlt]
    exact d.decode_payload a rest hf
  encode_decode bs a rest h := by
    split at h
    · next hl =>
      obtain ⟨hf,ht,hp⟩ := d.payload_decode _ _ _ _ h
      have h4 : (bs.take 4).length = 4 := by simp [hl]
      have hle := leBytes_ofLeBytes (bs.take 4)
      rw [h4] at hle
      refine ⟨hf,?_⟩
      rw [← ht,hle,List.append_assoc,← hp,List.take_append_drop]
    · simp at h

end EnumCodec

end Foundations
