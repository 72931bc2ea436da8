import Mathlib.Algebra.BigOperators.Group.Finset.Basic
import Mathlib.Algebra.Order.BigOperators.Group.Finset
import Mathlib.Data.Fintype.Basic

/-!
# Ledgers of issued units

Issuers put units out, holders hold units of an issuer that they name. A ledger is sound when every
issuer has out exactly what its holders hold together and every holder names an issuer that exists.
Four kinds of steps keep a ledger sound: a new issuer, a new holder, an issue and a transfer.
-/

namespace Foundations

open Function

inductive Entry (ι : Type*) where
  | blank
  | issuer (supply : ℕ)
  | holder (issuer : ι) (amount : ℕ)

namespace Entry

variable {ι : Type*} [DecidableEq ι]

/-- The units of one issuer that an entry holds. -/
def counted : Entry ι → ι → ℕ
  | holder j n, k => if j = k then n else 0
  | _, _ => 0

@[simp] theorem counted_blank (k : ι) : (blank : Entry ι).counted k = 0 := rfl
@[simp] theorem counted_issuer (s : ℕ) (k : ι) : (issuer s : Entry ι).counted k = 0 := rfl
theorem counted_holder (j : ι) (n : ℕ) (k : ι) : (holder j n).counted k = if j = k then n else 0 :=
  rfl

end Entry

namespace Ledger

variable {κ ι : Type*} {name : κ → ι} {e e' : κ → Entry ι}

/-- Every holder names an issuer. -/
def Anchored (name : κ → ι) (e : κ → Entry ι) : Prop :=
  ∀ c k n, e c = .holder k n → ∃ d s, name d = k ∧ e d = .issuer s

/-- A new entry leaves the other holders anchored when an issuer stays one. -/
theorem Anchored.update [DecidableEq κ] (h : Anchored name e) {c : κ} {x : Entry ι}
    (hx : ∀ s, e c = .issuer s → ∃ s', x = .issuer s')
    (hk : ∀ k n, x = .holder k n → ∃ d s, name d = k ∧ e d = .issuer s) :
    Anchored name (update e c x) := by
  have hissuer : ∀ i s, e i = .issuer s → ∃ s', Function.update e c x i = .issuer s' := by
    intro i s hi
    by_cases hic : i = c
    · subst hic
      rw [update_self]
      exact hx s hi
    · exact ⟨s,by rw [update_of_ne hic,hi]⟩
  intro d k n hd
  have hold : ∃ i s, name i = k ∧ e i = .issuer s := by
    by_cases hdc : d = c
    · subst hdc
      rw [update_self] at hd
      exact hk k n hd
    · rw [update_of_ne hdc] at hd
      exact h d k n hd
  obtain ⟨i,s,hi,he⟩ := hold
  obtain ⟨s',hs'⟩ := hissuer i s he
  exact ⟨i,s',hi,hs'⟩

variable [Fintype κ] [DecidableEq ι]

/-- The units of an issuer that all entries hold together. -/
def held (e : κ → Entry ι) (k : ι) : ℕ := ∑ c, (e c).counted k

structure Sound (name : κ → ι) (e : κ → Entry ι) : Prop where
  backed : ∀ c s, e c = .issuer s → s = held e (name c)
  anchored : Anchored name e

theorem sound_blank (h : ∀ c, e c = .blank) : Sound name e :=
  ⟨fun c s hc => by simp [h c] at hc,fun c k n hc => by simp [h c] at hc⟩

/-- No holder has more than is out. -/
theorem Sound.amount_le (h : Sound name e) {c d : κ} {s n : ℕ} (hc : e c = .issuer s)
    (hd : e d = .holder (name c) n) : n ≤ s := by
  have hle := Finset.single_le_sum (f := fun d => (e d).counted (name c)) (fun _ _ => Nat.zero_le _)
    (Finset.mem_univ d)
  rw [hd,Entry.counted_holder,if_pos rfl] at hle
  rw [h.backed c s hc]
  exact hle

/-- Nobody holds units of an issuer that does not exist. -/
theorem Sound.held_eq_zero (h : Sound name e) (hn : name.Injective) {c : κ}
    (hc : ∀ s, e c ≠ .issuer s) : held e (name c) = 0 := by
  refine Finset.sum_eq_zero fun d _ => ?_
  cases hd : e d with
  | blank => rfl
  | issuer s => rfl
  | holder k n =>
    rw [Entry.counted_holder,if_neg]
    rintro rfl
    obtain ⟨i,s,hi,he⟩ := h.anchored d _ n hd
    rw [hn hi] at he
    exact hc s he

variable [DecidableEq κ]

/-- Replacing one entry. -/
theorem held_update (e : κ → Entry ι) (c : κ) (x : Entry ι) (k : ι) :
    held (update e c x) k+(e c).counted k = held e k+x.counted k := by
  have hrest : ∑ d ∈ Finset.univ.erase c, (update e c x d).counted k =
      ∑ d ∈ Finset.univ.erase c, (e d).counted k :=
    Finset.sum_congr rfl fun d hd => by rw [update_of_ne (Finset.ne_of_mem_erase hd)]
  unfold held
  rw [← Finset.add_sum_erase _ _ (Finset.mem_univ c),
    ← Finset.add_sum_erase _ (fun d => (e d).counted k) (Finset.mem_univ c),hrest,update_self]
  omega

/-- Two holders of one issuer together stay below any bound on what is out. -/
theorem Sound.add_amounts_lt (h : Sound name e) {b : ℕ} (hb : ∀ c s, e c = .issuer s → s < b)
    {c d : κ} (hcd : c ≠ d) {k : ι} {n n' : ℕ} (hc : e c = .holder k n) (hd : e d = .holder k n') :
    n+n' < b := by
  obtain ⟨i,s,rfl,hi⟩ := h.anchored c k n hc
  have hle : (e c).counted (name i)+(e d).counted (name i) ≤ held e (name i) := by
    unfold held
    rw [← Finset.add_sum_erase _ (fun d => (e d).counted (name i)) (Finset.mem_univ c)]
    exact Nat.add_le_add_left (Finset.single_le_sum (f := fun d => (e d).counted (name i))
      (fun _ _ => Nat.zero_le _) (Finset.mem_erase.mpr ⟨hcd.symm,Finset.mem_univ d⟩)) _
  rw [hc,hd,Entry.counted_holder,Entry.counted_holder,if_pos rfl,
    if_pos rfl,← h.backed i s hi] at hle
  exact hle.trans_lt (hb i s hi)

omit [Fintype κ] [DecidableEq ι] in
/-- Behind a holder that was put in, the issuers are those that were there elsewhere. -/
theorem issuer_of_update_holder {c i : κ} {k : ι} {n t : ℕ}
    (h : update e c (.holder k n) i = .issuer t) : i ≠ c ∧ e i = .issuer t := by
  by_cases hic : i = c
  · subst hic
    rw [update_self] at h
    cases h
  · rw [update_of_ne hic] at h
    exact ⟨hic,h⟩

/-! ### Changes of a sound ledger -/

namespace Sound

/-- A new issuer has nothing out. -/
theorem create (hn : name.Injective) (h : Sound name e) {c : κ} (hc : e c = .blank) :
    Sound name (update e c (.issuer 0)) := by
  refine ⟨fun d s hd => ?_,h.anchored.update (fun s hs => by simp [hc] at hs) (fun _ _ => nofun)⟩
  have hu := held_update e c (.issuer 0) (name d)
  simp only [hc,Entry.counted_blank,Entry.counted_issuer,Nat.add_zero] at hu
  rw [hu]
  by_cases hdc : d = c
  · subst hdc
    rw [update_self] at hd
    cases hd
    exact (h.held_eq_zero hn fun s hs => by simp [hc] at hs).symm
  · rw [update_of_ne hdc] at hd
    exact h.backed d s hd

/-- A new holder holds nothing. -/
theorem openHolder (h : Sound name e) {c i : κ} {s : ℕ} (hc : e c = .blank) (hi : e i = .issuer s) :
    Sound name (update e c (.holder (name i) 0)) := by
  refine ⟨fun d t hd => ?_,h.anchored.update (fun s hs => by simp [hc] at hs) ?_⟩
  · have hu := held_update e c (.holder (name i) 0) (name d)
    simp only [hc,Entry.counted_blank,Entry.counted_holder,ite_self,Nat.add_zero] at hu
    rw [hu]
    exact h.backed d t (issuer_of_update_holder hd).2
  · rintro k n ⟨⟩
    exact ⟨i,s,rfl,hi⟩

/-- What is issued is held. -/
theorem issue (hn : name.Injective) (h : Sound name e) {c d : κ} {s a : ℕ} (n : ℕ)
    (hc : e c = .issuer s) (hd : e d = .holder (name c) a) :
    Sound name (update (update e c (.issuer (s+n))) d (.holder (name c) (a+n))) := by
  have hdc : d ≠ c := by
    rintro rfl
    rw [hc] at hd
    cases hd
  have hd' : update e c (.issuer (s+n)) d = .holder (name c) a := by rw [update_of_ne hdc,hd]
  refine ⟨fun i t hi => ?_,(h.anchored.update (fun _ _ => ⟨_,rfl⟩) (fun _ _ => nofun)).update ?_ ?_⟩
  · have hu₁ := held_update e c (.issuer (s+n)) (name i)
    have hu₂ := held_update (update e c (.issuer (s+n))) d (.holder (name c) (a+n)) (name i)
    rw [hd'] at hu₂
    rw [hc] at hu₁
    simp only [Entry.counted_issuer,Entry.counted_holder,Nat.add_zero] at hu₁ hu₂
    obtain ⟨-,hi⟩ := issuer_of_update_holder hi
    by_cases hic : i = c
    · subst hic
      rw [update_self] at hi
      cases hi
      have hb := h.backed i s hc
      simp only [if_true] at hu₂
      omega
    · rw [update_of_ne hic] at hi
      have hb := h.backed i t hi
      rw [if_neg fun he => hic (hn he).symm,if_neg fun he => hic (hn he).symm] at hu₂
      omega
  · intro t ht
    rw [hd'] at ht
    cases ht
  · rintro k m ⟨⟩
    exact ⟨c,s+n,rfl,update_self ..⟩

/-- What one holder gives another one gets. -/
theorem transfer (h : Sound name e) {c d : κ} {k : ι} {a b n : ℕ} (hcd : c ≠ d)
    (hc : e c = .holder k a) (hd : e d = .holder k b) (hna : n ≤ a) :
    Sound name (update (update e c (.holder k (a-n))) d (.holder k (b+n))) := by
  have hd' : update e c (.holder k (a-n)) d = .holder k b := by rw [update_of_ne hcd.symm,hd]
  have hanch : ∃ i s, name i = k ∧ e i = .issuer s := h.anchored c k a hc
  refine ⟨fun i t hi => ?_,(h.anchored.update ?_ ?_).update ?_ ?_⟩
  · have hu₁ := held_update e c (.holder k (a-n)) (name i)
    have hu₂ := held_update (update e c (.holder k (a-n))) d (.holder k (b+n)) (name i)
    rw [hd'] at hu₂
    rw [hc] at hu₁
    simp only [Entry.counted_holder] at hu₁ hu₂
    have hb := h.backed i t (issuer_of_update_holder (issuer_of_update_holder hi).2).2
    by_cases hk : k = name i
    · simp only [if_pos hk] at hu₁ hu₂
      omega
    · simp only [if_neg hk] at hu₁ hu₂
      omega
  · intro t ht
    rw [hc] at ht
    cases ht
  · rintro k' m ⟨⟩
    exact hanch
  · intro t ht
    rw [hd'] at ht
    cases ht
  · rintro k' m ⟨⟩
    obtain ⟨i,s,hi,he⟩ := hanch
    refine ⟨i,s,hi,?_⟩
    rw [update_of_ne,he]
    rintro rfl
    rw [hc] at he
    cases he

end Sound

inductive Step (name : κ → ι) (e : κ → Entry ι) : (κ → Entry ι) → Prop where
  | create {c : κ} : e c = .blank → Step name e (update e c (.issuer 0))
  | openHolder {c d : κ} {s : ℕ} : e c = .blank → e d = .issuer s →
      Step name e (update e c (.holder (name d) 0))
  | issue {c d : κ} {s a : ℕ} (n : ℕ) : e c = .issuer s → e d = .holder (name c) a →
      Step name e (update (update e c (.issuer (s+n))) d (.holder (name c) (a+n)))
  | transfer {c d : κ} {k : ι} {a b : ℕ} (n : ℕ) : c ≠ d → e c = .holder k a → e d = .holder k b →
      n ≤ a → Step name e (update (update e c (.holder k (a-n))) d (.holder k (b+n)))

/-- Every step keeps a ledger sound. -/
theorem Step.sound (hn : name.Injective) (h : Sound name e) (hs : Step name e e') :
    Sound name e' := by
  cases hs with
  | create hc => exact h.create hn hc
  | openHolder hc hi => exact h.openHolder hc hi
  | issue n hc hd => exact h.issue hn n hc hd
  | transfer n hcd hc hd hna => exact h.transfer hcd hc hd hna

end Ledger

end Foundations
