import Mathlib.Order.Defs.LinearOrder
import Mathlib.Data.Finset.Dedup
import Mathlib.Data.List.Basic

/-!
# Ordered sets

`BTreeSet α` is a finite set kept as its strictly ascending list of elements, which is the order
in which it is iterated.
-/

namespace Foundations

variable {α β : Type} [LinearOrder α]

structure BTreeSet (α : Type) [LinearOrder α] where
  toList : List α
  ascending : toList.Pairwise (· < ·)
  deriving DecidableEq

namespace BTreeSet

instance : Membership α (BTreeSet α) := ⟨fun s a => a ∈ s.toList⟩

instance (a : α) (s : BTreeSet α) : Decidable (a ∈ s) := inferInstanceAs (Decidable (a ∈ s.toList))

theorem mem_def {a : α} {s : BTreeSet α} : a ∈ s ↔ a ∈ s.toList := Iff.rfl

theorem nodup (s : BTreeSet α) : s.toList.Nodup := s.ascending.imp fun h => h.ne

def empty : BTreeSet α := ⟨[],.nil⟩

@[simp] theorem mem_empty {a : α} : ¬a ∈ (empty : BTreeSet α) := by simp [mem_def,empty]

/-- Place an element in an ascending list, unless it is already there. -/
def insertList (a : α) : List α → List α
  | [] => [a]
  | b :: l => if a < b then a :: b :: l else if a = b then b :: l else b :: insertList a l

theorem mem_insertList {a b : α} {l : List α} : b ∈ insertList a l ↔ b = a ∨ b ∈ l := by
  induction l with
  | nil => simp [insertList]
  | cons c l ih =>
    simp only [insertList]
    split
    · simp
    · split
      · next h => simp [h]
      · simp only [List.mem_cons,ih]
        tauto

theorem insertList_ascending (a : α) {l : List α} (h : l.Pairwise (· < ·)) :
    (insertList a l).Pairwise (· < ·) := by
  induction l with
  | nil => simp [insertList]
  | cons b l ih =>
    obtain ⟨hb,hl⟩ := List.pairwise_cons.mp h
    simp only [insertList]
    split
    · next hab =>
      refine List.pairwise_cons.mpr ⟨?_,h⟩
      intro c hc
      rcases List.mem_cons.mp hc with rfl | hc
      · exact hab
      · exact hab.trans (hb c hc)
    · next hab =>
      split
      · exact h
      · next hne =>
        refine List.pairwise_cons.mpr ⟨?_,ih hl⟩
        intro c hc
        rcases mem_insertList.mp hc with rfl | hc
        · exact lt_of_le_of_ne (not_lt.mp hab) (Ne.symm hne)
        · exact hb c hc

def insert (a : α) (s : BTreeSet α) : BTreeSet α :=
  ⟨insertList a s.toList,insertList_ascending a s.ascending⟩

@[simp] theorem mem_insert {a b : α} {s : BTreeSet α} : b ∈ s.insert a ↔ b = a ∨ b ∈ s :=
  mem_insertList

/-- Insert every element of a list. -/
def extend (s : BTreeSet α) (l : List α) : BTreeSet α := l.foldl (fun s a => s.insert a) s

@[simp] theorem mem_extend {a : α} {s : BTreeSet α} {l : List α} : a ∈ s.extend l ↔
    a ∈ s ∨ a ∈ l := by
  induction l generalizing s with
  | nil => simp [extend]
  | cons b l ih =>
    change a ∈ (s.insert b).extend l ↔ _
    rw [ih,mem_insert,List.mem_cons]
    tauto

/-- The set of the elements of a list. -/
def ofList (l : List α) : BTreeSet α := empty.extend l

@[simp] theorem mem_ofList {a : α} {l : List α} : a ∈ ofList l ↔ a ∈ l := by simp [ofList]

def toFinset (s : BTreeSet α) : Finset α := ⟨s.toList,s.nodup⟩

@[simp] theorem mem_toFinset {a : α} {s : BTreeSet α} : a ∈ s.toFinset ↔ a ∈ s := Iff.rfl

end BTreeSet

end Foundations
