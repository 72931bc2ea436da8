import Mathlib.Data.Finmap
import Mathlib.Algebra.BigOperators.Group.Finset.Basic

/-!
# Finite maps with one value type

Totals over the values of a finite map, and overwriting: a map laid over another answers with its
own value where it has one. Inserting the entries of the upper map into the lower one, in whatever
order they come, is overwriting (`Lists.insertAll`).
-/

namespace Foundations

variable {κ α : Type} [DecidableEq κ]

abbrev FiniteMap (κ α : Type) := Finmap fun _ : κ => α

namespace FiniteMap

/-! ## Inserting lists of entries -/

/-- Insert entries one after another; a later entry replaces an earlier one with its key. -/
def insertAll (m : FiniteMap κ α) (l : List (κ × α)) : FiniteMap κ α :=
  l.foldl (fun m e => m.insert e.1 e.2) m

@[simp] theorem insertAll_nil (m : FiniteMap κ α) : insertAll m [] = m := rfl

@[simp] theorem insertAll_cons (m : FiniteMap κ α) (e : κ × α) (l : List (κ × α)) :
    insertAll m (e :: l) = insertAll (m.insert e.1 e.2) l := rfl

theorem insertAll_concat (m : FiniteMap κ α) (l : List (κ × α)) (e : κ × α) :
    insertAll m (l ++ [e]) = (insertAll m l).insert e.1 e.2 := List.foldl_append

theorem insertAll_eq_empty {m : FiniteMap κ α} {l : List (κ × α)} :
    insertAll m l = ∅ ↔ m = ∅ ∧ l = [] := by
  rcases l.eq_nil_or_concat with rfl | ⟨l,e,rfl⟩
  · simp
  · refine iff_of_false (fun h => ?_) (fun h => by simp at h)
    have hlookup := congrArg (Finmap.lookup e.1) h
    rw [List.concat_eq_append,insertAll_concat,Finmap.lookup_insert,Finmap.lookup_empty] at hlookup
    cases hlookup

theorem lookup_insertAll_of_notMem {m : FiniteMap κ α} {l : List (κ × α)} {k : κ}
    (h : k ∉ l.map Prod.fst) : (insertAll m l).lookup k = m.lookup k := by
  induction l generalizing m with
  | nil => rfl
  | cons e l ih =>
    rw [List.map_cons,List.mem_cons,not_or] at h
    rw [insertAll_cons,ih h.2,Finmap.lookup_insert_of_ne _ h.1]

/-- A key that was inserted holds the value that was inserted under it last. -/
theorem lookup_insertAll_last {m : FiniteMap κ α} {l : List (κ × α)} {k : κ}
    (h : k ∈ l.map Prod.fst) : ∃ (i : ℕ) (a : α), l[i]? = some (k,a) ∧
      (∀ j (e : κ × α), i < j → l[j]? = some e → e.1 ≠ k) ∧ (insertAll m l).lookup k = some a := by
  induction l generalizing m with
  | nil => simp at h
  | cons e l ih =>
    by_cases hl : k ∈ l.map Prod.fst
    · obtain ⟨i,a,ha,hlast,he⟩ := ih (m := m.insert e.1 e.2) hl
      refine ⟨i+1,a,ha,fun j d hj hd => ?_,he⟩
      obtain ⟨j,rfl⟩ := Nat.exists_eq_succ_of_ne_zero (Nat.ne_zero_of_lt hj)
      exact hlast j d (Nat.lt_of_succ_lt_succ hj) hd
    · obtain rfl : k = e.1 := by simpa [hl] using h
      refine ⟨0,e.2,rfl,fun j d hj hd hk => ?_,?_⟩
      · obtain ⟨j,rfl⟩ := Nat.exists_eq_succ_of_ne_zero (Nat.ne_zero_of_lt hj)
        exact hl (List.mem_map.mpr ⟨d,List.mem_of_getElem? hd,hk⟩)
      · rw [insertAll_cons,lookup_insertAll_of_notMem hl,Finmap.lookup_insert]

/-- A key that was inserted holds one of the values inserted under it. -/
theorem lookup_insertAll_of_mem {m : FiniteMap κ α} {l : List (κ × α)} {k : κ}
    (h : k ∈ l.map Prod.fst) : ∃ a, (k,a) ∈ l ∧ (insertAll m l).lookup k = some a := by
  obtain ⟨i,a,ha,-,he⟩ := lookup_insertAll_last (m := m) h
  exact ⟨a,List.mem_of_getElem? ha,he⟩

/-- Entries are inserted of which all but the last for a key have the value of `old`. In between a
key has the value it had, that of `old`, or its last one. -/
theorem lookup_insertAll_append {m : FiniteMap κ α} {l l' : List (κ × α)} {old : κ → α}
    (h : (l ++ l').Pairwise fun e e' => e.1 = e'.1 → e.2 = old e.1) (k : κ) :
    (insertAll m l).lookup k = m.lookup k ∨ (insertAll m l).lookup k = some (old k) ∨
      (insertAll m l).lookup k = (insertAll m (l ++ l')).lookup k := by
  by_cases hlater : k ∈ l'.map Prod.fst
  · by_cases hk : k ∈ l.map Prod.fst
    · obtain ⟨a,ha,he⟩ := lookup_insertAll_of_mem (m := m) hk
      obtain ⟨e',he',hkey⟩ := List.mem_map.mp hlater
      have hold : a = old k := (List.pairwise_append.mp h).2.2 (k,a) ha e' he' hkey.symm
      exact .inr (.inl (hold ▸ he))
    · exact .inl (lookup_insertAll_of_notMem hk)
  · refine .inr (.inr ?_)
    have hsplit : insertAll m (l ++ l') = insertAll (insertAll m l) l' := List.foldl_append
    rw [hsplit,lookup_insertAll_of_notMem hlater]

/-- Inserting what a function has for some keys. -/
theorem lookup_insertAll_graph (m : FiniteMap κ α) (g : κ → Option α) (keys : List κ) (k : κ) :
    (insertAll m (keys.filterMap fun j => (g j).map fun a => (j,a))).lookup k =
      if k ∈ keys then (g k).or (m.lookup k) else m.lookup k := by
  by_cases hk : k ∈ (keys.filterMap fun j => (g j).map fun a => (j,a)).map Prod.fst
  · obtain ⟨a,ha,he⟩ := lookup_insertAll_of_mem (m := m) hk
    obtain ⟨j,hj,hja⟩ := List.mem_filterMap.mp ha
    obtain ⟨b,hb,heq⟩ := Option.map_eq_some_iff.mp hja
    cases heq
    rw [he,if_pos hj,hb]
    rfl
  · rw [lookup_insertAll_of_notMem hk]
    split
    · next hm =>
      -- The function has nothing for the key.
      cases hg : g k with
      | none => rfl
      | some a =>
        refine absurd (List.mem_map.mpr ⟨(k,a),List.mem_filterMap.mpr ⟨k,hm,?_⟩,rfl⟩) hk
        rw [hg]
        rfl
    · rfl

/-- Inserting into an upper map and laying it over a lower one is inserting into the result. -/
theorem insertAll_union (m p : FiniteMap κ α) (l : List (κ × α)) :
    insertAll m l ∪ p = insertAll (m ∪ p) l := by
  induction l generalizing m with
  | nil => rfl
  | cons e l ih => rw [insertAll_cons,insertAll_cons,ih,Finmap.insert_union]

theorem lookup_insert (m : FiniteMap κ α) (k : κ) (a : α) (j : κ) :
    (m.insert k a).lookup j = if j = k then some a else m.lookup j := by
  split
  · next h =>
    subst h
    exact Finmap.lookup_insert m
  · next h => exact Finmap.lookup_insert_of_ne m h

/-- Inserting into a map is laying a map over it. -/
theorem insertAll_eq_union (m : FiniteMap κ α) (l : List (κ × α)) :
    insertAll m l = insertAll ∅ l ∪ m := by
  rw [insertAll_union,Finmap.empty_union]

theorem lookup_union (m p : FiniteMap κ α) (k : κ) :
    (m ∪ p).lookup k = (m.lookup k).or (p.lookup k) := by
  by_cases hk : k ∈ m
  · obtain ⟨a,ha⟩ := Finmap.mem_iff.mp hk
    rw [Finmap.lookup_union_left hk,ha]
    rfl
  · rw [Finmap.lookup_union_right hk,Finmap.lookup_eq_none.mpr hk]
    rfl

/-! ## Listing maps -/

/-- The list holds the entries of the map in some order. -/
def Lists (m : FiniteMap κ α) (l : List (κ × α)) : Prop :=
  (l.map fun e => (⟨e.1,e.2⟩ : Σ _ : κ, α) : Multiset (Σ _ : κ, α)) = m.entries

omit [DecidableEq κ] in
theorem exists_lists (m : FiniteMap κ α) : ∃ l, Lists m l := by
  obtain ⟨es,hes⟩ := Quot.exists_rep m.entries
  refine ⟨es.map fun e => (e.1,e.2),?_⟩
  rw [Lists,List.map_map,← hes]
  exact congrArg _ (List.map_id es)

section Lists

variable {m : FiniteMap κ α} {l : List (κ × α)}

omit [DecidableEq κ] in
theorem Lists.perm (h : Lists m l) {l' : List (κ × α)} (hp : l'.Perm l) : Lists m l' := by
  rw [Lists,← h]
  exact Multiset.coe_eq_coe.mpr (hp.map _)

theorem Lists.mem (h : Lists m l) {k : κ} {a : α} : (k,a) ∈ l ↔ m.lookup k = some a := by
  rw [← Option.mem_def,Finmap.mem_lookup_iff,← h]
  simp

omit [DecidableEq κ] in
theorem Lists.nodup (h : Lists m l) : (l.map Prod.fst).Nodup := by
  have hn := m.nodupKeys
  rw [← h] at hn
  have hkeys : ((l.map fun e => (⟨e.1,e.2⟩ : Σ _ : κ, α)).map Sigma.fst).Nodup :=
    Multiset.coe_nodupKeys.mp hn
  rwa [List.map_map] at hkeys

/-- Storing every entry of a map into another, in any order, lays the map over the other. -/
theorem Lists.insertAll (h : Lists m l) (p : FiniteMap κ α) : FiniteMap.insertAll p l = m ∪ p := by
  apply Finmap.ext_lookup
  intro k
  by_cases hk : k ∈ l.map Prod.fst
  · obtain ⟨a,ha,he⟩ := lookup_insertAll_of_mem (m := p) hk
    rw [he,lookup_union,h.mem.mp ha]
    rfl
  · have hn : m.lookup k = none := by
      cases hc : m.lookup k with
      | none => rfl
      | some a => exact absurd (List.mem_map.mpr ⟨(k,a),h.mem.mpr hc,rfl⟩) hk
    rw [lookup_insertAll_of_notMem hk,lookup_union,hn]
    rfl

/-- A map that was filled from a list with different keys holds what the list holds. -/
theorem lookup_insertAll_of_nodup (h : (l.map Prod.fst).Nodup) {k : κ} {a : α} :
    (FiniteMap.insertAll ∅ l).lookup k = some a ↔ (k,a) ∈ l := by
  have hmem : (k,a) ∈ l → (FiniteMap.insertAll ∅ l).lookup k = some a := by
    intro ha
    obtain ⟨b,hb,he⟩ := lookup_insertAll_of_mem (m := ∅) (List.mem_map_of_mem (f := Prod.fst) ha)
    obtain heq := List.inj_on_of_nodup_map h ha hb rfl
    rw [he,(Prod.mk.inj heq).2]
  refine ⟨fun hl => ?_,hmem⟩
  by_cases hk : k ∈ l.map Prod.fst
  · obtain ⟨b,hb,he⟩ := lookup_insertAll_of_mem (m := ∅) hk
    rw [hl] at he
    rwa [Option.some.inj he]
  · rw [lookup_insertAll_of_notMem hk,Finmap.lookup_empty] at hl
    cases hl

end Lists

/-! ## Renaming keys -/

section Rename

variable {κ' α' : Type} [DecidableEq κ'] {f : κ → κ'} (hf : Function.Injective f) (g : α → α')
include hf

theorem lookup_insertAll_map (l : List (κ × α)) {m : FiniteMap κ α} {m' : FiniteMap κ' α'}
    (h : ∀ k, m'.lookup (f k) = (m.lookup k).map g) (k : κ) :
    (FiniteMap.insertAll m' (l.map fun e => (f e.1,g e.2))).lookup (f k) =
      ((FiniteMap.insertAll m l).lookup k).map g := by
  induction l generalizing m m' with
  | nil => exact h k
  | cons e l ih =>
    rw [List.map_cons,insertAll_cons,insertAll_cons]
    refine ih fun j => ?_
    rw [lookup_insert,lookup_insert,h j]
    by_cases hj : j = e.1
    · rw [if_pos hj,if_pos (congrArg f hj)]
      rfl
    · rw [if_neg hj,if_neg (fun hc => hj (hf hc))]

/-- Lists that fill the same map fill the same map under other names for their keys. -/
theorem insertAll_map_congr {l l' : List (κ × α)}
    (h : FiniteMap.insertAll ∅ l = FiniteMap.insertAll ∅ l') :
    (FiniteMap.insertAll ∅ (l.map fun e => (f e.1,g e.2)) : FiniteMap κ' α') =
      FiniteMap.insertAll ∅ (l'.map fun e => (f e.1,g e.2)) := by
  apply Finmap.ext_lookup
  intro j
  have hempty : ∀ k, (∅ : FiniteMap κ' α').lookup (f k) = ((∅ : FiniteMap κ α).lookup k).map g :=
    fun k => by rw [Finmap.lookup_empty,Finmap.lookup_empty]; rfl
  by_cases hj : ∃ k, f k = j
  · obtain ⟨k,rfl⟩ := hj
    rw [lookup_insertAll_map hf g l hempty,lookup_insertAll_map hf g l' hempty,h]
  · have hout : ∀ l : List (κ × α), j ∉ (l.map fun e => (f e.1,g e.2)).map Prod.fst := by
      intro l hm
      obtain ⟨e,he,rfl⟩ := List.mem_map.mp hm
      obtain ⟨e',-,rfl⟩ := List.mem_map.mp he
      exact hj ⟨e'.1,rfl⟩
    rw [lookup_insertAll_of_notMem (hout l),lookup_insertAll_of_notMem (hout l')]

end Rename

/-! ## Counting maps -/

/-- The map holds the positive values of a count and nothing else. -/
def Counts (m : FiniteMap κ ℕ) (c : κ → ℕ) : Prop :=
  ∀ k, m.lookup k = if c k = 0 then none else some (c k)

section Counts

variable {m : FiniteMap κ ℕ} {c : κ → ℕ}

theorem Counts.mem_iff (h : Counts m c) {k : κ} : k ∈ m ↔ 0 < c k := by
  rw [← Finmap.lookup_isSome,h k]
  by_cases hk : c k = 0
  · simp [hk]
  · simp [hk,Nat.pos_of_ne_zero hk]

theorem Counts.congr {d : κ → ℕ} (h : Counts m c) (hd : ∀ k, c k = d k) : Counts m d := by
  intro k
  rw [← hd k]
  exact h k

theorem Counts.insert (h : Counts m c) {k : κ} {n : ℕ} (hn : 0 < n) :
    Counts (m.insert k n) (Function.update c k n) := by
  intro j
  by_cases hj : j = k
  · subst hj
    rw [Finmap.lookup_insert,Function.update_self,if_neg hn.ne']
  · rw [Finmap.lookup_insert_of_ne _ hj,Function.update_of_ne hj,h j]

theorem Counts.erase (h : Counts m c) (k : κ) : Counts (m.erase k) (Function.update c k 0) := by
  intro j
  by_cases hj : j = k
  · subst hj
    rw [Finmap.lookup_erase,Function.update_self,if_pos rfl]
  · rw [Finmap.lookup_erase_ne hj,Function.update_of_ne hj,h j]

theorem Counts.getD (h : Counts m c) (k : κ) : (m.lookup k).getD 0 = c k := by
  rw [h k]
  split
  · next hk => rw [hk,Option.getD_none]
  · rfl

theorem counts_zero : Counts m (fun _ => 0) ↔ m = ∅ := by
  constructor
  · intro h
    apply Finmap.ext_lookup
    intro k
    rw [h k,if_pos rfl,Finmap.lookup_empty]
  · rintro rfl k
    rw [if_pos rfl,Finmap.lookup_empty]

end Counts

/-! ## Totals -/

/-- The sum of a quantity over the values of a map. -/
def total (w : α → ℕ) (m : FiniteMap κ α) : ℕ := (m.entries.map fun e => w e.2).sum

/-- A total may be taken over any set of keys that covers the map; absent keys count nothing. -/
theorem total_eq_sum (w : α → ℕ) (m : FiniteMap κ α) {K : Finset κ} (hK : m.keys ⊆ K) :
    total w m = ∑ k ∈ K, (m.lookup k).elim 0 w := by
  have hsub : ∑ k ∈ m.keys, (m.lookup k).elim 0 w = ∑ k ∈ K, (m.lookup k).elim 0 w := by
    apply Finset.sum_subset hK
    intro k _ hk
    rw [Finmap.lookup_eq_none.mpr (fun h => hk (Finmap.mem_keys.mpr h))]
    rfl
  rw [← hsub]
  change _ = ((m.entries.map Sigma.fst).map fun k => (m.lookup k).elim 0 w).sum
  rw [Multiset.map_map]
  refine congrArg Multiset.sum (Multiset.map_congr rfl ?_)
  rintro ⟨k,a⟩ he
  rw [Function.comp_apply,show m.lookup k = some a from Finmap.mem_lookup_iff.mpr he]
  rfl

end FiniteMap

end Foundations
