import Mathlib.Data.List.Chain
import Mathlib.Data.List.FinRange
import Mathlib.Data.List.GetD
import Mathlib.Data.List.Induction
import Mathlib.Data.List.OfFn
import Mathlib.Data.List.Perm.Subperm
import Mathlib.Order.Bounds.Basic

/-!
# First fit

Elements come one after another, and each joins the first group that has no member which blocks it.
The number of its group is the least one that no earlier element of that number blocks
(`Placement`), which determines the groups.
-/

namespace Foundations.FirstFit

variable {α β : Type} (R : α → α → Prop) [DecidableRel R]

/-- Add an element to the first group without a member that blocks it, or to a new last one. -/
def insert (x : α) : List (List α) → List (List α)
  | [] => [[x]]
  | group :: rest =>
    if ∃ y ∈ group, R y x then group :: insert x rest else (group ++ [x]) :: rest

def groups (xs : List α) : List (List α) := xs.foldl (fun gs x => insert R x gs) []

theorem groups_concat (xs : List α) (x : α) : groups R (xs ++ [x]) = insert R x (groups R xs) := by
  rw [groups,List.foldl_append]
  rfl

theorem insert_nonempty {x : α} {gs : List (List α)} (h : ∀ group ∈ gs, group ≠ []) :
    ∀ group ∈ insert R x gs, group ≠ [] := by
  induction gs with
  | nil => simp [insert]
  | cons group rest ih =>
    obtain ⟨hg,hr⟩ := List.forall_mem_cons.mp h
    simp only [insert]
    split
    · exact List.forall_mem_cons.mpr ⟨hg,ih hr⟩
    · exact List.forall_mem_cons.mpr ⟨by simp,hr⟩

theorem groups_nonempty (xs : List α) : ∀ group ∈ groups R xs, group ≠ [] := by
  induction xs using List.reverseRecOn with
  | nil => simp [groups]
  | append_singleton xs x ih =>
    rw [groups_concat]
    exact insert_nonempty R ih

/-- The group an element joins is the first that does not block it; the others stay as they are. -/
theorem insert_spec (x : α) (gs : List (List α)) :
    ∃ m < (insert R x gs).length, gs.length ≤ (insert R x gs).length ∧
      (∀ k < m, ∃ y ∈ gs.getD k [], R y x) ∧ (∀ y ∈ gs.getD m [], ¬R y x) ∧
      ∀ k, (insert R x gs).getD k [] = gs.getD k [] ++ if k = m then [x] else [] := by
  induction gs with
  | nil => exact ⟨0,by simp [insert],by simp,by simp,by simp,fun k => by cases k <;> simp [insert]⟩
  | cons group rest ih =>
    by_cases hb : ∃ y ∈ group, R y x
    · obtain ⟨m,hm,hl,hlt,hfree,hget⟩ := ih
      rw [insert,if_pos hb]
      -- Behind a group that blocks the element all numbers are one higher.
      refine ⟨m+1,by simpa using hm,by simpa using hl,?_,by simpa using hfree,?_⟩
      · intro k hk
        cases k with
        | zero => simpa using hb
        | succ k => simpa using hlt k (by omega)
      · intro k
        cases k with
        | zero => simp
        | succ k => simpa using hget k
    · rw [insert,if_neg hb]
      refine ⟨0,by simp,by simp,by simp,?_,?_⟩
      · intro y hy hxy
        exact hb ⟨y,by simpa using hy,hxy⟩
      · intro k
        cases k <;> simp

/-- Elements may be renamed before they are grouped. -/
theorem insert_map (f : β → α) (x : β) (gs : List (List β)) :
    insert R (f x) (gs.map (List.map f)) =
      (insert (fun a b => R (f a) (f b)) x gs).map (List.map f) := by
  induction gs with
  | nil => rfl
  | cons group rest ih =>
    have hb : (∃ y ∈ group.map f, R y (f x)) ↔ ∃ y ∈ group, R (f y) (f x) := by simp
    rw [List.map_cons,insert,insert]
    by_cases h : ∃ y ∈ group, R (f y) (f x)
    · rw [if_pos (hb.mpr h),if_pos h,ih,List.map_cons]
    · rw [if_neg (fun hc => h (hb.mp hc)),if_neg h,List.map_cons,List.map_append]
      rfl

theorem groups_map (f : β → α) (xs : List β) :
    groups R (xs.map f) = (groups (fun a b => R (f a) (f b)) xs).map (List.map f) := by
  induction xs using List.reverseRecOn with
  | nil => rfl
  | append_singleton xs x ih =>
    rw [List.map_append,List.map_singleton,groups_concat,groups_concat,ih,insert_map]

/-! ## Numbers of groups -/

/-- Numbers for the positions of a list, each the least that no earlier element of that number
blocks. -/
def Placement (xs : List α) (g : Fin xs.length → ℕ) : Prop :=
  ∀ i, IsLeast {m | ∀ j < i, g j = m → ¬R (xs.get j) (xs.get i)} (g i)

/-- The elements with a given number, in the order of the list. -/
def members (xs : List α) (g : Fin xs.length → ℕ) (k : ℕ) : List α :=
  ((List.finRange xs.length).filter fun i => g i = k).map xs.get

section ascending

variable {ι : Type} [LinearOrder ι] {R : ι → ι → Prop} {l : List ι} {x i : ι} {g : ι → ℕ} {m : ℕ}

/-- An element behind `i` blocks no number for it. -/
theorem unblocked_concat (hlt : ∀ j ∈ l, j < x) (hi : i ∈ l) :
    {n | ∀ j ∈ l ++ [x], j < i → Function.update g x m j = n → ¬R j i} =
      {n | ∀ j ∈ l, j < i → g j = n → ¬R j i} := by
  have hold : ∀ j ∈ l, Function.update g x m j = g j := fun j hj =>
    Function.update_of_ne (hlt j hj).ne m g
  ext n
  constructor
  · intro h j hj hji hg
    exact h j (List.mem_append_left _ hj) hji (by rw [hold j hj,hg])
  · intro h j hj hji hg
    rcases List.mem_append.mp hj with hj | hj
    · exact h j hj hji (by rw [← hold j hj,hg])
    · rw [List.mem_singleton.mp hj] at hji
      exact absurd (hji.trans (hlt i hi)) (lt_irrefl x)

/-- The new element gets the least number that no group before blocks. -/
theorem isLeast_concat (hlt : ∀ j ∈ l, j < x)
    (hblocked : ∀ n < m, ∃ j ∈ l.filter fun i => g i = n, R j x)
    (hfree : ∀ j ∈ l.filter fun i => g i = m, ¬R j x) :
    IsLeast {n | ∀ j ∈ l ++ [x], j < x → Function.update g x m j = n → ¬R j x} m := by
  have hold : ∀ j ∈ l, Function.update g x m j = g j := fun j hj =>
    Function.update_of_ne (hlt j hj).ne m g
  constructor
  · intro j hj hjx hg
    rcases List.mem_append.mp hj with hj | hj
    · refine hfree j (List.mem_filter.mpr ⟨hj,?_⟩)
      simpa [hold j hj] using hg
    · exact absurd hjx (List.mem_singleton.mp hj ▸ lt_irrefl x)
  · intro n hn
    by_contra hc
    obtain ⟨j,hj,hR⟩ := hblocked n (not_le.mp hc)
    obtain ⟨hj,hg⟩ := List.mem_filter.mp hj
    refine hn j (List.mem_append_left _ hj) (hlt j hj) ?_ hR
    simpa [hold j hj] using hg

end ascending

/-- The numbers of ascending elements, which are their own positions. -/
theorem groups_ascending {ι : Type} [LinearOrder ι] (R : ι → ι → Prop) [DecidableRel R] {l : List ι}
    (hl : l.Pairwise (· < ·)) :
    ∃ g : ι → ℕ, (∀ i ∈ l, IsLeast {m | ∀ j ∈ l, j < i → g j = m → ¬R j i} (g i)) ∧
      (∀ i ∈ l, g i < (groups R l).length) ∧
      ∀ k, (groups R l).getD k [] = l.filter fun i => g i = k := by
  induction l using List.reverseRecOn with
  | nil => exact ⟨fun _ => 0,by simp,by simp,by simp [groups]⟩
  | append_singleton l x ih =>
    obtain ⟨hl,-,hx⟩ := List.pairwise_append.mp hl
    have hlt : ∀ i ∈ l, i < x := fun i hi => hx i hi x List.mem_cons_self
    obtain ⟨g,hleast,hbound,hget⟩ := ih hl
    obtain ⟨m,hm,hlen,hblocked,hfree,hins⟩ := insert_spec R x (groups R l)
    have hold : ∀ i ∈ l, Function.update g x m i = g i := fun i hi =>
      Function.update_of_ne (hlt i hi).ne m g
    refine ⟨Function.update g x m,fun i hi => ?_,fun i hi => ?_,fun k => ?_⟩
    · rcases List.mem_append.mp hi with hi | hi
      · rw [unblocked_concat hlt hi,hold i hi]
        exact hleast i hi
      · -- The group that `insert_spec` finds is that of the least number.
        obtain rfl := List.mem_singleton.mp hi
        rw [Function.update_self]
        refine isLeast_concat hlt (fun n hn => ?_) (hget m ▸ hfree)
        rw [← hget n]
        exact hblocked n hn
    · rw [groups_concat]
      rcases List.mem_append.mp hi with hi | hi
      · rw [hold i hi]
        exact (hbound i hi).trans_le hlen
      · rw [List.mem_singleton.mp hi,Function.update_self]
        exact hm
    · rw [groups_concat,hins,hget,List.filter_append]
      congr 1
      · exact List.filter_congr fun i hi => by rw [hold i hi]
      · by_cases hk : k = m
        · simp [hk]
        · simp [hk,Ne.symm hk]

/-- First fit gives every element the least number that does not block it. -/
theorem exists_placement (xs : List α) :
    ∃ g, Placement R xs g ∧ (∀ i, g i < (groups R xs).length) ∧
      groups R xs = (List.range (groups R xs).length).map (members xs g) := by
  obtain ⟨g,hleast,hbound,hget⟩ :=
    groups_ascending (fun i j => R (xs.get i) (xs.get j)) (List.pairwise_lt_finRange xs.length)
  have hxs : groups R xs = (groups (fun i j => R (xs.get i) (xs.get j))
      (List.finRange xs.length)).map (List.map xs.get) := by
    rw [← groups_map,List.map_get_finRange]
  refine ⟨g,fun i => ?_,fun i => ?_,?_⟩
  · simpa using hleast i (List.mem_finRange i)
  · rw [hxs,List.length_map]
    exact hbound i (List.mem_finRange i)
  · rw [hxs,List.length_map]
    apply List.ext_getElem
    · simp
    · intro k hk hk'
      rw [List.length_map] at hk
      rw [List.getElem_map,List.getElem_map,List.getElem_range,members,← hget k,
        List.getD_eq_getElem _ _ hk]

variable {R} {xs : List α} {g : Fin xs.length → ℕ}

omit [DecidableRel R] in
/-- There is one placement only. -/
theorem Placement.unique {h : Fin xs.length → ℕ} (hg : Placement R xs g) (hh : Placement R xs h) :
    g = h := by
  funext i
  induction i using WellFoundedLT.induction with
  | ind i ih =>
    have hset : {m | ∀ j < i, g j = m → ¬R (xs.get j) (xs.get i)} =
        {m | ∀ j < i, h j = m → ¬R (xs.get j) (xs.get i)} := by
      ext m
      exact forall₂_congr fun j hj => by rw [ih j hj]
    exact (hg i).unique (hset ▸ hh i)

theorem Placement.lt_length (hg : Placement R xs g) (i : Fin xs.length) :
    g i < (groups R xs).length := by
  obtain ⟨h,hh,hlt,-⟩ := exists_placement R xs
  exact hg.unique hh ▸ hlt i

theorem Placement.groups_eq (hg : Placement R xs g) :
    groups R xs = (List.range (groups R xs).length).map (members xs g) := by
  obtain ⟨h,hh,-,heq⟩ := exists_placement R xs
  exact hg.unique hh ▸ heq

theorem mem_members {x : α} {k : ℕ} : x ∈ members xs g k ↔ ∃ i, g i = k ∧ xs.get i = x := by
  simp [members]

theorem Placement.getElem?_groups (hg : Placement R xs g) (i : Fin xs.length) :
    (groups R xs)[g i]? = some (members xs g (g i)) := by
  rw [hg.groups_eq,List.getElem?_map,List.getElem?_range (hg.lt_length i),Option.map_some]

/-- The groups may be cut between those of two elements with different numbers. -/
theorem Placement.split (hg : Placement R xs g) {i j : Fin xs.length} (h : g i < g j) :
    ∃ earlier later, groups R xs = earlier ++ later ∧ xs.get i ∈ earlier.flatten ∧
      xs.get j ∈ later.flatten := by
  refine ⟨(groups R xs).take (g j),(groups R xs).drop (g j),(List.take_append_drop _ _).symm,
    List.mem_flatten.mpr ⟨members xs g (g i),?_,mem_members.mpr ⟨i,rfl,rfl⟩⟩,
    List.mem_flatten.mpr ⟨members xs g (g j),?_,mem_members.mpr ⟨j,rfl,rfl⟩⟩⟩
  · refine List.mem_of_getElem? (i := g i) ?_
    rw [List.getElem?_take_of_lt h,hg.getElem?_groups]
  · refine List.mem_of_getElem? (i := 0) ?_
    rw [List.getElem?_drop,Nat.add_zero,hg.getElem?_groups]

theorem pairwise_members {S : α → α → Prop} {k : ℕ} :
    (members xs g k).Pairwise S ↔ ∀ i j, i < j → g i = k → g j = k → S (xs.get i) (xs.get j) := by
  rw [members,List.pairwise_map,List.pairwise_filter,← List.ofFn_id,List.pairwise_ofFn]
  simp

/-- What holds of earlier and later members of every group is what holds of earlier and later
elements of one number. -/
theorem Placement.pairwise_groups (hg : Placement R xs g) {S : α → α → Prop} :
    (∀ group ∈ groups R xs, group.Pairwise S) ↔
      ∀ i j, i < j → g i = g j → S (xs.get i) (xs.get j) := by
  constructor
  · intro h i j hij hk
    have hmem : members xs g (g j) ∈ groups R xs := by
      rw [hg.groups_eq]
      exact List.mem_map_of_mem (List.mem_range.mpr (hg.lt_length j))
    exact pairwise_members.mp (h _ hmem) i j hij hk rfl
  · intro h group hgroup
    rw [hg.groups_eq] at hgroup
    obtain ⟨k,-,rfl⟩ := List.mem_map.mp hgroup
    exact pairwise_members.mpr fun i j hij hi hj => h i j hij (hi.trans hj.symm)

/-! ## How many groups there are -/

omit [DecidableRel R] in
/-- A number below that of an element is that of an earlier one which blocks it. -/
theorem Placement.exists_blocking (hg : Placement R xs g) {i : Fin xs.length} {m : ℕ}
    (hm : m < g i) :
    ∃ j < i, g j = m ∧ R (xs.get j) (xs.get i) := by
  by_contra hc
  push Not at hc
  exact absurd ((hg i).2 hc) (not_le.mpr hm)

omit [DecidableRel R] in
/-- In every number below that of an element one element stands, in ascending order, that blocks the
next. -/
theorem Placement.exists_ascent (hg : Placement R xs g) (k : ℕ) (i : Fin xs.length) (hi : g i = k) :
    ∃ before : List (Fin xs.length), before.length = k ∧ (before ++ [i]).Pairwise (· < ·) ∧
      (before ++ [i]).IsChain fun a b => R (xs.get a) (xs.get b) := by
  induction k generalizing i with
  | zero => exact ⟨[],rfl,List.pairwise_singleton _ _,.singleton _⟩
  | succ k ih =>
    obtain ⟨j,hji,hj,hR⟩ := hg.exists_blocking (k.lt_succ_self.trans_eq hi.symm)
    obtain ⟨before,hlen,hlt,hchain⟩ := ih j hj
    refine ⟨before ++ [j],by rw [List.length_append,hlen]; rfl,?_,?_⟩
    · -- what stands before `j` stands before `i`
      refine List.pairwise_append.mpr ⟨hlt,List.pairwise_singleton _ _,fun a ha b hb => ?_⟩
      obtain rfl := List.mem_singleton.mp hb
      rcases List.mem_append.mp ha with ha | ha
      · exact ((List.pairwise_append.mp hlt).2.2 a ha j List.mem_cons_self).trans hji
      · exact List.mem_singleton.mp ha ▸ hji
    · refine List.isChain_append.mpr ⟨hchain,.singleton _,fun a ha b hb => ?_⟩
      rw [List.getLast?_concat] at ha
      cases ha
      cases hb
      exact hR

/-- An element of a group stands at the end of a chain with one element of every group up to its
own. -/
theorem exists_chain {x : α} {k : ℕ} (hx : x ∈ (groups R xs).getD k []) :
    ∃ before, (before ++ [x]).Sublist xs ∧ before.length = k ∧ (before ++ [x]).IsChain R := by
  obtain ⟨g,hg,-,hgroups⟩ := exists_placement R xs
  have hk : k < (groups R xs).length := by
    by_contra hc
    rw [List.getD_eq_default _ _ (not_lt.mp hc)] at hx
    exact List.not_mem_nil hx
  have hget : (groups R xs).getD k [] = members xs g k := by
    rw [hgroups,List.getD_eq_getElem _ _ (by simpa using hk),List.getElem_map,List.getElem_range]
  obtain ⟨i,hi,rfl⟩ := mem_members.mp (hget ▸ hx)
  obtain ⟨before,hlen,hlt,hchain⟩ := hg.exists_ascent k i hi
  have hmap : before.map xs.get ++ [xs.get i] = (before ++ [i]).map xs.get := by
    rw [List.map_append,List.map_singleton]
  refine ⟨before.map xs.get,hmap ▸ List.map_getElem_sublist hlt,by rw [List.length_map,hlen],?_⟩
  rw [hmap]
  exact (List.isChain_map _).mpr hchain

/-- Elements that all block the later ones stand in different groups. -/
theorem length_le_groups {ys : List α} (hys : ys.Sublist xs) (hR : ys.Pairwise R) :
    ys.length ≤ (groups R xs).length := by
  obtain ⟨g,hg,hlt,-⟩ := exists_placement R xs
  obtain ⟨is,rfl,his⟩ := List.sublist_eq_map_getElem hys
  have hblocks : is.Pairwise fun i j => i < j ∧ R (xs.get i) (xs.get j) :=
    his.and (List.pairwise_map.mp hR)
  have hnodup : (is.map g).Nodup := List.pairwise_map.mpr <| hblocks.imp fun ⟨hij,hb⟩ he =>
    (hg _).1 _ hij he hb
  have hrange : is.map g ⊆ List.range (groups R xs).length := by
    intro m hm
    obtain ⟨i,-,rfl⟩ := List.mem_map.mp hm
    exact List.mem_range.mpr (hlt i)
  calc (is.map fun i => xs[i]).length = (is.map g).length := by simp only [List.length_map]
    _ ≤ (List.range (groups R xs).length).length := (hnodup.subperm hrange).length_le
    _ = (groups R xs).length := List.length_range

end Foundations.FirstFit
