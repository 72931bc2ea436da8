import Mathlib.Data.List.Nodup
import Mathlib.Logic.Function.Iterate

/-!
# Hash trees over lists

The nodes of a level are paired up until one is left; an odd last one is paired with itself. The
root commits to a list of different leaves when nodes determine their children and are no leaves
themselves. A list that repeats its end may have the root of the list that does not.
-/

namespace Foundations.MerkleTree

variable {δ : Type} (node : δ → δ → δ)

/-- Pair up the nodes of a level. -/
def nextLevel : List δ → List δ
  | [] => []
  | [a] => [node a a]
  | a :: b :: rest => node a b :: nextLevel rest

/-- The levels up to the first with at most one node, at most `fuel` of them. -/
def reduceLevels : ℕ → List δ → List δ
  | fuel+1, a :: b :: rest => reduceLevels fuel (nextLevel node (a :: b :: rest))
  | _, level => level

def root (leaves : List δ) : Option δ := (reduceLevels node leaves.length leaves).head?

theorem nextLevel_length (level : List δ) : 2*(nextLevel node level).length ≤ level.length+1 := by
  induction level using nextLevel.induct with
  | case1 => simp [nextLevel]
  | case2 a => simp [nextLevel]
  | case3 a b rest ih =>
    simp only [nextLevel,List.length_cons]
    omega

/-- As many levels as there are leaves leave at most one node. -/
theorem iterate_nextLevel_length {n : ℕ} {level : List δ} (h : level.length ≤ n+1) :
    ((nextLevel node)^[n] level).length ≤ 1 := by
  induction n generalizing level with
  | zero => simpa using h
  | succ n ih =>
    rw [Function.iterate_succ_apply]
    apply ih
    have := nextLevel_length node level
    omega

theorem reduceLevels_eq_iterate (fuel : ℕ) (level : List δ) :
    ∃ n, reduceLevels node fuel level = (nextLevel node)^[n] level := by
  induction fuel generalizing level with
  | zero => exact ⟨0,by simp [reduceLevels]⟩
  | succ fuel ih =>
    rcases level with _ | ⟨a,_ | ⟨b,rest⟩⟩
    · exact ⟨0,rfl⟩
    · exact ⟨0,rfl⟩
    · obtain ⟨n,hn⟩ := ih (nextLevel node (a :: b :: rest))
      exact ⟨n+1,hn⟩

theorem reduceLevels_length {fuel : ℕ} {level : List δ} (h : level.length ≤ fuel+1) :
    (reduceLevels node fuel level).length ≤ 1 := by
  induction fuel generalizing level with
  | zero => simpa [reduceLevels] using h
  | succ fuel ih =>
    rcases level with _ | ⟨a,_ | ⟨b,rest⟩⟩
    · simp [reduceLevels]
    · simp [reduceLevels]
    · apply ih
      have := nextLevel_length node (a :: b :: rest)
      simp only [List.length_cons] at h this
      omega

theorem iterate_nextLevel_ne_nil (n : ℕ) {level : List δ} (h : level ≠ []) :
    (nextLevel node)^[n] level ≠ [] := by
  induction n generalizing level with
  | zero => exact h
  | succ n ih =>
    rw [Function.iterate_succ_apply]
    apply ih
    rcases level with _ | ⟨a,_ | ⟨b,rest⟩⟩
    · exact absurd rfl h
    · simp [nextLevel]
    · simp [nextLevel]

/-- Leaves have a root, which is all that is left at some level. -/
theorem exists_root {leaves : List δ} (h : leaves ≠ []) :
    ∃ n r, root node leaves = some r ∧ (nextLevel node)^[n] leaves = [r] := by
  obtain ⟨n,hn⟩ := reduceLevels_eq_iterate node leaves.length leaves
  have hlen : (reduceLevels node leaves.length leaves).length ≤ 1 :=
    reduceLevels_length node (Nat.le_succ _)
  have hne : reduceLevels node leaves.length leaves ≠ [] := hn ▸ iterate_nextLevel_ne_nil node n h
  obtain ⟨r,hr⟩ := List.length_eq_one_iff.mp (Nat.le_antisymm hlen (List.length_pos_iff.mpr hne))
  exact ⟨n,r,by rw [root,hr]; rfl,hn ▸ hr⟩

theorem mem_nextLevel {x : δ} {level : List δ} (h : x ∈ nextLevel node level) :
    ∃ a ∈ level, ∃ b ∈ level, x = node a b := by
  induction level using nextLevel.induct with
  | case1 => simp [nextLevel] at h
  | case2 a => exact ⟨a,by simp,a,by simp,by simpa [nextLevel] using h⟩
  | case3 a b rest ih =>
    rcases List.mem_cons.mp h with rfl | h
    · exact ⟨a,by simp,b,by simp,rfl⟩
    · obtain ⟨c,hc,d,hd,rfl⟩ := ih h
      exact ⟨c,by simp [hc],d,by simp [hd],rfl⟩

theorem nextLevel_eq_nil {level : List δ} (h : nextLevel node level = []) : level = [] := by
  rcases level with _ | ⟨a,_ | ⟨b,rest⟩⟩
  · rfl
  · cases h
  · cases h

/-! ## Marks -/

section Marks

variable {node} {P : δ → Prop} (hnode : ∀ a b, P (node a b) ↔ P a ∨ P b)
include hnode

theorem exists_mem_nextLevel (level : List δ) :
    (∃ a ∈ nextLevel node level, P a) ↔ ∃ a ∈ level, P a := by
  induction level using nextLevel.induct with
  | case1 => simp [nextLevel]
  | case2 a => simp [nextLevel,hnode]
  | case3 a b rest ih => simp [nextLevel,hnode,ih,or_assoc]

/-- Where a node is marked for a child that is, the root is marked for a leaf that is. -/
theorem root_marked {leaves : List δ} {r : δ} (h : root node leaves = some r) :
    P r ↔ ∃ a ∈ leaves, P a := by
  have hlevels : ∀ n, (∃ a ∈ (nextLevel node)^[n] leaves, P a) ↔ ∃ a ∈ leaves, P a := by
    intro n
    induction n with
    | zero => exact Iff.rfl
    | succ n ih => rw [Function.iterate_succ_apply',exists_mem_nextLevel hnode,ih]
  have hne : leaves ≠ [] := by
    rintro rfl
    cases h
  obtain ⟨n,r',hr,hn⟩ := exists_root node hne
  obtain rfl : r = r' := Option.some.inj (h.symm.trans hr)
  rw [← hlevels n,hn]
  simp

end Marks

/-! ## Roots and leaves -/

section Injective

variable {node} (hnode : ∀ a b c d, node a b = node c d → a = c ∧ b = d)
include hnode

theorem nextLevel_nodup {level : List δ} (h : level.Nodup) : (nextLevel node level).Nodup := by
  induction level using nextLevel.induct with
  | case1 => exact List.nodup_nil
  | case2 a => exact List.nodup_singleton _
  | case3 a b rest ih =>
    obtain ⟨ha,hb⟩ := List.nodup_cons.mp h
    refine List.nodup_cons.mpr ⟨fun hm => ?_,ih (List.nodup_cons.mp hb).2⟩
    obtain ⟨c,hc,d,-,he⟩ := mem_nextLevel node hm
    obtain ⟨rfl,-⟩ := hnode _ _ _ _ he
    -- A node that occurs twice has a left child that occurs twice.
    exact ha (List.mem_cons_of_mem b hc)

/-- A pair of different nodes is not a node paired with itself. -/
theorem nextLevel_singleton {a c d : δ} {rest : List δ} (hn : (c :: d :: rest).Nodup)
    (h : nextLevel node [a] = nextLevel node (c :: d :: rest)) : False := by
  have hcd : c ≠ d := fun hc => (List.nodup_cons.mp hn).1 (hc ▸ List.mem_cons_self)
  obtain ⟨he,-⟩ := List.cons.inj h
  obtain ⟨rfl,rfl⟩ := hnode _ _ _ _ he
  exact hcd rfl

theorem nextLevel_injective {l m : List δ} (hl : l.Nodup) (hm : m.Nodup)
    (h : nextLevel node l = nextLevel node m) : l = m := by
  induction l using nextLevel.induct generalizing m with
  | case1 => exact (nextLevel_eq_nil node h.symm).symm
  | case2 a =>
    rcases m with _ | ⟨c,_ | ⟨d,rest⟩⟩
    · cases h
    · obtain ⟨he,-⟩ := List.cons.inj h
      rw [(hnode _ _ _ _ he).1]
    · exact (nextLevel_singleton hnode hm h).elim
  | case3 a b rest ih =>
    rcases m with _ | ⟨c,_ | ⟨d,rest'⟩⟩
    · cases h
    · exact (nextLevel_singleton hnode hl h.symm).elim
    · obtain ⟨he,hrest⟩ := List.cons.inj h
      obtain ⟨rfl,rfl⟩ := hnode _ _ _ _ he
      rw [ih (List.nodup_cons.mp (List.nodup_cons.mp hl).2).2
        (List.nodup_cons.mp (List.nodup_cons.mp hm).2).2 hrest]

theorem iterate_nextLevel_injective {n : ℕ} {l m : List δ} (hl : l.Nodup) (hm : m.Nodup)
    (h : (nextLevel node)^[n] l = (nextLevel node)^[n] m) : l = m := by
  induction n generalizing l m with
  | zero => exact h
  | succ n ih =>
    exact nextLevel_injective hnode hl hm
      (ih (nextLevel_nodup hnode hl) (nextLevel_nodup hnode hm) h)

end Injective

/-- The node stands `n` levels above the leaves. -/
inductive Height (node : δ → δ → δ) (leaf : δ → Prop) : ℕ → δ → Prop where
  | leaf {a : δ} : leaf a → Height node leaf 0 a
  | node {n : ℕ} {a b : δ} : Height node leaf n a → Height node leaf n b →
      Height node leaf (n+1) (node a b)

variable {node} {leaf : δ → Prop}

theorem height_iterate (n : ℕ) {k : ℕ} {level : List δ} (h : ∀ a ∈ level, Height node leaf k a) :
    ∀ a ∈ (nextLevel node)^[n] level, Height node leaf (k+n) a := by
  induction n generalizing k level with
  | zero => exact h
  | succ n ih =>
    intro a ha
    rw [Function.iterate_succ_apply] at ha
    have hnext : ∀ b ∈ nextLevel node level, Height node leaf (k+1) b := by
      intro b hb
      obtain ⟨c,hc,d,hd,rfl⟩ := mem_nextLevel node hb
      exact .node (h c hc) (h d hd)
    have := ih hnext a ha
    rwa [Nat.add_right_comm] at this

theorem Height.unique (hnode : ∀ a b c d, node a b = node c d → a = c ∧ b = d)
    (hleaf : ∀ a b, ¬leaf (node a b)) {n m : ℕ} {a : δ} (h : Height node leaf n a)
    (h' : Height node leaf m a) : n = m := by
  induction h generalizing m with
  | leaf ha =>
    cases h' with
    | leaf _ => rfl
    | node _ _ => exact (hleaf _ _ ha).elim
  | @node n a b _ _ iha _ =>
    -- The left child alone fixes the height.
    generalize hx : node a b = x at h'
    cases h' with
    | leaf hb => exact (hleaf a b (hx ▸ hb)).elim
    | node hc _ =>
      obtain ⟨rfl,-⟩ := hnode _ _ _ _ hx
      rw [iha hc]

/-- Lists of different leaves with one root are equal, whatever their lengths. -/
theorem root_injective (hnode : ∀ a b c d, node a b = node c d → a = c ∧ b = d)
    (hleaf : ∀ a b, ¬leaf (node a b)) {l m : List δ} (hl : l.Nodup) (hm : m.Nodup)
    (hll : ∀ a ∈ l, leaf a) (hml : ∀ a ∈ m, leaf a) (hle : l ≠ []) (hme : m ≠ [])
    (h : root node l = root node m) : l = m := by
  obtain ⟨n,r,hr,hn⟩ := exists_root node hle
  obtain ⟨k,s,hs,hk⟩ := exists_root node hme
  obtain rfl : r = s := Option.some.inj (hr ▸ hs ▸ h)
  -- Both roots stand on the same level.
  have hnr := height_iterate n (fun a ha => Height.leaf (hll a ha)) r (hn ▸ List.mem_cons_self)
  have hkr := height_iterate k (fun a ha => Height.leaf (hml a ha)) r (hk ▸ List.mem_cons_self)
  obtain rfl : n = k := by simpa using hnr.unique hnode hleaf hkr
  exact iterate_nextLevel_injective hnode hl hm (hn.trans hk.symm)

end Foundations.MerkleTree
