import Mathlib.Data.Multiset.ZeroCons
import TinySolana.Foundations.FiniteMap
import TinySolana.Foundations.Runs

/-!
# Tables that several requests fill at once

A request tests whether its key is in the table, inserts a value of its own if it is not, and then
reads the table. Nothing holds the three together, so requests for one key may all find it missing,
and the last of them to insert decides. A key that is in the table is never computed again: its
value can only change to one that was computed before.
-/

namespace Foundations

variable {α β : Type} [DecidableEq α]

/-- A table and the requests that are under way. -/
structure SharedTable (α β : Type) where
  table : FiniteMap α β
  /-- What was computed for missing keys and is not inserted yet. -/
  computed : Multiset (α × β)
  /-- The keys that are about to be read. -/
  reading : Multiset α

namespace SharedTable

inductive Event (α β : Type) where
  | hit (key : α)
  | miss (key : α) (value : β)
  | insert (key : α) (value : β)
  | read (key : α) (value : Option β)

def empty (α β : Type) : SharedTable α β := ⟨∅,0,0⟩

/-- One operation of one request. -/
inductive Step : SharedTable α β → Event α β → SharedTable α β → Prop where
  | hit {s : SharedTable α β} {a : α} : s.table.lookup a ≠ none →
      Step s (.hit a) { s with reading := a ::ₘ s.reading }
  | miss {s : SharedTable α β} {a : α} {b : β} : s.table.lookup a = none →
      Step s (.miss a b) { s with computed := (a,b) ::ₘ s.computed }
  | insert {s : SharedTable α β} {a : α} {b : β} {rest : Multiset (α × β)} :
      s.computed = (a,b) ::ₘ rest →
      Step s (.insert a b) ⟨s.table.insert a b,rest,a ::ₘ s.reading⟩
  | read {s : SharedTable α β} {a : α} {rest : Multiset α} : s.reading = a ::ₘ rest →
      Step s (.read a (s.table.lookup a)) { s with reading := rest }

variable {s t u : SharedTable α β} {l : Event α β} {ls : List (Event α β)} {a : α} {b : β}

/-! ## What is in the table -/

/-- Every value was computed by a request that has missed its key, and a key that is about to be
read is there. -/
structure Traced (ls : List (Event α β)) (s : SharedTable α β) : Prop where
  table : ∀ a b, s.table.lookup a = some b → .miss a b ∈ ls
  computed : ∀ a b, (a,b) ∈ s.computed → .miss a b ∈ ls
  reading : ∀ a ∈ s.reading, s.table.lookup a ≠ none

theorem traced_empty : Traced [] (empty α β) where
  table a b h := by
    rw [empty,Finmap.lookup_empty] at h
    cases h
  computed _ _ h := absurd h (Multiset.notMem_zero _)
  reading _ h := absurd h (Multiset.notMem_zero _)

theorem traced_step (h : Traced ls s) (hl : Step s l t) : Traced (ls ++ [l]) t := by
  have hleft : ∀ e ∈ ls, e ∈ ls ++ [l] := fun _ => List.mem_append_left _
  cases hl with
  | @hit a ha =>
    refine ⟨fun c d hd => hleft _ (h.table c d hd),fun c d hd => hleft _ (h.computed c d hd),
      fun c hc => ?_⟩
    rcases Multiset.mem_cons.mp hc with rfl | hc
    · exact ha
    · exact h.reading c hc
  | @miss a b ha =>
    refine ⟨fun c d hd => hleft _ (h.table c d hd),fun c d hd => ?_,h.reading⟩
    rcases Multiset.mem_cons.mp hd with hd | hd
    · cases hd
      exact List.mem_append_right _ (List.mem_singleton_self _)
    · exact hleft _ (h.computed c d hd)
  | @insert a b rest hs =>
    have hmiss : .miss a b ∈ ls := h.computed a b (hs ▸ Multiset.mem_cons_self _ _)
    refine ⟨fun c d hd => ?_,fun c d hd =>
      hleft _ (h.computed c d (hs ▸ Multiset.mem_cons_of_mem hd)),fun c hc => ?_⟩
    · dsimp only at hd
      rw [FiniteMap.lookup_insert] at hd
      split at hd
      · next hc =>
        cases hd
        exact hleft _ (hc ▸ hmiss)
      · exact hleft _ (h.table c d hd)
    · dsimp only
      rw [FiniteMap.lookup_insert]
      split
      · simp
      · next hne => exact h.reading c ((Multiset.mem_cons.mp hc).resolve_left hne)
  | read hs =>
    exact ⟨fun c d hd => hleft _ (h.table c d hd),fun c d hd => hleft _ (h.computed c d hd),
      fun c hc => h.reading c (hs ▸ Multiset.mem_cons_of_mem hc)⟩

theorem traced_run (hr : Run Step (empty α β) ls s) : Traced ls s := by
  induction hr with
  | nil => exact traced_empty
  | snoc before last ih => exact traced_step ih last

/-- A request always reads a value, and one that was computed for its key. -/
theorem read_traced (hr : Run Step (empty α β) ls s) {r : Option β} (hread : .read a r ∈ ls) :
    ∃ b, r = some b ∧ .miss a b ∈ ls := by
  induction hr with
  | nil => exact absurd hread List.not_mem_nil
  | snoc before last ih =>
    rcases List.mem_append.mp hread with hread | hread
    · obtain ⟨b,hb,hmiss⟩ := ih hread
      exact ⟨b,hb,List.mem_append_left _ hmiss⟩
    · obtain rfl := List.mem_singleton.mp hread
      have hs := traced_run before
      cases last with
      | read hs' =>
        obtain ⟨b,hb⟩ :=
          Option.ne_none_iff_exists'.mp (hs.reading a (hs' ▸ Multiset.mem_cons_self _ _))
        exact ⟨b,hb,List.mem_append_left _ (hs.table a b hb)⟩

/-! ## What becomes of a key -/

/-- The key has its value of the first state, or one that was on its way to the table then. -/
structure Since (s : SharedTable α β) (a : α) (b : β) (t : SharedTable α β) : Prop where
  value : ∃ b', t.table.lookup a = some b' ∧ (b' = b ∨ (a,b') ∈ s.computed)
  computed : ∀ b', (a,b') ∈ t.computed → (a,b') ∈ s.computed

theorem since_step (h : Since s a b t) (hl : Step t l u) : Since s a b u := by
  obtain ⟨b',hb',hold⟩ := h.value
  cases hl with
  | hit ha => exact ⟨h.value,h.computed⟩
  | @miss c d hc =>
    -- The key is not the one that is missing.
    have hne : a ≠ c := by
      rintro rfl
      rw [hb'] at hc
      cases hc
    refine ⟨h.value,fun v hv =>
      h.computed v ((Multiset.mem_cons.mp hv).resolve_left fun heq => hne ?_)⟩
    exact congrArg Prod.fst heq
  | @insert c d rest hs =>
    refine ⟨?_,fun v hv => h.computed v (hs ▸ Multiset.mem_cons_of_mem hv)⟩
    dsimp only
    rw [FiniteMap.lookup_insert]
    split
    · next hc =>
      subst hc
      exact ⟨d,rfl,.inr (h.computed d (hs ▸ Multiset.mem_cons_self _ _))⟩
    · exact ⟨b',hb',hold⟩
  | read hs => exact ⟨h.value,h.computed⟩

theorem since_run (hr : Run Step s ls t) (h : s.table.lookup a = some b) : Since s a b t :=
  hr.invariant (fun _ _ _ h hl => since_step h hl) ⟨⟨b,h,.inl rfl⟩,fun _ hb => hb⟩

/-- What is read of a key that is in the table is what it has, or was on its way to the table
already. -/
theorem read_since (hr : Run Step s ls t) (h : s.table.lookup a = some b) {r : Option β}
    (hread : .read a r ∈ ls) : ∃ b', r = some b' ∧ (b' = b ∨ (a,b') ∈ s.computed) := by
  induction hr with
  | nil => exact absurd hread List.not_mem_nil
  | snoc before last ih =>
    rcases List.mem_append.mp hread with hread | hread
    · exact ih hread
    · obtain rfl := List.mem_singleton.mp hread
      cases last with
      | read hs => exact (since_run before h).value

end SharedTable

end Foundations
