import TinySolana.Foundations.FiniteMap

/-!
# Tables that keep the first value

A table that computes a value when its key is first asked for, and answers with that value from then
on. What it answers over a whole run depends on the values that a fresh computation would have given
along the way: the answers are fresh exactly when no key has ever had two values.
-/

namespace Foundations

variable {α β γ : Type} [DecidableEq α]

namespace FiniteMap

/-- The answer for a key whose value would now be computed as `b`. -/
def answer (m : FiniteMap α β) (a : α) (b : β) : β := (m.lookup a).getD b

/-- The table once the key has been asked for. -/
def keep (m : FiniteMap α β) (a : α) (b : β) : FiniteMap α β :=
  if m.lookup a = none then m.insert a b else m

/-- Whatever the first table has for a key, the second one has too. -/
def Within (m n : FiniteMap α β) : Prop := ∀ a b, m.lookup a = some b → n.lookup a = some b

variable {m n : FiniteMap α β}

theorem lookup_keep (m : FiniteMap α β) (a c : α) (b : β) :
    (m.keep a b).lookup c = if c = a then some (m.answer a b) else m.lookup c := by
  unfold keep answer
  cases hm : m.lookup a with
  | none =>
    by_cases hc : c = a
    · subst hc
      simp
    · simp [hc]
  | some v =>
    by_cases hc : c = a
    · subst hc
      simp [hm]
    · simp [hc]

theorem answer_of_lookup {a : α} {b v : β} (h : m.lookup a = some v) : m.answer a b = v := by
  rw [answer,h,Option.getD_some]

theorem answer_of_none {a : α} {b : β} (h : m.lookup a = none) : m.answer a b = b := by
  rw [answer,h,Option.getD_none]

/-- A table never changes what it has. -/
theorem lookup_keep_of_some {a c : α} {b v : β} (h : m.lookup c = some v) :
    (m.keep a b).lookup c = some v := by
  rw [lookup_keep]
  split
  · next hc =>
    subst hc
    rw [answer_of_lookup h]
  · exact h

theorem within_empty (n : FiniteMap α β) : Within ∅ n := by
  intro a b h
  rw [Finmap.lookup_empty] at h
  cases h

/-- Where the larger table answers afresh, the smaller one does. -/
theorem Within.answer (h : Within m n) {a : α} {b : β} (hn : n.answer a b = b) :
    m.answer a b = b := by
  cases hm : m.lookup a with
  | none => exact answer_of_none hm
  | some v =>
    rw [answer_of_lookup (h a v hm)] at hn
    rw [answer_of_lookup hm,hn]

theorem Within.keep (h : Within m n) {a : α} {b : β} (hn : n.answer a b = b) :
    Within (m.keep a b) (n.keep a b) := by
  intro c v hv
  rw [lookup_keep] at hv ⊢
  split at hv
  · next hc =>
    rw [if_pos hc,hn]
    rwa [h.answer hn] at hv
  · next hc =>
    rw [if_neg hc]
    exact h c v hv

end FiniteMap

/-! ## Runs of requests -/

section Requests

variable (key : γ → α) (answer fresh : γ → β)

/-- The requests of a list are answered by a table that starts as `m`. -/
def Answered : FiniteMap α β → List γ → Prop
  | _, [] => True
  | m, r :: rest => answer r = m.answer (key r) (fresh r) ∧ Answered (m.keep (key r) (fresh r)) rest

/-- The table after the requests of a list. -/
def keepAll (m : FiniteMap α β) (l : List γ) : FiniteMap α β :=
  l.foldl (fun m r => m.keep (key r) (fresh r)) m

variable {key answer fresh} {m : FiniteMap α β} {l l' : List γ}

theorem keepAll_append : keepAll key fresh m (l ++ l') =
    keepAll key fresh (keepAll key fresh m l) l' :=
  List.foldl_append ..

theorem answered_append : Answered key answer fresh m (l ++ l') ↔
    Answered key answer fresh m l ∧ Answered key answer fresh (keepAll key fresh m l) l' := by
  induction l generalizing m with
  | nil => exact (and_iff_right trivial).symm
  | cons r rest ih => exact (and_congr_right fun _ => ih).trans and_assoc.symm

/-- Requests that the larger table answers afresh are answered the same by the smaller one. -/
theorem Answered.of_within {n : FiniteMap α β} (ha : Answered key answer fresh n l)
    (hf : ∀ r ∈ l, answer r = fresh r) (h : m.Within n) : Answered key answer fresh m l := by
  induction l generalizing m n with
  | nil => exact trivial
  | cons r rest ih =>
    obtain ⟨hr,hrest⟩ := ha
    obtain ⟨hfr,hfrest⟩ := List.forall_mem_cons.mp hf
    have hn : n.answer (key r) (fresh r) = fresh r := hr.symm.trans hfr
    exact ⟨hfr.trans (h.answer hn).symm,ih hrest hfrest (h.keep hn)⟩

/-- What a table has it still has later. -/
theorem lookup_keepAll {a : α} {b : β} (h : m.lookup a = some b) :
    (keepAll key fresh m l).lookup a = some b := by
  induction l generalizing m with
  | nil => exact h
  | cons r rest ih => exact ih (FiniteMap.lookup_keep_of_some h)

/-- In the end the table has all the answers. -/
theorem Answered.lookup_keepAll (h : Answered key answer fresh m l) :
    ∀ r ∈ l, (keepAll key fresh m l).lookup (key r) = some (answer r) := by
  induction l generalizing m with
  | nil => exact List.forall_mem_nil _
  | cons r rest ih =>
    obtain ⟨hr,hrest⟩ := h
    refine List.forall_mem_cons.mpr ⟨?_,ih hrest⟩
    change (keepAll key fresh (m.keep (key r) (fresh r)) rest).lookup (key r) = some (answer r)
    refine Foundations.lookup_keepAll ?_
    rw [FiniteMap.lookup_keep,if_pos rfl,hr]

/-- A table that has all the answers gives them. -/
theorem answered_of_lookup (h : ∀ r ∈ l, m.lookup (key r) = some (answer r)) :
    Answered key answer fresh m l := by
  induction l generalizing m with
  | nil => exact trivial
  | cons r rest ih =>
    obtain ⟨hr,hrest⟩ := List.forall_mem_cons.mp h
    exact ⟨(FiniteMap.answer_of_lookup hr).symm,
      ih fun r' hr' => FiniteMap.lookup_keep_of_some (hrest r' hr')⟩

/-- Asked again, the table gives the same answers. -/
theorem Answered.again (h : Answered key answer fresh m l) :
    Answered key answer fresh (keepAll key fresh m l) l := answered_of_lookup h.lookup_keepAll

/-- All answers are fresh exactly when the fresh values agree with the table and with each other. -/
theorem Answered.fresh_iff_of (h : Answered key answer fresh m l) : (∀ r ∈ l, answer r = fresh r) ↔
    (∀ r ∈ l, m.answer (key r) (fresh r) = fresh r) ∧
      l.Pairwise fun r r' => key r = key r' → fresh r = fresh r' := by
  induction l generalizing m with
  | nil => simp
  | cons r rest ih =>
    obtain ⟨hr,hrest⟩ := h
    rw [List.forall_mem_cons,List.forall_mem_cons,List.pairwise_cons,ih hrest,hr]
    -- After a fresh answer the table has the fresh value of the first request for its key.
    have htable : m.answer (key r) (fresh r) = fresh r → ∀ r' : γ,
        ((m.keep (key r) (fresh r)).answer (key r') (fresh r') = fresh r' ↔
          m.answer (key r') (fresh r') = fresh r' ∧ (key r = key r' → fresh r = fresh r')) := by
      intro hm r'
      by_cases hk : key r' = key r
      · have hl : (m.keep (key r) (fresh r)).lookup (key r') = some (fresh r) := by
          rw [FiniteMap.lookup_keep,if_pos hk,hm]
        rw [FiniteMap.answer_of_lookup hl]
        constructor
        · intro he
          rw [hk,← he]
          exact ⟨hm,fun _ => rfl⟩
        · exact fun he => he.2 hk.symm
      · have hl : (m.keep (key r) (fresh r)).lookup (key r') = m.lookup (key r') := by
          rw [FiniteMap.lookup_keep,if_neg hk]
        rw [FiniteMap.answer,hl]
        exact (and_iff_left fun he => absurd he.symm hk).symm
    constructor
    · rintro ⟨hm,hall,hpair⟩
      have hall' := fun r' hr' => (htable hm r').mp (hall r' hr')
      exact ⟨⟨hm,fun r' hr' => (hall' r' hr').1⟩,fun r' hr' => (hall' r' hr').2,hpair⟩
    · rintro ⟨⟨hm,hall⟩,hsame,hpair⟩
      exact ⟨hm,fun r' hr' => (htable hm r').mpr ⟨hall r' hr',hsame r' hr'⟩,hpair⟩

/-- From an empty table on, all answers are fresh exactly when no key ever has two fresh values. -/
theorem Answered.fresh_iff (h : Answered key answer fresh ∅ l) : (∀ r ∈ l, answer r = fresh r) ↔
    l.Pairwise fun r r' => key r = key r' → fresh r = fresh r' := by
  refine h.fresh_iff_of.trans (and_iff_right fun r _ => ?_)
  exact FiniteMap.answer_of_none (Finmap.lookup_empty _)

end Requests

end Foundations
