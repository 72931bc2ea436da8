import Mathlib.Data.List.Basic

/-!
# Order in a trace

Every action of one kind comes after an action of another kind. A trace gets this property from its
parts: where a part is announced, whatever comes behind it is announced as well.
-/

namespace Foundations

variable {α : Type} {p q : α → Prop} {l l' : List α}

/-- Whatever satisfies `q` has something before it that satisfies `p`. -/
def Precedes (p q : α → Prop) (l : List α) : Prop :=
  ∀ front a back, l = front ++ a :: back → q a → ∃ b ∈ front, p b

namespace Precedes

theorem of_none (h : ∀ a ∈ l, ¬q a) : Precedes p q l := by
  rintro front a back rfl ha
  exact absurd ha (h a (List.mem_append_right _ List.mem_cons_self))

theorem announced (h : Precedes p q l) (hq : ∃ a ∈ l, q a) : ∃ b ∈ l, p b := by
  obtain ⟨a,ha,hqa⟩ := hq
  obtain ⟨front,back,rfl⟩ := List.append_of_mem ha
  obtain ⟨b,hb,hp⟩ := h front a back rfl hqa
  exact ⟨b,List.mem_append_left _ hb,hp⟩

/-- In a trace that is appended, either the trace before or its own part announces an action. -/
private theorem append_of (h : Precedes p q l)
    (h' : ∀ front a back, l' = front ++ a :: back → q a → ∃ b ∈ l ++ front, p b) :
    Precedes p q (l ++ l') := by
  intro front a back hsplit ha
  obtain ⟨mid,rfl,hmid⟩ | ⟨mid,rfl,hmid⟩ := List.append_eq_append_iff.mp hsplit
  · exact h' mid a back hmid ha
  · cases mid with
    | nil =>
      obtain ⟨b,hb,hp⟩ := h' [] a back hmid.symm ha
      rw [List.append_nil,List.append_nil] at hb
      exact ⟨b,hb,hp⟩
    | cons a' mid =>
      obtain ⟨rfl,-⟩ := List.cons.inj hmid
      exact h front a mid rfl ha

theorem append (h : Precedes p q l) (h' : Precedes p q l') : Precedes p q (l ++ l') :=
  h.append_of fun front a back heq ha =>
    let ⟨b,hb,hp⟩ := h' front a back heq ha
    ⟨b,List.mem_append_right _ hb,hp⟩

/-- What was announced once may follow at any time. -/
theorem append_of_announced (h : Precedes p q l) (hp : ∃ b ∈ l, p b) (l' : List α) :
    Precedes p q (l ++ l') :=
  h.append_of fun front _ _ _ _ =>
    let ⟨b,hb,hpb⟩ := hp
    ⟨b,List.mem_append_left front hb,hpb⟩

end Precedes

end Foundations
