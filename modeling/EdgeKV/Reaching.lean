import Mathlib.Logic.Relation

/-!
What a transition system can be brought to from a state that has the invariant of its steps. A goal
is within reach if every state that is not there yet can be brought closer, and several goals if
each can be reached without giving up the others.
-/
namespace EdgeKV

variable {α β : Type} {inv : α → Prop} {step : α → α → Prop} {s : α} {P Q : α → Prop}

/-- If `s` has the invariant, some run from it ends in a state with the property. -/
def CanReach (inv : α → Prop) (step : α → α → Prop) (s : α) (P : α → Prop) : Prop :=
  inv s → ∃ s', Relation.ReflTransGen step s s' ∧ inv s' ∧ P s'

namespace CanReach

theorem here (h : P s) : CanReach inv step s P := fun start => ⟨s, .refl, start, h⟩

/-- The invariant may be used on the way. -/
theorem assuming (h : inv s → CanReach inv step s P) : CanReach inv step s P :=
  fun start => h start start

theorem mono (h : CanReach inv step s P) (imp : ∀ s', P s' → Q s') : CanReach inv step s Q := by
  intro start
  obtain ⟨s', run, later, holds⟩ := h start
  exact ⟨s', run, later, imp s' holds⟩

theorem andThen (h : CanReach inv step s P) (more : ∀ s', P s' → CanReach inv step s' Q) :
    CanReach inv step s Q := by
  intro start
  obtain ⟨s', run, later, holds⟩ := h start
  obtain ⟨s'', run', later', holds'⟩ := more s' holds later
  exact ⟨s'', run.trans run', later', holds'⟩

/-- The next stage follows unless something has failed on the way. -/
theorem orElse {F : α → Prop} (h : CanReach inv step s fun s' => F s' ∨ P s')
    (more : ∀ s', P s' → CanReach inv step s' fun s'' => F s'' ∨ Q s'') :
    CanReach inv step s fun s' => F s' ∨ Q s' := by
  refine h.andThen fun s' reached => ?_
  rcases reached with failed | holds
  · exact .here (Or.inl failed)
  · exact more s' holds

end CanReach

/-- A rank that can be lowered from every state that has not reached the goal. -/
theorem canReach_of_rank (I : α → Prop) (rank : α → Nat)
    (closer : ∀ s, I s → CanReach inv step s fun s' => P s' ∨ I s' ∧ rank s' < rank s)
    (start : I s) : CanReach inv step s P := by
  induction bound : rank s using Nat.strongRecOn generalizing s with
  | ind n ih =>
      refine (closer s start).andThen fun s' reached => ?_
      rcases reached with done | ⟨holds, lower⟩
      · exact .here done
      · exact ih (rank s') (bound ▸ lower) holds rfl

/-- The items of a list can be brought about one after the other, if each can without undoing
those before it. -/
theorem canReach_all (I : α → Prop) (done : β → α → Prop) (items : List β)
    (one : ∀ x ∈ items, ∀ s, I s →
      CanReach inv step s fun s' => I s' ∧ done x s' ∧ ∀ y, done y s → done y s')
    (start : I s) : CanReach inv step s fun s' => I s' ∧ ∀ x ∈ items, done x s' := by
  induction items generalizing s with
  | nil => exact .here ⟨start, fun x none => by cases none⟩
  | cons x items ih =>
      refine (ih (fun y there => one y (List.mem_cons_of_mem x there)) start).andThen ?_
      rintro s₁ ⟨holds, rest⟩
      refine (one x (List.mem_cons_self ..) s₁ holds).mono ?_
      rintro s₂ ⟨holds', first, kept⟩
      refine ⟨holds', fun y there => ?_⟩
      rcases List.mem_cons.mp there with rfl | there
      · exact first
      · exact kept y (rest y there)

end EdgeKV
