import Mathlib.Data.Nat.Init
import Mathlib.Tactic.ByContra

/-!
Infinite executions of a transition system. The system may also stand still, so that every finite
run is the beginning of one. What has to happen follows from a rank that a fair process lowers.
-/
namespace EdgeKV

variable {α : Type} {init : α} {step move : α → α → Prop} {σ : Nat → α}

structure Execution (init : α) (step : α → α → Prop) (σ : Nat → α) : Prop where
  start : σ 0 = init
  next : ∀ k, σ (k + 1) = σ k ∨ step (σ k) (σ (k + 1))

/-- A move that stays possible is made. -/
def WeaklyFair (move : α → α → Prop) (σ : Nat → α) : Prop :=
  ∀ k, (∀ j, k ≤ j → ∃ s, move (σ j) s) → ∃ j, k ≤ j ∧ move (σ j) (σ (j + 1))

namespace Execution

theorem invariant (h : Execution init step σ) {P : α → Prop} (base : P init)
    (keeps : ∀ s s', P s → step s s' → P s') (k : Nat) : P (σ k) := by
  induction k with
  | zero => exact h.start ▸ base
  | succ k ih =>
      rcases h.next k with same | moved
      · exact same ▸ ih
      · exact keeps _ _ ih moved

/-- What holds from `k` on as long as nothing ends it. -/
theorem until_ended (σ : Nat → α) {P : α → Prop} {ends : Nat → Prop} {k : Nat}
    (keeps : ∀ j, k ≤ j → ¬ ends j → P (σ j) → P (σ (j + 1))) (here : P (σ k)) {n : Nat}
    (later : k ≤ n) : P (σ n) ∨ ∃ j, k ≤ j ∧ j < n ∧ ends j := by
  induction n, later using Nat.le_induction with
  | base => exact Or.inl here
  | succ n le ih =>
      rcases ih with still | ⟨j, from_k, before, ended⟩
      · by_cases ended : ends n
        · exact Or.inr ⟨n, le, Nat.lt_succ_self n, ended⟩
        · exact Or.inl (keeps n le ended still)
      · exact Or.inr ⟨j, from_k, Nat.lt_succ_of_lt before, ended⟩

end Execution

/-- A move that is possible in all states with a property, which only the move ends, is made. -/
theorem WeaklyFair.eventually (fair : WeaklyFair move σ) {P : α → Prop} {k : Nat}
    (keeps : ∀ j, k ≤ j → ¬ move (σ j) (σ (j + 1)) → P (σ j) → P (σ (j + 1)))
    (possible : ∀ j, k ≤ j → P (σ j) → ∃ s, move (σ j) s) (here : P (σ k)) :
    ∃ j, k ≤ j ∧ move (σ j) (σ (j + 1)) := by
  by_contra never
  refine never (fair k fun n later => possible n later ?_)
  rcases Execution.until_ended σ keeps here later with still | ⟨j, from_k, -, moved⟩
  · exact still
  · exact absurd ⟨j, from_k, moved⟩ never

/-- A rank that only falls, and falls at every move, runs out if there is always a next move. -/
theorem eventually_of_rank {goal moves : Nat → Prop} (rank : Nat → Nat) {k : Nat}
    (stays : ∀ j, k ≤ j → ¬ goal j → rank (j + 1) ≤ rank j)
    (falls : ∀ j, k ≤ j → ¬ goal j → moves j → rank (j + 1) < rank j)
    (again : ∀ j, k ≤ j → ∃ i, j ≤ i ∧ (goal i ∨ moves i)) : ∃ j, k ≤ j ∧ goal j := by
  by_contra never
  have open_ : ∀ j, k ≤ j → ¬ goal j := fun j later reached => never ⟨j, later, reached⟩
  have falling {j i : Nat} (later : k ≤ j) (le : j ≤ i) : rank i ≤ rank j := by
    induction i, le using Nat.le_induction with
    | base => exact Nat.le_refl _
    | succ i le ih => exact Nat.le_trans (stays i (by omega) (open_ i (by omega))) ih
  -- By induction on the bound, the rank is below no number at all.
  have above : ∀ bound j, k ≤ j → ¬ rank j < bound := by
    intro bound
    induction bound with
    | zero => exact fun j _ => Nat.not_lt_zero _
    | succ bound ih =>
        intro j later below
        obtain ⟨i, le, reached | moved⟩ := again j later
        · exact open_ i (by omega) reached
        · have lower := falls i (by omega) (open_ i (by omega)) moved
          have high := falling later le
          exact ih (i + 1) (by omega) (by omega)
  exact above (rank k + 1) k (Nat.le_refl k) (Nat.lt_succ_self _)

end EdgeKV
