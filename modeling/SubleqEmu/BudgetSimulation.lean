import Mathlib.Data.Prod.Lex
import Mathlib.Logic.Relation
import Mathlib.Order.WellFounded

/-!
# Simulation within a budget

A machine whose steps do any number of steps of a simpler one, and pay for each from a
budget.  A step that pays for none lowers a rank, so that no run goes on forever.
-/

namespace BudgetSimulation

variable {σ α β : Type*}

/-- The simpler machine, by the number of its steps; `none` is a fault. -/
structure Runs (run : ℕ → α → Option α) : Prop where
  zero : ∀ a, run 0 a = some a
  add : ∀ k n a, run (k + n) a = (run k a).bind (run n)

/-- What holds of `k` more steps from a state holds of the rest on the way. -/
def Hereditary (run : ℕ → α → Option α) (P : ℕ → α → Prop) : Prop :=
  ∀ k n a b, P (k + n) a → run k a = some b → P n b

variable {run : ℕ → α → Option α} {view : σ → α} {budget : σ → ℕ}

/-- What was paid is what was done. -/
structure Follows (run : ℕ → α → Option α) (view : σ → α) (budget : σ → ℕ) (x y : σ) : Prop where
  le : budget y ≤ budget x
  run : run (budget x - budget y) (view x) = some (view y)

variable {x y z : σ} {k : ℕ}

theorem Follows.refl (hruns : Runs run) (x : σ) : Follows run view budget x x where
  le := le_rfl
  run := by
    rw [Nat.sub_self]
    exact hruns.zero _

theorem Follows.of_run (h : budget x = k + budget y) (hrun : run k (view x) = some (view y)) :
    Follows run view budget x y where
  le := h ▸ Nat.le_add_left _ _
  run := by
    rw [h, Nat.add_sub_cancel]
    exact hrun

theorem Follows.trans (hruns : Runs run) (h : Follows run view budget x y)
    (h' : Follows run view budget y z) : Follows run view budget x z where
  le := h'.le.trans h.le
  run := by
    have hle := h.le
    have hle' := h'.le
    rw [show budget x - budget z = (budget x - budget y) + (budget y - budget z) by omega,
      hruns.add, h.run]
    exact h'.run

theorem Follows.hereditary {P : ℕ → α → Prop} (hP : Hereditary run P)
    (h : Follows run view budget x y) (hx : P (budget x) (view x)) : P (budget y) (view y) := by
  have hle := h.le
  refine hP (budget x - budget y) (budget y) (view x) (view y) ?_ h.run
  rwa [Nat.sub_add_cancel hle]

section Steps

variable {step : σ → σ → Prop} {I : σ → Prop} {P : ℕ → α → Prop} [Preorder β] {rank : σ → β}

/-- An invariant of the steps, and a run of them. -/
theorem follows_of_steps (hruns : Runs run) (hP : Hereditary run P)
    (hstep : ∀ x y, I x → P (budget x) (view x) → step x y → I y ∧ Follows run view budget x y)
    (hx : I x) (hPx : P (budget x) (view x)) (h : Relation.ReflTransGen step x y) :
    I y ∧ P (budget y) (view y) ∧ Follows run view budget x y := by
  induction h with
  | refl => exact ⟨hx, hPx, .refl hruns x⟩
  | tail _ hyz ih =>
      obtain ⟨hy, hPy, hfollows⟩ := ih
      obtain ⟨hz, hfollows'⟩ := hstep _ _ hy hPy hyz
      exact ⟨hz, hfollows'.hereditary hP hPy, hfollows.trans hruns hfollows'⟩

end Steps

end BudgetSimulation
