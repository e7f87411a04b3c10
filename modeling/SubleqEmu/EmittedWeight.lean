import SubleqEmu.Emitter
import Mathlib.Algebra.BigOperators.Group.List.Basic
import Mathlib.Algebra.GroupWithZero.Nat

/-!
# The weight of what is emitted

Instructions have weights, and a generator has a bound on the weight of all that it may
emit, from any state.
-/

namespace Emitter

variable {σ ι α β : Type} {w : ι → ℕ} {g : Gen σ ι α} {k l n : ℕ}

def weight (w : ι → ℕ) (c : List ι) : ℕ := (c.map w).sum

@[simp] theorem weight_nil : weight w [] = 0 := rfl

@[simp] theorem weight_cons (i : ι) (c : List ι) : weight w (i :: c) = w i + weight w c := by
  simp [weight]

@[simp] theorem weight_append (c c' : List ι) :
    weight w (c ++ c') = weight w c + weight w c' := by
  simp [weight]

theorem weight_eq_zero {c : List ι} : weight w c = 0 ↔ ∀ i ∈ c, w i = 0 := by
  induction c with
  | nil => simp
  | cons i c ih => simp [ih]

/-- Whatever the state, and if it does not fail. -/
def Weighs (w : ι → ℕ) (g : Gen σ ι α) (k : ℕ) : Prop :=
  ∀ ⦃s a s' c⦄, g s = some (a, s', c) → weight w c ≤ k

namespace Weighs

theorem mono (h : Weighs w g k) (hle : k ≤ l) : Weighs w g l :=
  fun _ _ _ _ heq => Nat.le_trans (h heq) hle

protected theorem pure (a : α) : Weighs w (pure a : Gen σ ι α) k := by
  intro _ _ _ _ heq
  rw [(pure_eq_some.mp heq).2.2]
  exact Nat.zero_le k

protected theorem emit (i : ι) (h : w i ≤ k) : Weighs w (emit i : Gen σ ι Unit) k := by
  intro _ _ _ _ heq
  rw [(emit_eq_some.mp heq).2, weight_cons]
  exact h

protected theorem modify (f : σ → σ) : Weighs w (modifyState f : Gen σ ι Unit) k := by
  intro _ _ _ _ heq
  rw [(modifyState_eq_some.mp heq).2]
  exact Nat.zero_le k

protected theorem fail : Weighs w (fail : Gen σ ι α) k :=
  fun _ _ _ _ heq => absurd heq fail_eq_some

/-- What the first part may weigh is taken from the bound for the second. -/
protected theorem bind {f : α → Gen σ ι β} (hg : Weighs w g k) (hk : k ≤ n)
    (hf : ∀ a, Weighs w (f a) (n - k)) : Weighs w (g >>= f) n := by
  intro _ _ _ _ heq
  obtain ⟨a, s₁, c₁, c₂, hfirst, hsecond, rfl⟩ := bind_eq_some.mp heq
  have hk' := hg hfirst
  have hrest := hf a hsecond
  rw [weight_append]
  omega

protected theorem onlyIf (p : Prop) [Decidable p] {g : Gen σ ι Unit} (h : Weighs w g n) :
    Weighs w (onlyIf p g) n := by
  unfold onlyIf
  split_ifs
  · exact h
  · exact .pure ()

theorem modify_bind {f : Unit → Gen σ ι β} (h : σ → σ) (hf : Weighs w (f ()) n) :
    Weighs w (modifyState h >>= f) n :=
  .bind (.modify h) (Nat.zero_le n) fun _ => hf

theorem get_bind {f : σ → Gen σ ι β} (hf : ∀ s, Weighs w (f s) n) :
    Weighs w (getState >>= f) n := by
  intro s _ _ _ heq
  rw [getState_bind] at heq
  exact hf s heq

theorem emit_bind {i : ι} {f : Unit → Gen σ ι β} (k : ℕ) (hi : w i ≤ k) (hk : k ≤ n)
    (hf : Weighs w (f ()) (n - k)) : Weighs w (emit i >>= f) n :=
  .bind (.emit i hi) hk fun _ => hf

/-- A generator that emits nothing before another. -/
theorem quiet_bind {f : α → Gen σ ι β} (hg : Weighs w g 0) (hf : ∀ a, Weighs w (f a) n) :
    Weighs w (g >>= f) n :=
  .bind hg (Nat.zero_le n) hf

end Weighs

end Emitter
