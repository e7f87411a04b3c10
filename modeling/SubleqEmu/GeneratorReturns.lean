import SubleqEmu.Emitter

/-!
# Generators that do not fail

A judgement for generators that return, and what holds of the result.
-/

namespace Emitter

variable {σ ι α β : Type} {g : Gen σ ι α} {s : σ} {Q : α → σ → Prop}

/-- From this state the generator returns, with such a result and next state. -/
def Returns (g : Gen σ ι α) (s : σ) (Q : α → σ → Prop) : Prop :=
  ∃ a s' c, g s = some (a, s', c) ∧ Q a s'

namespace Returns

protected theorem pure {a : α} (h : Q a s) : Returns (pure a : Gen σ ι α) s Q :=
  ⟨a, s, [], rfl, h⟩

protected theorem emit {i : ι} {Q : Unit → σ → Prop} (h : Q () s) :
    Returns (emit i : Gen σ ι Unit) s Q :=
  ⟨(), s, [i], rfl, h⟩

protected theorem modify {f : σ → σ} {Q : Unit → σ → Prop} (h : Q () (f s)) :
    Returns (modifyState f : Gen σ ι Unit) s Q :=
  ⟨(), f s, [], rfl, h⟩

theorem imp {Q' : α → σ → Prop} (h : Returns g s Q) (hQ : ∀ a s', Q a s' → Q' a s') :
    Returns g s Q' := by
  obtain ⟨a, s', c, heq, hres⟩ := h
  exact ⟨a, s', c, heq, hQ a s' hres⟩

protected theorem bind {f : α → Gen σ ι β} {R : β → σ → Prop} (h : Returns g s Q)
    (hf : ∀ a s', Q a s' → Returns (f a) s' R) : Returns (g >>= f) s R := by
  obtain ⟨a, s₁, c₁, hfirst, hres⟩ := h
  obtain ⟨b, s₂, c₂, hsecond, hR⟩ := hf a s₁ hres
  exact ⟨b, s₂, c₁ ++ c₂, bind_eq_some.mpr ⟨a, s₁, c₁, c₂, hfirst, hsecond, rfl⟩, hR⟩

theorem get_bind {f : σ → Gen σ ι β} {R : β → σ → Prop} (h : Returns (f s) s R) :
    Returns (getState >>= f) s R := by
  obtain ⟨b, s', c, heq, hR⟩ := h
  exact ⟨b, s', c, getState_bind.trans heq, hR⟩

theorem modify_bind {k : σ → σ} {f : Unit → Gen σ ι β} {R : β → σ → Prop}
    (h : Returns (f ()) (k s) R) : Returns (modifyState k >>= f) s R := by
  obtain ⟨b, s', c, heq, hR⟩ := h
  exact ⟨b, s', c, modifyState_bind.trans heq, hR⟩

theorem emit_bind {i : ι} {f : Unit → Gen σ ι β} {R : β → σ → Prop}
    (h : Returns (f ()) s R) : Returns (emit i >>= f) s R :=
  .bind (Q := fun _ s' => s' = s) (.emit rfl) fun _ _ heq => heq ▸ h

/-- A generator of which the result is known. -/
theorem eq_bind {f : α → Gen σ ι β} {R : β → σ → Prop} {a : α} {s' : σ} {c : List ι}
    (h : g s = some (a, s', c)) (hf : Returns (f a) s' R) : Returns (g >>= f) s R :=
  .bind (Q := fun a₁ s₁ => a₁ = a ∧ s₁ = s') ⟨a, s', c, h, rfl, rfl⟩ fun _ _ heq => by
    obtain ⟨rfl, rfl⟩ := heq
    exact hf

protected theorem onlyIf {p : Prop} [Decidable p] {g : Gen σ ι Unit} {Q : Unit → σ → Prop}
    (h : p → Returns g s Q) (hnot : ¬ p → Q () s) : Returns (onlyIf p g) s Q := by
  unfold onlyIf
  by_cases hp : p
  · rw [if_pos hp]
    exact h hp
  · rw [if_neg hp]
    exact .pure (hnot hp)

end Returns

end Emitter
