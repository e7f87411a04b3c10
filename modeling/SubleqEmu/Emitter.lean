import Mathlib.Logic.Function.Basic

/-!
# Code generators

A generator works on a state of its own, may fail, and emits instructions.  A machine
runs instructions one after the other until one of them leaves.
-/

namespace Emitter

/-! ## Generators -/

/-- From a state to a result, the next state, and the instructions emitted. -/
def Gen (σ ι α : Type) : Type := σ → Option (α × σ × List ι)

variable {σ ι α β μ ε : Type}

instance : Monad (Gen σ ι) where
  pure a := fun s => some (a, s, [])
  bind g f := fun s => (g s).bind fun r =>
    (f r.1 r.2.1).map fun r' => (r'.1, r'.2.1, r.2.2 ++ r'.2.2)

def getState : Gen σ ι σ := fun s => some (s, s, [])

def modifyState (f : σ → σ) : Gen σ ι Unit := fun s => some ((), f s, [])

def emit (i : ι) : Gen σ ι Unit := fun s => some ((), s, [i])

def fail : Gen σ ι α := fun _ => none

/-- A generator that runs only under a condition. -/
def onlyIf (p : Prop) [Decidable p] (g : Gen σ ι Unit) : Gen σ ι Unit :=
  if p then g else pure ()

theorem pure_eq_some {a b : α} {s s' : σ} {c : List ι} :
    (pure a : Gen σ ι α) s = some (b, s', c) ↔ a = b ∧ s = s' ∧ c = [] := by
  constructor
  · rintro ⟨⟩
    exact ⟨rfl, rfl, rfl⟩
  · rintro ⟨rfl, rfl, rfl⟩
    rfl

theorem bind_eq_some {g : Gen σ ι α} {f : α → Gen σ ι β} {b : β} {s s' : σ} {c : List ι} :
    (g >>= f) s = some (b, s', c) ↔
      ∃ a s₁ c₁ c₂, g s = some (a, s₁, c₁) ∧ f a s₁ = some (b, s', c₂) ∧ c = c₁ ++ c₂ := by
  constructor
  · intro h
    obtain ⟨⟨a, s₁, c₁⟩, hg, h⟩ := Option.bind_eq_some_iff.mp h
    obtain ⟨⟨b', s₂, c₂⟩, hf, h⟩ := Option.map_eq_some_iff.mp h
    cases h
    exact ⟨a, s₁, c₁, c₂, hg, hf, rfl⟩
  · rintro ⟨a, s₁, c₁, c₂, hg, hf, rfl⟩
    exact Option.bind_eq_some_iff.mpr ⟨_, hg, Option.map_eq_some_iff.mpr ⟨_, hf, rfl⟩⟩

theorem emit_eq_some {i : ι} {u : Unit} {s s' : σ} {c : List ι} :
    emit i s = some (u, s', c) ↔ s = s' ∧ c = [i] := by
  constructor
  · rintro ⟨⟩
    exact ⟨rfl, rfl⟩
  · rintro ⟨rfl, rfl⟩
    rfl

theorem modifyState_eq_some {f : σ → σ} {u : Unit} {s s' : σ} {c : List ι} :
    modifyState f s = some (u, s', c) ↔ f s = s' ∧ c = [] := by
  constructor
  · rintro ⟨⟩
    exact ⟨rfl, rfl⟩
  · rintro ⟨rfl, rfl⟩
    rfl

theorem fail_eq_some {a : α} {s s' : σ} {c : List ι} :
    (fail : Gen σ ι α) s ≠ some (a, s', c) := nofun

section Bind

variable {f : α → Gen σ ι β} {s : σ}

theorem map_prepend_nil (o : Option (β × σ × List ι)) :
    o.map (fun r => (r.1, r.2.1, [] ++ r.2.2)) = o := by
  cases o <;> rfl

theorem pure_bind (a : α) : ((pure a : Gen σ ι α) >>= f) s = f a s :=
  map_prepend_nil _

theorem getState_bind {f : σ → Gen σ ι β} : (getState >>= f) s = f s s :=
  map_prepend_nil _

theorem modifyState_bind {g : σ → σ} {f : Unit → Gen σ ι β} :
    (modifyState g >>= f) s = f () (g s) :=
  map_prepend_nil _

/-- A generator that emits nothing. -/
theorem bind_of_quiet {g : Gen σ ι α} {a : α} {s' : σ} (h : g s = some (a, s', [])) :
    (g >>= f) s = f a s' := by
  show (g s).bind _ = _
  rw [h]
  exact map_prepend_nil _

theorem emit_bind_eq_some {i : ι} {f : Unit → Gen σ ι β} {b : β} {s' : σ} {c : List ι} :
    (emit i >>= f) s = some (b, s', c) ↔ ∃ c', f () s = some (b, s', c') ∧ c = i :: c' := by
  rw [bind_eq_some]
  constructor
  · rintro ⟨_, _, c₁, c₂, hemit, h, rfl⟩
    obtain ⟨rfl, rfl⟩ := emit_eq_some.mp hemit
    exact ⟨c₂, h, rfl⟩
  · rintro ⟨c', h, rfl⟩
    exact ⟨(), s, [i], c', rfl, h, rfl⟩

theorem pure_bind_eq (a : α) (f : α → Gen σ ι β) : (pure a : Gen σ ι α) >>= f = f a :=
  funext fun _ => pure_bind a

theorem bind_assoc (g : Gen σ ι α) (f : α → Gen σ ι β) {γ : Type} (k : β → Gen σ ι γ) :
    g >>= f >>= k = g >>= fun a => f a >>= k := by
  funext s
  show ((g s).bind _).bind _ = (g s).bind _
  cases g s with
  | none => rfl
  | some r =>
      show ((f r.1 r.2.1).map _).bind _ = ((f r.1 r.2.1).bind _).map _
      cases f r.1 r.2.1 with
      | none => rfl
      | some r' =>
          show (k r'.1 r'.2.1).map _ = ((k r'.1 r'.2.1).map _).map _
          cases k r'.1 r'.2.1 with
          | none => rfl
          | some r'' =>
              simp only [Option.map_some, List.append_assoc]

end Bind

/-! ## Runs -/

/-- Where an instruction, or a list of them, takes a machine. -/
inductive Outcome (μ ε : Type)
  | run (m : μ)
  | exit (e : ε) (m : μ)
  | stuck

variable (step : ι → μ → Outcome μ ε)

def exec : List ι → μ → Outcome μ ε
  | [], m => .run m
  | i :: is, m =>
      match step i m with
      | .run m' => exec is m'
      | o => o

variable {step}

@[simp] theorem exec_nil (m : μ) : exec step [] m = .run m := rfl

theorem exec_append_of_run {is js : List ι} {m m' : μ} (h : exec step is m = .run m') :
    exec step (is ++ js) m = exec step js m' := by
  induction is generalizing m with
  | nil =>
      cases h
      rfl
  | cons i is ih =>
      rw [List.cons_append, exec]
      rw [exec] at h
      cases hi : step i m with
      | run m₁ =>
          rw [hi] at h
          exact ih h
      | exit e m₁ => simp [hi] at h
      | stuck => simp [hi] at h

theorem exec_append_of_exit {is js : List ι} {m m' : μ} {e : ε}
    (h : exec step is m = .exit e m') : exec step (is ++ js) m = .exit e m' := by
  induction is generalizing m with
  | nil => cases h
  | cons i is ih =>
      rw [List.cons_append, exec]
      rw [exec] at h
      cases hi : step i m with
      | run m₁ =>
          rw [hi] at h
          exact ih h
      | exit e' m₁ =>
          rw [hi] at h
          exact h
      | stuck => simp [hi] at h

theorem exec_singleton (i : ι) (m : μ) : exec step [i] m = step i m := by
  rw [exec]
  cases step i m <;> rfl

theorem exec_cons_of_run {i : ι} {is : List ι} {m m' : μ} (h : step i m = .run m') :
    exec step (i :: is) m = exec step is m' := by
  rw [exec, h]

end Emitter
