import Mathlib.Data.List.Basic

/-!
# A buffer of one store

The writes that a sequence of stores makes when each may wait until the next one, which
replaces it if it goes to the same place.
-/

namespace WriteBuffer

variable {α β μ : Type}

/-- An idle store leaves memory as it is. -/
structure Store (α β : Type) where
  addr : α
  val : β
  idle : Bool

/-- How a store joins the writes so far: it may take the place of a last one to the
same address. -/
inductive Joins (s : Store α β) (merges : Prop) : List (α × β) → List (α × β) → Prop
  | idle {l} (h : s.idle = true) : Joins s merges l l
  | added {l} : Joins s merges l (l ++ [(s.addr, s.val)])
  | replaced {l v} (h : merges) : Joins s merges (l ++ [(s.addr, v)]) (l ++ [(s.addr, s.val)])

/-- The writes kept of a sequence of stores, in their order: all but idle ones, and but
those that the next write kept replaces. -/
inductive Kept (merges : α → Prop) : List (Store α β) → List (α × β) → Prop
  | nil : Kept merges [] []
  | kept {s l k} (h : Kept merges l k) : Kept merges (s :: l) ((s.addr, s.val) :: k)
  | idle {s l k} (hs : s.idle = true) (h : Kept merges l k) : Kept merges (s :: l) k
  | replaced {s l k v} (hs : merges s.addr) (h : Kept merges l ((s.addr, v) :: k)) :
      Kept merges (s :: l) ((s.addr, v) :: k)

namespace Kept

variable {merges : α → Prop} {s : Store α β} {l : List (Store α β)} {k : List (α × β)} {v : β}

theorem append_idle (h : Kept merges l k) (hs : s.idle = true) : Kept merges (l ++ [s]) k := by
  induction h with
  | nil => exact .idle hs .nil
  | kept _ ih => exact .kept ih
  | idle hs' _ ih => exact .idle hs' ih
  | replaced hs' _ ih => exact .replaced hs' ih

theorem append_kept (h : Kept merges l k) :
    Kept merges (l ++ [s]) (k ++ [(s.addr, s.val)]) := by
  induction h with
  | nil => exact .kept .nil
  | kept _ ih => exact .kept ih
  | idle hs' _ ih => exact .idle hs' ih
  | replaced hs' _ ih => exact .replaced hs' ih

/-- The last write is replaced: its store has a later one to the same address. -/
theorem append_replaced (h : Kept merges l (k ++ [(s.addr, v)])) (hs : merges s.addr) :
    Kept merges (l ++ [s]) (k ++ [(s.addr, s.val)]) := by
  generalize hw : k ++ [(s.addr, v)] = w at h
  induction h generalizing k with
  | nil => exact absurd hw (by simp)
  | @kept s' l' k' h' ih =>
      rcases List.append_eq_cons_iff.mp hw with ⟨rfl, heq⟩ | ⟨k₁, rfl, heq⟩
      · obtain ⟨hsame, rfl⟩ := List.cons.inj heq
        have hkept : Kept merges (l' ++ [s]) [(s.addr, s.val)] := append_kept h'
        rw [show s.addr = s'.addr from congrArg Prod.fst hsame] at hkept hs ⊢
        exact .replaced hs hkept
      · exact .kept (ih heq.symm)
  | idle hs' _ ih => exact .idle hs' (ih hw)
  | @replaced s' l' k' v' hs' h' ih =>
      rcases List.append_eq_cons_iff.mp hw with ⟨rfl, heq⟩ | ⟨k₁, rfl, heq⟩
      · obtain ⟨hsame, rfl⟩ := List.cons.inj heq
        have hkept := ih (k := []) (by rw [hsame]; rfl)
        rw [show s.addr = s'.addr from congrArg Prod.fst hsame] at hkept hs ⊢
        exact .replaced hs hkept
      · exact .replaced hs' (ih hw)

theorem joins {k' : List (α × β)} (h : Kept merges l k) {p : Prop} (hj : Joins s p k k')
    (hp : p → merges s.addr) : Kept merges (l ++ [s]) k' := by
  cases hj with
  | idle hs => exact h.append_idle hs
  | added => exact h.append_kept
  | replaced hm => exact h.append_replaced (hp hm)

end Kept

/-- Memory after writes. -/
theorem Joins.foldl {write : μ → α × β → μ} {s : Store α β} {p : Prop} {l l' : List (α × β)}
    {m n : μ} (h : Joins s p l l') (hl : l.foldl write n = m)
    (hidle : s.idle = true → write m (s.addr, s.val) = m)
    (hlast : ∀ m a v w, write (write m (a, v)) (a, w) = write m (a, w)) :
    l'.foldl write n = write m (s.addr, s.val) := by
  subst hl
  cases h with
  | idle hs => exact (hidle hs).symm
  | added => simp only [List.foldl_append, List.foldl_cons, List.foldl_nil]
  | replaced _ => simp only [List.foldl_append, List.foldl_cons, List.foldl_nil, hlast]

end WriteBuffer
