import Mathlib.Tactic
import Mathlib.Data.List.Infix

/-!
# Radix trees stored in a flat memory of tables

A node is a table of entries; an entry is empty, a leaf, or names the node one
level down.  Nothing in the memory itself says that the nodes form a tree: two
entries could name one node.  `Separate` says that no node is reached by two
paths, and under it a write to one entry changes only the paths through that
entry.
-/

namespace SubleqEmu
namespace RadixTree

variable {Node Index Entry Leaf : Type}

/-- What an entry stands for. -/
inductive Decoded (Node Leaf : Type)
  | miss
  | leaf (leaf : Leaf)
  | table (node : Node)

/-- The node a path leads to. -/
def descend (child : Entry → Option Node) (read : Node → Index → Entry) :
    Node → List Index → Option Node
  | n, [] => some n
  | n, i :: path => (child (read n i)).bind fun m => descend child read m path

/-- The leaf a path leads to; entries are decoded by their level, the number of
indices left after theirs. -/
def lookup (decode : ℕ → Entry → Decoded Node Leaf)
    (read : Node → Index → Entry) : Node → List Index → Option Leaf
  | _, [] => none
  | n, i :: path =>
      match decode path.length (read n i) with
      | .miss => none
      | .leaf leaf => some leaf
      | .table m => lookup decode read m path

/-- No node is reached by two paths of length at most `depth`. -/
def Separate (child : Entry → Option Node) (read : Node → Index → Entry)
    (root : Node) (depth : ℕ) : Prop :=
  ∀ p q n, p.length ≤ depth → q.length ≤ depth →
    descend child read root p = some n → descend child read root q = some n →
    p = q

section Paths

variable (child : Entry → Option Node) (read : Node → Index → Entry)

@[simp] theorem descend_nil (n : Node) : descend child read n [] = some n := rfl

theorem descend_append (n : Node) (p q : List Index) :
    descend child read n (p ++ q) =
      (descend child read n p).bind fun m => descend child read m q := by
  induction p generalizing n with
  | nil => rfl
  | cons i p ih =>
      simp only [List.cons_append, descend, Option.bind_assoc]
      cases child (read n i) with
      | none => rfl
      | some m => exact ih m

theorem descend_concat (n : Node) (p : List Index) (i : Index) :
    descend child read n (p ++ [i]) =
      (descend child read n p).bind fun m => child (read m i) := by
  rw [descend_append]
  congr 1
  funext m
  simp [descend]

end Paths

variable {child : Entry → Option Node} {read : Node → Index → Entry}

/-- Following a path to a node and looking up from there is one lookup. -/
theorem lookup_of_descend {decode : ℕ → Entry → Decoded Node Leaf}
    (hdecode : ∀ k e m, child e = some m → decode (k + 1) e = .table m)
    {n t : Node} {p rest : List Index} (hp : descend child read n p = some t)
    (hrest : rest ≠ []) :
    lookup decode read n (p ++ rest) = lookup decode read t rest := by
  induction p generalizing n with
  | nil =>
      obtain rfl : n = t := by simpa using hp
      rfl
  | cons i p ih =>
      simp only [descend, Option.bind_eq_some_iff] at hp
      obtain ⟨m, hm, hp⟩ := hp
      obtain ⟨k, hk⟩ : ∃ k, (p ++ rest).length = k + 1 := by
        refine Nat.exists_eq_succ_of_ne_zero ?_
        simp [hrest]
      simp only [List.cons_append, lookup, hk, hdecode k _ m hm]
      exact ih hp

/-- Paths only depend on the nodes they go through. -/
theorem descend_congr {read' : Node → Index → Entry} {root : Node} {depth : ℕ}
    (h : ∀ p n, p.length ≤ depth → descend child read root p = some n →
      ∀ i, read' n i = read n i)
    {q : List Index} (hq : q.length ≤ depth + 1) :
    descend child read' root q = descend child read root q := by
  induction q using List.reverseRecOn with
  | nil => rfl
  | append_singleton q j ih =>
      have hq' : q.length ≤ depth := by simpa using hq
      rw [descend_concat, descend_concat, ih (by omega)]
      cases hn : descend child read root q with
      | none => rfl
      | some n => simp only [Option.bind_some, h q n hq' hn]

theorem lookup_congr {decode : ℕ → Entry → Decoded Node Leaf}
    (hdecode : ∀ k e m, decode k e = .table m → 0 < k ∧ child e = some m)
    {read' : Node → Index → Entry} {root : Node} {depth : ℕ}
    (h : ∀ p n, p.length ≤ depth → descend child read root p = some n →
      ∀ i, read' n i = read n i)
    {n : Node} (q rest : List Index) (hlength : (q ++ rest).length = depth + 1)
    (hn : descend child read root q = some n) :
    lookup decode read' n rest = lookup decode read n rest := by
  induction rest generalizing q n with
  | nil => rfl
  | cons j rest ih =>
      have hq : q.length ≤ depth := by
        simp only [List.length_append, List.length_cons] at hlength
        omega
      simp only [lookup, h q n hq hn]
      cases hd : decode rest.length (read n j) with
      | miss => rfl
      | leaf leaf => rfl
      | table m =>
          obtain ⟨-, hm⟩ := hdecode _ _ _ hd
          refine ih (q := q ++ [j]) (by simpa using hlength) ?_
          rw [descend_concat, hn]
          exact hm

section Write

variable [DecidableEq Node] [DecidableEq Index]

/-- The tables after entry `i` of node `n` is set to `e`. -/
def write (read : Node → Index → Entry) (n : Node) (i : Index) (e : Entry) :
    Node → Index → Entry :=
  fun n' i' => if n' = n ∧ i' = i then e else read n' i'

@[simp] theorem write_self (n : Node) (i : Index) (e : Entry) :
    write read n i e n i = e := by
  simp [write]

theorem write_of_ne {n n' : Node} {i i' : Index} {e : Entry}
    (hne : ¬ (n' = n ∧ i' = i)) : write read n i e n' i' = read n' i' :=
  if_neg hne

variable {root t : Node} {depth : ℕ} {p : List Index} {i : Index} {e : Entry}

/-- Writing an entry leaves alone every path which does not go through it. -/
theorem Separate.descend_write (hsep : Separate child read root depth)
    (hp : p.length ≤ depth) (ht : descend child read root p = some t)
    {q : List Index} (hq : q.length ≤ depth + 1) (hnot : ¬ p ++ [i] <+: q) :
    descend child (write read t i e) root q = descend child read root q := by
  induction q using List.reverseRecOn with
  | nil => rfl
  | append_singleton q j ih =>
      have hq' : q.length ≤ depth := by simpa using hq
      have hnot' : ¬ p ++ [i] <+: q := fun h =>
        hnot (h.trans (List.prefix_append q [j]))
      rw [descend_concat, descend_concat, ih (by omega) hnot']
      cases hn : descend child read root q with
      | none => rfl
      | some n =>
          simp only [Option.bind_some]
          rw [write_of_ne]
          rintro ⟨rfl, rfl⟩
          obtain rfl : q = p := hsep q p n hq' hp hn ht
          exact hnot (List.prefix_refl _)

theorem Separate.descend_write_through (hsep : Separate child read root depth)
    (hp : p.length ≤ depth) (ht : descend child read root p = some t)
    (rest : List Index) :
    descend child (write read t i e) root (p ++ [i] ++ rest) =
      (child e).bind fun m => descend child (write read t i e) m rest := by
  have hself : ¬ p ++ [i] <+: p := fun h => by
    have := h.length_le
    simp at this
  rw [descend_append, descend_concat,
    hsep.descend_write hp ht (by omega) hself, ht]
  simp

/-- Writing a leaf or an empty entry cuts off what was under it. -/
theorem Separate.descend_write_of_none
    (hsep : Separate child read root depth) (hp : p.length ≤ depth)
    (ht : descend child read root p = some t) (he : child e = none)
    {q : List Index} (hq : q.length ≤ depth + 1) :
    descend child (write read t i e) root q =
      if p ++ [i] <+: q then none else descend child read root q := by
  split_ifs with hprefix
  · obtain ⟨rest, rfl⟩ := hprefix
    rw [hsep.descend_write_through hp ht, he]
    rfl
  · exact hsep.descend_write hp ht hq hprefix

/-- Writing an entry which names a node `f` not reached so far, without
children of its own, adds just the path to `f`. -/
theorem Separate.descend_write_of_fresh
    (hsep : Separate child read root depth) (hp : p.length ≤ depth)
    (ht : descend child read root p = some t) {f : Node}
    (he : child e = some f) (hfresh : f ≠ t)
    (hempty : ∀ j, child (read f j) = none)
    {q : List Index} (hq : q.length ≤ depth + 1) :
    descend child (write read t i e) root q =
      if q = p ++ [i] then some f
      else if p ++ [i] <+: q then none else descend child read root q := by
  split_ifs with hself hprefix
  · subst hself
    have hthrough := hsep.descend_write_through (i := i) (e := e) hp ht []
    rw [List.append_nil] at hthrough
    simp [hthrough, he]
  · obtain ⟨rest, rfl⟩ := hprefix
    rw [hsep.descend_write_through hp ht, he]
    cases rest with
    | nil => simp at hself
    | cons j rest =>
        have hne : ¬ (f = t ∧ j = i) := fun h => hfresh h.1
        simp [descend, write_of_ne hne, hempty j]
  · exact hsep.descend_write hp ht hq hprefix

theorem Separate.write_of_none (hsep : Separate child read root depth)
    (hp : p.length ≤ depth) (ht : descend child read root p = some t)
    (he : child e = none) :
    Separate child (write read t i e) root depth := by
  intro q q' n hq hq' hn hn'
  rw [hsep.descend_write_of_none hp ht he (by omega)] at hn hn'
  split_ifs at hn hn'
  exact hsep q q' n hq hq' hn hn'

theorem Separate.write_of_fresh (hsep : Separate child read root depth)
    (hp : p.length ≤ depth) (ht : descend child read root p = some t) {f : Node}
    (he : child e = some f) (hempty : ∀ j, child (read f j) = none)
    (hfresh : ∀ q, q.length ≤ depth → descend child read root q ≠ some f) :
    Separate child (write read t i e) root depth := by
  have hne : f ≠ t := by
    rintro rfl
    exact hfresh p hp ht
  intro q q' n hq hq' hn hn'
  rw [hsep.descend_write_of_fresh hp ht he hne hempty (by omega)] at hn hn'
  split_ifs at hn hn' with hself hself' hprefix' hprefix hself' hprefix'
  · exact hself.trans hself'.symm
  · obtain rfl : f = n := by simpa using hn
    exact absurd hn' (hfresh q' hq')
  · obtain rfl : f = n := by simpa using hn'
    exact absurd hn (hfresh q hq)
  · exact hsep q q' n hq hq' hn hn'

/-- A lookup which does not go through the written entry finds what it found
before. -/
theorem Separate.lookup_write {decode : ℕ → Entry → Decoded Node Leaf}
    (hdecode : ∀ k e m, decode k e = .table m → 0 < k ∧ child e = some m)
    (hsep : Separate child read root depth) (hp : p.length ≤ depth)
    (ht : descend child read root p = some t)
    {n : Node} (q rest : List Index) (hlength : (q ++ rest).length = depth + 1)
    (hn : descend child read root q = some n) (hnot : ¬ p ++ [i] <+: q ++ rest) :
    lookup decode (write read t i e) n rest = lookup decode read n rest := by
  induction rest generalizing q n with
  | nil => rfl
  | cons j rest ih =>
      have hq : q.length ≤ depth := by
        simp only [List.length_append, List.length_cons] at hlength
        omega
      have hne : ¬ (n = t ∧ j = i) := by
        rintro ⟨rfl, rfl⟩
        obtain rfl : q = p := hsep q p n hq hp hn ht
        exact hnot ⟨rest, by simp⟩
      simp only [lookup, write_of_ne hne]
      cases hd : decode rest.length (read n j) with
      | miss => rfl
      | leaf leaf => rfl
      | table m =>
          obtain ⟨-, hm⟩ := hdecode _ _ _ hd
          have happend : q ++ [j] ++ rest = q ++ j :: rest := by simp
          refine ih (q := q ++ [j]) ?_ ?_ ?_
          · rw [happend, hlength]
          · rw [descend_concat, hn]
            exact hm
          · rwa [happend]

/-- A lookup through the written entry goes on from that entry. -/
theorem Separate.lookup_write_through {decode : ℕ → Entry → Decoded Node Leaf}
    (hdecode : ∀ k e m, child e = some m → decode (k + 1) e = .table m)
    (hsep : Separate child read root depth) (hp : p.length ≤ depth)
    (ht : descend child read root p = some t) (rest : List Index) :
    lookup decode (write read t i e) root (p ++ i :: rest) =
      match decode rest.length e with
      | .miss => none
      | .leaf leaf => some leaf
      | .table m => lookup decode (write read t i e) m rest := by
  have hself : ¬ p ++ [i] <+: p := fun h => by
    have := h.length_le
    simp at this
  have ht' : descend child (write read t i e) root p = some t := by
    rw [hsep.descend_write hp ht (by omega) hself, ht]
  rw [lookup_of_descend hdecode ht' (by simp), lookup, write_self]

end Write
end RadixTree
end SubleqEmu
