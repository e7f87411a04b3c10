import Mathlib.Tactic
import Mathlib.Data.List.Perm.Basic
import Mathlib.Data.Finset.Union

/-!
# Handing out disjoint ranges of a finite set

An allocator of ranges of naturals, said without its data structure: the set
still free and the ranges handed out.  A `Heap` carries the proof that these
partition the set it started from, so its operations only exist where they
keep the partition.
-/

namespace SubleqEmu

structure Range where
  start : ℕ
  length : ℕ
  deriving DecidableEq, Repr

namespace Range

def cells (r : Range) : Finset ℕ := Finset.Ico r.start (r.start + r.length)

@[simp] theorem mem_cells {r : Range} {x : ℕ} :
    x ∈ r.cells ↔ r.start ≤ x ∧ x < r.start + r.length := by
  simp [cells]

@[simp] theorem card_cells (r : Range) : r.cells.card = r.length := by
  simp [cells]

def Apart (a b : Range) : Prop := Disjoint a.cells b.cells

theorem Apart.symm {a b : Range} (h : a.Apart b) : b.Apart a :=
  Disjoint.symm h

end Range

/-- The cells of `initial`, each free or in exactly one live range. -/
structure Heap (initial : Finset ℕ) where
  free : Finset ℕ
  live : List Range
  apart : live.Pairwise Range.Apart
  free_apart : ∀ r ∈ live, Disjoint r.cells free
  mem_initial : ∀ x, x ∈ initial ↔ x ∈ free ∨ ∃ r ∈ live, x ∈ r.cells

namespace Heap

variable {initial : Finset ℕ}

def fresh (initial : Finset ℕ) : Heap initial where
  free := initial
  live := []
  apart := .nil
  free_apart := by simp
  mem_initial := by simp

def alloc (h : Heap initial) (r : Range) (hr : r.cells ⊆ h.free) :
    Heap initial where
  free := h.free \ r.cells
  live := r :: h.live
  apart := by
    refine List.pairwise_cons.mpr ⟨?_, h.apart⟩
    intro other hother
    exact (h.free_apart other hother).symm.mono_left hr
  free_apart := by
    intro other hother
    rcases List.mem_cons.mp hother with rfl | hother
    · exact Finset.disjoint_sdiff
    · exact (h.free_apart other hother).mono_right Finset.sdiff_subset
  mem_initial := by
    intro x
    rw [h.mem_initial x]
    simp only [List.mem_cons, exists_eq_or_imp, Finset.mem_sdiff]
    constructor
    · rintro (hfree | hlive)
      · by_cases hx : x ∈ r.cells
        · exact Or.inr (Or.inl hx)
        · exact Or.inl ⟨hfree, hx⟩
      · exact Or.inr (Or.inr hlive)
    · rintro (⟨hfree, _⟩ | hx | hlive)
      · exact Or.inl hfree
      · exact Or.inl (hr hx)
      · exact Or.inr hlive

@[simp] theorem alloc_free (h : Heap initial) (r : Range) (hr : r.cells ⊆ h.free) :
    (h.alloc r hr).free = h.free \ r.cells := rfl

@[simp] theorem alloc_live (h : Heap initial) (r : Range) (hr : r.cells ⊆ h.free) :
    (h.alloc r hr).live = r :: h.live := rfl

theorem live_perm (h : Heap initial) (k : Fin h.live.length) :
    (h.live.get k :: h.live.eraseIdx k).Perm h.live :=
  List.getElem_cons_eraseIdx_perm k.isLt

def release (h : Heap initial) (k : Fin h.live.length) : Heap initial where
  free := h.free ∪ (h.live.get k).cells
  live := h.live.eraseIdx k
  apart := h.apart.sublist (List.eraseIdx_sublist _ _)
  free_apart := by
    intro r hr
    have hpairs := (h.live_perm k).symm.pairwise h.apart Range.Apart.symm
    refine Finset.disjoint_union_right.mpr ⟨?_, ?_⟩
    · exact h.free_apart r (List.mem_of_mem_eraseIdx hr)
    · exact ((List.pairwise_cons.mp hpairs).1 r hr).symm
  mem_initial := by
    intro x
    have hmem : (∃ r ∈ h.live, x ∈ r.cells) ↔
        x ∈ (h.live.get k).cells ∨ ∃ r ∈ h.live.eraseIdx k, x ∈ r.cells := by
      simp only [← (h.live_perm k).mem_iff, List.mem_cons, exists_eq_or_imp]
    rw [h.mem_initial x, hmem, Finset.mem_union, or_assoc]

@[simp] theorem release_free (h : Heap initial) (k : Fin h.live.length) :
    (h.release k).free = h.free ∪ (h.live.get k).cells := rfl

@[simp] theorem release_live (h : Heap initial) (k : Fin h.live.length) :
    (h.release k).live = h.live.eraseIdx k := rfl

def liveCount (live : List Range) : ℕ := (live.map Range.length).sum

/-- Counting the cells: those free and those live are all there were. -/
theorem card_free_add_liveCount (h : Heap initial) :
    h.free.card + liveCount h.live = initial.card := by
  have hlive : ∀ live : List Range, live.Pairwise Range.Apart →
      (∀ r ∈ live, Disjoint r.cells h.free) →
      (h.free ∪ (live.toFinset.biUnion Range.cells)).card =
        h.free.card + liveCount live := by
    intro live
    induction live with
    | nil => simp [liveCount]
    | cons r live ih =>
        intro hapart hfree
        obtain ⟨hr, hapart⟩ := List.pairwise_cons.mp hapart
        have hrest := ih hapart fun other hother =>
          hfree other (List.mem_cons_of_mem r hother)
        have hdisjoint : Disjoint r.cells
            (h.free ∪ live.toFinset.biUnion Range.cells) := by
          refine Finset.disjoint_union_right.mpr ⟨hfree r (by simp), ?_⟩
          refine (Finset.disjoint_biUnion_right _ _ _).mpr ?_
          intro other hother
          exact hr other (List.mem_toFinset.mp hother)
        rw [List.toFinset_cons, Finset.biUnion_insert, Finset.union_left_comm,
          Finset.card_union_of_disjoint hdisjoint, hrest, Range.card_cells]
        simp only [liveCount, List.map_cons, List.sum_cons]
        omega
  rw [← hlive h.live h.apart h.free_apart]
  congr 1
  ext x
  simp [h.mem_initial x]

/-- A live range lies in the set the heap started from. -/
theorem cells_subset_initial (h : Heap initial) {r : Range} (hr : r ∈ h.live) :
    r.cells ⊆ initial := by
  intro x hx
  exact (h.mem_initial x).mpr (Or.inr ⟨r, hr, hx⟩)

theorem free_subset_initial (h : Heap initial) : h.free ⊆ initial := by
  intro x hx
  exact (h.mem_initial x).mpr (Or.inl hx)

end Heap
end SubleqEmu
