import SubleqEmu.PageAllocatorMemory
import SubleqEmu.PageAllocatorRuns

/-!
# What the search of `kmalloc` misses

`kmalloc` looks for a run of free pages from its hint to the end, and then from
the beginning to its hint.  The two scans count separately, so a run with pages
on both sides of the hint is seen by neither.  Whether `kmalloc` finds memory
when there is some depends on that alone.
-/

namespace SubleqEmu
namespace PageAllocator

/-- The allocator after `pmm_init`, any calls since, and any writes to memory but the
bitmap.  A `kmfree` may free any tracked pages but those of the bitmap, in whatever
pieces. -/
inductive Reachable (s₀ : Pmm) : Pmm → Prop
  | initial : Reachable s₀ s₀
  | kmalloc {s s' : Pmm} {pages : ℕ} {ptr : Option ℕ} (hs : Reachable s₀ s)
      (hpages : 0 < pages) (hstep : s.kmalloc pages = .ok (ptr, s')) : Reachable s₀ s'
  | kmfree {s s' : Pmm} {ptr pages : ℕ} (hs : Reachable s₀ s)
      (hrange : ∀ i, ptr / pageSize ≤ i → i < ptr / pageSize + pages →
        s.Tracked i ∧ ¬ s.OwnPage i)
      (hstep : s.kmfree ptr pages = .ok s') : Reachable s₀ s'
  | write {s : Pmm} {f : ℕ → BitVec 32} (hs : Reachable s₀ s)
      (hframe : ∀ w, s.BitmapWord w → f w = s.mem w) : Reachable s₀ (s.withMem f)

/-- `pages` consecutive free pages from `first`. -/
structure Pmm.FreeRun (s : Pmm) (first pages : ℕ) : Prop where
  base_le : bitmapBase ≤ first
  le_max : first + pages ≤ s.maxPage
  free : ∀ i < pages, s.usedBit (first + i) = false

/-- The hint parts the pages of a run. -/
def Pmm.HintInside (s : Pmm) (first pages : ℕ) : Prop :=
  first < s.lastAllocPage ∧ s.lastAllocPage < first + pages

/-- `kmalloc` fails only when there is no run to be found. -/
def Pmm.FindsMemory (s : Pmm) (pages : ℕ) : Prop :=
  ∀ s', s.kmalloc pages = .ok (none, s') → ¬ ∃ first, s.FreeRun first pages

theorem Pmm.FreeRun.mem_freeSet {s : Pmm} {first pages j : ℕ}
    (h : s.FreeRun first pages) (hfirst : first ≤ j) (hlast : j < first + pages) :
    j ∈ s.freeSet := by
  have hbase := h.base_le
  have hmax := h.le_max
  have hfree := h.free (j - first) (by omega)
  rw [Nat.add_sub_cancel' hfirst] at hfree
  exact Pmm.mem_freeSet.mpr ⟨⟨by omega, by omega⟩, hfree⟩

theorem Pmm.freeRun_of_cells {s : Pmm} {r : Range} (hr : r.cells ⊆ s.freeSet)
    (hlength : 0 < r.length) : s.FreeRun r.start r.length := by
  have hmem : ∀ i < r.length, r.start + i ∈ s.freeSet := by
    intro i hi
    apply hr
    rw [Range.mem_cells]
    omega
  have hfirst := (Pmm.mem_freeSet.mp (hmem 0 hlength)).1.1
  have hlast := (Pmm.mem_freeSet.mp (hmem (r.length - 1) (by omega))).1.2
  exact ⟨by omega, by omega, fun i hi => (Pmm.mem_freeSet.mp (hmem i hi)).2⟩

theorem Pmm.kmfree_pages (s : Pmm) (ptr pages : ℕ) :
    s.kmfree ptr pages = s.kmfree (ptr / pageSize * pageSize) pages := by
  rw [Pmm.kmfree, Pmm.kmfree, Nat.mul_div_cancel _ (by decide)]

theorem Reachable.wf {s₀ s : Pmm} (hs₀ : s₀.Wf) (h : Reachable s₀ s) : s.Wf := by
  induction h with
  | initial => exact hs₀
  | kmalloc hs hpages hstep ih =>
      rcases ih.kmalloc_eq hpages with ⟨hnone, -⟩ | ⟨r, s', -, -, hsome, hwf, -⟩
      · rw [hnone] at hstep
        cases hstep
        exact ih
      · rw [hsome] at hstep
        cases hstep
        exact hwf
  | @kmfree s s' ptr pages hs hrange hstep ih =>
      rw [Pmm.kmfree_pages] at hstep
      cases pages with
      | zero =>
          cases hstep
          exact ih
      | succ n =>
          obtain ⟨s₁, hs₁, hwf, -⟩ := ih.kmfree_eq (r := ⟨ptr / pageSize, n + 1⟩)
            (fun i hi => hrange i (Range.mem_cells.mp hi).1 (Range.mem_cells.mp hi).2)
            (Nat.succ_pos n)
          rw [hs₁] at hstep
          cases hstep
          exact hwf
  | write hs hframe ih => exact ih.withMem hframe

/-- The failing calls are those for which a run is free and the hint is inside
every such run. -/
theorem Pmm.Wf.findsMemory_iff {s : Pmm} (hs : s.Wf) {pages : ℕ} (hpages : 0 < pages) :
    s.FindsMemory pages ↔
      ((∃ first, s.FreeRun first pages) →
        ∃ first, s.FreeRun first pages ∧ ¬ s.HintInside first pages) := by
  rcases hs.kmalloc_cases hpages with ⟨hnone, hsides⟩ |
    ⟨r, s', hlength, hfree, hsome, -, -, -, hside⟩
  · have hinside : ∀ first, s.FreeRun first pages → s.HintInside first pages := by
      intro first hrun
      by_contra hout
      unfold Pmm.HintInside at hout
      obtain ⟨j, hge, hlt, hmem⟩ := hsides first hrun.base_le hrun.le_max (by omega)
      exact hmem (hrun.mem_freeSet hge hlt)
    constructor
    · intro hfinds hrun
      exact absurd hrun (hfinds s hnone)
    · intro hout s' _ hrun
      obtain ⟨first, hfirst, hnot⟩ := hout hrun
      exact hnot (hinside first hfirst)
  · obtain rfl := hlength
    constructor
    · intro _ _
      refine ⟨r.start, Pmm.freeRun_of_cells hfree hpages, ?_⟩
      unfold Pmm.HintInside
      omega
    · intro _ s₁ hnone
      rw [hsome] at hnone
      cases hnone

/-! ## Every history -/

/-- After every history of calls, `kmalloc` fails on a run that is there exactly
when its hint is inside every run there is. -/
theorem kmalloc_findsMemory_iff {boot : BootInfo} {mem : ℕ → BitVec 32} {s₀ s : Pmm}
    (hinit : pmmInit boot mem = .ok s₀) (hs : Reachable s₀ s) {pages : ℕ}
    (hpages : 0 < pages) :
    s.FindsMemory pages ↔
      ((∃ first, s.FreeRun first pages) →
        ∃ first, s.FreeRun first pages ∧ ¬ s.HintInside first pages) :=
  (hs.wf (pmmInit_wf hinit).1).findsMemory_iff hpages

/-- On a machine with two free pages the first is handed out and freed again, which
leaves the hint between them; then both are asked for. -/
def askForBoth : Except PmmError (Pmm × Pmm × Option ℕ) := do
  let s₀ ← pmmInit threePageBoot fun _ => 0
  let (_, s₁) ← s₀.kmalloc 1
  let s₂ ← s₁.kmfree 0x1001000 1
  let (both, _) ← s₂.kmalloc 2
  return (s₁, s₂, both)

def missesBoth : Except PmmError (Pmm × Pmm × Option ℕ) → Bool
  | .ok (s₁, s₂, both) =>
      decide (s₁.memBitmap = 0x1000000 ∧ s₁.bitmapPages = 1 ∧ s₁.maxPage = 0x1003) &&
        decide (both = none ∧ s₂.maxPage = 0x1003) &&
        (List.range 2).all fun i => !s₂.usedBit (0x1001 + i)
  | .error _ => false

theorem askForBoth_reachable :
    ∃ s₀ s, pmmInit threePageBoot (fun _ => 0) = .ok s₀ ∧ Reachable s₀ s ∧
      s.FreeRun 0x1001 2 ∧ ∃ s', s.kmalloc 2 = .ok (none, s') := by
  have hmisses : missesBoth askForBoth = true := by decide
  cases hask : askForBoth with
  | error e =>
      rw [hask] at hmisses
      cases hmisses
  | ok answer =>
      obtain ⟨s₁, s₂, both⟩ := answer
      rw [hask] at hmisses
      obtain ⟨hmisses, hfree⟩ := Bool.and_eq_true_iff.mp hmisses
      obtain ⟨hlayout, hmisses⟩ := Bool.and_eq_true_iff.mp hmisses
      obtain ⟨hbitmap, hpages, hmax₁⟩ := of_decide_eq_true hlayout
      obtain ⟨rfl, hmax₂⟩ := of_decide_eq_true hmisses
      obtain ⟨s₀, hinit, hask⟩ := bind_eq_ok.mp hask
      obtain ⟨⟨_, _⟩, hfirst, hask⟩ := bind_eq_ok.mp hask
      obtain ⟨_, hkmfree, hask⟩ := bind_eq_ok.mp hask
      obtain ⟨⟨_, s₃⟩, hboth, hask⟩ := bind_eq_ok.mp hask
      cases hask
      have hreach : Reachable s₀ s₂ := by
        refine .kmfree (.kmalloc .initial one_pos hfirst) ?_ hkmfree
        intro i hge hlt
        unfold Pmm.Tracked Pmm.OwnPage
        rw [hbitmap, hpages, hmax₁]
        unfold bitmapBase memoryBase pageSize at *
        omega
      refine ⟨s₀, s₂, hinit, hreach, ⟨by decide, hmax₂.ge, ?_⟩, s₃, hboth⟩
      intro i hi
      simpa using List.all_eq_true.mp hfree i (List.mem_range.mpr hi)

theorem kmalloc_misses_freeRun :
    ∃ s₀ s, pmmInit threePageBoot (fun _ => 0) = .ok s₀ ∧ Reachable s₀ s ∧
      ¬ s.FindsMemory 2 := by
  obtain ⟨s₀, s, hinit, hreach, hrun, s', hnone⟩ := askForBoth_reachable
  exact ⟨s₀, s, hinit, hreach, fun hfinds => hfinds s' hnone ⟨_, hrun⟩⟩

theorem kmalloc_findsMemory_iff_askForBoth :
    ∃ s₀ s, pmmInit threePageBoot (fun _ => 0) = .ok s₀ ∧ Reachable s₀ s ∧
      (s.FindsMemory 2 ↔
        ((∃ first, s.FreeRun first 2) →
          ∃ first, s.FreeRun first 2 ∧ ¬ s.HintInside first 2)) := by
  obtain ⟨s₀, s, hinit, hreach, -⟩ := askForBoth_reachable
  exact ⟨s₀, s, hinit, hreach, kmalloc_findsMemory_iff hinit hreach two_pos⟩

end PageAllocator
end SubleqEmu
