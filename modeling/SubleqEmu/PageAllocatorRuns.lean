import SubleqEmu.PageAllocatorOperations

/-!
# Runs of the page allocator

A run is any sequence of `kmalloc` calls and of `kmfree` calls on ranges that
are still live, after `pmm_init`.  Each run is matched step by step by a heap
over the pages initially free; soundness is read off the heap.
-/

namespace SubleqEmu
namespace PageAllocator

/-- A call: `kmfree k` frees the `k`-th of the live ranges, if there is one. -/
inductive Call
  | kmalloc (pages : ℕ+)
  | kmfree (k : ℕ)
  deriving DecidableEq

/-- The allocator and the ranges handed out and not freed since. -/
structure Config where
  pmm : Pmm
  live : List Range

def Config.step (c : Config) : Call → Except PmmError Config
  | .kmalloc pages => do
      match ← c.pmm.kmalloc pages with
      | (none, pmm) => return ⟨pmm, c.live⟩
      | (some ptr, pmm) => return ⟨pmm, ⟨ptr / pageSize, pages⟩ :: c.live⟩
  | .kmfree k =>
      match c.live[k]? with
      | none => return c
      | some r => do
          let pmm ← c.pmm.kmfree (r.start * pageSize) r.length
          return ⟨pmm, c.live.eraseIdx k⟩

def Config.run : List Call → Config → Except PmmError Config
  | [], c => .ok c
  | call :: calls, c => do
      let c ← c.step call
      run calls c

/-- The configuration, reached from `s₀`, does what the heap says. -/
structure Config.Refines (s₀ : Pmm) (c : Config) (h : Heap s₀.freeSet) :
    Prop where
  wf : c.pmm.Wf
  layout : s₀.SameLayout c.pmm
  free : c.pmm.freeSet = h.free
  live : c.live = h.live
  positive : ∀ r ∈ c.live, 0 < r.length

theorem Config.refines_initial {s₀ : Pmm} (hs : s₀.Wf) :
    Config.Refines s₀ ⟨s₀, []⟩ (Heap.fresh s₀.freeSet) :=
  ⟨hs, .refl s₀, rfl, rfl, by simp⟩

theorem Config.Refines.live_ok {s₀ : Pmm} {c : Config} {h : Heap s₀.freeSet}
    (hc : c.Refines s₀ h) (hs : s₀.Wf) {r : Range} (hr : r ∈ c.live) :
    ∀ i ∈ r.cells, s₀.Tracked i ∧ ¬ s₀.OwnPage i := by
  intro i hi
  have hmem := h.cells_subset_initial (hc.live ▸ hr) hi
  exact ⟨(Pmm.mem_freeSet.mp hmem).1, hs.own i hmem⟩

theorem Config.Refines.kmalloc {s₀ : Pmm} {c : Config} {h : Heap s₀.freeSet}
    (hc : c.Refines s₀ h) (pages : ℕ+) :
    ∃ c' h', c.step (.kmalloc pages) = .ok c' ∧ c'.Refines s₀ h' := by
  rcases hc.wf.kmalloc_eq pages.pos with
    ⟨hnone, -⟩ | ⟨r, s', hlength, hfree, hsome, hwf, hlayout, hfree'⟩
  · refine ⟨c, h, ?_, hc⟩
    simp only [Config.step, hnone, ok_bind]
    rfl
  · have hsubset : r.cells ⊆ h.free := hc.free ▸ hfree
    refine ⟨⟨s', r :: c.live⟩, h.alloc r hsubset, ?_, hwf,
      hc.layout.trans hlayout, ?_, ?_, ?_⟩
    · have hdiv : r.start * pageSize / pageSize = r.start :=
        Nat.mul_div_cancel _ (by decide)
      simp only [Config.step, hsome, ok_bind, hdiv]
      rw [← hlength]
      rfl
    · rw [Heap.alloc_free, ← hc.free]
      exact hfree'
    · rw [Heap.alloc_live, ← hc.live]
    · intro other hother
      rcases List.mem_cons.mp hother with rfl | hother
      · rw [hlength]
        exact pages.pos
      · exact hc.positive other hother

theorem Config.Refines.kmfree {s₀ : Pmm} (hs : s₀.Wf) {c : Config}
    {h : Heap s₀.freeSet} (hc : c.Refines s₀ h) (k : ℕ) :
    ∃ c' h', c.step (.kmfree k) = .ok c' ∧ c'.Refines s₀ h' := by
  cases hk : c.live[k]? with
  | none =>
      refine ⟨c, h, ?_, hc⟩
      simp only [Config.step, hk]
      rfl
  | some r =>
      obtain ⟨hlt, hget⟩ := List.getElem?_eq_some_iff.mp hk
      have hr : r ∈ c.live := hget ▸ List.getElem_mem hlt
      have hlt' : k < h.live.length := hc.live ▸ hlt
      have hget' : h.live.get ⟨k, hlt'⟩ = r := by
        simp only [List.get_eq_getElem, ← hc.live, hget]
      obtain ⟨s', hs', hwf, hlayout, hfree⟩ :=
        hc.wf.kmfree_eq (r := r)
          (fun i hi => by
            rw [hc.layout.tracked_iff, hc.layout.ownPage_iff]
            exact hc.live_ok hs hr i hi)
          (hc.positive r hr)
      refine ⟨⟨s', c.live.eraseIdx k⟩, h.release ⟨k, hlt'⟩, ?_, hwf,
        hc.layout.trans hlayout, ?_, ?_, ?_⟩
      · simp only [Config.step, hk, hs', ok_bind]
        rfl
      · rw [Heap.release_free, hget', ← hc.free]
        exact hfree
      · exact congrArg (fun live => live.eraseIdx k) hc.live
      · intro other hother
        exact hc.positive other (List.mem_of_mem_eraseIdx hother)

theorem Config.Refines.run {s₀ : Pmm} (hs : s₀.Wf) (calls : List Call)
    {c : Config} {h : Heap s₀.freeSet} (hc : c.Refines s₀ h) :
    ∃ c' h', Config.run calls c = .ok c' ∧ c'.Refines s₀ h' := by
  induction calls generalizing c h with
  | nil => exact ⟨c, h, rfl, hc⟩
  | cons call calls ih =>
      obtain ⟨c₁, h₁, hstep, hc₁⟩ : ∃ c' h', c.step call = .ok c' ∧
          c'.Refines s₀ h' := by
        cases call with
        | kmalloc pages => exact hc.kmalloc pages
        | kmfree k => exact hc.kmfree hs k
      obtain ⟨c₂, h₂, hrun, hc₂⟩ := ih hc₁
      refine ⟨c₂, h₂, ?_, hc₂⟩
      simp only [Config.run, hstep, ok_bind]
      exact hrun

/-! ## Soundness -/

def BootInfo.entries (boot : BootInfo) : List MemmapEntry :=
  match boot.memmap with
  | none => []
  | some map => map.entries

theorem pmmInit_eq_ok {boot : BootInfo} {mem : ℕ → BitVec 32} {s₀ : Pmm}
    (hinit : pmmInit boot mem = .ok s₀) :
    ∃ map : Memmap, boot.memmap = some map ∧
      pmmInitMap map.entries mem = .ok s₀ := by
  unfold pmmInit at hinit
  split at hinit
  iterate 4 exact absurd hinit (by simp)
  next map _ _ _ hmap => exact ⟨map, hmap, hinit⟩

/-- What `pmm_init` leaves when it returns: the bitmap is in a usable entry, and
the free pages are pages of usable entries outside the bitmap. -/
theorem pmmInit_wf {boot : BootInfo} {mem : ℕ → BitVec 32} {s₀ : Pmm}
    (hinit : pmmInit boot mem = .ok s₀) :
    s₀.Wf ∧ s₀.maxPage = highestAddr boot.entries / pageSize ∧
      (∃ entry ∈ boot.entries, entry.type = .usable ∧ entry.base ≤ s₀.memBitmap ∧
        s₀.memBitmap + s₀.bitmapPages * pageSize ≤ entry.stop) ∧
      ∀ i, i ∈ s₀.freeSet ↔ s₀.Tracked i ∧ ¬ s₀.OwnPage i ∧
        ∃ entry ∈ boot.entries, entry.type = .usable ∧ entry.Covers i := by
  obtain ⟨map, hmap, hinit⟩ := pmmInit_eq_ok hinit
  rcases pmmInitMap_eq map mem with hpanic | ⟨s, hs, hwf, hrest⟩
  · rw [hpanic] at hinit
    contradiction
  · obtain rfl : s = s₀ := by
      rw [hs] at hinit
      exact Except.ok.inj hinit
    simpa only [BootInfo.entries, hmap] using And.intro hwf hrest

/-- No bitmap access of `pmm_init` leaves the bitmap's pages. -/
theorem pmmInit_ne_strayBitmapAccess (boot : BootInfo) (mem : ℕ → BitVec 32) :
    pmmInit boot mem ≠ .error .strayBitmapAccess := by
  unfold pmmInit
  split
  iterate 4 simp
  next map _ _ _ _ =>
    rcases pmmInitMap_eq map mem with hpanic | ⟨s, hs, -⟩
    · rw [hpanic]
      simp
    · rw [hs]
      simp

/-- A page that may be handed out: wholly inside a usable entry, from 16 MiB
on and below `max_page`, and not of the bitmap. -/
structure SoundPage (boot : BootInfo) (s₀ : Pmm) (page : ℕ) : Prop where
  inside : ∃ entry ∈ boot.entries, entry.type = .usable ∧
    entry.base ≤ page * pageSize ∧ (page + 1) * pageSize ≤ entry.stop
  above : memoryBase ≤ page * pageSize
  below : page < s₀.maxPage
  notOwn : ¬ s₀.OwnPage page

theorem soundPage_of_mem_freeSet {boot : BootInfo} {mem : ℕ → BitVec 32}
    {s₀ : Pmm} (hinit : pmmInit boot mem = .ok s₀) {page : ℕ}
    (hpage : page ∈ s₀.freeSet) : SoundPage boot s₀ page := by
  obtain ⟨hwf, -, -, hfree⟩ := pmmInit_wf hinit
  obtain ⟨⟨hge, hlt⟩, hown, entry, hentry, husable, hcovers⟩ :=
    (hfree page).mp hpage
  refine ⟨⟨entry, hentry, husable, hcovers.inside⟩, ?_, hlt, hown⟩
  unfold bitmapBase memoryBase pageSize at *
  omega

/-- Every run of `kmalloc` and `kmfree` after `pmm_init` keeps its bitmap
accesses inside the bitmap, hands out disjoint ranges of sound pages, and
counts the free pages. -/
theorem pageAllocator_sound {boot : BootInfo} {mem : ℕ → BitVec 32} {s₀ : Pmm}
    (hinit : pmmInit boot mem = .ok s₀) (calls : List Call) :
    ∃ c : Config, Config.run calls ⟨s₀, []⟩ = .ok c ∧
      c.live.Pairwise Range.Apart ∧
      (∀ r ∈ c.live, ∀ page ∈ r.cells, SoundPage boot s₀ page) ∧
      ∃ initial free, s₀.pmmFreePages = .ok initial ∧
        c.pmm.pmmFreePages = .ok free ∧
        free + Heap.liveCount c.live = initial := by
  obtain ⟨hwf, -⟩ := pmmInit_wf hinit
  obtain ⟨c, h, hrun, hc⟩ := (Config.refines_initial hwf).run hwf calls
  refine ⟨c, hrun, hc.live ▸ h.apart, ?_, _, _, hwf.pmmFreePages_eq,
    hc.wf.pmmFreePages_eq, ?_⟩
  · intro r hr page hpage
    apply soundPage_of_mem_freeSet hinit
    exact h.cells_subset_initial (hc.live ▸ hr) hpage
  · rw [hc.free, hc.live]
    exact h.card_free_add_liveCount

/-- A machine with three usable pages from 16 MiB, the first of which holds
the bitmap. -/
def threePageBoot : BootInfo where
  hhdm := some 0xffff800000000000
  executableAddress := some (0x200000, 0xffffffff80000000)
  executableFile := some []
  memmap := some
    { entries := [⟨memoryBase, 3 * pageSize, .usable⟩]
      inPhys := by simp [MemmapEntry.stop, memoryBase, pageSize, physLimit]
      usableDisjoint := by simp }

theorem pageAllocator_sound_threePageBoot :
    ∃ s₀, pmmInit threePageBoot (fun _ => 0) = .ok s₀ ∧
      ∃ c : Config,
        Config.run [.kmalloc 1, .kmalloc 1, .kmalloc 1, .kmfree 1] ⟨s₀, []⟩ =
          .ok c ∧
        c.live.Pairwise Range.Apart ∧
        (∀ r ∈ c.live, ∀ page ∈ r.cells, SoundPage threePageBoot s₀ page) ∧
        ∃ initial free, s₀.pmmFreePages = .ok initial ∧
          c.pmm.pmmFreePages = .ok free ∧
          free + Heap.liveCount c.live = initial := by
  obtain ⟨s₀, hs₀⟩ : ∃ s₀, pmmInit threePageBoot (fun _ => 0) = .ok s₀ :=
    exists_eq_ok (by decide)
  exact ⟨s₀, hs₀, pageAllocator_sound hs₀ _⟩

end PageAllocator
end SubleqEmu
