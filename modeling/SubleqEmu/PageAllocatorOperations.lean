import SubleqEmu.PageAllocatorBitmap
import SubleqEmu.RangeHeap

/-!
# What `kmalloc`, `kmfree` and `pmm_init` do to the free pages

One specification for each operation, in terms of the set of free pages.  The
later modules use these and never look at the bitmap again.
-/

namespace SubleqEmu
namespace PageAllocator

/-! ## Changing the free pages -/

theorem Pmm.freeSet_congr {s s' : Pmm} (hlayout : s.SameLayout s')
    {p : ℕ → Prop} (hp : ∀ i, s.Tracked i → (s'.usedBit i = false ↔ p i)) (i : ℕ) :
    i ∈ s'.freeSet ↔ s.Tracked i ∧ p i := by
  rw [Pmm.mem_freeSet, hlayout.tracked_iff]
  constructor
  · rintro ⟨htracked, hbit⟩
    exact ⟨htracked, (hp i htracked).mp hbit⟩
  · rintro ⟨htracked, hi⟩
    exact ⟨htracked, (hp i htracked).mpr hi⟩

theorem Pmm.Placed.freeSet_markUsed {s s' : Pmm} (hlayout : s.SameLayout s')
    (r : Range)
    (hbits : ∀ j, s.Tracked j → s'.usedBit j =
      if r.start ≤ j ∧ j < r.start + r.length then true else s.usedBit j) :
    s'.freeSet = s.freeSet \ r.cells := by
  ext i
  rw [Pmm.freeSet_congr hlayout
    (p := fun i => i ∉ r.cells ∧ s.usedBit i = false)]
  · rw [Finset.mem_sdiff, Pmm.mem_freeSet]
    tauto
  · intro i hi
    rw [hbits i hi, Range.mem_cells]
    split <;> simp_all

theorem Pmm.Placed.freeSet_markFree {s s' : Pmm} (hlayout : s.SameLayout s')
    (r : Range) (hr : ∀ i ∈ r.cells, s.Tracked i)
    (hbits : ∀ j, s.Tracked j → s'.usedBit j =
      if r.start ≤ j ∧ j < r.start + r.length then false else s.usedBit j) :
    s'.freeSet = s.freeSet ∪ r.cells := by
  ext i
  rw [Pmm.freeSet_congr hlayout
    (p := fun i => i ∈ r.cells ∨ s.usedBit i = false)]
  · rw [Finset.mem_union, Pmm.mem_freeSet]
    have := hr i
    tauto
  · intro i hi
    rw [hbits i hi, Range.mem_cells]
    split <;> simp_all

/-! ## `kmalloc` -/

/-- Marking and zeroing a free run takes it out of the free pages. -/
theorem Pmm.Wf.found_eq {s : Pmm} (hs : s.Wf) {pages i : ℕ}
    (hpages : 0 < pages) (hfirst : bitmapBase + pages ≤ i + 1)
    (hrun : ∀ j, i + 1 - pages ≤ j → j ≤ i → j ∈ s.freeSet) :
    ∃ s', s.found pages i = .ok (some ((i + 1 - pages) * pageSize), s') ∧
      s'.Wf ∧ s.SameLayout s' ∧
      s'.freeSet = s.freeSet \ (Range.mk (i + 1 - pages) pages).cells := by
  have hlast : i ∈ s.freeSet := hrun i (by omega) le_rfl
  have hlastLt := (Pmm.mem_freeSet.mp hlast).1.2
  have hstrt : i - (pages - 1) = i + 1 - pages := by omega
  let s₀ : Pmm := { s with lastAllocPage := i + 1 }
  have hs₀ : s₀.Placed := ⟨hs.aligned, hs.base_le, hs.max_le, hs.covers⟩
  obtain ⟨s₁, hwr, hlayout, hhint, hbits⟩ :=
    hs₀.wrBitmapRange_eq true (n := pages) (i := i + 1 - pages)
      (by omega) (by change _ ≤ s.maxPage; omega)
  have hs₁ : s₁.Placed := hs₀.of_sameLayout hlayout
  have hlayout₂ : s.SameLayout (s₁.zeroPages (i + 1 - pages) pages) :=
    ⟨hlayout.memBitmap, hlayout.bitmapPages, hlayout.maxPage⟩
  have hfreeSet : (s₁.zeroPages (i + 1 - pages) pages).freeSet =
      s.freeSet \ (Range.mk (i + 1 - pages) pages).cells := by
    apply Pmm.Placed.freeSet_markUsed hlayout₂
    intro j hj
    rw [hs₁.usedBit_zeroPages ((hlayout.tracked_iff j).mpr hj)]
    · exact hbits j hj
    · intro k hk hlt
      rw [hlayout.ownPage_iff]
      exact hs.own k (hrun k hk (by omega))
  refine ⟨_, ?_, ⟨hs.of_sameLayout hlayout₂, ?_, ?_, ?_⟩, hlayout₂, hfreeSet⟩
  · have hwr' : Pmm.wrBitmapRange true pages (i + 1 - pages)
        { s with lastAllocPage := i + 1 } = .ok s₁ := hwr
    simp only [Pmm.found, hstrt, hwr', ok_bind]
    rfl
  · intro k hk
    rw [hfreeSet, Finset.mem_sdiff] at hk
    rw [hlayout₂.ownPage_iff]
    exact hs.own k hk.1
  · change bitmapBase ≤ s₁.lastAllocPage
    rw [hhint]
    change bitmapBase ≤ i + 1
    omega
  · change s₁.lastAllocPage ≤ s₁.maxPage
    rw [hhint, hlayout.maxPage]
    exact hlastLt

/-- `kmalloc` hands out a run of free pages on one side of its hint or, leaving
everything as it is, finds none on either side. -/
theorem Pmm.Wf.kmalloc_cases {s : Pmm} (hs : s.Wf) {pages : ℕ}
    (hpages : 0 < pages) :
    (s.kmalloc pages = .ok (none, s) ∧
      ∀ first, bitmapBase ≤ first → first + pages ≤ s.maxPage →
        first + pages ≤ s.lastAllocPage ∨ s.lastAllocPage ≤ first →
          ∃ j, first ≤ j ∧ j < first + pages ∧ j ∉ s.freeSet) ∨
    ∃ (r : Range) (s' : Pmm), r.length = pages ∧ r.cells ⊆ s.freeSet ∧
      s.kmalloc pages = .ok (some (r.start * pageSize), s') ∧
      s'.Wf ∧ s.SameLayout s' ∧ s'.freeSet = s.freeSet \ r.cells ∧
      (r.start + pages ≤ s.lastAllocPage ∨ s.lastAllocPage ≤ r.start) := by
  have hge := hs.hint_ge
  have hle := hs.hint_le
  have hfound : ∀ i, bitmapBase + pages ≤ i + 1 →
      (∀ j, i + 1 - pages ≤ j → j ≤ i → j ∈ s.freeSet) →
      s.kmalloc pages = s.found pages i →
      i + 1 ≤ s.lastAllocPage ∨ s.lastAllocPage + pages ≤ i + 1 →
      ∃ (r : Range) (s' : Pmm), r.length = pages ∧ r.cells ⊆ s.freeSet ∧
        s.kmalloc pages = .ok (some (r.start * pageSize), s') ∧
        s'.Wf ∧ s.SameLayout s' ∧ s'.freeSet = s.freeSet \ r.cells ∧
        (r.start + pages ≤ s.lastAllocPage ∨ s.lastAllocPage ≤ r.start) := by
    intro i hfirst hrun heq hside
    obtain ⟨s', hs', hwf, hlayout, hfree⟩ := hs.found_eq hpages hfirst hrun
    refine ⟨⟨i + 1 - pages, pages⟩, s', rfl, ?_, heq.trans hs', hwf, hlayout, hfree, ?_⟩
    · intro j hj
      rw [Range.mem_cells] at hj
      exact hrun j hj.1 (by have := hj.2; simp only at this; omega)
    · show i + 1 - pages + pages ≤ s.lastAllocPage ∨ s.lastAllocPage ≤ i + 1 - pages
      omega
  obtain ⟨r₁, hscan₁, hsome₁, hnone₁⟩ :=
    hs.scan_eq (s.maxPage - s.lastAllocPage) s.lastAllocPage 0 hpages (by omega) (by omega)
      (by intro j _ _; omega)
  obtain ⟨r₂, hscan₂, hsome₂, hnone₂⟩ :=
    hs.scan_eq (s.lastAllocPage - bitmapBase) bitmapBase 0 hpages (by omega) (by omega)
      (by intro j _ _; omega)
  cases hr₁ : r₁ with
  | some i =>
      obtain ⟨hfirst, -, hrun⟩ := hsome₁ i hr₁
      right
      apply hfound i (by omega) hrun
      · simp only [Pmm.kmalloc, hscan₁, hr₁, ok_bind]
      · exact Or.inr (by omega)
  | none =>
      cases hr₂ : r₂ with
      | some i =>
          obtain ⟨hfirst, hlast, hrun⟩ := hsome₂ i hr₂
          right
          apply hfound i (by omega) hrun
          · simp only [Pmm.kmalloc, hscan₁, hr₁, hscan₂, hr₂, ok_bind]
          · exact Or.inl (by omega)
      | none =>
          left
          refine ⟨?_, ?_⟩
          · simp only [Pmm.kmalloc, hscan₁, hr₁, hscan₂, hr₂, ok_bind]
            rfl
          · intro first hfirst hend hside
            rcases hside with hbefore | hafter
            · exact hnone₂ hr₂ first (by omega) (by omega) (by omega)
            · exact hnone₁ hr₁ first (by omega) (by omega) (by omega)

/-- `kmalloc` hands out a run of free pages or, leaving everything as it is,
finds none on either side of its hint. -/
theorem Pmm.Wf.kmalloc_eq {s : Pmm} (hs : s.Wf) {pages : ℕ}
    (hpages : 0 < pages) :
    (s.kmalloc pages = .ok (none, s) ∧
      ∀ first, bitmapBase ≤ first → first + pages ≤ s.maxPage →
        first + pages ≤ s.lastAllocPage ∨ s.lastAllocPage ≤ first →
          ∃ j, first ≤ j ∧ j < first + pages ∧ j ∉ s.freeSet) ∨
    ∃ (r : Range) (s' : Pmm), r.length = pages ∧ r.cells ⊆ s.freeSet ∧
      s.kmalloc pages = .ok (some (r.start * pageSize), s') ∧
      s'.Wf ∧ s.SameLayout s' ∧ s'.freeSet = s.freeSet \ r.cells := by
  rcases hs.kmalloc_cases hpages with hnone |
    ⟨r, s', hlength, hcells, hsome, hwf, hlayout, hfree, -⟩
  · exact Or.inl hnone
  · exact Or.inr ⟨r, s', hlength, hcells, hsome, hwf, hlayout, hfree⟩

/-- Asking for one page fails only when no page is free. -/
theorem Pmm.Wf.kmalloc_one_eq_none {s : Pmm} (hs : s.Wf)
    {s' : Pmm} (hnone : s.kmalloc 1 = .ok (none, s')) : s.freeSet = ∅ := by
  rcases hs.kmalloc_eq one_pos with ⟨-, hfull⟩ | ⟨r, s'', -, -, hr, -⟩
  · refine Finset.eq_empty_of_forall_notMem ?_
    intro i hi
    obtain ⟨hge, hlt⟩ := (Pmm.mem_freeSet.mp hi).1
    obtain ⟨j, hj, hjlt, hmem⟩ := hfull i hge hlt (by omega)
    obtain rfl : j = i := by omega
    exact hmem hi
  · rw [hnone] at hr
    simp at hr

/-! ## `kmfree` and `pmm_free_pages` -/

theorem Pmm.Wf.kmfree_eq {s : Pmm} (hs : s.Wf) {r : Range}
    (hr : ∀ i ∈ r.cells, s.Tracked i ∧ ¬ s.OwnPage i) (hlength : 0 < r.length) :
    ∃ s', s.kmfree (r.start * pageSize) r.length = .ok s' ∧
      s'.Wf ∧ s.SameLayout s' ∧ s'.freeSet = s.freeSet ∪ r.cells := by
  have hfirst := (hr r.start (by simp [hlength])).1.1
  have hlast := (hr (r.start + r.length - 1)
    (by rw [Range.mem_cells]; omega)).1.2
  obtain ⟨s', hwr, hlayout, hhint, hbits⟩ :=
    hs.wrBitmapRange_eq false (n := r.length) (i := r.start) hfirst (by omega)
  have hfreeSet : s'.freeSet = s.freeSet ∪ r.cells :=
    Pmm.Placed.freeSet_markFree hlayout r (fun i hi => (hr i hi).1) hbits
  have hdiv : r.start * pageSize / pageSize = r.start :=
    Nat.mul_div_cancel _ (by decide)
  refine ⟨s', ?_, ⟨hs.of_sameLayout hlayout, ?_, ?_, ?_⟩, hlayout, hfreeSet⟩
  · rw [Pmm.kmfree, hdiv, hwr]
  · intro i hi
    rw [hfreeSet, Finset.mem_union] at hi
    rw [hlayout.ownPage_iff]
    rcases hi with hi | hi
    · exact hs.own i hi
    · exact (hr i hi).2
  · rw [hhint]
    exact hs.hint_ge
  · rw [hhint, hlayout.maxPage]
    exact hs.hint_le

theorem Pmm.Placed.pmmFreePages_eq {s : Pmm} (hs : s.Placed) :
    s.pmmFreePages = .ok s.freeSet.card := by
  have hbase := hs.base_le
  rw [Pmm.pmmFreePages, hs.countFree_eq le_rfl (by omega),
    Nat.add_sub_cancel' hbase, Nat.zero_add]
  rfl

/-! ## `pmm_init` -/

/-- Whether an entry counts for the highest address. -/
def MemmapEntry.Counted (entry : MemmapEntry) : Prop :=
  entry.type = .usable ∨ entry.type = .bootloaderReclaimable

theorem raiseHighest_bounds {highest limit : ℕ} {entry : MemmapEntry}
    (hhighest : highest ≤ limit) (hentry : entry.Counted → entry.stop ≤ limit) :
    highest ≤ raiseHighest highest entry ∧ raiseHighest highest entry ≤ limit ∧
      (entry.type = .usable → entry.stop ≤ raiseHighest highest entry) := by
  unfold raiseHighest
  split_ifs with htype hgt
  · exact ⟨by omega, hentry htype, fun _ => le_rfl⟩
  · exact ⟨le_rfl, hhighest, fun _ => by omega⟩
  · exact ⟨le_rfl, hhighest, fun husable => absurd (Or.inl husable) htype⟩

theorem highestAddr_bounds {entries : List MemmapEntry} {limit : ℕ}
    (hlimit : ∀ entry ∈ entries, entry.Counted → entry.stop ≤ limit) :
    highestAddr entries ≤ limit ∧
      ∀ entry ∈ entries, entry.type = .usable →
        entry.stop ≤ highestAddr entries := by
  have hfold : ∀ (l : List MemmapEntry) (highest : ℕ), highest ≤ limit →
      (∀ entry ∈ l, entry.Counted → entry.stop ≤ limit) →
      highest ≤ l.foldl raiseHighest highest ∧
        l.foldl raiseHighest highest ≤ limit ∧
        ∀ entry ∈ l, entry.type = .usable →
          entry.stop ≤ l.foldl raiseHighest highest := by
    intro l
    induction l with
    | nil => intro highest hhighest _; simpa using hhighest
    | cons entry l ih =>
        intro highest hhighest hl
        obtain ⟨hge, hle, husable⟩ :=
          raiseHighest_bounds hhighest (hl entry (by simp))
        obtain ⟨hge', hle', hall⟩ := ih _ hle fun other hother =>
          hl other (List.mem_cons_of_mem _ hother)
        refine ⟨hge.trans hge', hle', ?_⟩
        intro other hother htype
        rcases List.mem_cons.mp hother with rfl | hother
        · exact (husable htype).trans hge'
        · exact hall other hother htype
  obtain ⟨-, hle, hall⟩ := hfold entries 0 (Nat.zero_le _) hlimit
  exact ⟨hle, hall⟩

/-- The page lies in the part of the entry that `pmm_init` frees. -/
def MemmapEntry.Covers (entry : MemmapEntry) (i : ℕ) : Prop :=
  alignedBase entry ≤ i * pageSize ∧
    i * pageSize < alignedBase entry + alignedLength entry

theorem alignedBase_mod (entry : MemmapEntry) :
    alignedBase entry % pageSize = 0 := by
  unfold alignedBase
  split_ifs <;> unfold pageSize at * <;> omega

theorem alignedLength_mod (entry : MemmapEntry) :
    alignedLength entry % pageSize = 0 := by
  unfold alignedLength
  simp only
  split_ifs <;> unfold pageSize at * <;> omega

/-- A covered page lies wholly inside the entry. -/
theorem MemmapEntry.Covers.inside {entry : MemmapEntry} {i : ℕ}
    (h : entry.Covers i) :
    entry.base ≤ i * pageSize ∧ (i + 1) * pageSize ≤ entry.stop := by
  obtain ⟨hlow, hhigh⟩ := h
  unfold MemmapEntry.stop
  unfold alignedLength at hhigh
  unfold alignedBase at hlow hhigh
  simp only at hhigh
  unfold pageSize at *
  split_ifs at hlow hhigh <;> omega

theorem Pmm.Placed.freePage_eq {s : Pmm} (hs : s.Placed) (page : ℕ) :
    ∃ s', s.freePage (page * pageSize) = .ok s' ∧ s.SameLayout s' ∧
      s'.lastAllocPage = s.lastAllocPage ∧
      ∀ j, s.Tracked j → (s'.usedBit j = false ↔
        s.usedBit j = false ∨ j = page ∧ ¬ s.OwnPage j) := by
  have hdiv : page * pageSize / pageSize = page :=
    Nat.mul_div_cancel _ (by decide)
  simp only [Pmm.freePage, hdiv]
  by_cases hskip : page < bitmapBase ∨ page ≥ s.maxPage ∨ s.OwnPage page
  · refine ⟨s, ?_, .refl s, rfl, ?_⟩
    · rw [Pmm.OwnPage] at hskip
      split_ifs <;> tauto
    · intro j hj
      constructor
      · exact Or.inl
      · rintro (hbit | ⟨rfl, hown⟩)
        · exact hbit
        · obtain ⟨hge, hlt⟩ := hj
          rcases hskip with hskip | hskip | hskip
          · omega
          · omega
          · exact absurd hskip hown
  · push Not at hskip
    obtain ⟨hge, hlt, hown⟩ := hskip
    obtain ⟨s', hwr, hlayout, hhint, hbits⟩ :=
      hs.wrBitmap_eq (i := page) ⟨hge, hlt⟩ false
    refine ⟨s', ?_, hlayout, hhint, ?_⟩
    · rw [if_neg (by omega), if_neg (by omega)]
      exact (if_neg hown).trans hwr
    · intro j hj
      rw [hbits j hj]
      by_cases heq : j = page
      · subst heq
        simp [hown]
      · simp [heq]

theorem Pmm.Placed.freeFrom_eq {s : Pmm} (hs : s.Placed) (n page : ℕ) :
    ∃ s', Pmm.freeFrom n (page * pageSize) s = .ok s' ∧ s.SameLayout s' ∧
      s'.lastAllocPage = s.lastAllocPage ∧
      ∀ j, s.Tracked j → (s'.usedBit j = false ↔ s.usedBit j = false ∨
        (page ≤ j ∧ j < page + n) ∧ ¬ s.OwnPage j) := by
  induction n generalizing page s with
  | zero =>
      refine ⟨s, rfl, .refl s, rfl, ?_⟩
      intro j _
      have hempty : ¬ (page ≤ j ∧ j < page + 0) := by omega
      tauto
  | succ n ih =>
      obtain ⟨s₁, hfirst, hlayout, hhint, hbits⟩ := hs.freePage_eq page
      obtain ⟨s₂, hrest, hlayout₂, hhint₂, hbits₂⟩ :=
        ih (hs.of_sameLayout hlayout) (page + 1)
      refine ⟨s₂, ?_, hlayout.trans hlayout₂, hhint₂.trans hhint, ?_⟩
      · rw [Nat.succ_mul] at hrest
        simp only [Pmm.freeFrom, hfirst, ok_bind]
        exact hrest
      · intro j hj
        rw [hbits₂ j ((hlayout.tracked_iff j).mpr hj), hbits j hj,
          hlayout.ownPage_iff]
        have hiff : page ≤ j ∧ j < page + (n + 1) ↔
            j = page ∨ page + 1 ≤ j ∧ j < page + 1 + n := by
          omega
        rw [hiff]
        tauto

theorem Pmm.Placed.freeEntry_eq {s : Pmm} (hs : s.Placed) (entry : MemmapEntry) :
    ∃ s', s.freeEntry entry = .ok s' ∧ s.SameLayout s' ∧
      s'.lastAllocPage = s.lastAllocPage ∧
      ∀ j, s.Tracked j → (s'.usedBit j = false ↔ s.usedBit j = false ∨
        (entry.type = .usable ∧ entry.Covers j) ∧ ¬ s.OwnPage j) := by
  by_cases husable : entry.type = .usable
  · have hbase : alignedBase entry / pageSize * pageSize = alignedBase entry :=
      Nat.div_mul_cancel (Nat.dvd_of_mod_eq_zero (alignedBase_mod entry))
    have hlength : alignedLength entry / pageSize * pageSize =
        alignedLength entry :=
      Nat.div_mul_cancel (Nat.dvd_of_mod_eq_zero (alignedLength_mod entry))
    obtain ⟨s', hs', hlayout, hhint, hbits⟩ :=
      hs.freeFrom_eq (alignedLength entry / pageSize)
        (alignedBase entry / pageSize)
    rw [hbase] at hs'
    refine ⟨s', by rw [Pmm.freeEntry, if_pos husable, hs'], hlayout, hhint, ?_⟩
    intro j hj
    have hcovers : (alignedBase entry / pageSize ≤ j ∧
        j < alignedBase entry / pageSize + alignedLength entry / pageSize) ↔
        entry.Covers j := by
      unfold MemmapEntry.Covers
      unfold pageSize at *
      omega
    rw [hbits j hj, hcovers]
    simp [husable]
  · refine ⟨s, if_neg husable, .refl s, rfl, by simp [husable]⟩

theorem Pmm.Placed.freeEntries_eq {s : Pmm} (hs : s.Placed)
    (entries : List MemmapEntry) :
    ∃ s', Pmm.freeEntries entries s = .ok s' ∧ s.SameLayout s' ∧
      s'.lastAllocPage = s.lastAllocPage ∧
      ∀ j, s.Tracked j → (s'.usedBit j = false ↔ s.usedBit j = false ∨
        (∃ entry ∈ entries, entry.type = .usable ∧ entry.Covers j) ∧
          ¬ s.OwnPage j) := by
  induction entries generalizing s with
  | nil => exact ⟨s, rfl, .refl s, rfl, by simp⟩
  | cons entry entries ih =>
      obtain ⟨s₁, hfirst, hlayout, hhint, hbits⟩ := hs.freeEntry_eq entry
      obtain ⟨s₂, hrest, hlayout₂, hhint₂, hbits₂⟩ :=
        ih (hs.of_sameLayout hlayout)
      refine ⟨s₂, ?_, hlayout.trans hlayout₂, hhint₂.trans hhint, ?_⟩
      · simp only [Pmm.freeEntries, hfirst, ok_bind]
        exact hrest
      · intro j hj
        rw [hbits₂ j ((hlayout.tracked_iff j).mpr hj), hbits j hj,
          hlayout.ownPage_iff]
        simp only [List.mem_cons, exists_eq_or_imp]
        tauto

theorem bitmapPlace_eq_some {pages base : ℕ} {entry : MemmapEntry}
    (h : bitmapPlace pages entry = some base) :
    entry.type = .usable ∧ base % pageSize = 0 ∧ memoryBase ≤ base ∧
      entry.base ≤ base ∧ base < roundDown entry.stop ∧
      base + pages * pageSize ≤ entry.stop := by
  unfold bitmapPlace at h
  simp only [Option.ite_none_right_eq_some] at h
  obtain ⟨husable, ⟨hlt, hfits⟩, hbase⟩ := h
  obtain rfl : max (roundUp entry.base) memoryBase = base := by simpa using hbase
  refine ⟨husable, ?_, le_max_right _ _, ?_, hlt, ?_⟩
  · rcases max_choice (roundUp entry.base) memoryBase with hmax | hmax
    · rw [hmax, roundUp]
      exact Nat.mul_mod_left _ _
    · rw [hmax]
      decide
  · refine le_trans ?_ (le_max_left _ _)
    unfold roundUp pageSize
    omega
  · have hdown : roundDown entry.stop ≤ entry.stop := Nat.div_mul_le_self _ _
    omega

/-- After `pmm_init` the free pages are the tracked pages of usable entries
but those of the bitmap, which itself lies in a usable entry. -/
theorem pmmInitMap_eq (map : Memmap) (mem : ℕ → BitVec 32) :
    pmmInitMap map.entries mem =
        .error (.panic "PMM: No usable region holds the page bitmap") ∨
    ∃ s, pmmInitMap map.entries mem = .ok s ∧ s.Wf ∧
      s.maxPage = highestAddr map.entries / pageSize ∧
      (∃ entry ∈ map.entries, entry.type = .usable ∧
        entry.base ≤ s.memBitmap ∧
        s.memBitmap + s.bitmapPages * pageSize ≤ entry.stop) ∧
      ∀ i, i ∈ s.freeSet ↔ s.Tracked i ∧ ¬ s.OwnPage i ∧
        ∃ entry ∈ map.entries, entry.type = .usable ∧ entry.Covers i := by
  obtain ⟨hhighest, hstops⟩ := highestAddr_bounds
    fun entry hentry _ => map.inPhys entry hentry
  unfold pmmInitMap
  simp only
  cases hplace : map.entries.findSome?
      (bitmapPlace (bitmapPagesFor (highestAddr map.entries / pageSize))) with
  | none => exact Or.inl rfl
  | some base =>
      right
      simp only
      obtain ⟨entry, hentry, hbase⟩ := List.exists_of_findSome?_eq_some hplace
      obtain ⟨husable, haligned, hmemory, hlow, hdown, hfits⟩ :=
        bitmapPlace_eq_some hbase
      have hstop := hstops entry hentry husable
      set maxPage := highestAddr map.entries / pageSize with hmaxPage
      set pages := bitmapPagesFor maxPage with hpages
      have hmaxLe : maxPage ≤ physLimit / pageSize :=
        Nat.div_le_div_right hhighest
      have hbaseMax : bitmapBase < maxPage := by
        have hdown' : roundDown entry.stop ≤ maxPage * pageSize := by
          exact Nat.mul_le_mul_right _ (Nat.div_le_div_right hstop)
        unfold bitmapBase memoryBase pageSize at *
        omega
      have hcovers : maxPage - bitmapBase ≤ pages * pageSize * 8 := by
        have hlimit : physLimit / pageSize < 2 ^ 63 := by
          norm_num [physLimit, pageSize]
        rw [hpages, bitmapPagesFor, subSize_of_le hbaseMax.le (by omega),
          Nat.mod_eq_of_lt (by omega)]
        unfold pageSize
        omega
      set s₀ : Pmm :=
        { mem := fun word =>
            if base / 4 ≤ word ∧ word < base / 4 + pages * pageSize / 4 then
              BitVec.allOnes 32
            else mem word
          memBitmap := base
          bitmapPages := pages
          maxPage := maxPage
          lastAllocPage := bitmapBase } with hs₀
      have hplaced : s₀.Placed := ⟨haligned, hbaseMax.le, hmaxLe, hcovers⟩
      have hused : ∀ j, s₀.Tracked j → s₀.usedBit j = true := by
        intro j hj
        have hword := hplaced.inBitmap hj
        unfold Pmm.InBitmap at hword
        rw [hplaced.subSize_eq hj] at hword
        simp only [Pmm.usedBit, hs₀]
        rw [if_pos ⟨by omega, by simpa [hs₀] using hword⟩,
          BitVec.getLsbD_allOnes]
        exact decide_eq_true (Nat.mod_lt _ (by decide))
      obtain ⟨s, hs, hlayout, hhint, hbits⟩ :=
        hplaced.freeEntries_eq map.entries
      have hfree : ∀ i, i ∈ s.freeSet ↔ s.Tracked i ∧ ¬ s.OwnPage i ∧
          ∃ entry ∈ map.entries, entry.type = .usable ∧ entry.Covers i := by
        intro i
        rw [Pmm.freeSet_congr hlayout hbits, hlayout.tracked_iff,
          hlayout.ownPage_iff]
        refine and_congr_right ?_
        intro hi
        rw [hused i hi, and_comm]
        simp only [Bool.true_eq_false, false_or]
      refine ⟨s, hs, ⟨hplaced.of_sameLayout hlayout, ?_, ?_, ?_⟩,
        hlayout.maxPage, ?_, hfree⟩
      · intro i hi
        exact ((hfree i).mp hi).2.1
      · have hstart : s.lastAllocPage = bitmapBase := hhint
        exact hstart.ge
      · rw [hhint, hlayout.maxPage]
        exact hbaseMax.le
      · rw [hlayout.memBitmap, hlayout.bitmapPages]
        exact ⟨entry, hentry, husable, hlow, hfits⟩

end PageAllocator
end SubleqEmu
