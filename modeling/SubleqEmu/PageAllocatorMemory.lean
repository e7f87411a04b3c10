import SubleqEmu.PageAllocatorOperations

/-!
# What the allocator does to memory

The set of free pages says nothing of the words behind it.  Here the operations
are followed word by word: the bits they change, and the memory they leave alone.
-/

namespace SubleqEmu
namespace PageAllocator

/-- A bit of the bitmap, tracked or not. -/
def Pmm.bit (s : Pmm) (b : ℕ) : Bool := (s.mem (s.memBitmap / 4 + b / 32)).getLsbD (b % 32)

theorem Pmm.usedBit_eq_bit (s : Pmm) (i : ℕ) : s.usedBit i = s.bit (i - bitmapBase) := rfl

def Pmm.BitmapWord (s : Pmm) (w : ℕ) : Prop :=
  s.memBitmap / 4 ≤ w ∧ w < s.memBitmap / 4 + s.bitmapPages * pageSize / 4

/-- The two states have the same words in the bitmap. -/
def Pmm.SameBitmap (s s' : Pmm) : Prop := ∀ w, s.BitmapWord w → s'.mem w = s.mem w

theorem Pmm.sameBitmap_of_bits {s s' : Pmm} (hlayout : s.SameLayout s')
    (hbits : ∀ b, s.BitmapWord (s.memBitmap / 4 + b / 32) → s'.bit b = s.bit b) :
    s.SameBitmap s' := by
  intro w hw
  obtain ⟨c, rfl⟩ := Nat.exists_eq_add_of_le hw.1
  apply BitVec.eq_of_getLsbD_eq
  intro k hk
  have hdiv : (32 * c + k) / 32 = c := by omega
  have hmod : (32 * c + k) % 32 = k := by omega
  have hbit := hbits (32 * c + k) (by rwa [hdiv])
  simpa only [Pmm.bit, hlayout.memBitmap, hdiv, hmod] using hbit

/-! ## Writes next to the bitmap -/

theorem Pmm.Placed.bitmapWord_of_tracked {s : Pmm} (hs : s.Placed) {i : ℕ}
    (hi : s.Tracked i) : s.BitmapWord (s.memBitmap / 4 + (i - bitmapBase) / 32) := by
  have hin := hs.inBitmap hi
  unfold Pmm.InBitmap at hin
  rw [hs.subSize_eq hi] at hin
  unfold Pmm.BitmapWord
  omega

/-- The same state over other memory. -/
def Pmm.withMem (s : Pmm) (f : ℕ → BitVec 32) : Pmm := { s with mem := f }

theorem Pmm.Placed.freeSet_withMem {s : Pmm} (hs : s.Placed) {f : ℕ → BitVec 32}
    (hf : ∀ w, s.BitmapWord w → f w = s.mem w) : (s.withMem f).freeSet = s.freeSet := by
  ext i
  rw [Pmm.mem_freeSet, Pmm.mem_freeSet]
  refine and_congr_right fun hi => ?_
  simp only [Pmm.usedBit, Pmm.withMem, hf _ (hs.bitmapWord_of_tracked hi)]

theorem Pmm.Wf.withMem {s : Pmm} (hs : s.Wf) {f : ℕ → BitVec 32}
    (hf : ∀ w, s.BitmapWord w → f w = s.mem w) : (s.withMem f).Wf := by
  refine ⟨⟨hs.aligned, hs.base_le, hs.max_le, hs.covers⟩, ?_, hs.hint_ge, hs.hint_le⟩
  rw [hs.freeSet_withMem hf]
  exact hs.own

/-! ## Marking a range -/

/-- `n` pages from `i` were marked in the bitmap, and nothing else changed. -/
structure Pmm.Marked (val : Bool) (i n : ℕ) (s s' : Pmm) : Prop where
  layout : s.SameLayout s'
  inside : ∀ k < n, s'.bit (subSize (i + k) bitmapBase) = val
  outside : ∀ b, (∀ k < n, subSize (i + k) bitmapBase ≠ b) → s'.bit b = s.bit b
  frame : ∀ w, ¬ s.BitmapWord w → s'.mem w = s.mem w

theorem Pmm.marked_of_wrBitmap {s s' : Pmm} {i : ℕ} {val : Bool}
    (h : s.wrBitmap i val = .ok s') : Pmm.Marked val i 1 s s' := by
  unfold Pmm.wrBitmap at h
  split_ifs at h with hin
  cases h
  have hbit : ∀ b, Pmm.bit { s with
      mem := Function.update s.mem (s.bitmapWord i)
        (setBit (s.mem (s.bitmapWord i)) (subSize i bitmapBase % 32) val) } b =
      if b = subSize i bitmapBase then val else s.bit b := by
    intro b
    simp only [Pmm.bit, Pmm.bitmapWord]
    by_cases hword : b / 32 = subSize i bitmapBase / 32
    · rw [hword, Function.update_self,
        getLsbD_setBit (Nat.mod_lt _ (by decide)) (Nat.mod_lt _ (by decide))]
      have hiff : b % 32 = subSize i bitmapBase % 32 ↔ b = subSize i bitmapBase := by omega
      simp only [hiff]
    · rw [Function.update_of_ne (by omega), if_neg fun heq => hword (by rw [heq])]
  refine ⟨⟨rfl, rfl, rfl⟩, ?_, ?_, ?_⟩
  · intro k hk
    obtain rfl : k = 0 := by omega
    rw [hbit, Nat.add_zero, if_pos rfl]
  · intro b hb
    have hne := hb 0 one_pos
    rw [Nat.add_zero] at hne
    rw [hbit, if_neg hne.symm]
  · intro w hw
    refine Function.update_of_ne ?_ _ _
    rintro rfl
    apply hw
    unfold Pmm.InBitmap at hin
    unfold Pmm.BitmapWord Pmm.bitmapWord
    omega

theorem Pmm.SameLayout.bitmapWord_iff {s s' : Pmm} (h : s.SameLayout s') (w : ℕ) :
    s'.BitmapWord w ↔ s.BitmapWord w := by
  simp [Pmm.BitmapWord, h.memBitmap, h.bitmapPages]

theorem Pmm.marked_of_wrBitmapRange {val : Bool} {n i : ℕ} {s s' : Pmm}
    (h : Pmm.wrBitmapRange val n i s = .ok s') : Pmm.Marked val i n s s' := by
  induction n generalizing i s with
  | zero =>
      cases h
      exact ⟨.refl _, by omega, fun _ _ => rfl, fun _ _ => rfl⟩
  | succ n ih =>
      obtain ⟨s₁, hfirst, hrest⟩ := bind_eq_ok.mp h
      have hone := Pmm.marked_of_wrBitmap hfirst
      have hmany := ih hrest
      refine ⟨hone.layout.trans hmany.layout, ?_, ?_, ?_⟩
      · intro k hk
        by_cases hlater : ∃ j < n, subSize (i + 1 + j) bitmapBase = subSize (i + k) bitmapBase
        · obtain ⟨j, hj, heq⟩ := hlater
          rw [← heq]
          exact hmany.inside j hj
        · push Not at hlater
          obtain rfl : k = 0 := by
            by_contra hpos
            refine hlater (k - 1) (by omega) ?_
            rw [show i + 1 + (k - 1) = i + k by omega]
          rw [hmany.outside _ hlater]
          exact hone.inside 0 one_pos
      · intro b hb
        rw [hmany.outside b fun k hk => ?_, hone.outside b fun k hk => ?_]
        · obtain rfl : k = 0 := by omega
          exact hb 0 (Nat.succ_pos n)
        · have hne := hb (k + 1) (by omega)
          rwa [show i + (k + 1) = i + 1 + k by omega] at hne
      · intro w hw
        rw [hmany.frame w ((hone.layout.bitmapWord_iff w).not.mpr hw), hone.frame w hw]

/-! ## Handing out and freeing a range -/

/-- Word `w` of memory is in a page of `r`. -/
def Range.Word (r : Range) (w : ℕ) : Prop :=
  r.start * pageSize / 4 ≤ w ∧ w < (r.start + r.length) * pageSize / 4

theorem Range.word_iff (r : Range) (w : ℕ) : Range.Word r w ↔ w * 4 / pageSize ∈ r.cells := by
  rw [Range.mem_cells]
  unfold Range.Word pageSize
  omega

theorem Range.Word.not_of_apart {r r' : Range} {w : ℕ} (hw : Range.Word r w)
    (hapart : Disjoint r.cells r'.cells) : ¬ Range.Word r' w := by
  rw [Range.word_iff] at *
  exact Finset.disjoint_left.mp hapart hw

/-- The free range `r` was handed out. -/
structure Pmm.Handed (s s' : Pmm) (r : Range) : Prop where
  wf : s'.Wf
  layout : s.SameLayout s'
  was_free : r.cells ⊆ s.freeSet
  freeSet : s'.freeSet = s.freeSet \ r.cells
  inside : ∀ i ∈ r.cells, s'.bit (i - bitmapBase) = true
  outside : ∀ b, s.BitmapWord (s.memBitmap / 4 + b / 32) → b + bitmapBase ∉ r.cells →
    s'.bit b = s.bit b
  frame : ∀ w, ¬ s.BitmapWord w → ¬ Range.Word r w → s'.mem w = s.mem w

/-- The range `r` was freed. -/
structure Pmm.Freed (s s' : Pmm) (r : Range) : Prop where
  wf : s'.Wf
  layout : s.SameLayout s'
  freeSet : s'.freeSet = s.freeSet ∪ r.cells
  inside : ∀ i ∈ r.cells, s'.bit (i - bitmapBase) = false
  outside : ∀ b, b + bitmapBase ∉ r.cells → s'.bit b = s.bit b
  frame : ∀ w, ¬ s.BitmapWord w → s'.mem w = s.mem w

theorem Pmm.kmalloc_eq_some {s s' : Pmm} {pages ptr : ℕ}
    (h : s.kmalloc pages = .ok (some ptr, s')) :
    ∃ strtPage i s₁, ptr = strtPage * pageSize ∧
      Pmm.wrBitmapRange true pages strtPage { s with lastAllocPage := i } = .ok s₁ ∧
      s' = s₁.zeroPages strtPage pages := by
  have hfound : ∀ i, s.found pages i = .ok (some ptr, s') →
      ∃ strtPage i s₁, ptr = strtPage * pageSize ∧
        Pmm.wrBitmapRange true pages strtPage { s with lastAllocPage := i } = .ok s₁ ∧
        s' = s₁.zeroPages strtPage pages := by
    intro i hi
    obtain ⟨s₁, hmark, hrest⟩ := bind_eq_ok.mp hi
    cases hrest
    exact ⟨_, _, s₁, rfl, hmark, rfl⟩
  obtain ⟨first, -, h⟩ := bind_eq_ok.mp h
  cases first with
  | some i => exact hfound i h
  | none =>
      obtain ⟨second, -, h⟩ := bind_eq_ok.mp h
      cases second with
      | some i => exact hfound i h
      | none => cases h

theorem Pmm.Placed.subSize_page {s : Pmm} (hs : s.Placed) {i : ℕ} (hge : bitmapBase ≤ i)
    (hlt : i < s.maxPage) : subSize i bitmapBase = i - bitmapBase :=
  hs.subSize_eq ⟨hge, hlt⟩

theorem Pmm.mem_freeSet_bounds {s : Pmm} {r : Range} (hr : r.cells ⊆ s.freeSet)
    (hlength : 0 < r.length) : bitmapBase ≤ r.start ∧ r.start + r.length ≤ s.maxPage := by
  have hfirst : r.start ∈ s.freeSet := hr (Range.mem_cells.mpr (by omega))
  have hlast : r.start + r.length - 1 ∈ s.freeSet := hr (Range.mem_cells.mpr (by omega))
  have hge := (Pmm.mem_freeSet.mp hfirst).1.1
  have hlt := (Pmm.mem_freeSet.mp hlast).1.2
  omega

/-- The words of the bitmap are not in pages handed out. -/
theorem Pmm.Placed.not_word_of_bitmapWord {s : Pmm} (hs : s.Placed) {r : Range}
    (hown : ∀ i ∈ r.cells, ¬ s.OwnPage i) {w : ℕ} (hw : s.BitmapWord w) :
    ¬ Range.Word r w := by
  intro hword
  have haligned := hs.aligned
  apply hown _ ((Range.word_iff r w).mp hword)
  unfold Pmm.BitmapWord at hw
  unfold Pmm.OwnPage
  unfold pageSize at *
  omega

theorem Pmm.Wf.handed {s s' : Pmm} (hs : s.Wf) {pages ptr : ℕ} (hpages : 0 < pages)
    (h : s.kmalloc pages = .ok (some ptr, s')) :
    ∃ r : Range, ptr = r.start * pageSize ∧ r.length = pages ∧ s.Handed s' r := by
  rcases hs.kmalloc_eq hpages with ⟨hnone, -⟩ |
    ⟨r, s₂, hlength, hcells, hsome, hwf, hlayout, hfree⟩
  · rw [hnone] at h
    cases h
  · rw [hsome] at h
    obtain ⟨rfl, rfl⟩ : r.start * pageSize = ptr ∧ s₂ = s' := by simpa using h
    obtain ⟨strtPage, i, s₁, hptr, hmark, hzero⟩ := Pmm.kmalloc_eq_some hsome
    obtain rfl : r.start = strtPage := Nat.eq_of_mul_eq_mul_right (by decide) hptr
    have hbounds := Pmm.mem_freeSet_bounds hcells (by omega)
    have hown : ∀ j ∈ r.cells, ¬ s.OwnPage j := fun j hj => hs.own j (hcells hj)
    obtain ⟨-, hinside, houtside, hframe⟩ := Pmm.marked_of_wrBitmapRange hmark
    have hindex : ∀ k < pages, subSize (r.start + k) bitmapBase = r.start + k - bitmapBase :=
      fun k hk => hs.subSize_page (by omega) (by omega)
    -- zeroing the pages leaves the bitmap alone
    have hword : ∀ w, s.BitmapWord w → s₂.mem w = s₁.mem w := by
      intro w hw
      have hnot := hs.not_word_of_bitmapWord hown hw
      rw [hzero]
      exact if_neg (by rwa [← hlength])
    have hbit : ∀ b, s.BitmapWord (s.memBitmap / 4 + b / 32) → s₂.bit b = s₁.bit b := by
      intro b hb
      have hbitmap : s₂.memBitmap = s₁.memBitmap := by rw [hzero]; rfl
      unfold Pmm.bit
      rw [hlayout.memBitmap, ← hbitmap, hlayout.memBitmap, hword _ hb]
    refine ⟨r, rfl, hlength, hwf, hlayout, hcells, hfree, ?_, ?_, ?_⟩
    · intro j hj
      rw [Range.mem_cells] at hj
      have hmem := hcells (Range.mem_cells.mpr hj)
      rw [hbit]
      · have hin := hinside (j - r.start) (by omega)
        rwa [hindex _ (by omega), show r.start + (j - r.start) = j by omega] at hin
      · exact hs.bitmapWord_of_tracked (Pmm.mem_freeSet.mp hmem).1
    · intro b hb hnot
      rw [hbit b hb, houtside b]
      · rfl
      · intro k hk heq
        rw [hindex k hk] at heq
        apply hnot
        rw [Range.mem_cells]
        omega
    · intro w hw hnot
      rw [hzero]
      show (if _ then _ else s₁.mem w) = s.mem w
      rw [if_neg (by rwa [← hlength])]
      exact hframe w hw

/-- Writes to the pages handed out. -/
theorem Pmm.Handed.write {s s' : Pmm} {r : Range} (h : s.Handed s' r) (hs : s.Wf)
    {f : ℕ → BitVec 32} (hf : ∀ w, ¬ Range.Word r w → f w = s'.mem w) :
    s.Handed (s'.withMem f) r := by
  have hbitmap : ∀ w, s'.BitmapWord w → f w = s'.mem w := by
    intro w hw
    apply hf
    exact hs.not_word_of_bitmapWord (fun i hi => hs.own i (h.was_free hi))
      ((h.layout.bitmapWord_iff w).mp hw)
  have hbit : ∀ b, s.BitmapWord (s.memBitmap / 4 + b / 32) → (s'.withMem f).bit b = s'.bit b := by
    intro b hb
    have hword := hbitmap _ ((h.layout.bitmapWord_iff _).mpr hb)
    simp only [Pmm.bit, Pmm.withMem, h.layout.memBitmap, hword]
  refine ⟨h.wf.withMem hbitmap, ⟨h.layout.memBitmap, h.layout.bitmapPages, h.layout.maxPage⟩,
    h.was_free, (h.wf.freeSet_withMem hbitmap).trans h.freeSet, ?_, ?_, ?_⟩
  · intro i hi
    rw [hbit _ (hs.bitmapWord_of_tracked (Pmm.mem_freeSet.mp (h.was_free hi)).1)]
    exact h.inside i hi
  · intro b hb hnot
    rw [hbit b hb]
    exact h.outside b hb hnot
  · intro w hw hnot
    exact (hf w hnot).trans (h.frame w hw hnot)

theorem Pmm.Wf.freed {s : Pmm} (hs : s.Wf) {r : Range}
    (hr : ∀ i ∈ r.cells, s.Tracked i ∧ ¬ s.OwnPage i) (hlength : 0 < r.length) :
    ∃ s', Pmm.wrBitmapRange false r.length r.start s = .ok s' ∧ s.Freed s' r := by
  obtain ⟨s', hs', hwf, hlayout, hfree⟩ := hs.kmfree_eq hr hlength
  rw [Pmm.kmfree, Nat.mul_div_cancel _ (by decide)] at hs'
  obtain ⟨-, hinside, houtside, hframe⟩ := Pmm.marked_of_wrBitmapRange hs'
  have hindex : ∀ k < r.length,
      subSize (r.start + k) bitmapBase = r.start + k - bitmapBase ∧ bitmapBase ≤ r.start + k := by
    intro k hk
    have htracked := (hr (r.start + k) (Range.mem_cells.mpr (by omega))).1
    exact ⟨hs.subSize_eq htracked, htracked.1⟩
  refine ⟨s', hs', hwf, hlayout, hfree, ?_, ?_, hframe⟩
  · intro j hj
    rw [Range.mem_cells] at hj
    have hin := hinside (j - r.start) (by omega)
    rwa [(hindex _ (by omega)).1, show r.start + (j - r.start) = j by omega] at hin
  · intro b hnot
    refine houtside b fun k hk heq => ?_
    rw [(hindex k hk).1] at heq
    have hge := (hindex k hk).2
    apply hnot
    rw [Range.mem_cells]
    omega

end PageAllocator
end SubleqEmu
