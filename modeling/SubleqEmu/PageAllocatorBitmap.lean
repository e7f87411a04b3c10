import SubleqEmu.PageAllocatorModel

/-!
# The page bitmap as a set of free pages

Every loop of the allocator goes over tracked pages only.  On those a bitmap
access stays inside the pages reserved for the bitmap, and the loops read and
write the set of free pages.  Zeroing free pages leaves the bitmap alone, as
its own pages are never free.
-/

namespace SubleqEmu
namespace PageAllocator

/-! ## Single bits -/

theorem getLsbD_setBit {word : BitVec 32} {offset k : ℕ} {val : Bool}
    (hoffset : offset < 32) (hk : k < 32) :
    (setBit word offset val).getLsbD k =
      if k = offset then val else word.getLsbD k := by
  have hone : (1#32 <<< offset).getLsbD k = decide (k = offset) := by
    rw [BitVec.getLsbD_shiftLeft, BitVec.getLsbD_one]
    by_cases heq : k = offset
    · simp [heq, hoffset]
    · by_cases hlt : k < offset
      · simp [heq, hlt]
      · have hsub : k - offset ≠ 0 := by omega
        simp [heq, hsub]
  unfold setBit
  cases val
  · simp only [Bool.false_eq_true, if_false, BitVec.getLsbD_and,
      BitVec.getLsbD_not, hone, hk, decide_true, Bool.true_and]
    by_cases heq : k = offset <;> simp [heq]
  · simp only [if_true, BitVec.getLsbD_or, hone]
    by_cases heq : k = offset <;> simp [heq]

/-- The bitmap's bit of a page: whether it is in use. -/
def Pmm.usedBit (s : Pmm) (i : ℕ) : Bool :=
  (s.mem (s.memBitmap / 4 + (i - bitmapBase) / 32)).getLsbD
    ((i - bitmapBase) % 32)

def Pmm.Tracked (s : Pmm) (i : ℕ) : Prop :=
  bitmapBase ≤ i ∧ i < s.maxPage

/-- The pages the bitmap itself occupies. -/
def Pmm.OwnPage (s : Pmm) (i : ℕ) : Prop :=
  s.memBitmap ≤ i * pageSize ∧
    i * pageSize < s.memBitmap + s.bitmapPages * pageSize

def Pmm.freeSet (s : Pmm) : Finset ℕ :=
  (Finset.Ico bitmapBase s.maxPage).filter fun i => s.usedBit i = false

theorem Pmm.mem_freeSet {s : Pmm} {i : ℕ} :
    i ∈ s.freeSet ↔ s.Tracked i ∧ s.usedBit i = false := by
  simp [Pmm.freeSet, Pmm.Tracked]

/-! ## The invariant -/

/-- The bitmap is page aligned and large enough for the tracked pages. -/
structure Pmm.Placed (s : Pmm) : Prop where
  aligned : s.memBitmap % pageSize = 0
  base_le : bitmapBase ≤ s.maxPage
  max_le : s.maxPage ≤ physLimit / pageSize
  covers : s.maxPage - bitmapBase ≤ s.bitmapPages * pageSize * 8

/-- What every operation of the allocator keeps. -/
structure Pmm.Wf (s : Pmm) : Prop extends s.Placed where
  own : ∀ i ∈ s.freeSet, ¬ s.OwnPage i
  hint_ge : bitmapBase ≤ s.lastAllocPage
  hint_le : s.lastAllocPage ≤ s.maxPage

/-- The two states track the same pages with a bitmap at the same place. -/
structure Pmm.SameLayout (s s' : Pmm) : Prop where
  memBitmap : s'.memBitmap = s.memBitmap
  bitmapPages : s'.bitmapPages = s.bitmapPages
  maxPage : s'.maxPage = s.maxPage

theorem Pmm.SameLayout.refl (s : Pmm) : s.SameLayout s := ⟨rfl, rfl, rfl⟩

theorem Pmm.SameLayout.trans {s s' s'' : Pmm} (h : s.SameLayout s')
    (h' : s'.SameLayout s'') : s.SameLayout s'' :=
  ⟨h'.memBitmap.trans h.memBitmap, h'.bitmapPages.trans h.bitmapPages,
    h'.maxPage.trans h.maxPage⟩

theorem Pmm.Placed.of_sameLayout {s s' : Pmm} (hs : s.Placed)
    (h : s.SameLayout s') : s'.Placed := by
  obtain ⟨hbitmap, hpages, hmax⟩ := h
  exact ⟨hbitmap ▸ hs.aligned, hmax ▸ hs.base_le, hmax ▸ hs.max_le,
    by rw [hmax, hpages]; exact hs.covers⟩

theorem Pmm.SameLayout.ownPage_iff {s s' : Pmm} (h : s.SameLayout s') (i : ℕ) :
    s'.OwnPage i ↔ s.OwnPage i := by
  simp [Pmm.OwnPage, h.memBitmap, h.bitmapPages]

theorem Pmm.SameLayout.tracked_iff {s s' : Pmm} (h : s.SameLayout s') (i : ℕ) :
    s'.Tracked i ↔ s.Tracked i := by
  simp [Pmm.Tracked, h.maxPage]

/-! ## Accesses to tracked pages -/

theorem Pmm.Placed.subSize_eq {s : Pmm} (hs : s.Placed) {i : ℕ}
    (hi : s.Tracked i) : subSize i bitmapBase = i - bitmapBase := by
  have hmax := hs.max_le
  have hlt : physLimit / pageSize < 2 ^ 64 := by
    norm_num [physLimit, pageSize]
  exact subSize_of_le hi.1 (lt_of_lt_of_le hi.2 (hmax.trans hlt.le))

theorem Pmm.Placed.inBitmap {s : Pmm} (hs : s.Placed) {i : ℕ}
    (hi : s.Tracked i) : s.InBitmap i := by
  have hcovers := hs.covers
  have hlt := hi.2
  have hge := hi.1
  unfold Pmm.InBitmap
  rw [hs.subSize_eq hi]
  unfold pageSize at *
  omega

theorem Pmm.Placed.rdBitmap_eq {s : Pmm} (hs : s.Placed) {i : ℕ}
    (hi : s.Tracked i) : s.rdBitmap i = .ok (s.usedBit i) := by
  simp only [Pmm.rdBitmap, hs.inBitmap hi, if_true, Pmm.usedBit,
    Pmm.bitmapWord, hs.subSize_eq hi]

theorem Pmm.Placed.wrBitmap_eq {s : Pmm} (hs : s.Placed) {i : ℕ}
    (hi : s.Tracked i) (val : Bool) :
    ∃ s', s.wrBitmap i val = .ok s' ∧ s.SameLayout s' ∧
      s'.lastAllocPage = s.lastAllocPage ∧
      ∀ j, s.Tracked j → s'.usedBit j = if j = i then val else s.usedBit j := by
  refine ⟨_, if_pos (hs.inBitmap hi), ⟨rfl, rfl, rfl⟩, rfl, ?_⟩
  intro j hj
  have hige := hi.1
  have hjge := hj.1
  simp only [Pmm.usedBit, Pmm.bitmapWord, hs.subSize_eq hi]
  by_cases hword : (j - bitmapBase) / 32 = (i - bitmapBase) / 32
  · rw [hword, Function.update_self,
      getLsbD_setBit (Nat.mod_lt _ (by decide)) (Nat.mod_lt _ (by decide))]
    have hiff : (j - bitmapBase) % 32 = (i - bitmapBase) % 32 ↔ j = i := by
      omega
    simp only [hiff]
  · have hne : j ≠ i := by
      rintro rfl
      exact hword rfl
    rw [Function.update_of_ne (by omega), if_neg hne]

/-! ## Loops over tracked pages -/

theorem Pmm.Placed.wrBitmapRange_eq {s : Pmm} (hs : s.Placed) (val : Bool)
    {n i : ℕ} (hge : bitmapBase ≤ i) (hle : i + n ≤ s.maxPage) :
    ∃ s', Pmm.wrBitmapRange val n i s = .ok s' ∧ s.SameLayout s' ∧
      s'.lastAllocPage = s.lastAllocPage ∧
      ∀ j, s.Tracked j →
        s'.usedBit j = if i ≤ j ∧ j < i + n then val else s.usedBit j := by
  induction n generalizing i s with
  | zero =>
      refine ⟨s, rfl, .refl s, rfl, ?_⟩
      intro j _
      rw [if_neg (by omega)]
  | succ n ih =>
      obtain ⟨s₁, hwr, hlayout, hhint, hbits⟩ :=
        hs.wrBitmap_eq (i := i) ⟨hge, by omega⟩ val
      obtain ⟨s₂, hrest, hlayout₂, hhint₂, hbits₂⟩ :=
        ih (hs.of_sameLayout hlayout) (i := i + 1) (by omega)
          (by rw [hlayout.maxPage]; omega)
      refine ⟨s₂, ?_, hlayout.trans hlayout₂, hhint₂.trans hhint, ?_⟩
      · simp only [Pmm.wrBitmapRange, hwr]
        exact hrest
      · intro j hj
        rw [hbits₂ j ((hlayout.tracked_iff j).mpr hj), hbits j hj]
        by_cases heq : j = i
        · simp [heq]
        · have hiff : i + 1 ≤ j ∧ j < i + 1 + n ↔ i ≤ j ∧ j < i + (n + 1) := by
            omega
          simp only [hiff, heq, if_false]

theorem Pmm.scan_succ {s : Pmm} {i : ℕ} {used : Bool}
    (hrd : s.rdBitmap i = .ok used) (pages n pgCounter : ℕ) :
    s.scan pages (n + 1) i pgCounter =
      if (if used then 0 else pgCounter + 1) = pages then .ok (some i)
      else s.scan pages n (i + 1) (if used then 0 else pgCounter + 1) := by
  simp only [Pmm.scan, hrd]
  rfl

theorem Pmm.countFree_succ {s : Pmm} {i : ℕ} {used : Bool}
    (hrd : s.rdBitmap i = .ok used) (n count : ℕ) :
    s.countFree (n + 1) i count =
      s.countFree n (i + 1) (if used then count else count + 1) := by
  simp only [Pmm.countFree, hrd]
  rfl

/-- The scan stops at the end of the first run of free pages that is long
enough.  The counter always covers the free pages just before `i`. -/
theorem Pmm.Placed.scan_eq {s : Pmm} (hs : s.Placed) {pages : ℕ}
    (n i pgCounter : ℕ) (hcounter : pgCounter < pages) (hge : bitmapBase + pgCounter ≤ i)
    (hle : i + n ≤ s.maxPage)
    (hfree : ∀ j, i - pgCounter ≤ j → j < i → j ∈ s.freeSet) :
    ∃ r, s.scan pages n i pgCounter = .ok r ∧
      (∀ k, r = some k → i + pages ≤ k + 1 + pgCounter ∧ k < i + n ∧
        ∀ j, k + 1 - pages ≤ j → j ≤ k → j ∈ s.freeSet) ∧
      (r = none → ∀ first, i - pgCounter ≤ first → i < first + pages →
        first + pages ≤ i + n → ∃ j, first ≤ j ∧ j < first + pages ∧
          j ∉ s.freeSet) := by
  induction n generalizing i pgCounter with
  | zero =>
      refine ⟨none, rfl, by simp, ?_⟩
      intro _ first _ hlt hend
      omega
  | succ n ih =>
      have htracked : s.Tracked i := ⟨by omega, by omega⟩
      rw [Pmm.scan_succ (hs.rdBitmap_eq htracked)]
      cases hused : s.usedBit i with
      | true =>
          have hmem : i ∉ s.freeSet := by
            simp [Pmm.mem_freeSet, hused]
          obtain ⟨r, hr, hsome, hnone⟩ := ih (i + 1) 0
            (by omega) (by omega) (by omega) (by intro j _ _; omega)
          have hpages : ¬ (0 = pages) := by omega
          refine ⟨r, by simpa [hpages] using hr, ?_, ?_⟩
          · intro k hk
            obtain ⟨hfirst, hlast, hrun⟩ := hsome k hk
            exact ⟨by omega, by omega, hrun⟩
          · intro hr first hfirst hlt hend
            by_cases hbefore : first ≤ i
            · exact ⟨i, hbefore, hlt, hmem⟩
            · exact hnone hr first (by omega) (by omega) (by omega)
      | false =>
          have hmem : i ∈ s.freeSet := Pmm.mem_freeSet.mpr ⟨htracked, hused⟩
          have hfree' : ∀ j, i + 1 - (pgCounter + 1) ≤ j → j < i + 1 →
              j ∈ s.freeSet := by
            intro j hj hlt
            rcases Nat.lt_succ_iff_lt_or_eq.mp hlt with hlt | rfl
            · exact hfree j (by omega) hlt
            · exact hmem
          by_cases hfound : pgCounter + 1 = pages
          · refine ⟨some i, by simp [hfound], ?_, by simp⟩
            intro k hk
            obtain rfl : i = k := by simpa using hk
            exact ⟨by omega, by omega, fun j hj hlt =>
              hfree' j (by omega) (by omega)⟩
          · obtain ⟨r, hr, hsome, hnone⟩ := ih (i + 1)
              (pgCounter + 1) (by omega) (by omega) (by omega) hfree'
            refine ⟨r, by simpa [hfound] using hr, ?_, ?_⟩
            · intro k hk
              obtain ⟨hfirst, hlast, hrun⟩ := hsome k hk
              exact ⟨by omega, by omega, hrun⟩
            · intro hr first hfirst hlt hend
              exact hnone hr first (by omega) (by omega) (by omega)

theorem Pmm.Placed.countFree_eq {s : Pmm} (hs : s.Placed) {n i count : ℕ}
    (hge : bitmapBase ≤ i) (hle : i + n ≤ s.maxPage) :
    s.countFree n i count =
      .ok (count + ((Finset.Ico i (i + n)).filter fun j =>
        s.usedBit j = false).card) := by
  induction n generalizing i count with
  | zero => simp [Pmm.countFree]
  | succ n ih =>
      have htracked : s.Tracked i := ⟨hge, by omega⟩
      have hinsert : Finset.Ico i (i + (n + 1)) =
          insert i (Finset.Ico (i + 1) (i + 1 + n)) := by
        ext j
        simp only [Finset.mem_Ico, Finset.mem_insert]
        omega
      have hnot : i ∉ (Finset.Ico (i + 1) (i + 1 + n)).filter fun j =>
          s.usedBit j = false := by
        simp
      rw [Pmm.countFree_succ (hs.rdBitmap_eq htracked), ih (by omega) (by omega), hinsert,
        Finset.filter_insert]
      cases hused : s.usedBit i with
      | true => simp
      | false =>
          simp only [if_true, Bool.false_eq_true, if_false,
            Finset.card_insert_of_notMem hnot]
          congr 1
          omega

/-- Zeroing pages outside the bitmap changes no bit of it. -/
theorem Pmm.Placed.usedBit_zeroPages {s : Pmm} (hs : s.Placed)
    {page pages i : ℕ} (hi : s.Tracked i)
    (hout : ∀ j, page ≤ j → j < page + pages → ¬ s.OwnPage j) :
    (s.zeroPages page pages).usedBit i = s.usedBit i := by
  have hword := hs.inBitmap hi
  unfold Pmm.InBitmap at hword
  rw [hs.subSize_eq hi] at hword
  have haligned := hs.aligned
  simp only [Pmm.usedBit, Pmm.zeroPages]
  rw [if_neg]
  rintro ⟨hlow, hhigh⟩
  -- the page holding this word of the bitmap is one of those zeroed
  set word := s.memBitmap / 4 + (i - bitmapBase) / 32
  have hown : s.OwnPage (word * 4 / pageSize) := by
    unfold Pmm.OwnPage
    unfold pageSize at *
    omega
  refine hout (word * 4 / pageSize) ?_ ?_ hown <;>
  · unfold pageSize at *
    omega

end PageAllocator
end SubleqEmu
