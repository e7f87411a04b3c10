import SubleqEmu.KernelHeapModel
import SubleqEmu.PageAllocatorMemory

/-!
# `kfree` after `kalloc`

`kfree` subtracts the offset of the direct map from a pointer to the metadata,
which scales it by the size of the metadata.  What it hands to `kmfree` is off by
fifteen times the offset; the round trip works when that stays within the page.
-/

namespace SubleqEmu
namespace KernelHeap

open PageAllocator

/-! ## Words in the pages of an object -/

theorem rd64_congr {s s' : Pmm} {p : ℕ} (hlow : s'.mem (p / 4) = s.mem (p / 4))
    (hhigh : s'.mem (p / 4 + 1) = s.mem (p / 4 + 1)) : rd64 s' p = rd64 s p := by
  rw [rd64, rd64, hlow, hhigh]

theorem rd64_wr64_self (s : Pmm) (p : ℕ) (val : BitVec 64) : rd64 (wr64 s p val) p = val := by
  have hne : p / 4 ≠ p / 4 + 1 := by omega
  simp only [rd64, wr64, Function.update_self, Function.update_of_ne hne]
  apply BitVec.eq_of_getLsbD_eq
  intro k hk
  simp only [BitVec.getLsbD_append, BitVec.getLsbD_extractLsb']
  by_cases hlow : k < 32
  · simp [hlow]
  · have hsplit : 32 + (k - 32) = k := by omega
    have hhigh : k - 32 < 32 := by omega
    simp [hlow, hhigh, hsplit]

theorem wr64_mem_of_ne {s : Pmm} {p w : ℕ} {val : BitVec 64} (hlow : w ≠ p / 4)
    (hhigh : w ≠ p / 4 + 1) : (wr64 s p val).mem w = s.mem w := by
  simp only [wr64, Function.update_of_ne hhigh, Function.update_of_ne hlow]

theorem phys_page {offset : Offset} {p : ℕ} (hp : p < 2 ^ 64) :
    phys offset (BitVec.ofNat 64 p + offset) = p := by
  rw [phys, BitVec.add_sub_cancel, BitVec.toNat_ofNat, Nat.mod_eq_of_lt hp]

theorem phys_add {offset : Offset} {p k : ℕ} (hp : p + k < 2 ^ 64) :
    phys offset (BitVec.ofNat 64 p + offset + BitVec.ofNat 64 k) = p + k := by
  rw [BitVec.add_assoc, BitVec.add_comm offset, ← BitVec.add_assoc, ← BitVec.ofNat_add]
  exact phys_page hp

/-! ## Objects -/

/-- An object as its owner knows it. -/
structure Object where
  addr : Addr
  size : BitVec 64

/-- The page of an object's metadata. -/
def Object.start (offset : Offset) (o : Object) : ℕ := phys offset (o.addr - pageBytes) / pageSize

/-- The pages of an object, its metadata included. -/
def Object.range (offset : Offset) (o : Object) : Range := ⟨o.start offset, pagesOf o.size + 1⟩

/-- The object's metadata is in place, right at the start of its pages. -/
structure Object.Live (offset : Offset) (s : Pmm) (o : Object) : Prop where
  addr : o.addr = BitVec.ofNat 64 (o.start offset * pageSize) + offset + pageBytes
  last_le : o.start offset + pagesOf o.size + 1 ≤ physLimit / pageSize
  pages : rd64 s (o.start offset * pageSize) = BitVec.ofNat 64 (pagesOf o.size)
  size : rd64 s (o.start offset * pageSize + 8) = o.size

/-- The object over the pages from `page`. -/
def objectAt (offset : Offset) (page : ℕ) (size : BitVec 64) : Object :=
  ⟨BitVec.ofNat 64 (page * pageSize) + offset + pageBytes, size⟩

theorem objectAt_start (offset : Offset) (size : BitVec 64) {page : ℕ}
    (hpage : page < physLimit / pageSize) : (objectAt offset page size).start offset = page := by
  have hlt : page * pageSize < 2 ^ 64 := by
    unfold physLimit pageSize at *
    omega
  rw [Object.start, objectAt, BitVec.add_sub_cancel, phys_page hlt]
  exact Nat.mul_div_cancel _ (by decide)

theorem pagesOf_le (size : BitVec 64) : pagesOf size ≤ 2 ^ 52 := by
  have hlt := size.isLt
  unfold pagesOf pageSize
  split_ifs <;> omega

/-- Four words of memory decide about the metadata. -/
theorem Object.Live.congr {offset : Offset} {s s' : Pmm} {o : Object} (h : o.Live offset s)
    (hmem : ∀ k < 4, s'.mem (o.start offset * pageSize / 4 + k) =
      s.mem (o.start offset * pageSize / 4 + k)) : o.Live offset s' := by
  have hdiv : (o.start offset * pageSize + 8) / 4 = o.start offset * pageSize / 4 + 2 := by omega
  refine ⟨h.addr, h.last_le, ?_, ?_⟩
  · rw [rd64_congr (hmem 0 (by decide)) (hmem 1 (by decide))]
    exact h.pages
  · rw [rd64_congr (s := s)]
    · exact h.size
    · rw [hdiv]
      exact hmem 2 (by decide)
    · rw [hdiv]
      exact hmem 3 (by decide)

theorem Object.word_metadata (offset : Offset) (o : Object) {k : ℕ} (hk : k < 4) :
    Range.Word (o.range offset) (o.start offset * pageSize / 4 + k) := by
  unfold Range.Word Object.range pageSize
  simp only
  omega

/-- Writing the metadata of an object over pages just handed out. -/
theorem writeMetadata_live {offset : Offset} {s : Pmm} {page : ℕ} {size : BitVec 64}
    (hlast : page + pagesOf size + 1 ≤ physLimit / pageSize) :
    (objectAt offset page size).Live offset
      (wr64 (wr64 s (page * pageSize) (BitVec.ofNat 64 (pagesOf size)))
        (page * pageSize + 8) size) := by
  have hstart : (objectAt offset page size).start offset = page :=
    objectAt_start offset size (by omega)
  refine ⟨by rw [hstart]; rfl, by rw [hstart]; exact hlast, ?_, ?_⟩
  · rw [hstart]
    refine (rd64_congr ?_ ?_).trans (rd64_wr64_self s (page * pageSize) _)
    · exact wr64_mem_of_ne (by omega) (by omega)
    · exact wr64_mem_of_ne (by omega) (by omega)
  · rw [hstart]
    exact rd64_wr64_self _ _ _

/-- `kalloc` fails and changes nothing, or hands out an object with its metadata. -/
theorem kalloc_cases (offset : Offset) (size : BitVec 64) {s : Pmm} (hs : s.Wf) :
    kalloc offset size s = .ok (0, s) ∨
      ∃ (o : Object) (s' : Pmm), kalloc offset size s = .ok (o.addr, s') ∧ o.size = size ∧
        o.Live offset s' ∧ s.Handed s' (o.range offset) := by
  rcases hs.kmalloc_eq (Nat.succ_pos (pagesOf size)) with ⟨hnone, -⟩ |
    ⟨r₁, s₁, -, -, hsome, -⟩
  · left
    rw [kalloc, hnone]
    rfl
  · right
    obtain ⟨r, hptr, hlength, hhanded⟩ := hs.handed (Nat.succ_pos _) hsome
    have hmax := hs.max_le
    have hbounds := Pmm.mem_freeSet_bounds hhanded.was_free (by omega)
    have hlast : r.start + pagesOf size + 1 ≤ physLimit / pageSize := by omega
    have hstart : (objectAt offset r.start size).start offset = r.start :=
      objectAt_start offset size (by omega)
    have hrange : (objectAt offset r.start size).range offset = r := by
      rw [Object.range, hstart]
      show Range.mk r.start (pagesOf size + 1) = r
      rw [← Nat.succ_eq_add_one, ← hlength]
    have hlt : r.start * pageSize + 8 < 2 ^ 64 := by
      unfold physLimit pageSize at *
      omega
    refine ⟨objectAt offset r.start size,
      wr64 (wr64 s₁ (r.start * pageSize) (BitVec.ofNat 64 (pagesOf size)))
        (r.start * pageSize + 8) size, ?_, rfl, writeMetadata_live hlast, ?_⟩
    · have hfirst : phys offset (BitVec.ofNat 64 (r.start * pageSize) + offset) =
          r.start * pageSize := phys_page (by omega)
      have hsecond : phys offset (BitVec.ofNat 64 (r.start * pageSize) + offset + 8) =
          r.start * pageSize + 8 := phys_add hlt
      rw [kalloc, hsome, hptr, ok_bind]
      simp only [hfirst, hsecond]
      rfl
    · rw [hrange]
      refine hhanded.write hs (f := (wr64 (wr64 s₁ _ _) _ _).mem) fun w hw => ?_
      have hlow : ∀ k < 4, w ≠ r.start * pageSize / 4 + k := by
        rintro k hk rfl
        apply hw
        unfold Range.Word pageSize
        omega
      have hdiv : (r.start * pageSize + 8) / 4 = r.start * pageSize / 4 + 2 := by omega
      rw [wr64_mem_of_ne, wr64_mem_of_ne]
      · exact hlow 0 (by decide)
      · exact hlow 1 (by decide)
      · rw [hdiv]
        exact hlow 2 (by decide)
      · rw [hdiv]
        exact hlow 3 (by decide)

/-! ## Where `kfree` goes -/

/-- How far the address `kfree` hands on is off. -/
def drift (offset : Offset) : ℕ := (0 - 15 * offset).toNat

/-- The first page `kfree` marks. -/
def freedPage (offset : Offset) (start : ℕ) : ℕ :=
  (start * pageSize + drift offset) % 2 ^ 64 / pageSize

theorem drift_eq (offset : Offset) :
    drift offset = (2 ^ 64 - 15 * offset.toNat % 2 ^ 64) % 2 ^ 64 := by
  rw [drift, BitVec.toNat_sub, BitVec.toNat_mul]
  rfl

theorem kfree_eq {offset : Offset} {s : Pmm} {o : Object} (h : o.Live offset s) :
    kfree offset o.addr s = Pmm.wrBitmapRange false (pagesOf o.size + 1)
      (freedPage offset (o.start offset)) s := by
  have hpages := pagesOf_le o.size
  have hlt : o.start offset * pageSize < 2 ^ 64 := by
    have hlast := h.last_le
    unfold physLimit pageSize at *
    omega
  have hmetadata : o.addr - pageBytes = BitVec.ofNat 64 (o.start offset * pageSize) + offset := by
    rw [h.addr, BitVec.add_sub_cancel]
  have hcount : (rd64 s (o.start offset * pageSize) + 1).toNat = pagesOf o.size + 1 := by
    rw [h.pages, BitVec.toNat_add, BitVec.toNat_ofNat]
    show (pagesOf o.size % 2 ^ 64 + 1) % 2 ^ 64 = pagesOf o.size + 1
    omega
  have htarget : (o.addr - pageBytes - metadataSize * offset).toNat =
      (o.start offset * pageSize + drift offset) % 2 ^ 64 := by
    have hsplit : o.addr - pageBytes - metadataSize * offset =
        BitVec.ofNat 64 (o.start offset * pageSize) + (0 - 15 * offset) := by
      rw [hmetadata, metadataSize]
      generalize BitVec.ofNat 64 (o.start offset * pageSize) = page
      bv_omega
    rw [hsplit, BitVec.toNat_add, BitVec.toNat_ofNat, Nat.mod_eq_of_lt hlt, drift]
  rw [kfree, htarget, hmetadata, phys_page hlt, hcount, Pmm.kmfree, freedPage]

theorem freedPage_eq_iff {offset : Offset} {start : ℕ} (hstart : start < physLimit / pageSize) :
    freedPage offset start = start ↔ drift offset < pageSize := by
  have hlt : drift offset < 2 ^ 64 := (0 - 15 * offset).isLt
  unfold freedPage physLimit pageSize at *
  omega

theorem kfree_live {offset : Offset} (hdrift : drift offset < pageSize) {s : Pmm} (hs : s.Wf)
    {o : Object} (h : o.Live offset s)
    (hpages : ∀ i ∈ (o.range offset).cells, s.Tracked i ∧ ¬ s.OwnPage i) :
    ∃ s', kfree offset o.addr s = .ok s' ∧ s.Freed s' (o.range offset) := by
  have hlast := h.last_le
  rw [kfree_eq h, (freedPage_eq_iff (by omega)).mpr hdrift]
  exact hs.freed hpages (Nat.succ_pos _)

/-! ## The round trip -/

theorem Handed.pages {s s' : Pmm} {r : Range} (hs : s.Wf) (h : s.Handed s' r) :
    ∀ i ∈ r.cells, s'.Tracked i ∧ ¬ s'.OwnPage i := by
  intro i hi
  rw [h.layout.tracked_iff, h.layout.ownPage_iff]
  exact ⟨(Pmm.mem_freeSet.mp (h.was_free hi)).1, hs.own i (h.was_free hi)⟩

theorem Handed.sameBitmap {s s' s'' : Pmm} {r : Range} (h : s.Handed s' r)
    (hfreed : s'.Freed s'' r) : s.SameBitmap s'' := by
  refine Pmm.sameBitmap_of_bits (h.layout.trans hfreed.layout) fun b hb => ?_
  by_cases hcell : b + bitmapBase ∈ r.cells
  · have hin := hfreed.inside _ hcell
    have hwas := (Pmm.mem_freeSet.mp (h.was_free hcell)).2
    rw [Nat.add_sub_cancel] at hin
    rw [Pmm.usedBit_eq_bit, Nat.add_sub_cancel] at hwas
    rw [hin, hwas]
  · rw [hfreed.outside b hcell, h.outside b hb hcell]

/-- Freeing elsewhere leaves a page of the object marked. -/
theorem Handed.start_eq {s s' s'' : Pmm} {r : Range} (hs : s.Wf) (h : s.Handed s' r)
    (hlength : 0 < r.length) {page : ℕ} (hpage : page < 2 ^ 52)
    (hfree : Pmm.wrBitmapRange false r.length page s' = .ok s'') (hsame : s.SameBitmap s'') :
    page = r.start := by
  have hbounds := Pmm.mem_freeSet_bounds h.was_free hlength
  have hmax := hs.max_le
  have hmark := Pmm.marked_of_wrBitmapRange hfree
  have hreached : ∀ i ∈ r.cells, ∃ k < r.length, page + k = i := by
    intro i hi
    have htracked := (Pmm.mem_freeSet.mp (h.was_free hi)).1
    have hfalse : s''.bit (i - bitmapBase) = false := by
      have hword := hsame _ (hs.bitmapWord_of_tracked htracked)
      have hwas := (Pmm.mem_freeSet.mp (h.was_free hi)).2
      rw [Pmm.usedBit] at hwas
      rwa [Pmm.bit, (h.layout.trans hmark.layout).memBitmap, hword]
    by_contra hnone
    push Not at hnone
    have htrue := hmark.outside (i - bitmapBase) fun k hk heq => by
      refine hnone k hk ?_
      have hge := htracked.1
      have hlt := htracked.2
      unfold subSize bitmapBase memoryBase physLimit pageSize at *
      omega
    rw [hfalse, h.inside i hi] at htrue
    cases htrue
  obtain ⟨k, hk, hfirst⟩ := hreached r.start (Range.mem_cells.mpr (by omega))
  obtain ⟨j, hj, hlast⟩ := hreached (r.start + r.length - 1) (Range.mem_cells.mpr (by omega))
  omega

/-- `kfree` restores the bitmap exactly when the address it computes stays in the
page of the metadata. -/
theorem restores_iff {offset : Offset} {size : BitVec 64} {s s' : Pmm} {addr : Addr}
    (hs : s.Wf) (hkalloc : kalloc offset size s = .ok (addr, s')) (haddr : addr ≠ 0) :
    (∃ s'', kfree offset addr s' = .ok s'' ∧ s.SameBitmap s'') ↔ drift offset < pageSize := by
  rcases kalloc_cases offset size hs with hnull | ⟨o, s₁, hsome, -, hlive, hhanded⟩
  · rw [hnull] at hkalloc
    cases hkalloc
    exact absurd rfl haddr
  · rw [hsome] at hkalloc
    obtain ⟨rfl, rfl⟩ : o.addr = addr ∧ s₁ = s' := by simpa using hkalloc
    have hlast := hlive.last_le
    constructor
    · rintro ⟨s'', hfree, hsame⟩
      rw [kfree_eq hlive] at hfree
      have hpage : freedPage offset (o.start offset) < 2 ^ 52 := by
        unfold freedPage pageSize
        omega
      have hstart : freedPage offset (o.start offset) = o.start offset :=
        Handed.start_eq hs hhanded (Nat.succ_pos _) hpage hfree hsame
      exact (freedPage_eq_iff (by omega)).mp hstart
    · intro hdrift
      obtain ⟨s'', hfree, hfreed⟩ :=
        kfree_live hdrift hhanded.wf hlive (Handed.pages hs hhanded)
      exact ⟨s'', hfree, Handed.sameBitmap hhanded hfreed⟩

end KernelHeap
end SubleqEmu
