import SubleqEmu.DawnPagemapModel

/-!
# What building the address space keeps

The ranges in the log are a heap over the pages free at the start.  A machine
whose tables are in pages of the log, and whose walk meets a condition on every
address, is `Ready`; each part of the construction keeps a machine ready, with
the condition the part before it established.
-/

namespace SubleqEmu
namespace DawnPagemap

open PageAllocator PageTable

/-! ## The log -/

/-- The log lists disjoint ranges of the pages free in `s₀`, and the others of
these are still free. -/
def Alloc.Sound (s₀ : Pmm) (a : Alloc) : Prop :=
  ∃ h, Config.Refines s₀ ⟨a.pmm, a.given.map Prod.snd⟩ h

/-- What only grows or shrinks while allocating. -/
structure Alloc.Grows (a a' : Alloc) : Prop where
  given : a.given ⊆ a'.given
  free : a'.pmm.freeSet ⊆ a.pmm.freeSet

theorem Alloc.Grows.refl (a : Alloc) : a.Grows a :=
  ⟨List.Subset.refl _, Finset.Subset.refl _⟩

theorem Alloc.Grows.trans {a b c : Alloc} (h : a.Grows b) (h' : b.Grows c) :
    a.Grows c :=
  ⟨List.Subset.trans h.given h'.given, Finset.Subset.trans h'.free h.free⟩

section Log

variable {s₀ : Pmm} {a : Alloc}

theorem Alloc.Sound.initial (hs : s₀.Wf) : Alloc.Sound s₀ ⟨s₀, []⟩ :=
  ⟨Heap.fresh s₀.freeSet, Config.refines_initial hs⟩

theorem Alloc.Sound.wf (ha : a.Sound s₀) : a.pmm.Wf := by
  obtain ⟨h, hrefines⟩ := ha
  exact hrefines.wf

theorem Alloc.Sound.kmalloc (ha : a.Sound s₀) (owner : Owner) {pages : ℕ}
    (hpages : 0 < pages) :
    (a.kmalloc owner pages).2.Sound s₀ ∧ a.Grows (a.kmalloc owner pages).2 := by
  rcases Alloc.kmalloc_eq ha.wf owner hpages with
    ⟨hnone, -⟩ | ⟨r, pmm, hlength, hcells, hsome, hwf, hlayout, hfree⟩
  · rw [hnone]
    exact ⟨ha, .refl a⟩
  · obtain ⟨h, hrefines⟩ := ha
    have hfreeEq : a.pmm.freeSet = h.free := hrefines.free
    have hcells' : r.cells ⊆ h.free := by
      rw [← hfreeEq]
      exact hcells
    have hsubset : pmm.freeSet ⊆ a.pmm.freeSet := by
      rw [hfree]
      exact Finset.sdiff_subset
    rw [hsome]
    refine ⟨⟨h.alloc r hcells', hwf, hrefines.layout.trans hlayout, ?_, ?_, ?_⟩,
      List.subset_cons_self _ _, hsubset⟩
    · rw [Heap.alloc_free, ← hfreeEq]
      exact hfree
    · rw [Heap.alloc_live, ← hrefines.live]
      rfl
    · intro other hother
      rcases List.mem_cons.mp hother with rfl | hother
      · rw [hlength]
        exact hpages
      · exact hrefines.positive other hother

/-- A page of the log was free at the start, and is not free now. -/
theorem Alloc.Sound.mem_given (ha : a.Sound s₀) {owner : Owner} {r : Range}
    (hr : (owner, r) ∈ a.given) {i : ℕ} (hi : i ∈ r.cells) :
    i ∈ s₀.freeSet ∧ i ∉ a.pmm.freeSet := by
  obtain ⟨h, hrefines⟩ := ha
  have hlive : r ∈ h.live := hrefines.live ▸ List.mem_map_of_mem hr
  refine ⟨h.cells_subset_initial hlive hi, ?_⟩
  have hfree : a.pmm.freeSet = h.free := hrefines.free
  rw [hfree]
  exact Finset.disjoint_left.mp (h.free_apart r hlive) hi

/-- A page is in one range of the log at most. -/
theorem Alloc.Sound.given_unique (ha : a.Sound s₀) {x y : Owner × Range}
    (hx : x ∈ a.given) (hy : y ∈ a.given) {i : ℕ} (hix : i ∈ x.2.cells)
    (hiy : i ∈ y.2.cells) : x = y := by
  obtain ⟨h, hrefines⟩ := ha
  have hlive : a.given.map Prod.snd = h.live := hrefines.live
  have hpairs : a.given.Pairwise fun x y => x.2.Apart y.2 :=
    List.pairwise_map.mp (hlive ▸ h.apart)
  have hsymm : Std.Symm fun x y : Owner × Range => x.2.Apart y.2 :=
    ⟨fun _ _ h => h.symm⟩
  by_contra hne
  have hapart : x.2.Apart y.2 := hpairs.forall hx hy hne
  exact Finset.disjoint_left.mp hapart hix hiy

/-- A page free at the start and not now is in the log. -/
theorem Alloc.Sound.exists_given (ha : a.Sound s₀) {i : ℕ}
    (hi : i ∈ s₀.freeSet) (hfree : i ∉ a.pmm.freeSet) :
    ∃ owner r, (owner, r) ∈ a.given ∧ i ∈ r.cells := by
  obtain ⟨h, hrefines⟩ := ha
  have hlive : a.given.map Prod.snd = h.live := hrefines.live
  have hfreeEq : a.pmm.freeSet = h.free := hrefines.free
  rcases (h.mem_initial i).mp hi with hmem | ⟨r, hr, hmem⟩
  · exact absurd (hfreeEq ▸ hmem) hfree
  · rw [← hlive] at hr
    obtain ⟨⟨owner, r⟩, hgiven, rfl⟩ := List.mem_map.mp hr
    exact ⟨owner, r, hgiven, hmem⟩

theorem Alloc.Owned.kmalloc {pages : Finset Frame} (ha : a.Owned pages)
    (owner : Owner) {n : ℕ} (hn : 0 < n) : (a.kmalloc owner n).2.Owned pages := by
  obtain ⟨hwf, hpages⟩ := ha
  rcases Alloc.kmalloc_eq hwf owner hn with
    ⟨hnone, -⟩ | ⟨r, pmm, -, -, hsome, hwf', -, hfree⟩
  · rw [hnone]
    exact ⟨hwf, hpages⟩
  · rw [hsome]
    refine ⟨hwf', ?_⟩
    intro f hf
    obtain ⟨hfresh, r', hr', hfr'⟩ := hpages f hf
    refine ⟨?_, r', List.mem_cons_of_mem _ hr', hfr'⟩
    rw [hfree, Finset.mem_sdiff]
    exact fun h => hfresh h.1

theorem tableSource_kmalloc_snd (a : Alloc) :
    (tableSource.kmalloc a).2 = (a.kmalloc .pageTable 1).2 := by
  simp only [tableSource]
  cases a.kmalloc .pageTable 1 with
  | mk r a => cases r <;> rfl

/-- A source that has failed leaves no free page. -/
theorem freeSet_of_exhausted {m : Machine} (h : State.Exhausted tableSource m) :
    m.pages.pmm.freeSet = ∅ := by
  obtain ⟨a, pages, ⟨hwf, -⟩, hk⟩ := h
  rcases Alloc.kmalloc_eq hwf .pageTable one_pos with
    ⟨hnone, hempty⟩ | ⟨r, pmm, -, -, hsome, -⟩
  · have hsnd := tableSource_kmalloc_snd a
    rw [hk, hnone] at hsnd
    rw [show m.pages = a from hsnd]
    exact hempty rfl
  · simp only [tableSource, hsome] at hk
    simp at hk

end Log

/-! ## Machines under construction -/

/-- The machine's log is sound, its tables are a tree in pages of the log, and
`T` holds of every address and what its walk leads to. -/
structure Ready (s₀ : Pmm) (pml4 : Frame)
    (T : BitVec 64 → Option Page → Prop) (m : Machine) : Prop where
  sound : m.pages.Sound s₀
  good : m.Good tableSource pml4
  walks : ∀ v, T v (walk m.mem pml4 v)

section Ready

variable {s₀ : Pmm} {pml4 : Frame} {T : BitVec 64 → Option Page → Prop}
  {m : Machine}

theorem Ready.mono {T' : BitVec 64 → Option Page → Prop}
    (hm : Ready s₀ pml4 T m) (hT : ∀ v x, T v x → T' v x) : Ready s₀ pml4 T' m :=
  ⟨hm.sound, hm.good, fun v => hT v _ (hm.walks v)⟩

variable (pml4) in
theorem sound_mapPage (hm : m.pages.Sound s₀) (phys virt : BitVec 64) :
    (mapPage tableSource (frameAddr pml4) phys virt m).2.pages.Sound s₀ ∧
      m.pages.Grows (mapPage tableSource (frameAddr pml4) phys virt m).2.pages := by
  refine mapPage_pages (P := fun a => a.Sound s₀ ∧ m.pages.Grows a) ?_
    ⟨hm, .refl _⟩ _ _ _
  rintro a ⟨ha, hgrows⟩
  rw [tableSource_kmalloc_snd]
  obtain ⟨ha', hgrows'⟩ := ha.kmalloc .pageTable one_pos
  exact ⟨ha', hgrows.trans hgrows'⟩

/-- Mapping a page keeps a condition that allows the new translation. -/
theorem Ready.mapPage (hm : Ready s₀ pml4 T m) (phys virt : BitVec 64)
    (hT : ∀ v, v.extractLsb' 12 36 = virt.extractLsb' 12 36 →
      T v (some (.page4k (phys.extractLsb' 12 40)))) :
    Ready s₀ pml4 T (PageTable.mapPage tableSource (frameAddr pml4) phys virt m).2 := by
  obtain ⟨hsound, -⟩ := sound_mapPage pml4 hm.sound phys virt
  obtain ⟨r, m', heq, hgood, hcases⟩ := mapPage_eq hm.good phys virt
  rw [heq] at hsound ⊢
  refine ⟨hsound, hgood, ?_⟩
  intro v
  rcases hcases with ⟨-, hwalk, -⟩ | ⟨-, hwalk, -⟩
  · rw [hwalk v]
    exact hm.walks v
  · rw [hwalk v, Call.override]
    split_ifs with hv
    · exact hT v hv
    · exact hm.walks v

theorem largeAddr_ofNat {addr : ℕ} (haligned : addr % pageSize2m = 0)
    (haddr : addr < 2 ^ 52) :
    BitVec.ofNat 64 addr = largeAddr (BitVec.ofNat 31 (addr / pageSize2m)) := by
  unfold pageSize2m at *
  apply BitVec.eq_of_toNat_eq
  rw [largeAddr, BitVec.toNat_shiftLeft, BitVec.toNat_setWidth, BitVec.toNat_ofNat,
    BitVec.toNat_ofNat, Nat.shiftLeft_eq]
  omega

theorem Ready.mapPage2m (hm : Ready s₀ pml4 T m) (phys : LargeFrame)
    {virt : BitVec 64}
    (hT : ∀ v, v.extractLsb' 21 27 = virt.extractLsb' 21 27 →
      T v (some (.page2m phys))) :
    Ready s₀ pml4 T
      (PageTable.mapPage2m tableSource (frameAddr pml4) (largeAddr phys) virt m).2 := by
  have hsound : (PageTable.mapPage2m tableSource (frameAddr pml4) (largeAddr phys)
      virt m).2.pages.Sound s₀ := by
    refine mapPage2m_pages (P := Alloc.Sound s₀) ?_ hm.sound _ _ _
    intro a ha
    rw [tableSource_kmalloc_snd]
    exact (ha.kmalloc .pageTable one_pos).1
  obtain ⟨r, m', heq, hgood, hcases⟩ := mapPage2m_eq hm.good phys virt
  rw [heq] at hsound ⊢
  refine ⟨hsound, hgood, ?_⟩
  intro v
  rcases hcases with ⟨-, hwalk⟩ | ⟨-, hwalk⟩
  · rw [hwalk v]
    exact hm.walks v
  · rw [hwalk v, Call.override]
    split_ifs with hv
    · exact hT v hv
    · exact hm.walks v

theorem Ready.kmalloc (hm : Ready s₀ pml4 T m) (owner : Owner) {pages : ℕ}
    (hpages : 0 < pages) : Ready s₀ pml4 T (m.kmalloc owner pages).2 := by
  obtain ⟨tables, htables, howned⟩ := hm.good
  exact ⟨(hm.sound.kmalloc owner hpages).1,
    ⟨tables, htables, Alloc.Owned.kmalloc howned owner hpages⟩, hm.walks⟩

/-! ## The kernel, the direct map and the image -/

theorem Ready.mapPages {n : ℕ} {phys virt : BitVec 64}
    (hm : Ready s₀ pml4 T m)
    (hT : ∀ i < n, ∀ v, v.extractLsb' 12 36 =
        (virt + BitVec.ofNat 64 (i * pageSize)).extractLsb' 12 36 →
      T v (some (.page4k
        ((phys + BitVec.ofNat 64 (i * pageSize)).extractLsb' 12 40)))) :
    Ready s₀ pml4 T (DawnPagemap.mapPages pml4 n phys virt m) := by
  induction n generalizing phys virt m with
  | zero => exact hm
  | succ n ih =>
      have hnext : ∀ (x : BitVec 64) (i : ℕ), x + 0x1000 +
          BitVec.ofNat 64 (i * pageSize) =
            x + BitVec.ofNat 64 ((i + 1) * pageSize) := by
        intro x i
        rw [BitVec.add_assoc, Nat.succ_mul, Nat.add_comm (i * pageSize),
          BitVec.ofNat_add]
        rfl
      refine ih (hm.mapPage _ _ ?_) ?_
      · have hfirst := hT 0 (Nat.succ_pos n)
        simpa only [Nat.zero_mul, BitVec.ofNat_eq_ofNat, BitVec.add_zero] using hfirst
      · intro i hi
        rw [hnext, hnext]
        exact hT (i + 1) (by omega)

/-- The two halves of the address space are told apart by bit 47. -/
def HigherHalf (virt : BitVec 64) : Prop := virt.getLsbD 47 = true

instance (virt : BitVec 64) : Decidable (HigherHalf virt) :=
  inferInstanceAs (Decidable (_ = _))

def higherHalfBase : ℕ := 0xffff800000000000

theorem higherHalf_of_le {virt : BitVec 64} (h : higherHalfBase ≤ virt.toNat) :
    HigherHalf virt := by
  have hlt := virt.isLt
  unfold higherHalfBase at h
  rw [HigherHalf, BitVec.getLsbD, Nat.testBit_eq_decide_div_mod_eq]
  simp only [decide_eq_true_eq]
  omega

/-- No address of the lower half is mapped. -/
def LowerHalfEmpty (v : BitVec 64) (x : Option Page) : Prop :=
  v.getLsbD 47 = false → x = none

theorem getLsbD_47_of_extractLsb'_12 {v w : BitVec 64}
    (h : v.extractLsb' 12 36 = w.extractLsb' 12 36) :
    v.getLsbD 47 = w.getLsbD 47 := by
  have hbit := congrArg (fun x => x.getLsbD 35) h
  simpa only [BitVec.getLsbD_extractLsb', Nat.reduceLT, decide_true, Bool.true_and,
    Nat.reduceAdd] using hbit

theorem getLsbD_47_of_extractLsb'_21 {v w : BitVec 64}
    (h : v.extractLsb' 21 27 = w.extractLsb' 21 27) :
    v.getLsbD 47 = w.getLsbD 47 := by
  have hbit := congrArg (fun x => x.getLsbD 26) h
  simpa only [BitVec.getLsbD_extractLsb', Nat.reduceLT, decide_true, Bool.true_and,
    Nat.reduceAdd] using hbit

theorem lowerHalfEmpty_of_higherHalf {v w : BitVec 64} (x : Option Page)
    (hw : HigherHalf w) (h : v.getLsbD 47 = w.getLsbD 47) : LowerHalfEmpty v x := by
  intro hv
  rw [h, show w.getLsbD 47 = true from hw] at hv
  contradiction

/-! ## What the boot loader promises -/

/-- Kernels are linked at this address or above. -/
def kernelBase : ℕ := 0xffffffff80000000

/-- The pages of the kernel: first virtual and physical address and number of
each segment. -/
def kernelSegments (boot : BootInfo) : List (BitVec 64 × BitVec 64 × ℕ) :=
  let (physBase, virtBase) := boot.executableAddress.getD (0, 0)
  ((boot.executableFile.getD []).filter fun phdr => phdr.type = ptLoad).map
    (segment (BitVec.ofNat 64 physBase) (BitVec.ofNat 64 virtBase))

def KernelPage (boot : BootInfo) (f : Frame) : Prop :=
  ∃ s ∈ kernelSegments boot, ∃ i < s.2.2,
    f = (s.2.1 + BitVec.ofNat 64 (i * pageSize)).extractLsb' 12 40

def imagePages : ℕ := dawnImageSize / pageSize

/-- The page that page `i` of the image is mapped to. -/
def windowFrame (boot : BootInfo) (info : DawnInfo) (i : ℕ) : Frame :=
  (ramdiskLoc (boot.hhdm.getD 0) info + BitVec.ofNat 64 (i * pageSize)).extractLsb' 12 40

/-- The direct map, the interrupt controllers in it and the kernel are in the
higher half, the kernel above the direct map. The kernel and the module are in
pages of their own, of memory that is not usable. -/
structure Promised (boot : BootInfo) (info : DawnInfo) : Prop where
  hhdm_ge : higherHalfBase ≤ boot.hhdm.getD 0
  hhdm_below : ∀ entry ∈ boot.entries, shouldMapToHhdm entry.type = true →
    boot.hhdm.getD 0 + roundUp entry.stop ≤ kernelBase
  apics : ∀ addr ∈ apicAddrs info,
    HigherHalf (addr + BitVec.ofNat 64 (boot.hhdm.getD 0))
  kernelVirt : ∀ s ∈ kernelSegments boot,
    kernelBase ≤ s.1.toNat ∧ s.1.toNat + s.2.2 * pageSize ≤ 2 ^ 64
  kernelPhys : ∀ f, KernelPage boot f → ∃ entry ∈ boot.entries,
    entry.type = .executableAndModules ∧ entry.base ≤ f.toNat * pageSize ∧
      (f.toNat + 1) * pageSize ≤ entry.stop
  moduleAt : ∃ base, info.moduleAddress = BitVec.ofNat 64 (boot.hhdm.getD 0 + base) ∧
    base % pageSize = 0 ∧ ∃ entry ∈ boot.entries,
      entry.type = .executableAndModules ∧ entry.base ≤ base ∧
        roundUp (base + info.moduleSize) ≤ entry.stop
  moduleApart : ∀ i, i * pageSize < info.moduleSize →
    ¬ KernelPage boot (windowFrame boot info i)

/-! ## Before the image -/

theorem Ready.mapPage_higher (hm : Ready s₀ pml4 LowerHalfEmpty m)
    (phys : BitVec 64) {virt : BitVec 64} (hvirt : HigherHalf virt) :
    Ready s₀ pml4 LowerHalfEmpty
      (PageTable.mapPage tableSource (frameAddr pml4) phys virt m).2 := by
  refine hm.mapPage _ _ ?_
  intro v hv
  exact lowerHalfEmpty_of_higherHalf _ hvirt (getLsbD_47_of_extractLsb'_12 hv)

theorem Ready.mapKernel {physBase virtBase : BitVec 64} {phdrs : List Phdr}
    (hm : Ready s₀ pml4 LowerHalfEmpty m)
    (hphdrs : ∀ phdr ∈ phdrs, phdr.type = ptLoad →
      kernelBase ≤ (segment physBase virtBase phdr).1.toNat ∧
        (segment physBase virtBase phdr).1.toNat +
          (segment physBase virtBase phdr).2.2 * pageSize ≤ 2 ^ 64) :
    Ready s₀ pml4 LowerHalfEmpty
      (DawnPagemap.mapKernel pml4 physBase virtBase phdrs m) := by
  induction phdrs generalizing m with
  | nil => exact hm
  | cons phdr phdrs ih =>
      refine ih ?_ fun other hother => hphdrs other (List.mem_cons_of_mem _ hother)
      split_ifs with hload
      · obtain ⟨hge, hle⟩ := hphdrs phdr List.mem_cons_self hload
        generalize segment physBase virtBase phdr = s at hge hle ⊢
        obtain ⟨virt, phys, n⟩ := s
        simp only at hge hle
        refine hm.mapPages ?_
        intro i hi v hv
        refine lowerHalfEmpty_of_higherHalf _ (higherHalf_of_le ?_)
          (getLsbD_47_of_extractLsb'_12 hv)
        unfold kernelBase higherHalfBase pageSize at *
        rw [BitVec.toNat_add, BitVec.toNat_ofNat]
        omega
      · exact hm

theorem Ready.mapHhdmRegion {hhdm n addr stop : ℕ}
    (hm : Ready s₀ pml4 LowerHalfEmpty m) (hge : higherHalfBase ≤ hhdm)
    (hbelow : hhdm + stop ≤ kernelBase) :
    Ready s₀ pml4 LowerHalfEmpty
      (DawnPagemap.mapHhdmRegion pml4 hhdm n addr stop m) := by
  induction n generalizing addr m with
  | zero => exact hm
  | succ n ih =>
      rw [DawnPagemap.mapHhdmRegion]
      split_ifs with haddr hlarge
      · have hlt : addr < 2 ^ 52 := by
          unfold kernelBase higherHalfBase at *
          omega
        rw [largeAddr_ofNat hlarge.1 hlt]
        refine ih (hm.mapPage2m _ ?_)
        intro v hv
        refine lowerHalfEmpty_of_higherHalf _ (higherHalf_of_le ?_)
          (getLsbD_47_of_extractLsb'_21 hv)
        unfold kernelBase higherHalfBase at *
        rw [BitVec.toNat_ofNat]
        omega
      · refine ih (hm.mapPage_higher _ (higherHalf_of_le ?_))
        unfold kernelBase higherHalfBase at *
        rw [BitVec.toNat_ofNat]
        omega
      · exact hm

theorem Ready.mapHhdm {hhdm : ℕ} {entries : List MemmapEntry}
    (hm : Ready s₀ pml4 LowerHalfEmpty m) (hge : higherHalfBase ≤ hhdm)
    (hbelow : ∀ entry ∈ entries, shouldMapToHhdm entry.type = true →
      hhdm + roundUp entry.stop ≤ kernelBase) :
    Ready s₀ pml4 LowerHalfEmpty (DawnPagemap.mapHhdm pml4 hhdm entries m) := by
  induction entries generalizing m with
  | nil => exact hm
  | cons entry entries ih =>
      refine ih ?_ fun other hother => hbelow other (List.mem_cons_of_mem _ hother)
      split_ifs with hmap
      · exact hm.mapHhdmRegion hge (hbelow entry List.mem_cons_self hmap)
      · exact hm

theorem Ready.mapApics {hhdm : ℕ} {addrs : List (BitVec 64)}
    (hm : Ready s₀ pml4 LowerHalfEmpty m)
    (haddrs : ∀ addr ∈ addrs, HigherHalf (addr + BitVec.ofNat 64 hhdm)) :
    Ready s₀ pml4 LowerHalfEmpty (DawnPagemap.mapApics pml4 hhdm addrs m) := by
  induction addrs generalizing m with
  | nil => exact hm
  | cons addr addrs ih =>
      exact ih (hm.mapPage_higher _ (haddrs addr List.mem_cons_self))
        fun other hother => haddrs other (List.mem_cons_of_mem _ hother)

/-- The image finds the lower half empty. -/
theorem Ready.mapFixed {boot : BootInfo} {info : DawnInfo}
    (hpromised : Promised boot info) (hm : Ready s₀ pml4 LowerHalfEmpty m) :
    Ready s₀ pml4 LowerHalfEmpty
      (DawnPagemap.mapFixed boot info (boot.hhdm.getD 0) pml4 m) := by
  refine ((hm.mapKernel ?_).mapHhdm hpromised.hhdm_ge hpromised.hhdm_below).mapApics
    hpromised.apics
  intro phdr hphdr hload
  refine hpromised.kernelVirt _ (List.mem_map.mpr ⟨phdr, ?_, rfl⟩)
  simpa using ⟨hphdr, hload⟩

end Ready

end DawnPagemap
end SubleqEmu
