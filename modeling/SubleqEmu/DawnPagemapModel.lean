import SubleqEmu.PageAllocatorRuns
import SubleqEmu.PageTableRefinement

/-!
# Building Dawn's address space

`dawn_init` and `dawn_build_pagemap`, from the antibuffers to the last page
given to Dawn, over the page allocator and the page tables.  A log keeps who
got each range `kmalloc` returned.  The contents of the other pages play no
part in the mapping and are left out, but for the last pages of Dawn's memory,
which are filled through the direct map.
-/

namespace SubleqEmu
namespace DawnPagemap

open PageAllocator PageTable

/-! ## Boot information -/

/-- What `dawn_init` asks the boot loader and the machine for, after the
answers `pmm_init` used. -/
structure DawnInfo where
  vbePitch : ℕ
  vbeHeight : ℕ
  /-- the Dawn disk module: its address in the direct map, and its size, which
  the code does not look at -/
  moduleAddress : BitVec 64
  moduleSize : ℕ
  apicBaseMsr : BitVec 64
  ioApics : List (BitVec 32)
  mpCpuCount : Option ℕ

def dawnImageSize : ℕ := 256 * 1024 * 1024

/-- Whether a region goes into the direct map. -/
def shouldMapToHhdm : MemmapType → Bool
  | .usable | .bootloaderReclaimable | .executableAndModules | .framebuffer
  | .acpiReclaimable | .acpiNvs | .reservedMapped => true
  | .other => false

/-! ## The allocator with its log -/

/-- Who a range was allocated for; `dawn pg` is Dawn's page number `pg` after
the image. -/
inductive Owner
  | antibuffer
  | pageTable
  | translator
  | dawn (pg : ℕ)
  deriving DecidableEq

structure Alloc where
  pmm : Pmm
  given : List (Owner × Range)

/-- `kmalloc`, logging who gets the pages.  A stray bitmap access, which the
allocator never makes, would be no allocation. -/
def Alloc.kmalloc (owner : Owner) (pages : ℕ) (a : Alloc) : Option Range × Alloc :=
  match a.pmm.kmalloc pages with
  | .ok (some ptr, pmm) =>
      (some ⟨ptr / pageSize, pages⟩, ⟨pmm, (owner, ⟨ptr / pageSize, pages⟩) :: a.given⟩)
  | .ok (none, pmm) => (none, ⟨pmm, a.given⟩)
  | .error _ => (none, a)

/-- Pages handed out are free no more, and the log has them as tables. -/
def Alloc.Owned (a : Alloc) (pages : Finset Frame) : Prop :=
  a.pmm.Wf ∧ ∀ f ∈ pages, f.toNat ∉ a.pmm.freeSet ∧
    ∃ r, (.pageTable, r) ∈ a.given ∧ f.toNat ∈ r.cells

/-- The outcomes of an allocation, in terms of the free pages. -/
theorem Alloc.kmalloc_eq {a : Alloc} (ha : a.pmm.Wf) (owner : Owner) {pages : ℕ}
    (hpages : 0 < pages) :
    (a.kmalloc owner pages = (none, a) ∧ (pages = 1 → a.pmm.freeSet = ∅)) ∨
    ∃ (r : Range) (pmm : Pmm), r.length = pages ∧ r.cells ⊆ a.pmm.freeSet ∧
      a.kmalloc owner pages = (some r, ⟨pmm, (owner, r) :: a.given⟩) ∧
      pmm.Wf ∧ a.pmm.SameLayout pmm ∧ pmm.freeSet = a.pmm.freeSet \ r.cells := by
  rcases ha.kmalloc_eq hpages with
    ⟨hnone, -⟩ | ⟨r, pmm, hlength, hcells, hsome, hwf, hlayout, hfree⟩
  · refine Or.inl ⟨by simp only [Alloc.kmalloc, hnone], ?_⟩
    rintro rfl
    exact ha.kmalloc_one_eq_none hnone
  · have hdiv : r.start * pageSize / pageSize = r.start :=
      Nat.mul_div_cancel _ (by decide)
    refine Or.inr ⟨r, pmm, hlength, hcells, ?_, hwf, hlayout, hfree⟩
    simp only [Alloc.kmalloc, hsome, hdiv]
    rw [← hlength]

theorem frame_toNat_of_mem_freeSet {s : Pmm} (hs : s.Wf) {i : ℕ}
    (hi : i ∈ s.freeSet) : (BitVec.ofNat 40 i).toNat = i ∧ 0 < i := by
  obtain ⟨hge, hlt⟩ := (Pmm.mem_freeSet.mp hi).1
  have hmax := hs.max_le
  have hlimit : physLimit / pageSize = 2 ^ 40 := by norm_num [physLimit, pageSize]
  have hbase : 0 < bitmapBase := by norm_num [bitmapBase, memoryBase, pageSize]
  rw [BitVec.toNat_ofNat, Nat.mod_eq_of_lt (by omega)]
  exact ⟨rfl, by omega⟩

/-- The pages `map_page` gets for its tables. -/
def tableSource : PageSource Alloc where
  kmalloc a :=
    match a.kmalloc .pageTable 1 with
    | (some r, a) => (some (BitVec.ofNat 40 r.start), a)
    | (none, a) => (none, a)
  Owned := Alloc.Owned
  fresh := by
    rintro a f a' pages ⟨hwf, hpages⟩ hk
    rcases Alloc.kmalloc_eq hwf .pageTable one_pos with
      ⟨hnone, -⟩ | ⟨r, pmm, hlength, hcells, hsome, hwf', -, hfree⟩
    · rw [hnone] at hk
      simp at hk
    · rw [hsome] at hk
      obtain ⟨rfl, rfl⟩ : BitVec.ofNat 40 r.start = f ∧
          (⟨pmm, (.pageTable, r) :: a.given⟩ : Alloc) = a' := by
        simpa using hk
      have hstart : r.start ∈ r.cells := by
        simp [hlength]
      obtain ⟨hnat, hpos⟩ := frame_toNat_of_mem_freeSet hwf (hcells hstart)
      refine ⟨?_, ?_, hwf', ?_⟩
      · intro hzero
        rw [hzero] at hnat
        exact absurd hnat (by simp; omega)
      · intro hmem
        exact (hpages _ hmem).1 (hnat.symm ▸ hcells hstart)
      · intro g hg
        rw [hfree, Finset.mem_sdiff]
        rcases Finset.mem_insert.mp hg with rfl | hg
        · rw [hnat]
          exact ⟨fun hg => hg.2 hstart, r, List.mem_cons_self, hstart⟩
        · obtain ⟨hgfree, r', hr', hgr'⟩ := hpages g hg
          exact ⟨fun hg => hgfree hg.1, r', List.mem_cons_of_mem _ hr', hgr'⟩
  failed := by
    rintro a a' pages ⟨hwf, hpages⟩ hk
    rcases Alloc.kmalloc_eq hwf .pageTable one_pos with
      ⟨hnone, -⟩ | ⟨r, pmm, -, -, hsome, -⟩
    · rw [hnone] at hk
      obtain rfl : a = a' := by simpa using hk
      exact ⟨hwf, hpages⟩
    · rw [hsome] at hk
      simp at hk

/-- Memory, the allocator and its log. -/
abbrev Machine := State Alloc

def Machine.kmalloc (owner : Owner) (pages : ℕ) (m : Machine) :
    Option Range × Machine :=
  let (r, a) := m.pages.kmalloc owner pages
  (r, { m with pages := a })

/-- `kalloc`: the pages of the object after one for its size. -/
def Machine.kalloc (owner : Owner) (size : ℕ) (m : Machine) : Option Range × Machine :=
  let pages := size / pageSize
  let pages := if size % pageSize ≠ 0 then pages + 1 else pages
  m.kmalloc owner (pages + 1)

/-! ## Mapping -/

/-- Map `n` consecutive pages, whatever `map_page` returns. -/
def mapPages (pml4 : Frame) : ℕ → BitVec 64 → BitVec 64 → Machine → Machine
  | 0, _, _, m => m
  | n + 1, phys, virt, m =>
      mapPages pml4 n (phys + 0x1000) (virt + 0x1000)
        (mapPage tableSource (frameAddr pml4) phys virt m).2

def pageOffsetMask : BitVec 64 := 0xfff

/-- A program header's pages: first virtual and physical address, and their
number. -/
def segment (kernelPhysBase kernelVirtBase : BitVec 64) (phdr : Phdr) :
    BitVec 64 × BitVec 64 × ℕ :=
  let virtBase := BitVec.ofNat 64 phdr.vaddr
  let physBase := kernelPhysBase + (virtBase - kernelVirtBase)
  let memsz := BitVec.ofNat 64 phdr.memsz
  let pageOffset := virtBase &&& pageOffsetMask
  let alignedSize := (memsz + pageOffset + pageOffsetMask) &&& ~~~pageOffsetMask
  (virtBase &&& ~~~pageOffsetMask, physBase &&& ~~~pageOffsetMask,
    alignedSize.toNat / pageSize)

/-- Map the kernel from its program headers. -/
def mapKernel (pml4 : Frame) (kernelPhysBase kernelVirtBase : BitVec 64) :
    List Phdr → Machine → Machine
  | [], m => m
  | phdr :: phdrs, m =>
      let m :=
        if phdr.type = ptLoad then
          let (virt, phys, n) := segment kernelPhysBase kernelVirtBase phdr
          mapPages pml4 n phys virt m
        else m
      mapKernel pml4 kernelPhysBase kernelVirtBase phdrs m

def pageSize2m : ℕ := 0x200000

/-- Map a region into the direct map from `addr` to `stop`, with 2 MiB pages
where possible; the first argument bounds the number of pages left. -/
def mapHhdmRegion (pml4 : Frame) (hhdm : ℕ) : ℕ → ℕ → ℕ → Machine → Machine
  | 0, _, _, m => m
  | n + 1, addr, stop, m =>
      if addr < stop then
        let phys := BitVec.ofNat 64 addr
        let virt := BitVec.ofNat 64 (addr + hhdm)
        if addr % pageSize2m = 0 ∧ pageSize2m ≤ stop - addr then
          mapHhdmRegion pml4 hhdm n (addr + pageSize2m) stop
            (mapPage2m tableSource (frameAddr pml4) phys virt m).2
        else
          mapHhdmRegion pml4 hhdm n (addr + pageSize) stop
            (mapPage tableSource (frameAddr pml4) phys virt m).2
      else m

def mapHhdm (pml4 : Frame) (hhdm : ℕ) : List MemmapEntry → Machine → Machine
  | [], m => m
  | entry :: entries, m =>
      let m :=
        if shouldMapToHhdm entry.type then
          let alignedBase := roundDown entry.base
          let alignedEnd := roundUp entry.stop
          mapHhdmRegion pml4 hhdm ((alignedEnd - alignedBase) / pageSize)
            alignedBase alignedEnd m
        else m
      mapHhdm pml4 hhdm entries m

/-- The physical addresses of the interrupt controllers. -/
def apicAddrs (info : DawnInfo) : List (BitVec 64) :=
  (info.apicBaseMsr &&& ~~~pageOffsetMask) :: info.ioApics.map (BitVec.setWidth 64)

def mapApics (pml4 : Frame) (hhdm : ℕ) : List (BitVec 64) → Machine → Machine
  | [], m => m
  | addr :: addrs, m =>
      mapApics pml4 hhdm addrs
        (mapPage tableSource (frameAddr pml4) addr (addr + BitVec.ofNat 64 hhdm) m).2

def ramdiskLoc (hhdm : ℕ) (info : DawnInfo) : BitVec 64 :=
  info.moduleAddress - BitVec.ofNat 64 hhdm

/-! ## The translator's reservation -/

def sizeofJitCpu : ℕ := 98584
def sizeofJitBlock : ℕ := 96
def sizeofJitLink : ℕ := 16
def htabBytes : ℕ := 8 * 2 ^ 16
def jitCpuBytes : ℕ := 24 * 1024 * 1024
def jitMaxCpus : ℕ := 128

def jitOsAlloc (bytes : ℕ) (m : Machine) : Option Range × Machine :=
  m.kmalloc .translator ((bytes + pageSize - 1) / pageSize)

/-- Allocate each of the sizes, whatever the others return, and tell whether
all succeeded. -/
def jitOsAllocs : List ℕ → Machine → Bool × Machine
  | [], m => (true, m)
  | bytes :: sizes, m =>
      let (r, m) := jitOsAlloc bytes m
      let (ok, m) := jitOsAllocs sizes m
      (r.isSome && ok, m)

def jitInitCpus (maxBlocks : ℕ) : ℕ → Machine → Bool × Machine
  | 0, m => (true, m)
  | n + 1, m =>
      match jitOsAlloc sizeofJitCpu m with
      | (none, m) => (false, m)
      | (some _, m) =>
        match jitOsAllocs [512 * maxBlocks, maxBlocks * sizeofJitBlock,
            2 * maxBlocks * sizeofJitLink, 16 * maxBlocks * 8, htabBytes] m with
        | (false, m) => (false, m)
        | (true, m) => jitInitCpus maxBlocks n m

/-- What `jit_init` allocates, and how much it says it took. -/
def jitInit (msize n maxBytes : ℕ) (m : Machine) : ℕ × Machine :=
  let n := min n jitMaxCpus
  let mapBytes := (msize / 64 + 15) / 8 * 8
  let pageBytes := msize / 4096 + 1
  let fixed := 2 * mapBytes + pageBytes + n * (sizeofJitCpu + htabBytes)
  if maxBytes ≤ fixed then (0, m)
  else
    let perCpu := (maxBytes - fixed) / n
    let unit := 512 + sizeofJitBlock + 2 * sizeofJitLink + 16 * 8
    let maxBlocks := min (perCpu / unit) (2 ^ 18)
    if maxBlocks < 4096 then (0, m)
    else
      match jitOsAllocs [mapBytes + pageBytes, mapBytes] m with
      | (false, m) => (0, m)
      | (true, m) =>
        match jitInitCpus maxBlocks n m with
        | (false, m) => (0, m)
        | (true, m) =>
          (2 * mapBytes + pageBytes +
            n * (sizeofJitCpu + 512 * maxBlocks + maxBlocks * sizeofJitBlock +
              2 * maxBlocks * sizeofJitLink + 16 * maxBlocks * 8 + htabBytes), m)

def maxCpus : ℕ := 128

def smpCpuTotal (info : DawnInfo) : ℕ :=
  match info.mpCpuCount with
  | none => 1
  | some 0 => 1
  | some n => if n < maxCpus then n else maxCpus

/-- The translator's part of what is left. -/
def jitMaxBytes (dawnMax ncpus : ℕ) : ℕ :=
  let jitMax := 2 * (dawnMax / 64) + ncpus * jitCpuBytes
  if jitMax > (dawnMax - dawnImageSize) / 8 then (dawnMax - dawnImageSize) / 8
  else jitMax

def setUpTranslator (info : DawnInfo) (m : Machine) : ℕ × Machine :=
  let freePages := match m.pages.pmm.pmmFreePages with
    | .ok n => n
    | .error _ => 0
  let dawnMax := dawnImageSize + freePages * pageSize
  let ncpus := smpCpuTotal info
  jitInit dawnMax ncpus (jitMaxBytes dawnMax ncpus) m

/-! ## Dawn's memory after the image -/

/-- Give Dawn page after page from number `pg` on, until no page is left or
mapping one fails; the result is the number of pages and the last four of
them, the latest first.  The first argument bounds the number of rounds. -/
def mapDawn (pml4 : Frame) : ℕ → ℕ → List Frame → Machine → ℕ × List Frame × Machine
  | 0, pg, lastptrs, m => (pg, lastptrs, m)
  | n + 1, pg, lastptrs, m =>
      match m.kmalloc (.dawn pg) 1 with
      | (none, m) => (pg, lastptrs, m)
      | (some r, m) =>
        let virt := BitVec.ofNat 64 (dawnImageSize + pg * pageSize)
        match mapPage tableSource (frameAddr pml4)
            (BitVec.ofNat 64 (r.start * pageSize)) virt m with
        | (ret, m) =>
          if ret ≠ 0 then (pg, lastptrs, m)
          else
            mapDawn pml4 n (pg + 1)
              ((BitVec.ofNat 40 r.start :: lastptrs).take 4) m

/-- Fill pages with `0xff`. -/
def fillPages : List Frame → Machine → Machine
  | [], m => m
  | page :: pages, m =>
      fillPages pages { m with
        mem := fun k =>
          if (frameAddr page).toNat / 8 ≤ k ∧ k < (frameAddr page).toNat / 8 + 512 then
            0xffffffffffffffff
          else m.mem k }

/-! ## The whole -/

/-- The machine `dawn_build_pagemap` leaves: the PML4 it loads, the number of
pages given to Dawn after the image, and the size of the translator. -/
structure Built where
  pml4 : Frame
  pg : ℕ
  jitBytes : ℕ
  machine : Machine

def Built.memSize (b : Built) : ℕ := dawnImageSize + b.pg * pageSize

/-- The kernel, the direct map, the interrupt controllers and the image. -/
def mapFixed (boot : BootInfo) (info : DawnInfo) (hhdm : ℕ) (pml4 : Frame)
    (m : Machine) : Machine :=
  let (physBase, virtBase) := boot.executableAddress.getD (0, 0)
  let m := mapKernel pml4 (BitVec.ofNat 64 physBase) (BitVec.ofNat 64 virtBase)
    (boot.executableFile.getD []) m
  let m := mapHhdm pml4 hhdm boot.entries m
  mapApics pml4 hhdm (apicAddrs info) m

/-- The rest of the memory goes to Dawn, its last pages filled. -/
def mapRest (pml4 : Frame) : ℕ × Machine → Built
  | (jitBytes, m) =>
      let (pg, lastptrs, m) := mapDawn pml4 (m.pages.pmm.maxPage + 1) 0 [] m
      ⟨pml4, pg, jitBytes, fillPages lastptrs m⟩

/-- `dawn_build_pagemap` once it has the page of the PML4. -/
def buildMappings (boot : BootInfo) (info : DawnInfo) (pml4 : Frame) (m : Machine) :
    Built :=
  let hhdm := boot.hhdm.getD 0
  let m := mapFixed boot info hhdm pml4 m
  let m := mapPages pml4 (dawnImageSize / pageSize) (ramdiskLoc hhdm info) 0 m
  mapRest pml4 (setUpTranslator info m)

/-- A zeroed page for the PML4, if there is one. -/
def allocPml4 (m : Machine) : Option (Frame × Machine) :=
  match m.kmalloc .pageTable 1 with
  | (none, _) => none
  | (some r, m) =>
    let pml4 : Frame := BitVec.ofNat 40 r.start
    some (pml4, { m with mem := zeroPage m.mem pml4 })

/-- `dawn_build_pagemap`; `none` is its endless loop when no page is left for
the PML4. -/
def dawnBuildPagemap (boot : BootInfo) (info : DawnInfo) (m : Machine) :
    Option Built :=
  (allocPml4 m).map fun (pml4, m) => buildMappings boot info pml4 m

def allocAntibuffers (info : DawnInfo) (m : Machine) : Machine :=
  let size := info.vbePitch / 4 * info.vbeHeight * 4
  let (_, m) := m.kalloc .antibuffer size
  let (_, m) := m.kalloc .antibuffer size
  m

/-- `dawn_init`, after `pmm_init` left the allocator in state `pmm`. -/
def dawnInit (boot : BootInfo) (info : DawnInfo) (pmm : Pmm) (mem : Memory) :
    Option Built :=
  dawnBuildPagemap boot info (allocAntibuffers info ⟨mem, ⟨pmm, []⟩⟩)

end DawnPagemap
end SubleqEmu
