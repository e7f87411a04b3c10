import SubleqEmu.PageAllocatorModel

/-!
# The kernel heap

`kalloc`, `kfree` and `krealloc` of `klib.c` over the page allocator.  Memory is
reached through the direct map, at the offset the boot loader chose; an object
has a page of metadata in front of it.
-/

namespace SubleqEmu
namespace KernelHeap

open PageAllocator

abbrev Addr := BitVec 64

/-- `PHYS_MEM_OFFSET`, where physical memory is mapped. -/
abbrev Offset := BitVec 64

/-- The physical address behind an address of the direct map. -/
def phys (offset : Offset) (addr : Addr) : ℕ := (addr - offset).toNat

/-! ## Memory by the byte and by the word -/

def rd8 (s : Pmm) (p : ℕ) : BitVec 8 := (s.mem (p / 4)).extractLsb' (8 * (p % 4)) 8

def setByte (word : BitVec 32) (k : ℕ) (byte : BitVec 8) : BitVec 32 :=
  word &&& ~~~(0xff#32 <<< (8 * k)) ||| byte.setWidth 32 <<< (8 * k)

def wr8 (s : Pmm) (p : ℕ) (byte : BitVec 8) : Pmm :=
  { s with mem := Function.update s.mem (p / 4) (setByte (s.mem (p / 4)) (p % 4) byte) }

/-- The metadata is aligned, so its words are two words of memory each. -/
def rd64 (s : Pmm) (p : ℕ) : BitVec 64 := s.mem (p / 4 + 1) ++ s.mem (p / 4)

def wr64 (s : Pmm) (p : ℕ) (val : BitVec 64) : Pmm :=
  { s with
    mem := Function.update (Function.update s.mem (p / 4) (val.extractLsb' 0 32))
      (p / 4 + 1) (val.extractLsb' 32 32) }

/-- The loop of `memcpy` over `n` bytes from the `i`-th on. -/
def memcpy (offset : Offset) (dest src : Addr) : ℕ → ℕ → Pmm → Pmm
  | 0, _, s => s
  | n + 1, i, s =>
      memcpy offset dest src n (i + 1)
        (wr8 s (phys offset (dest + BitVec.ofNat 64 i))
          (rd8 s (phys offset (src + BitVec.ofNat 64 i))))

/-! ## The heap -/

/-- The size of `kalloc_metadata_t`, by which arithmetic on pointers to it scales. -/
def metadataSize : BitVec 64 := 16

def pageBytes : BitVec 64 := BitVec.ofNat 64 pageSize

/-- The pages of an object of `size` bytes. -/
def pagesOf (size : BitVec 64) : ℕ :=
  size.toNat / pageSize + if size.toNat % pageSize ≠ 0 then 1 else 0

/-- The null pointer is 0, in particular that of a `kmalloc` that failed. -/
def kalloc (offset : Offset) (size : BitVec 64) (s : Pmm) : Except PmmError (Addr × Pmm) := do
  let pages := pagesOf size
  match ← s.kmalloc (pages + 1) with
  | (none, s) => return (0, s)
  | (some ptr, s) =>
      let metadata := BitVec.ofNat 64 ptr + offset
      let s := wr64 s (phys offset metadata) (BitVec.ofNat 64 pages)
      let s := wr64 s (phys offset (metadata + 8)) size
      return (metadata + pageBytes, s)

def kfree (offset : Offset) (addr : Addr) (s : Pmm) : Except PmmError Pmm :=
  let metadata := addr - pageBytes
  let pages := rd64 s (phys offset metadata)
  -- arithmetic on a pointer to metadata, not on an address
  s.kmfree (metadata - metadataSize * offset).toNat (pages + 1).toNat

def krealloc (offset : Offset) (addr : Addr) (newSize : BitVec 64) (s : Pmm) :
    Except PmmError (Addr × Pmm) :=
  if addr = 0 then kalloc offset newSize s
  else if newSize = 0 then do
    let s ← kfree offset addr s
    return (0, s)
  else do
    let metadata := addr - pageBytes
    let (newPtr, s) ← kalloc offset newSize s
    if newPtr = 0 then return (0, s)
    let size := rd64 s (phys offset (metadata + 8))
    let s := memcpy offset newPtr addr (if size > newSize then newSize else size).toNat 0 s
    let s ← kfree offset addr s
    return (newPtr, s)

end KernelHeap
end SubleqEmu
