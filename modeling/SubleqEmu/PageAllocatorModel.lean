import Mathlib.Tactic

/-!
# The boot memory map and the page allocator

`pmm.c` tracks physical pages above 16 MiB in a bitmap which lives in one of
the usable regions it manages.  The model keeps the bitmap inside physical
memory, so handing out a page and zeroing it go through the same memory as the
bitmap itself.  A bitmap access outside the `bitmap_pages` pages reserved for
it is an error of the model, as is every `panic`.
-/

namespace SubleqEmu
namespace PageAllocator

/-! ## The boot memory map -/

/-- Entry types of the Limine memory map; `other` stands for the types the
kernel never names. -/
inductive MemmapType
  | usable
  | reservedMapped
  | acpiReclaimable
  | acpiNvs
  | bootloaderReclaimable
  | executableAndModules
  | framebuffer
  | other
  deriving DecidableEq, Repr

structure MemmapEntry where
  base : ℕ
  length : ℕ
  type : MemmapType
  deriving DecidableEq, Repr

def MemmapEntry.stop (entry : MemmapEntry) : ℕ := entry.base + entry.length

def MemmapEntry.Disjoint (a b : MemmapEntry) : Prop :=
  a.stop ≤ b.base ∨ b.stop ≤ a.base

instance (a b : MemmapEntry) : Decidable (a.Disjoint b) :=
  inferInstanceAs (Decidable (_ ∨ _))

theorem MemmapEntry.Disjoint.symm {a b : MemmapEntry} (h : a.Disjoint b) :
    b.Disjoint a :=
  Or.symm h

/-- Physical addresses have at most 52 bits. -/
def physLimit : ℕ := 0x10000000000000

/-- A memory map as the boot loader promises it: entries lie in the physical
address space and usable entries overlap no other entry. -/
structure Memmap where
  entries : List MemmapEntry
  inPhys : ∀ entry ∈ entries, entry.stop ≤ physLimit
  usableDisjoint : entries.Pairwise fun a b =>
    a.type = .usable ∨ b.type = .usable → a.Disjoint b

/-- One program header of the kernel's ELF file. -/
structure Phdr where
  type : ℕ
  vaddr : ℕ
  memsz : ℕ
  deriving DecidableEq, Repr

def ptLoad : ℕ := 1

/-- The boot loader's answers; `none` stands for a missing response. -/
structure BootInfo where
  hhdm : Option ℕ
  executableAddress : Option (ℕ × ℕ)
  executableFile : Option (List Phdr)
  memmap : Option Memmap

/-! ## The allocator -/

def pageSize : ℕ := 0x1000
def memoryBase : ℕ := 0x1000000
def bitmapBase : ℕ := memoryBase / pageSize

/-- Subtraction of `size_t` values. -/
def subSize (a b : ℕ) : ℕ := (a + 2 ^ 64 - b) % 2 ^ 64

theorem subSize_of_le {a b : ℕ} (hle : b ≤ a) (ha : a < 2 ^ 64) :
    subSize a b = a - b := by
  unfold subSize
  omega

/-- Physical memory in 32-bit words, and the allocator's variables. -/
structure Pmm where
  mem : ℕ → BitVec 32
  memBitmap : ℕ
  bitmapPages : ℕ
  maxPage : ℕ
  lastAllocPage : ℕ

inductive PmmError
  | panic (message : String)
  /-- an access to `mem_bitmap` outside the pages reserved for it -/
  | strayBitmapAccess
  deriving DecidableEq, Repr

@[simp] theorem ok_bind {α β : Type} (a : α) (f : α → Except PmmError β) :
    (Except.ok a >>= f) = f a := rfl

theorem bind_eq_ok {α β : Type} {x : Except PmmError α} {f : α → Except PmmError β} {b : β} :
    (x >>= f) = .ok b ↔ ∃ a, x = .ok a ∧ f a = .ok b := by
  cases x with
  | ok a => simp
  | error e =>
      constructor
      · intro h
        cases h
      · rintro ⟨a, ha, -⟩
        cases ha

theorem exists_eq_ok {α : Type} {x : Except PmmError α} (h : x.isOk = true) :
    ∃ a, x = .ok a := by
  cases x with
  | ok a => exact ⟨a, rfl⟩
  | error e => simp [Except.isOk, Except.toBool] at h

/-- `rd_bitmap` and `wr_bitmap` access word `bitmapWord i` of memory. -/
def Pmm.bitmapWord (s : Pmm) (i : ℕ) : ℕ :=
  s.memBitmap / 4 + subSize i bitmapBase / 32

def Pmm.InBitmap (s : Pmm) (i : ℕ) : Prop :=
  subSize i bitmapBase / 32 < s.bitmapPages * pageSize / 4

instance (s : Pmm) (i : ℕ) : Decidable (s.InBitmap i) :=
  inferInstanceAs (Decidable (_ < _))

def Pmm.rdBitmap (s : Pmm) (i : ℕ) : Except PmmError Bool :=
  if s.InBitmap i then
    .ok ((s.mem (s.bitmapWord i)).getLsbD (subSize i bitmapBase % 32))
  else .error .strayBitmapAccess

def setBit (word : BitVec 32) (offset : ℕ) (val : Bool) : BitVec 32 :=
  if val then word ||| (1#32 <<< offset) else word &&& ~~~(1#32 <<< offset)

def Pmm.wrBitmap (s : Pmm) (i : ℕ) (val : Bool) : Except PmmError Pmm :=
  if s.InBitmap i then
    .ok { s with
      mem := Function.update s.mem (s.bitmapWord i)
        (setBit (s.mem (s.bitmapWord i)) (subSize i bitmapBase % 32) val) }
  else .error .strayBitmapAccess

/-- One scanning loop of `kmalloc` over the `n` pages from `i`, with the
counter of consecutive free pages; the result is `i` at the jump to `found`. -/
def Pmm.scan (s : Pmm) (pages : ℕ) : ℕ → ℕ → ℕ → Except PmmError (Option ℕ)
  | 0, _, _ => .ok none
  | n + 1, i, pgCounter => do
      let used ← s.rdBitmap i
      let pgCounter := if used then 0 else pgCounter + 1
      if pgCounter = pages then return some i
      s.scan pages n (i + 1) pgCounter

/-- Write `val` for `n` pages from `i`. -/
def Pmm.wrBitmapRange (val : Bool) : ℕ → ℕ → Pmm → Except PmmError Pmm
  | 0, _, s => .ok s
  | n + 1, i, s => do
      let s ← s.wrBitmap i val
      wrBitmapRange val n (i + 1) s

/-- Zero `pages` physical pages from `page`, through the direct map. -/
def Pmm.zeroPages (s : Pmm) (page pages : ℕ) : Pmm :=
  { s with
    mem := fun word =>
      if page * pageSize / 4 ≤ word ∧ word < (page + pages) * pageSize / 4 then 0
      else s.mem word }

/-- What `kmalloc` does after the jump to `found` from page `i`. -/
def Pmm.found (s : Pmm) (pages i : ℕ) : Except PmmError (Option ℕ × Pmm) := do
  let strtPage := i - (pages - 1)
  let s := { s with lastAllocPage := i + 1 }
  let s ← Pmm.wrBitmapRange true pages strtPage s
  return (some (strtPage * pageSize), s.zeroPages strtPage pages)

def Pmm.kmalloc (s : Pmm) (pages : ℕ) : Except PmmError (Option ℕ × Pmm) := do
  let start := s.lastAllocPage
  -- first pass: from the hint to the end
  match ← s.scan pages (s.maxPage - start) start 0 with
  | some i => s.found pages i
  | none =>
    -- second pass: from the beginning to the hint
    match ← s.scan pages (start - bitmapBase) bitmapBase 0 with
    | some i => s.found pages i
    | none => return (none, s)

/-- The counting loop of `pmm_free_pages` over the `n` pages from `i`. -/
def Pmm.countFree (s : Pmm) : ℕ → ℕ → ℕ → Except PmmError ℕ
  | 0, _, count => .ok count
  | n + 1, i, count => do
      let used ← s.rdBitmap i
      s.countFree n (i + 1) (if used then count else count + 1)

def Pmm.pmmFreePages (s : Pmm) : Except PmmError ℕ :=
  s.countFree (s.maxPage - bitmapBase) bitmapBase 0

def Pmm.kmfree (s : Pmm) (ptr pages : ℕ) : Except PmmError Pmm :=
  Pmm.wrBitmapRange false pages (ptr / pageSize) s

/-! ## Initialization -/

def raiseHighest (highest : ℕ) (entry : MemmapEntry) : ℕ :=
  if entry.type = .usable ∨ entry.type = .bootloaderReclaimable then
    if entry.stop > highest then entry.stop else highest
  else highest

/-- The end of the highest usable or reclaimable entry. -/
def highestAddr (entries : List MemmapEntry) : ℕ :=
  entries.foldl raiseHighest 0

def roundDown (addr : ℕ) : ℕ := addr / pageSize * pageSize
def roundUp (addr : ℕ) : ℕ := (addr + pageSize - 1) / pageSize * pageSize

def bitmapPagesFor (newMaxPage : ℕ) : ℕ :=
  let bitmapBits := subSize newMaxPage bitmapBase
  let bitmapBytes := (bitmapBits + 7) % 2 ^ 64 / 8
  (bitmapBytes + pageSize - 1) / pageSize

/-- Where the bitmap goes in an entry, if it fits there. -/
def bitmapPlace (bitmapPages : ℕ) (entry : MemmapEntry) : Option ℕ :=
  if entry.type = .usable then
    let base := max (roundUp entry.base) memoryBase
    let stop := roundDown entry.stop
    if base < stop ∧ bitmapPages * pageSize ≤ stop - base then some base else none
  else none

def alignedBase (entry : MemmapEntry) : ℕ :=
  if entry.base % pageSize ≠ 0 then
    entry.base + (pageSize - entry.base % pageSize)
  else entry.base

def alignedLength (entry : MemmapEntry) : ℕ :=
  let alignedLength := entry.length / pageSize * pageSize
  if entry.base % pageSize ≠ 0 ∧ alignedLength ≠ 0 then alignedLength - pageSize
  else alignedLength

/-- Mark as free the page at an address of a usable entry, but for pages below
16 MiB, those not tracked, and those of the bitmap. -/
def Pmm.freePage (s : Pmm) (addr : ℕ) : Except PmmError Pmm :=
  let page := addr / pageSize
  if page < bitmapBase then .ok s
  else if page ≥ s.maxPage then .ok s
  else if s.memBitmap ≤ addr ∧ addr < s.memBitmap + s.bitmapPages * pageSize then
    .ok s
  else s.wrBitmap page false

/-- The loop over the `n` pages of an entry from `addr`. -/
def Pmm.freeFrom : ℕ → ℕ → Pmm → Except PmmError Pmm
  | 0, _, s => .ok s
  | n + 1, addr, s => do
      let s ← s.freePage addr
      freeFrom n (addr + pageSize) s

def Pmm.freeEntry (s : Pmm) (entry : MemmapEntry) : Except PmmError Pmm :=
  if entry.type = .usable then
    Pmm.freeFrom (alignedLength entry / pageSize) (alignedBase entry) s
  else .ok s

def Pmm.freeEntries : List MemmapEntry → Pmm → Except PmmError Pmm
  | [], s => .ok s
  | entry :: entries, s => do
      let s ← s.freeEntry entry
      freeEntries entries s

/-- `pmm_init` from the memory map on, over the memory found at boot. -/
def pmmInitMap (entries : List MemmapEntry) (mem : ℕ → BitVec 32) :
    Except PmmError Pmm :=
  let newMaxPage := highestAddr entries / pageSize
  let bitmapPages := bitmapPagesFor newMaxPage
  match entries.findSome? (bitmapPlace bitmapPages) with
  | none => .error (.panic "PMM: No usable region holds the page bitmap")
  | some bitmapPhys =>
    Pmm.freeEntries entries
      { mem := fun word =>
          if bitmapPhys / 4 ≤ word ∧
              word < bitmapPhys / 4 + bitmapPages * pageSize / 4 then
            BitVec.allOnes 32
          else mem word
        memBitmap := bitmapPhys
        bitmapPages := bitmapPages
        maxPage := newMaxPage
        lastAllocPage := bitmapBase }

def pmmInit (boot : BootInfo) (mem : ℕ → BitVec 32) : Except PmmError Pmm :=
  match boot.hhdm, boot.executableAddress, boot.executableFile, boot.memmap with
  | none, _, _, _ => .error (.panic "PMM: HHDM not provided by bootloader")
  | some _, none, _, _ =>
      .error (.panic "PMM: Executable address not provided by bootloader")
  | some _, some _, none, _ =>
      .error (.panic "PMM: Executable file not provided by bootloader")
  | some _, some _, some _, none =>
      .error (.panic "PMM: Memory map not provided by bootloader")
  | some _, some _, some _, some map => pmmInitMap map.entries mem

end PageAllocator
end SubleqEmu
