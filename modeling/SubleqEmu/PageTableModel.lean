import SubleqEmu.RadixTree
import Mathlib.Data.Finset.Basic

/-!
# Page tables and the hardware walk

`paging.c` builds 4-level page tables in pages it gets from `kmalloc`.  The
tables are 8-byte entries of physical memory, reached through the direct map;
memory is a function from entry numbers, physical addresses divided by 8.  The
walk is the processor's, on the same memory.
-/

namespace SubleqEmu
namespace PageTable

open RadixTree

/-- A page of physical memory, by its number: addresses have 52 bits. -/
abbrev Frame := BitVec 40

/-- A 2 MiB page of physical memory, by its number. -/
abbrev LargeFrame := BitVec 31

def frameAddr (frame : Frame) : BitVec 64 := frame.setWidth 64 <<< 12
def largeAddr (frame : LargeFrame) : BitVec 64 := frame.setWidth 64 <<< 21

/-! ## Entries -/

/-- Memory by 8-byte entries. -/
abbrev Memory := ℕ → BitVec 64

/-- `table[idx]`, for a table at physical address `table`. -/
def entryAt (table idx : BitVec 64) : ℕ := table.toNat / 8 + idx.toNat

def tableMask : BitVec 64 := 0xfffffffffffff000#64
def largeMask : BitVec 64 := 0xffffffffffe00000#64

def present (entry : BitVec 64) : Bool := entry &&& 0x1#64 != 0#64
def large (entry : BitVec 64) : Bool := entry &&& (1#64 <<< 7) != 0#64

def pml4Idx (virt : BitVec 64) : BitVec 64 := (virt >>> 39) &&& 0x1ff#64
def pdptIdx (virt : BitVec 64) : BitVec 64 := (virt >>> 30) &&& 0x1ff#64
def pdIdx (virt : BitVec 64) : BitVec 64 := (virt >>> 21) &&& 0x1ff#64
def ptIdx (virt : BitVec 64) : BitVec 64 := (virt >>> 12) &&& 0x1ff#64

/-! ## The mapping functions -/

/-- What `kmalloc(1)` promises the mapping functions, whatever it does inside:
it fails, or it returns a page, not at address 0, which it has not handed out
before. `Owned s pages` says that `pages` were handed out before state `s`. -/
structure PageSource (σ : Type) where
  kmalloc : σ → Option Frame × σ
  Owned : σ → Finset Frame → Prop
  fresh : ∀ s f s' pages, Owned s pages → kmalloc s = (some f, s') →
    f ≠ 0 ∧ f ∉ pages ∧ Owned s' (insert f pages)
  failed : ∀ s s' pages, Owned s pages → kmalloc s = (none, s') →
    Owned s' pages

/-- Memory and the state of the page allocator. -/
structure State (σ : Type) where
  mem : Memory
  pages : σ

variable {σ : Type}

/-- `kmalloc` zeroes the page it returns. -/
def zeroPage (mem : Memory) (page : Frame) : Memory := fun k =>
  if (frameAddr page).toNat / 8 ≤ k ∧ k < (frameAddr page).toNat / 8 + 512 then 0
  else mem k

/-- "Get or allocate": the table entry `idx` of `table` points to, put there
if the entry is not present; the result is its physical address. -/
def getTable (source : PageSource σ) (table idx : BitVec 64) (s : State σ) :
    Option (BitVec 64) × State σ :=
  if present (s.mem (entryAt table idx)) then
    (some (s.mem (entryAt table idx) &&& tableMask), s)
  else
    match source.kmalloc s.pages with
    | (none, pages) => (none, { s with pages := pages })
    | (some page, pages) =>
        (some (frameAddr page),
          { mem := Function.update (zeroPage s.mem page) (entryAt table idx)
              (frameAddr page ||| 0x03#64)
            pages := pages })

/-- Map a 4 KiB page, returning 0 or -1. -/
def mapPage (source : PageSource σ) (pml4 physAddr virtAddr : BitVec 64)
    (s : State σ) : ℤ × State σ :=
  match getTable source pml4 (pml4Idx virtAddr) s with
  | (none, s) => (-1, s)
  | (some pdpt, s) =>
    let pdptEntry := s.mem (entryAt pdpt (pdptIdx virtAddr))
    -- a 1 GiB page: no 4 KiB page can be mapped inside it
    if present pdptEntry && large pdptEntry then (-1, s)
    else
      match getTable source pdpt (pdptIdx virtAddr) s with
      | (none, s) => (-1, s)
      | (some pd, s) =>
        let pdEntry := s.mem (entryAt pd (pdIdx virtAddr))
        -- nor inside a 2 MiB page
        if present pdEntry && large pdEntry then (-1, s)
        else
          match getTable source pd (pdIdx virtAddr) s with
          | (none, s) => (-1, s)
          | (some pt, s) =>
            (0, { s with
              mem := Function.update s.mem (entryAt pt (ptIdx virtAddr))
                ((physAddr &&& tableMask) ||| 0x03#64) })

/-- Map a 2 MiB page, returning 0 or -1. -/
def mapPage2m (source : PageSource σ) (pml4 physAddr virtAddr : BitVec 64)
    (s : State σ) : ℤ × State σ :=
  match getTable source pml4 (pml4Idx virtAddr) s with
  | (none, s) => (-1, s)
  | (some pdpt, s) =>
    match getTable source pdpt (pdptIdx virtAddr) s with
    | (none, s) => (-1, s)
    | (some pd, s) =>
      (0, { s with
        mem := Function.update s.mem (entryAt pd (pdIdx virtAddr))
          ((physAddr &&& largeMask) ||| 0x03#64 ||| (1#64 <<< 7)) })

/-! ## The hardware walk -/

/-- The page a translation ends at. -/
inductive Page
  | page4k (frame : Frame)
  | page2m (frame : LargeFrame)
  | page1g (frame : BitVec 22)
  deriving DecidableEq

/-- The physical address of a virtual one inside its page. -/
def Page.phys (page : Page) (virt : BitVec 64) : BitVec 52 :=
  match page with
  | .page4k frame => frame ++ virt.extractLsb' 0 12
  | .page2m frame => frame ++ virt.extractLsb' 0 21
  | .page1g frame => frame ++ virt.extractLsb' 0 30

/-- An entry as the processor reads it at a level, 3 for the PML4 and 0 for a
page table; bit 7 is reserved in the PML4 and no page size in a page table. -/
def decode (level : ℕ) (entry : BitVec 64) : Decoded Frame Page :=
  if entry.getLsbD 0 = false then .miss
  else if level = 0 then .leaf (.page4k (entry.extractLsb' 12 40))
  else if entry.getLsbD 7 = false then .table (entry.extractLsb' 12 40)
  else if level = 1 then .leaf (.page2m (entry.extractLsb' 21 31))
  else if level = 2 then .leaf (.page1g (entry.extractLsb' 30 22))
  else .miss

/-- Entry `i` of the table in a page. -/
def readTable (mem : Memory) (table : Frame) (i : BitVec 9) : BitVec 64 :=
  mem (table.toNat * 512 + i.toNat)

/-- The four indices of a virtual address, from the PML4 down. -/
def path (virt : BitVec 64) : List (BitVec 9) :=
  [virt.extractLsb' 39 9, virt.extractLsb' 30 9, virt.extractLsb' 21 9,
    virt.extractLsb' 12 9]

/-- The page the processor translates a virtual address to, if any. -/
def walk (mem : Memory) (pml4 : Frame) (virt : BitVec 64) : Option Page :=
  lookup decode (readTable mem) pml4 (path virt)

/-! ## What the calls are for -/

/-- A partial map from virtual addresses to the pages holding them. -/
abbrev Translation := BitVec 64 → Option Page

inductive Call
  | mapPage (phys : Frame) (virt : BitVec 64)
  | mapPage2m (phys : LargeFrame) (virt : BitVec 64)

/-- A successful call overrides the page, or the 2 MiB region, of its virtual
address. -/
def Call.override (call : Call) (m : Translation) : Translation := fun v =>
  match call with
  | .mapPage phys virt =>
      if v.extractLsb' 12 36 = virt.extractLsb' 12 36 then some (.page4k phys)
      else m v
  | .mapPage2m phys virt =>
      if v.extractLsb' 21 27 = virt.extractLsb' 21 27 then some (.page2m phys)
      else m v

def Call.apply (source : PageSource σ) (pml4 : Frame) (s : State σ) :
    Call → ℤ × State σ
  | .mapPage phys virt =>
      PageTable.mapPage source (frameAddr pml4) (frameAddr phys) virt s
  | .mapPage2m phys virt =>
      PageTable.mapPage2m source (frameAddr pml4) (largeAddr phys) virt s

/-- Make the calls in order, keeping their results. -/
def runCalls (source : PageSource σ) (pml4 : Frame) :
    List Call → State σ → List ℤ × State σ
  | [], s => ([], s)
  | call :: calls, s =>
      let (result, s) := call.apply source pml4 s
      let (results, s) := runCalls source pml4 calls s
      (result :: results, s)

/-- The map left by calls with these results: those which returned -1 change
nothing. -/
def replay : List (Call × ℤ) → Translation → Translation
  | [], m => m
  | (call, result) :: calls, m =>
      replay calls (if result = 0 then call.override m else m)

end PageTable
end SubleqEmu
