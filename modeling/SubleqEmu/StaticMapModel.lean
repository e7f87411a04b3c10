import SubleqEmu.BitTable
import SubleqEmu.SubleqModel

/-!
# The tests for translated code

`jit_init` as far as it places the maps, and the instructions emitted to test them,
with the addresses that their operands stand for.
-/

namespace SubleqEmu
namespace StaticMap

open ByteMemory BitTable Subleq

/-! ## The maps -/

structure Maps where
  staticMap : Word
  dynMap : Word
  pageMap : Word
  pageOff : Word
  total : Word
  deriving DecidableEq

def mapBytes (msize : Word) : Word := (msize >>> 6 + 15) &&& ~~~7#64

def pageBytes (msize : Word) : Word := msize >>> 12 + 1

def maxCpus : ℕ := 128

/-- The sizes of `jit_cpu_t`, `jit_block_t`, `jit_link_t`, and of the hash table. -/
def cpuBytes : Word := 98584
def blockBytes : Word := 96
def linkBytes : Word := 16
def htabBytes : Word := 8 <<< 16

/-- What is allocated for each CPU. -/
def cpuAllocs (maxBlocks : Word) : List Word :=
  [cpuBytes, 512 * maxBlocks, maxBlocks * blockBytes, 2 * maxBlocks * linkBytes,
    16 * maxBlocks * 8, htabBytes]

/-- How many blocks each CPU gets records for, if that is enough of them. -/
def maxBlocks (msize : Word) (n : ℕ) (maxBytes : Word) : Option Word :=
  let fixed := 2 * mapBytes msize + pageBytes msize +
    BitVec.ofNat 64 n * (cpuBytes + htabBytes)
  let perCpu := (maxBytes - fixed) / BitVec.ofNat 64 n
  let unit := 512 + blockBytes + 2 * linkBytes + 16 * 8
  let blocks : Word := if perCpu / unit > 0x40000 then 0x40000 else perCpu / unit
  if maxBytes ≤ fixed ∨ blocks < 4096 then none else some blocks

/-- `jit_init` with an allocator that says where its `k`-th allocation goes. -/
def jitInit (alloc : ℕ → Word → Option Word) (msize : Word) (n : ℕ) (maxBytes : Word) :
    Option Maps := do
  let n := min n maxCpus
  let blocks ← maxBlocks msize n maxBytes
  let staticMap ← alloc 0 (mapBytes msize + pageBytes msize)
  let dynMap ← alloc 1 (mapBytes msize)
  let sizes := cpuAllocs blocks
  guard ((List.range n).all fun c =>
    sizes.zipIdx.all fun (size, k) => (alloc (2 + 6 * c + k) size).isSome)
  return {
    staticMap
    dynMap
    pageMap := staticMap + mapBytes msize
    pageOff := mapBytes msize
    total := 2 * mapBytes msize + pageBytes msize + BitVec.ofNat 64 n * sizes.sum }

/-! ## Operands -/

/-- The displacement after a ModRM byte. -/
inductive Operand
  | plain
  | disp8 (d : BitVec 8)
  | disp32 (d : BitVec 32)

/-- `mem_operand` for `[base + disp]`. -/
def memOperand (base : ℕ) (disp : BitVec 32) : Operand :=
  if disp = 0 ∧ base % 8 ≠ 5 then .plain
  else if (-128 : BitVec 32).sle disp ∧ disp.sle 127 then .disp8 (disp.setWidth 8)
  else .disp32 disp

def Operand.address (base : Word) : Operand → Word
  | .plain => base
  | .disp8 d => base + d.signExtend 64
  | .disp32 d => base + d.signExtend 64

/-- The cast to `int32_t`. -/
def int32 (x : Word) : BitVec 32 := x.setWidth 32

/-! ## Tests -/

section Tests

variable (host : Memory) (r14 : Word)

/-- `test_bitmap`: the byte tested, and with what. -/
def testBitmap (w : Word) : Bool :=
  host ((memOperand 14 (int32 (w >>> 3))).address r14) &&& 1#8 <<< (w.toNat % 8) ≠ 0

/-- The words of the hoist list in the bitmap dword of the first one, as a mask. -/
def groupMask (d : Word) (hoist : List Word) : BitVec 32 :=
  hoist.foldl (fun mask (w : Word) =>
    if w >>> 5 = d then mask ||| 1#32 <<< (w.toNat % 32) else mask) 0

/-- The dwords with their masks; those in `done` had their test before. -/
def groups (done : List Word) : List Word → List (Word × BitVec 32)
  | [] => []
  | w :: rest =>
      if w >>> 5 ∈ done then groups done rest
      else (w >>> 5, groupMask (w >>> 5) (w :: rest)) :: groups (w >>> 5 :: done) rest

/-- `test dword [r14 + 4d], mask` -/
def testGroup (g : Word × BitVec 32) : Bool :=
  BitVec.ofNat 32 (readLe host ((memOperand 14 (int32 (g.1 <<< 2))).address r14) 4) &&& g.2 ≠ 0

/-- The out-of-line test of word `t1`: a load with an index, and `bt`. -/
def testQword (t1 : Word) : Bool :=
  (BitVec.ofNat 64 (readLe host (r14 + (t1 >>> 6) <<< 3) 8)).getLsbD (t1.toNat % 64)

/-- `cmp byte [r14 + t1 + page_off], 0` for the page `t1` of the address `rb`. -/
def testPage (pageOff rb : Word) : Bool :=
  host (r14 + rb >>> 12 + (int32 pageOff).signExtend 64) ≠ 0

end Tests

end StaticMap
end SubleqEmu
