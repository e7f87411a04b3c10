import SubleqEmu.SubleqModel
import SubleqEmu.VectorMemory

/-!
# Copy routines

`copy_sse2`, `copy_avx` and `copy_avx512`, one of which is picked at boot, and
`memmove`.  They leave a memory; the registers they change are their own.
-/

namespace SubleqEmu
namespace CopyRoutines

open ByteMemory Subleq

/-- The arguments, as the routines count them on, and memory. -/
structure Regs where
  rdi : Word
  rsi : Word
  rdx : Word
  mem : Memory

/-- How much four registers hold. -/
def blockBytes (w : VecWidth) : Word := BitVec.ofNat 64 (64 * w.lanes)

/-- Once through `.block`. -/
def copyBlock (w : VecWidth) (r : Regs) : Regs :=
  let bytes := BitVec.ofNat 64 (16 * w.lanes)
  let v₀ : Vec w.lanes := load r.mem r.rsi
  let v₁ : Vec w.lanes := load r.mem (r.rsi + bytes)
  let v₂ : Vec w.lanes := load r.mem (r.rsi + 2 * bytes)
  let v₃ : Vec w.lanes := load r.mem (r.rsi + 3 * bytes)
  let mem := store r.mem r.rdi v₀
  let mem := store mem (r.rdi + bytes) v₁
  let mem := store mem (r.rdi + 2 * bytes) v₂
  let mem := store mem (r.rdi + 3 * bytes) v₃
  { rdi := r.rdi + blockBytes w
    rsi := r.rsi + blockBytes w
    rdx := r.rdx - blockBytes w
    mem := mem }

def copyBlocks (w : VecWidth) (r : Regs) : Regs :=
  if r.rdx < blockBytes w then r else copyBlocks w (copyBlock w r)
termination_by r.rdx.toNat
decreasing_by
  have hpos := w.lanes_pos
  have hle := w.lanes_le
  simp only [copyBlock, blockBytes] at *
  bv_omega

/-- A word through `rax`: the order of its bytes there does not matter. -/
def copyWord (r : Regs) : Regs where
  rdi := r.rdi + 8
  rsi := r.rsi + 8
  rdx := r.rdx - 8
  mem := write r.mem r.rdi (read r.mem r.rsi)

def copyWords (r : Regs) : Regs :=
  if r.rdx < 8 then r else copyWords (copyWord r)
termination_by r.rdx.toNat
decreasing_by
  simp only [copyWord]
  bv_omega

def copyByte (r : Regs) : Regs where
  rdi := r.rdi + 1
  rsi := r.rsi + 1
  rdx := r.rdx - 1
  mem := Function.update r.mem r.rdi (r.mem r.rsi)

def copyBytes (r : Regs) : Regs :=
  if r.rdx = 0 then r else copyBytes (copyByte r)
termination_by r.rdx.toNat
decreasing_by
  simp only [copyByte]
  bv_omega

def copyTail (r : Regs) : Regs := copyBytes (copyWords r)

def copySse2 (m : Memory) (d s n : Word) : Memory :=
  (copyTail (copyBlocks .xmm ⟨d, s, n, m⟩)).mem

def copyAvx (m : Memory) (d s n : Word) : Memory :=
  (copyTail (copyBlocks .ymm ⟨d, s, n, m⟩)).mem

def copyAvx512 (m : Memory) (d s n : Word) : Memory :=
  (copyTail (copyBlocks .zmm ⟨d, s, n, m⟩)).mem

/-- The loop of `memmove` from byte `i` up, with `n - i` to go. -/
def moveUp (dest src : Word) : (i n : ℕ) → Memory → Memory
  | _, 0, m => m
  | i, n + 1, m =>
      moveUp dest src (i + 1) n
        (Function.update m (dest + BitVec.ofNat 64 i) (m (src + BitVec.ofNat 64 i)))

/-- The loop of `memmove` from byte `i - 1` down. -/
def moveDown (dest src : Word) : (i : ℕ) → Memory → Memory
  | 0, m => m
  | i + 1, m =>
      moveDown dest src i
        (Function.update m (dest + BitVec.ofNat 64 i) (m (src + BitVec.ofNat 64 i)))

def memmove (m : Memory) (dest src n : Word) : Memory :=
  if src > dest then moveUp dest src 0 n.toNat m
  else if src < dest then moveDown dest src n.toNat m
  else m

end CopyRoutines
end SubleqEmu
