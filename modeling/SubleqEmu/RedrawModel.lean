import SubleqEmu.VectorInstructions

/-!
# Redraw kernels

`screen_redraw_sse2`, `screen_redraw_avx2` and `screen_redraw_avx512`: rows of pixels
in blocks that shrink towards the end of a row, then one at a time.
-/

namespace SubleqEmu
namespace Redraw

open ByteMemory

abbrev Word := BitVec 64
abbrev Dword := BitVec 32

def pixelShuffleMask {lanes : ℕ} : Vec lanes := fun _ k =>
  [2, 1, 0, 3, 6, 5, 4, 7, 10, 9, 8, 11, 14, 13, 12, 15].getD k 0

def pixelKeepMask : Vec 1 := ofDwords fun _ _ => 0xff00ff00
def pixelLowMask : Vec 1 := ofDwords fun _ _ => 0x000000ff

/-- What a kernel does to the pixels that one register holds. -/
structure Block where
  width : VecWidth
  permute : Vec width.lanes → Vec width.lanes

def Block.pixels (b : Block) : Dword := BitVec.ofNat 32 (4 * b.width.lanes)

def Block.run (b : Block) (m : Memory) (dst src : Word) : Memory :=
  store m dst (b.permute (load m src))

/-- Four pixels: `(p & 0xff00ff00) | ((p >> 16) & 0xff) | ((p << 24) >> 8)`. -/
def swapMasks (xmm0 : Vec 1) : Vec 1 :=
  let xmm1 := xmm0
  let xmm2 := xmm0
  let xmm0 := pand xmm0 pixelKeepMask
  let xmm1 := psrld xmm1 16
  let xmm1 := pand xmm1 pixelLowMask
  let xmm2 := pslld xmm2 24
  let xmm2 := psrld xmm2 8
  let xmm0 := por xmm0 xmm1
  por xmm0 xmm2

def sse2Block : Block := ⟨.xmm, swapMasks⟩
def avx2Block : Block := ⟨.ymm, fun ymm0 => vpshufb ymm0 pixelShuffleMask⟩
def avx512Block : Block := ⟨.zmm, fun zmm0 => vpshufb zmm0 pixelShuffleMask⟩

/-- The address of pixel `x` of a row. -/
def pixelAt (row : Word) (x : Dword) : Word := row + 4 * x.setWidth 64

theorem slt_eq_false_iff {a p : Dword} (hp : p.toNat < 2 ^ 31) :
    a.slt p = false ↔ p.toNat ≤ a.toNat ∧ a.toNat < 2 ^ 31 := by
  rw [BitVec.slt, decide_eq_false_iff_not, BitVec.toInt_eq_toNat_cond, BitVec.toInt_eq_toNat_cond]
  have ha := a.isLt
  split_ifs <;> omega

theorem Block.toNat_pixels (b : Block) : b.pixels.toNat = 4 * b.width.lanes := by
  have hle := b.width.lanes_le
  unfold Block.pixels
  bv_omega

theorem toInt_sub_lt {x width : Dword} (h : x.slt width = true) :
    (width.toInt - (x + 1).toInt).toNat < (width.toInt - x.toInt).toNat := by
  rw [BitVec.slt, decide_eq_true_eq] at h
  rw [BitVec.toInt_eq_toNat_cond] at *
  rw [BitVec.toInt_eq_toNat_cond, BitVec.toInt_eq_toNat_cond] at *
  have hx := x.isLt
  have hnext : (x + 1).toNat = (x.toNat + 1) % 2 ^ 32 := by bv_omega
  rw [hnext]
  split_ifs at * <;> omega

/-- The widest block that the pixels left in the row fill, until there is none. -/
def colLoop (blocks : List Block) (rcx rbx : Word) (width x : Dword) (m : Memory) :
    Dword × Memory :=
  match _hfind : blocks.find? fun b => !(width - x).slt b.pixels with
  | none => (x, m)
  | some b =>
      colLoop blocks rcx rbx width (x + b.pixels) (b.run m (pixelAt rbx x) (pixelAt rcx x))
termination_by (width - x).toNat
decreasing_by
  have hpixels := b.toNat_pixels
  have hpos := b.width.lanes_pos
  have hle := b.width.lanes_le
  have hroom := List.find?_some _hfind
  rw [Bool.not_eq_true', slt_eq_false_iff (by omega)] at hroom
  bv_omega

/-- The pixels left, one at a time. -/
def scalarTail (rcx rbx : Word) (width x : Dword) (m : Memory) : Memory :=
  if x.slt width then
    let eax := load32 m (pixelAt rcx x)
    let eax := eax.rotateLeft 8
    let eax := bswap32 eax
    scalarTail rcx rbx width (x + 1) (store32 m (pixelAt rbx x) eax)
  else m
termination_by (width.toInt - x.toInt).toNat
decreasing_by
  exact toInt_sub_lt ‹_›

def rowLoop (blocks : List Block) (dst src : Word) (width height dstPitch srcPitch y : Dword)
    (m : Memory) : Memory :=
  if y.slt height then
    let rcx := pixelAt src (y * srcPitch)
    let rbx := pixelAt dst (y * dstPitch)
    let row := colLoop blocks rcx rbx width 0 m
    rowLoop blocks dst src width height dstPitch srcPitch (y + 1)
      (scalarTail rcx rbx width row.1 row.2)
  else m
termination_by (height.toInt - y.toInt).toNat
decreasing_by
  exact toInt_sub_lt ‹_›

def screenRedrawSse2 (m : Memory) (dst src : Word) (width height dstPitch srcPitch : Dword) :
    Memory :=
  rowLoop [sse2Block] dst src width height dstPitch srcPitch 0 m

def screenRedrawAvx2 (m : Memory) (dst src : Word) (width height dstPitch srcPitch : Dword) :
    Memory :=
  rowLoop [avx2Block] dst src width height dstPitch srcPitch 0 m

def screenRedrawAvx512 (m : Memory) (dst src : Word) (width height dstPitch srcPitch : Dword) :
    Memory :=
  rowLoop [avx512Block, avx2Block] dst src width height dstPitch srcPitch 0 m

end Redraw
end SubleqEmu
