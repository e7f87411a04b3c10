import SubleqEmu.X86Decoder
import SubleqEmu.MachineModel

/-!
# The bytes of the emitter

What each function of the emitter appends to the code, with the jumps not patched yet.
-/

namespace SubleqEmu
namespace EmitterBytes

open X86

attribute [local instance] neZero_sixteen

/-! ## Registers -/

def rax : X86.Reg := 0
def rbx : X86.Reg := 3
def rsp : X86.Reg := 4
def r12 : X86.Reg := 12
def r13 : X86.Reg := 13
def r14 : X86.Reg := 14
def r15 : X86.Reg := 15

/-- `alloc_regs` -/
def allocRegs (r : Machine.Reg) : X86.Reg :=
  ([0, 1, 2, 3, 6, 7, 8, 9, 10, 11, 13] : List X86.Reg).get r

/-! ## Parts of instructions -/

def e8 (v : ℕ) : List Byte := [BitVec.ofNat 8 v]

def e32 (v : BitVec 32) : List Byte := littleEndian 4 v.toNat

def e64 (v : Word) : List Byte := littleEndian 8 v.toNat

/-- REX with W, and the high bits of reg, index, and base/rm. -/
def rex (w : ℕ) (r x b : X86.Reg) : List Byte :=
  let v := 0x40 ||| (w <<< 3) ||| ((r.val >>> 3) <<< 2) ||| ((x.val >>> 3) <<< 1) ||| (b.val >>> 3)
  if v ≠ 0x40 then e8 v else []

def modOf (base : X86.Reg) (disp : BitVec 32) : ℕ :=
  if disp = 0 ∧ base.val &&& 7 ≠ 5 then 0
  else if -128 ≤ disp.toInt ∧ disp.toInt ≤ 127 then 1
  else 2

def dispBytes (mod : ℕ) (disp : BitVec 32) : List Byte :=
  if mod = 1 then [disp.setWidth 8] else if mod = 2 then e32 disp else []

/-- modrm, and SIB if needed, for [base + disp]. -/
def memOperand (reg : ℕ) (base : X86.Reg) (disp : BitVec 32) : List Byte :=
  let mod := modOf base disp
  e8 ((mod <<< 6) ||| ((reg &&& 7) <<< 3) ||| (base.val &&& 7)) ++
    (if base.val &&& 7 = 4 then e8 0x24 else []) ++ dispBytes mod disp

def modrmReg (reg : ℕ) (rm : X86.Reg) : List Byte :=
  e8 (0xc0 ||| ((reg &&& 7) <<< 3) ||| (rm.val &&& 7))

/-! ## Memory -/

/-- 64-bit op with a [base + disp] operand: 8b load, 89 store, 8d lea. -/
def opMem (op : ℕ) (r base : X86.Reg) (disp : BitVec 32) : List Byte :=
  rex 1 r 0 base ++ e8 op ++ memOperand r base disp

def movbeMem (store : Bool) (r base : X86.Reg) (disp : BitVec 32) : List Byte :=
  rex 1 r 0 base ++ e8 0x0f ++ e8 0x38 ++ e8 (if store then 0xf1 else 0xf0) ++
    memOperand r base disp

/-- mov r, [base + index * 8] -/
def loadSib8 (r base index : X86.Reg) : List Byte :=
  rex 1 r index base ++ e8 0x8b ++ e8 (0x04 ||| ((r.val &&& 7) <<< 3)) ++
    e8 (0xc0 ||| ((index.val &&& 7) <<< 3) ||| (base.val &&& 7))

/-- cmp byte [base + index + disp], 0 -/
def cmpByteZero (base index : X86.Reg) (disp : BitVec 32) : List Byte :=
  rex 0 0 index base ++ e8 0x80 ++ e8 0xbc ++
    e8 (((index.val &&& 7) <<< 3) ||| (base.val &&& 7)) ++ e32 disp ++ e8 0

/-- test byte [r14 + w / 8], 1 << (w % 8) -/
def testBitmap (w : Word) : List Byte :=
  rex 0 0 0 r14 ++ e8 0xf6 ++ memOperand 0 r14 ((w >>> 3).setWidth 32) ++
    e8 (1 <<< (w.toNat &&& 7))

/-- The store of a constant in `store_const`, at an address from r15. -/
def storeImm (disp v : BitVec 32) : List Byte :=
  rex 1 0 0 r15 ++ e8 0xc7 ++ memOperand 0 r15 disp ++ e32 v

/-! ## Registers and immediates -/

/-- An opcode with the registers in its ModRM byte. -/
def rr (op : ℕ) (dst src : X86.Reg) : List Byte := rex 1 src 0 dst ++ e8 op ++ modrmReg src dst

def movRr (dst src : X86.Reg) : List Byte := rr 0x89 dst src
def subRr (dst src : X86.Reg) : List Byte := rr 0x29 dst src
def addRr (dst src : X86.Reg) : List Byte := rr 0x01 dst src
def orRr (dst src : X86.Reg) : List Byte := rr 0x09 dst src
def andRr (dst src : X86.Reg) : List Byte := rr 0x21 dst src
def testRr (a b : X86.Reg) : List Byte := rr 0x85 a b

def bswap (r : X86.Reg) : List Byte := rex 1 0 0 r ++ e8 0x0f ++ e8 (0xc8 + (r.val &&& 7))
def negR (r : X86.Reg) : List Byte := rex 1 0 0 r ++ e8 0xf7 ++ modrmReg 3 r
def notR (r : X86.Reg) : List Byte := rex 1 0 0 r ++ e8 0xf7 ++ modrmReg 2 r
def shrRi (r : X86.Reg) (n : Byte) : List Byte := rex 1 0 0 r ++ e8 0xc1 ++ modrmReg 5 r ++ [n]
def shlRi (r : X86.Reg) (n : Byte) : List Byte := rex 1 0 0 r ++ e8 0xc1 ++ modrmReg 4 r ++ [n]

def btRr (base bit : X86.Reg) : List Byte :=
  rex 1 bit 0 base ++ e8 0x0f ++ e8 0xa3 ++ modrmReg bit base

/-- mov r32, r32, as `and_imm64` does it -/
def movLow (r : X86.Reg) : List Byte := rex 0 r 0 r ++ e8 0x89 ++ modrmReg r r

/-- Leaves the flags alone. -/
def movImm (r : X86.Reg) (v : Word) : List Byte :=
  if v ≤ 0xffffffff then rex 0 0 0 r ++ e8 (0xb8 + (r.val &&& 7)) ++ e32 (v.setWidth 32)
  else if v = (v.setWidth 32).signExtend 64 then
    rex 1 0 0 r ++ e8 0xc7 ++ modrmReg 0 r ++ e32 (v.setWidth 32)
  else rex 1 0 0 r ++ e8 (0xb8 + (r.val &&& 7)) ++ e64 v

/-- add (ext 0) or sub (ext 5) r, imm32; `and_imm64` has ext 4 -/
def aluImm (ext : ℕ) (r : X86.Reg) (v : BitVec 32) : List Byte :=
  rex 1 0 0 r ++ e8 0x81 ++ modrmReg ext r ++ e32 v

/-! ## Jumps -/

def jcc32 (cc : ℕ) : List Byte := e8 0x0f ++ e8 (0x80 + cc) ++ e32 0
def jmp32 : List Byte := e8 0xe9 ++ e32 0
def jmpR (r : X86.Reg) : List Byte := rex 0 0 0 r ++ e8 0xff ++ modrmReg 4 r

/-- Leave with eip in r13 and the exit info in rbx. -/
def exitTo (eip : Word) (info : BitVec 32) : List Byte :=
  movImm r13 eip ++ movImm rbx (info.setWidth 64) ++ jmpR r12

end EmitterBytes
end SubleqEmu
