import SubleqEmu.BlockBuffersModel
import SubleqEmu.X86Execution

/-!
# The code of a block

What `translate` leaves in the code cache: the bytes it emits, with the jumps patched to
the places it has noted on the way.
-/

namespace SubleqEmu
namespace BlockCode

open X86 ByteMemory EmitterBytes BlockBuffers
open CopyLoop (insnAt)
open Machine (Insn Pending Precise Smc Stub bias)
open Translator (fitsDisp int32)

attribute [local instance] X86.neZero_sixteen BlockBuffers.neZero_eleven

/-- The places that jumps are patched to. -/
inductive Label
  | entry
  /-- past the call of `jit_copy` -/
  | none
  | budget
  | watch
  | inv
  | hoist
  | smc (k : ℕ)
  /-- past the check of a store -/
  | back (k : ℕ)
  | hit (k : ℕ)
  | stub (k : ℕ)
  /-- the displacement of a jump that is linked later -/
  | site (k : ℕ)
  | slow (k : ℕ)
  /-- what such a jump goes to -/
  | target (k : ℕ)
  deriving DecidableEq

abbrev Code := List (Piece Label)

/-- What the code of a block is made from. -/
structure Parts where
  host : Host
  useMovbe : Bool
  start : Word
  n : BitVec 32
  /-- the dwords of the bitmap tested on entry -/
  sites : List (Word × BitVec 32)
  /-- the loop that `jit_copy` is called for -/
  desc : Option Word
  body : List Insn

namespace Parts

variable (b : Parts)

/-- As emitted. -/
def bytes : List Byte := blockCode b.host b.useMovbe b.start b.n b.sites b.desc b.body

def stubs : List Stub := (b.desc.elim [] fun _ => [copyStub b.start]) ++ stubsOf b.body

/-! ## Before the instructions -/

def watchCompare (addr value : Word) : List Byte :=
  movImm rax (ByteMemory.bswap value) ++
    if fitsDisp addr then rex 1 rax 0 r15 ++ e8 0x39 ++ memOperand rax r15 (int32 (addr - bias))
    else movImm 1 addr ++ rex 1 rax 0 1 ++ e8 0x39 ++ memOperand rax 1 0

def groupBytes (g : Word × BitVec 32) : List Byte :=
  rex 0 0 0 r14 ++ e8 0xf7 ++ memOperand 0 r14 (int32 (g.1 <<< 2)) ++ e32 g.2

/-- The arguments of `jit_copy`, and its address. -/
def copyArguments (desc jitCopy : Word) : List Byte :=
  movImm 7 desc ++ movRr 6 5 ++ movImm rax jitCopy

def callRax : List Byte := e8 0xff ++ e8 0xd0

/-- imul rcx, rax, 19 -/
def timesNineteen : List Byte := e8 0x48 ++ e8 0x6b ++ e8 0xc8 ++ e8 19

def copyCode (desc : Word) : Code :=
  [.bytes (copyArguments desc b.host.jitCopy), .bytes callRax, .bytes (testRr rax rax)] ++
    jcc 0x4 .none ++
    [.bytes timesNineteen, .bytes (aluImm 5 1 19), .bytes (subRr 5 1), .bytes (testRr 2 2)] ++
    jcc 0x5 (.stub 0) ++ jmp .entry ++ [.label .none]

def entryCode : Code :=
  .label .entry :: .bytes (aluImm 5 5 b.n) :: jcc 0xc .budget

def watchCode : Code :=
  b.host.watch.elim [] fun w => .bytes (watchCompare w.1 w.2) :: jcc 0x5 .watch

def hoistCode : Code := b.sites.flatMap fun g => .bytes (groupBytes g) :: jcc 0x5 .hoist

/-! ## The instructions -/

/-- Jumps go to the next record of their kind. -/
def insnCode (k j : ℕ) : Insn → Code
  | .jnz _ => jcc 0x5 (.smc k) ++ [.label (.back k)]
  | .jle _ => jcc 0xe (.stub j)
  | .jmp _ => jmp (.stub j)
  | i => [.bytes (encode b.host.pageOff i)]

/-- With `k` checks and `j` exits before them. -/
def bodyCode : (k j : ℕ) → List Insn → Code
  | _, _, [] => []
  | k, j, i :: is =>
      b.insnCode k j i ++ bodyCode (k + (smcsOf [i]).length) (j + (stubsOf [i]).length) is

/-! ## Out of line -/

/-- The bitmap's qword and the bit of the word of a store. -/
def preciseLoad (q : Precise) (second : Bool) : List (List Byte) :=
  let rb := allocRegs q.rb
  let t1 := allocRegs q.t1
  let t2 := allocRegs q.t2
  [if second then opMem 0x8d t1 rb 7 else movRr t1 rb, shrRi t1 3, movRr t2 t1, shrRi t2 6,
    loadSib8 t2 r14 t2, btRr t2 t1]

def preciseCode (k : ℕ) (q : Precise) : Code :=
  (preciseLoad q false).map .bytes ++ jcc 0x2 (.hit k) ++ (preciseLoad q true).map .bytes ++
    jcc 0x2 (.hit k) ++ jmp (.back k) ++ [.label (.hit k)]

/-- A store held back, and the way out in front of the instruction. -/
def smcTail (s : Smc) : List (List Byte) :=
  [storeBytes b.host b.useMovbe s.pend none, giveBack (b.n - BitVec.ofNat 32 s.idx),
    movImm r13 (insnAt b.start s.idx), movImm rbx 1, jmpR r12]

def smcCode (k : ℕ) (s : Smc) : Code :=
  .label (.smc k) :: (s.precise.elim [] (preciseCode k)) ++ (b.smcTail s).map .bytes

def unexec (s : Stub) : BitVec 32 := b.n - BitVec.ofNat 32 s.idx - 1

/-- lea rbx, [rip + site] -/
def leaSite (target : Word) : List Byte :=
  e8 0x48 ++ e8 0x8d ++ e8 0x1d ++
    e32 (BitVec.ofInt 32 (-((movImm r13 target).length + 11)))

/-- The jump to a target that is linked, and what it goes to before. -/
def slowCode (k : ℕ) (target : Word) : Code :=
  [.bytes [BitVec.ofNat 8 0xe9], .label (.site k), .rel (.target k), .label (.slow k),
    .bytes (movImm r13 target), .bytes (leaSite target), .bytes (jmpR r12)]

def dynCode (s : Stub) : Code :=
  [.bytes (movRr r13 (allocRegs (s.creg.getD 0))), .bytes (movImm rbx 0), .bytes (jmpR r12)]

def stubStoreBytes (s : Stub) : List Byte :=
  storeBytes b.host b.useMovbe s.pend (if s.dyn then s.creg else none)

def stubCode (k : ℕ) (s : Stub) : Code :=
  [.label (.stub k), .bytes (b.stubStoreBytes s)] ++
    (if b.unexec s ≠ 0 then [.bytes (giveBack (b.unexec s))] else []) ++
    (if s.dyn then dynCode s else slowCode k s.target)

def exitCode (l : Label) (back : BitVec 32) (info : Word) : Code :=
  [.label l, .bytes (giveBack back), .bytes (movImm r13 b.start), .bytes (movImm rbx info),
    .bytes (jmpR r12)]

def invCode : Code :=
  [.label .inv, .bytes (movImm r13 b.start), .bytes (movImm rbx 0), .bytes (jmpR r12)]

/-- The records of one kind, numbered. -/
def numbered {α : Type} (f : ℕ → α → Code) : (k : ℕ) → List α → Code
  | _, [] => []
  | k, x :: xs => f k x ++ numbered f (k + 1) xs

def code : Code :=
  b.entryCode ++ b.watchCode ++ b.hoistCode ++ b.desc.elim [] b.copyCode ++
    b.bodyCode 0 (b.desc.elim 0 fun _ => 1) b.body ++ b.exitCode .budget b.n 0 ++
    b.host.watch.elim [] (fun _ => b.exitCode .watch b.n 3) ++ b.invCode ++
    (if b.sites = [] then [] else b.exitCode .hoist b.n 2) ++
    numbered b.smcCode 0 (smcsOf b.body) ++ numbered b.stubCode 0 b.stubs

end Parts

/-- Where a block is placed, its jumps that can be linked go to `targets`. -/
def place (code : Code) (base : Word) (targets : ℕ → Word) : Label → Word
  | .target k => targets k
  | l => (((labels base code).find? fun x => x.1 = l).map Prod.snd).getD 0

end BlockCode
end SubleqEmu
