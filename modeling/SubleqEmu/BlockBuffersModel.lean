import SubleqEmu.CopyGuardModel
import SubleqEmu.EmitterProcessor
import SubleqEmu.StaticMapModel

/-!
# What a block takes up

`translate` with all that it writes: the records of exits and checks, the hoisted words,
the record and the meta words of the block, and its code.
-/

namespace SubleqEmu
namespace BlockBuffers

open X86 ByteMemory EmitterBytes CopyGuard
open CopyLoop (matchCopy insnAt)
open Machine (Insn Pending Precise Smc Stub bias)
open Translator (Cache Source fitsDisp int32 stubStore translateBody)

theorem neZero_eleven : NeZero 11 := ⟨by decide⟩

attribute [local instance] X86.neZero_sixteen neZero_eleven

def codeSlack : ℕ := 256 * 1024

/-! ## The buffers of a CPU -/

structure Cpu where
  codeBase : ℕ
  codePtr : ℕ
  codeEnd : ℕ
  nblocks : ℕ
  maxBlocks : ℕ
  nmeta : ℕ
  maxMeta : ℕ
  deriving DecidableEq

/-- As `jit_init` leaves it. -/
def Cpu.init (codeBase : ℕ) (maxBlocks : Word) : Cpu where
  codeBase := codeBase
  codePtr := codeBase
  codeEnd := codeBase + 512 * maxBlocks.toNat
  nblocks := 0
  maxBlocks := maxBlocks.toNat
  nmeta := 0
  maxMeta := 16 * maxBlocks.toNat

def Cpu.flush (J : Cpu) : Cpu := { J with codePtr := J.codeBase, nblocks := 0, nmeta := 0 }

/-- Whether `translate` starts anew. -/
def Cpu.full (J : Cpu) : Bool :=
  J.codeEnd - J.codePtr < codeSlack || J.nblocks = J.maxBlocks ||
    J.nmeta + jitMaxBlock * 2 + 8 > J.maxMeta

/-- The place in `meta`, or NULL. -/
def metaAlloc (words : ℕ) (J : Cpu) : Option ℕ × Cpu :=
  if J.nmeta + words > J.maxMeta then (none, J)
  else (some J.nmeta, { J with nmeta := J.nmeta + words })

/-! ## Code -/

/-- What the code of a block has from outside it. -/
structure Host where
  pageOff : BitVec 32
  /-- the watched address and value, if there is one -/
  watch : Option (Word × Word)
  metaAddr : Word
  jitCopy : Word

def watchTest (addr value : Word) : List Byte :=
  movImm rax (ByteMemory.bswap value) ++
    (if fitsDisp addr then
      rex 1 rax 0 r15 ++ e8 0x39 ++ memOperand rax r15 (int32 (addr - bias))
    else movImm 1 addr ++ rex 1 rax 0 1 ++ e8 0x39 ++ memOperand rax 1 0) ++
    jcc32 0x5

/-- test dword [r14 + 4d], mask -/
def groupTest (g : Word × BitVec 32) : List Byte :=
  rex 0 0 0 r14 ++ e8 0xf7 ++ memOperand 0 r14 (int32 (g.1 <<< 2)) ++ e32 g.2 ++ jcc32 0x5

/-- The call of `jit_copy`, and what becomes of the budget after it. -/
def copyCall (desc jitCopy : Word) : List Byte :=
  movImm 7 desc ++ movRr 6 5 ++ movImm rax jitCopy ++ e8 0xff ++ e8 0xd0 ++ testRr rax rax ++
    jcc32 0x4 ++ e8 0x48 ++ e8 0x6b ++ e8 0xc8 ++ e8 19 ++ aluImm 5 1 19 ++ subRr 5 1 ++
    testRr 2 2 ++ jcc32 0x5 ++ jmp32

/-- The words of a store to a computed address, the first at it and the second 7 on. -/
def preciseTest (q : Precise) (second : Bool) : List Byte :=
  let rb := allocRegs q.rb
  let t1 := allocRegs q.t1
  let t2 := allocRegs q.t2
  (if second then opMem 0x8d t1 rb 7 else movRr t1 rb) ++ shrRi t1 3 ++ movRr t2 t1 ++
    shrRi t2 6 ++ loadSib8 t2 r14 t2 ++ btRr t2 t1 ++ jcc32 0x2

def storeBytes (host : Host) (useMovbe : Bool) (p : Pending) (keep : Option Machine.Reg) :
    List Byte :=
  code host.pageOff (stubStore useMovbe p keep)

/-- Giving instructions back to the budget, `add rbp, n`. -/
def giveBack (n : BitVec 32) : List Byte := aluImm 0 5 n

def smcStub (host : Host) (useMovbe : Bool) (start : Word) (n : BitVec 32) (s : Smc) :
    List Byte :=
  (match s.precise with
    | some q => preciseTest q false ++ preciseTest q true ++ jmp32
    | none => []) ++
    storeBytes host useMovbe s.pend none ++ giveBack (n - BitVec.ofNat 32 s.idx) ++
    exitTo (insnAt start s.idx) 1

/-- A jump that goes to what follows it until it is linked. -/
def slowPath (target : Word) : List Byte :=
  let eip := movImm r13 target
  jmp32 ++ eip ++ e8 0x48 ++ e8 0x8d ++ e8 0x1d ++ e32 (BitVec.ofInt 32 (-(eip.length + 11))) ++
    jmpR r12

def exitStub (host : Host) (useMovbe : Bool) (n : BitVec 32) (s : Stub) : List Byte :=
  let unexec := n - BitVec.ofNat 32 s.idx - 1
  storeBytes host useMovbe s.pend (if s.dyn then s.creg else none) ++
    (if unexec ≠ 0 then giveBack unexec else []) ++
    (if s.dyn then movRr r13 (allocRegs (s.creg.getD 0)) ++ movImm rbx 0 ++ jmpR r12
    else slowPath s.target)

def stubsOf (c : List Insn) : List Stub := c.filterMap fun i =>
  match i with
  | .jle s => some s
  | .jmp s => some s
  | _ => none

def smcsOf (c : List Insn) : List Smc := c.filterMap fun i =>
  match i with
  | .jnz s => some s
  | _ => none

/-- The stub of a copy loop that is done. -/
def copyStub (start : Word) : Stub := ⟨false, 18, start + 19 * 24, none, ⟨.none, 0⟩⟩

/-- The code of a block of `n` instructions, jumps not patched: tests on entry, the call
for a copy loop, the instructions, then what is out of line. -/
def blockCode (host : Host) (useMovbe : Bool) (start : Word) (n : BitVec 32)
    (sites : List (Word × BitVec 32)) (desc : Option Word) (body : List Insn) : List Byte :=
  aluImm 5 5 n ++ jcc32 0xc ++
    (host.watch.elim [] fun w => watchTest w.1 w.2) ++
    sites.flatMap groupTest ++
    (desc.elim [] fun d => copyCall d host.jitCopy) ++
    code host.pageOff body ++
    giveBack n ++ exitTo start 0 ++
    (host.watch.elim [] fun _ => giveBack n ++ exitTo start 3) ++
    exitTo start 0 ++
    (if sites = [] then [] else giveBack n ++ exitTo start 2) ++
    (smcsOf body).flatMap (smcStub host useMovbe start n) ++
    ((desc.elim [] fun _ => [copyStub start]) ++ stubsOf body).flatMap (exitStub host useMovbe n)

/-! ## Blocks -/

/-- What one call of `translate` writes. -/
structure Block where
  n : ℕ
  /-- its record in `blocks` -/
  record : ℕ
  written : Word → Bool
  hoist : List Word
  sites : List (Word × BitVec 32)
  stubs : List Stub
  smcs : List Smc
  /-- what `meta_alloc` returned -/
  metas : List (Option ℕ)
  codeAt : ℕ
  code : List Byte

/-- `translate` past its pass over the instructions, which found `n` of them and the
fields `written`; `loop` if `match_copy` did. -/
def emitBlock (v : View) (host : Host) (J : Cache) (cpu : Cpu) (start : Word) (loop : Bool)
    (n : ℕ) (written : Word → Bool) : Option (Block × Cpu) :=
  let copy := loop ∧ n = 19
  let hoist := hoistList v written start n
  let sites := StaticMap.groups [] hoist
  let src := sourceOf v start n written
  let (hoistMeta, cpu₁) := metaAlloc hoist.length cpu
  let (copyMeta, cpu₂) := if copy then metaAlloc 7 cpu₁ else (none, cpu₁)
  let desc := if copy then some (host.metaAddr + 8 * BitVec.ofNat 64 (copyMeta.getD 0)) else none
  (translateBody src start n J).map fun r =>
    let code := blockCode host J.useMovbe start (BitVec.ofNat 32 r.1) sites desc r.2.2
    ({ n := r.1
       record := cpu.nblocks
       written := written
       hoist := hoist
       sites := sites
       stubs := (desc.elim [] fun _ => [copyStub start]) ++ stubsOf r.2.2
       smcs := smcsOf r.2.2
       metas := hoistMeta :: if copy then [copyMeta] else []
       codeAt := cpu.codePtr
       code := code },
     { cpu₂ with
       nblocks := cpu.nblocks + 1
       codePtr := cpu.codePtr + code.length })

/-- Once there is room; after a flush no block is found. -/
def makeBlock (v : View) (host : Host) (J : Cache) (cpu : Cpu) (start : Word) :
    Option (Block × Cpu) :=
  let loop := (matchCopy v.size v.dynMap v.mem start).isSome
  (extentOf v start).bind fun e => emitBlock v host J cpu start loop e.1 e.2

/-- `translate`, from what the maps and memory hold and an empty cache; `none` also where its
pass never ends or `scratch` finds no register. -/
def translate (v : View) (host : Host) (J : Cache) (cpu : Cpu) (start : Word) :
    Option (Block × Cpu) :=
  if start &&& 7 ≠ 0 ∨ start + 24 > v.memSize then none
  else if cpu.full then makeBlock { v with found := fun _ => false } host J cpu.flush start
  else makeBlock v host J cpu start

end BlockBuffers
end SubleqEmu
